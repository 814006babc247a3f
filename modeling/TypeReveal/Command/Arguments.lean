import TypeReveal.Command.Request
import TypeReveal.Text.Basic

/-!
# Arguments

A reader of requests (`Request.ofArgs?`): the arguments are `reveal FILE` with options before or
after the file.

* `--name NAME` shows only declarations of that name, and of others named so.
* `--mode MODE` and `--config PATH` may be given once.
* `--no-extension` may be given once and takes no value.

A value follows its option as the next argument, or in the same one after an equals sign.  After
`--` no more options follow.
-/

set_option autoImplicit false
namespace TypeReveal

/-- The arguments read so far. -/
structure Arguments where
  file? : Option Path := none
  names : List String := []
  mode? : Option AnalysisMode := none
  noExtension : Bool := false
  settings? : Option Path := none
deriving Repr

/-- An option and the value given with it, if the argument holds one. -/
def splitOption (arg : String) : String × Option String :=
  match splitAt? ['='] arg.toList with
  | some (name, value) => (String.ofList name, some (String.ofList value))
  | none => (arg, none)

/-- Whether an argument looks like an option. -/
def isOption (arg : String) : Bool :=
  match arg.toList with
  | '-' :: _ :: _ => true
  | _ => false

/-- A path that is not empty. -/
def path? (text : String) : Option Path := if text.isEmpty then none else some ⟨text⟩

namespace Arguments

/-- Arguments with a file. -/
def setFile? (args : Arguments) (text : String) : Option Arguments :=
  match args.file? with
  | some _ => none
  | none => (path? text).map fun file => { args with file? := some file }

/-- Arguments with an option and its value. -/
def setValue? (args : Arguments) (option value : String) : Option Arguments :=
  match option with
  | "--name" => some { args with names := args.names ++ [value] }
  | "--mode" =>
    if args.mode?.isSome then none
    else (AnalysisMode.ofName? value).map fun mode => { args with mode? := some mode }
  | "--config" =>
    if args.settings?.isSome then none
    else (path? value).map fun path => { args with settings? := some path }
  | _ => none

/-- Whether an option takes a value. -/
def takesValue (option : String) : Bool :=
  option == "--name" || option == "--mode" || option == "--config"

/-- Arguments with the remaining arguments, none of which is an option. -/
def addFiles? (args : Arguments) (rest : List String) : Option Arguments :=
  rest.foldlM setFile? args

/-- Arguments with the remaining arguments; the first of them is the value of the option
`pending?`, if there is one. -/
def add? (args : Arguments) (pending? : Option String) : List String → Option Arguments
  | [] => if pending?.isSome then none else some args
  | arg :: rest =>
    match pending? with
    | some option =>
      if isOption arg then none
      else (args.setValue? option arg).bind fun args => add? args none rest
    | none =>
      if arg = "--" then args.addFiles? rest
      else if arg = "--no-extension" then
        if args.noExtension then none else add? { args with noExtension := true } none rest
      else if isOption arg then
        match splitOption arg with
        | (option, some value) =>
          (args.setValue? option value).bind fun args => add? args none rest
        | (option, none) => if takesValue option then add? args (some option) rest else none
      else (args.setFile? arg).bind fun args => add? args none rest

/-- The request that arguments make, if they name a file. -/
def request? (args : Arguments) : Option Request :=
  args.file?.map fun file =>
    { file, names := args.names, mode? := args.mode?, noExtension := args.noExtension,
      settings? := args.settings? }

end Arguments

/-- The request that the arguments of the command make. -/
def Request.ofArgs? : List String → Option Request
  | "reveal" :: args => (Arguments.add? {} none args).bind Arguments.request?
  | _ => none

end TypeReveal
