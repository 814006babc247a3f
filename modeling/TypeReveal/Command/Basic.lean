import TypeReveal.Command.Request
import TypeReveal.Reveal

/-!
# The command

The command reads the settings and the file and shows the types in it.  Options come before
settings.  It shows all lines or, if anything fails, none.

It is defined for any files (`Disk`), any way to read settings (`Settings.Reader`) and any way to
read its arguments (`Request.Reader`).
-/

set_option autoImplicit false
namespace TypeReveal

/-- Why the command fails. -/
inductive Failure where
  /-- The arguments make no request. -/
  | usage
  | settings (error : SettingsError)
  | unreadable (path : Path)
  | reveal (error : RevealError)
deriving DecidableEq, Repr

namespace Failure

/-- The exit code of a command that fails. -/
def exitCode : Failure → Nat
  | usage => 2
  | reveal (.parse (.crossedSeparators ..)) | reveal (.insideCharacter _) => 101
  | settings _ | unreadable _ | reveal (.parse _) => 1

/-- What is reported about a failure. -/
def message : Failure → String
  | usage =>
    "usage: reveal FILE [--name NAME]... [--mode MODE] [--no-extension] [--config PATH]"
  | settings error => error.message
  | unreadable path => "could not read " ++ path.text
  | reveal error => error.message

end Failure

/-- What to reveal by a request under some settings. -/
def Request.inquiry (request : Request) (settings : Settings) : Inquiry where
  names := request.names
  mode := request.mode?.getD settings.mode
  extension := settings.extension && !request.noExtension

/-- The lines that a request shows under some settings, for a file with a given content. -/
def Request.show (request : Request) (settings : Settings) :
    Option (List Char) → Except Failure (List String)
  | none => .error (.unreadable request.file)
  | some source => (reveal source (request.inquiry settings)).mapError .reveal

section

variable {m : Type → Type} [Monad m] (disk : Disk m)

/-- The lines that a request shows. -/
def Request.run [Settings.Reader] (request : Request) : m (Except Failure (List String)) := do
  match ← Settings.resolve disk request.file request.settings? with
  | .error e => return .error (.settings e)
  | .ok settings => return request.show settings (← disk.read request.file)

/-- The lines that the command shows. -/
def runCommand [Settings.Reader] [Request.Reader] (args : List String) :
    m (Except Failure (List String)) :=
  match Request.Reader.ofArgs? args with
  | none => pure (.error .usage)
  | some request => request.run disk

end

/-! ## Outcomes -/

/-- The exit code of a run. -/
def exitCode : Except Failure (List String) → Nat
  | .ok _ => 0
  | .error failure => failure.exitCode

/-- The output of a run: its lines, each with a line break. -/
def output : Except Failure (List String) → String
  | .ok lines => String.join (lines.map (· ++ "\n"))
  | .error _ => ""

end TypeReveal
