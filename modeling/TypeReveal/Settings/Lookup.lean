import TypeReveal.Disk.Basic
import TypeReveal.Settings.Basic

/-!
# Finding settings

Settings are read from a file that is named, or else from the file `basedtyping.toml` in the nearest
directory around the analysed file that has one.  A file that is named must be there and hold
settings; one that was found and does not is ignored, and no other is looked for in its place.

Which texts hold settings is for the reader to say (`Settings.Reader`).
-/

set_option autoImplicit false
namespace TypeReveal

/-- Why settings cannot be read. -/
inductive SettingsError where
  | unreadable (path : Path)
  /-- The file holds something else. -/
  | invalid (path : Path)
deriving DecidableEq, Repr

/-- What is reported about settings that cannot be read. -/
def SettingsError.message : SettingsError → String
  | unreadable path => "could not read " ++ path.text
  | invalid path => "invalid configuration in " ++ path.text

namespace Settings

/-- The name of settings files. -/
def fileName : String := "basedtyping.toml"

/-- The settings in a file of which the content is known, if the file could be read. -/
def ofContent [Reader] (path : Path) : Option (List Char) → Except SettingsError Settings
  | none => .error (.unreadable path)
  | some text =>
    match Reader.read? text with
    | none => .error (.invalid path)
    | some settings => .ok settings

variable {m : Type → Type} [Monad m] (disk : Disk m)

/-- The settings in a file. -/
def load [Reader] (path : Path) : m (Except SettingsError Settings) :=
  ofContent path <$> disk.read path

/-- The first settings file in some directories. -/
def findIn : List Path → m (Option Path)
  | [] => pure none
  | directory :: directories => do
    if ← disk.isFile (directory.file fileName) then return some (directory.file fileName)
    else findIn directories

/-- The settings file in the nearest directory around `start`. -/
def find (start : Path) : m (Option Path) := findIn disk start.ancestors

/-- The settings for a file, from the settings file `explicit?` if it is named. -/
def resolve [Reader] (file : Path) (explicit? : Option Path) :
    m (Except SettingsError Settings) := do
  match explicit? with
  | some path => load disk path
  | none =>
    match ← find disk (← disk.locate file.directory) with
    | none => return .ok {}
    | some path => return .ok ((← load disk path).toOption.getD {})

end Settings
end TypeReveal
