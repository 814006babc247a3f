import TypeReveal.Command.Run

/-!
# The command line

The command on the files of the machine it runs on.
-/

set_option autoImplicit false
namespace TypeReveal

/-- The files of the machine. -/
def machine : Disk IO where
  isFile path := do
    try
      let real ← IO.FS.realPath path.text
      return (← real.metadata).type == .file
    catch _ => return false
  read path := do
    try return some (← IO.FS.readFile path.text).toList
    catch _ => return none
  locate path := do
    let text := if path.text.isEmpty then "." else path.text
    try return ⟨(← IO.FS.realPath text).toString⟩
    catch _ => return path

end TypeReveal

open TypeReveal in
/-- Runs the command. -/
def main (args : List String) : IO UInt32 := do
  let result ← runCommand machine args
  IO.print (output result)
  match result with
  | .ok _ => pure ()
  | .error failure => IO.eprintln failure.message
  return (exitCode result).toUInt32
