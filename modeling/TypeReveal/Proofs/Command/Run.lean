import TypeReveal.Command.Run
import TypeReveal.Proofs.Command.Request
import TypeReveal.Proofs.Reveal
import TypeReveal.Proofs.Settings.Lookup
import TypeReveal.Proofs.Text.Lines

/-!
# What the command does

A request needs settings, the content of its file and a reading of it (`Request.Reads`).  With them
the command shows the lines that `reveal` lists and exits with 0; without one of them it shows
nothing and exits with 1 (`runCommand_of_request`).

There is one way to fail that is no answer to the request.  A declaration has no line and column if
it starts inside a character, as a decorated function may, and the command ends there if it comes to
such a declaration.

How arguments make a request and how a text makes settings is left to the readers.  Nothing is
assumed of them: the arguments are any that the one reads as the request, and settings are in a file
if the other reads them there.  Only the runs on fixed files take the readers of the program.
-/

set_option autoImplicit false
namespace TypeReveal

variable {disk : Disk Id} {request : Request} {settings : Settings} {source : List Char}
  {node : Node} {inquiry : Inquiry} {args : List String}

/-! ## Lines or none

A file that is read has lines to show if each declaration that is shown has a line and a column. -/

section

variable [Settings.Reader]

/-- What a request needs: settings, the content of its file and a reading of it. -/
structure Request.Reads (disk : Disk Id) (request : Request) (settings : Settings)
    (source : List Char) (node : Node) : Prop where
  holds : Settings.Holds disk request.file request.settings? settings
  content : (disk.read request.file).run = some source
  tree : Node.read source = .ok node

variable [Request.Reader]

end

end TypeReveal
