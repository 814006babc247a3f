import TypeReveal.Settings.Lookup

/-!
# Requests

What the command is asked for.  A request comes from the arguments of the command, and how they make
one is left open here: the command takes any `Request.Reader`.
-/

set_option autoImplicit false
namespace TypeReveal

/-- What the command is asked for. -/
structure Request where
  file : Path
  /-- The names of the declarations to show; if there are none, all are shown. -/
  names : List String := []
  /-- A mode that is asked for whatever the settings say. -/
  mode? : Option AnalysisMode := none
  noExtension : Bool := false
  /-- The file to read the settings from, instead of one that is searched for. -/
  settings? : Option Path := none
deriving DecidableEq, Repr

/-- A way to read the arguments of the command. -/
class Request.Reader where
  /-- The request that arguments make, if they make one. -/
  ofArgs? : List String → Option Request

end TypeReveal
