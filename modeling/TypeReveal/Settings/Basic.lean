import TypeReveal.Inference.Provider

/-!
# Settings

The settings of an analysis.  They are read from the text of a file, and how a text makes settings
is left open here: what looks settings up and what runs under them takes any `Settings.Reader`.
-/

set_option autoImplicit false
namespace TypeReveal

/-- The settings of an analysis, with the ones that hold where nothing is set. -/
structure Settings where
  mode : AnalysisMode := .codeAnalysis
  /-- Whether annotations are read in their extended meaning. -/
  extension : Bool := true
deriving DecidableEq, Repr

/-- A way to read settings. -/
class Settings.Reader where
  /-- The settings that a text makes, if it makes any. -/
  read? : List Char → Option Settings

/-- The mode with a given name in settings and options. -/
def AnalysisMode.ofName? (name : String) : Option AnalysisMode :=
  match name with
  | "code-analysis" => some .codeAnalysis
  | "user-initiated" => some .userInitiated
  | _ => none

end TypeReveal
