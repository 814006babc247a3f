import TypeReveal.Text.Basic

/-!
# The text of a quoted signature

A string in an annotation may hold the signature of a callable, `(int, str) -> bool`, with or
without `def` in front.  `isSignature` tests the shape; `signatureParts?` cuts the text at its
**first** arrow into the parameter list and the result.
-/

set_option autoImplicit false
namespace TypeReveal

/-- The arrow between parameters and result. -/
def arrow : List Char := ['-', '>']

/-- Whether a text has the shape `(...) -> R` or `def (...) -> R`. -/
def isSignature (text : List Char) : Bool :=
  let text := trim text
  ("def (".toList.isPrefixOf text || ['('].isPrefixOf text) && (indexOf? arrow text).isSome

/-- The parameter list and the result of a signature, cut at the first arrow; `def` is dropped. -/
def signatureParts? (text : List Char) : Option (List Char × List Char) :=
  (splitAt? arrow (trim text)).map fun (params, result) =>
    let params := trim params
    (trim ((dropStart? "def".toList params).getD params), trim result)

end TypeReveal
