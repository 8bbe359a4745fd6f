/-!
# Searching Text

## Main definitions

* `Text.hasPart`: Whether a text occurs in another.
-/

namespace Vouch

namespace Text

/-- Whether a list occurs in another without gaps. -/
def hasInfix (part : List Char) : List Char → Bool
  | [] => part.isEmpty
  | c :: cs => part.isPrefixOf (c :: cs) || hasInfix part cs

/-- Whether `part` occurs in `s`. -/
def hasPart (s part : String) : Bool :=
  hasInfix part.toList s.toList

end Text

end Vouch
