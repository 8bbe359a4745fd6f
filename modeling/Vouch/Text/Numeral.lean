/-!
# Decimal Numerals

Numbers as they are written in settings: decimal digits, with a sign if one
likes, and nothing else. Superfluous zeros are allowed.

## Main definitions

* `Text.word64?`: A number that fits in 64 bits.
-/

namespace Vouch

namespace Text

/-- The number written by decimal digits, of which there must be one. -/
def digits? (cs : List Char) : Option Nat :=
  if cs.isEmpty || !cs.all Char.isDigit then none
  else some (cs.foldl (fun n c => 10 * n + (c.toNat - 48)) 0)

/-- A number without a minus sign. -/
def natural? (s : String) : Option Nat :=
  match s.toList with
  | '+' :: cs => digits? cs
  | cs => digits? cs

/-- A number with any sign. -/
def integer? (s : String) : Option Int :=
  match s.toList with
  | '-' :: cs => (digits? cs).map fun n => -(n : Int)
  | _ => (natural? s).map Int.ofNat

/-- A number that fits in 64 bits. -/
def word64? (s : String) : Option Nat :=
  (natural? s).filter (· < UInt64.size)

end Text

end Vouch
