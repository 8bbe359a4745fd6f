/-!
# Choosing Unused Names

Binders are renamed when a name they bind would capture a variable. The new
name is the old one with a mark and a number, the smallest number that is not
taken. One more candidate than there are taken names is always enough.

## Main definitions

* `freshNumbered`: The new name.
-/

namespace Vouch

/-- The first of `base ++ mark ++ "0"`, `base ++ mark ++ "1"`, … that is not
    taken. -/
def freshNumbered (base mark : String) (taken : List String) : String :=
  let candidates := (List.range (taken.length + 1)).map fun k => base ++ mark ++ toString k
  (candidates.find? (!taken.contains ·)).getD (base ++ mark)

end Vouch
