/-!
Sets of characters given by ranges of code points.
-/

namespace MaximalMunch

def inRanges (ranges : List (Nat × Nat)) (char : Char) : Bool :=
  ranges.any fun range => range.1 ≤ char.toNat && char.toNat ≤ range.2

end MaximalMunch
