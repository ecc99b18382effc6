/-!
Patterns are regular expressions over characters, as a pattern text denotes them.
-/

namespace MaximalMunch

inductive Pattern
  | symbol (char : Char)
  /-- The empty transition, written `$`. -/
  | nothing
  | star (inner : Pattern)
  | sequence (items : List Pattern)
  | choice (alternatives : List Pattern)
  deriving Repr

end MaximalMunch
