/-!
Cutting a text into lines. A line feed ends a line, and a carriage return before it belongs to
the line end.
-/

namespace MaximalMunch

def lines : List Char → List (List Char)
  | [] => []
  | '\n' :: rest => [] :: lines rest
  | '\r' :: '\n' :: rest => [] :: lines rest
  | char :: rest =>
    match lines rest with
    | [] => [[char]]
    | line :: later => (char :: line) :: later

def dropReturn (line : List Char) : List Char :=
  if line.getLast? = some '\r' then line.dropLast else line

structure Line where
  number : Nat
  text : List Char
  deriving DecidableEq, Repr

/-- All lines of a text; a carriage return left at the end of one is dropped. -/
def numberedLines (text : List Char) : List Line :=
  (lines text).zipIdx.map fun (line, index) => ⟨index + 1, dropReturn line⟩

end MaximalMunch
