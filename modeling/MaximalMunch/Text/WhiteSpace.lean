import MaximalMunch.Text.Range

/-!
White space as Unicode's property White_Space has it, and cutting text at it.
-/

namespace MaximalMunch

/-- First and last code point of each range with the property White_Space. -/
def whiteSpaceRanges : List (Nat × Nat) :=
  [(0x9, 0xD), (0x20, 0x20), (0x85, 0x85), (0xA0, 0xA0), (0x1680, 0x1680), (0x2000, 0x200A),
    (0x2028, 0x2029), (0x202F, 0x202F), (0x205F, 0x205F), (0x3000, 0x3000)]

def isWhiteSpace (char : Char) : Bool := inRanges whiteSpaceRanges char

def isBlank (chars : List Char) : Bool := chars.all isWhiteSpace

def trimStart (chars : List Char) : List Char := chars.dropWhile isWhiteSpace

def trim (chars : List Char) : List Char := (trimStart (trimStart chars).reverse).reverse

def words : List Char → List (List Char)
  | [] => []
  | char :: rest =>
    if isWhiteSpace char then words rest
    else if (rest.head?.map isWhiteSpace).getD true then [char] :: words rest
    else (words rest).modifyHead (char :: ·)

end MaximalMunch
