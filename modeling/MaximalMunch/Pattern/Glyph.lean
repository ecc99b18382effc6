/-!
Glyphs are the units of pattern text. A backslash takes the character after it along,
so a text is cut into glyphs from left to right and only its end can hold a lone backslash.
-/

namespace MaximalMunch

inductive Glyph
  | plain (char : Char)
  | escaped (char : Char)
  | dangling
  deriving DecidableEq, Repr

namespace Glyph

def ofChars : List Char → List Glyph
  | [] => []
  | ['\\'] => [.dangling]
  | '\\' :: char :: rest => .escaped char :: ofChars rest
  | char :: rest => .plain char :: ofChars rest

def chars : Glyph → List Char
  | .plain char => [char]
  | .escaped char => ['\\', char]
  | .dangling => ['\\']

def width (glyph : Glyph) : Nat := glyph.chars.length

def text (glyphs : List Glyph) : List Char := glyphs.flatMap chars

@[simp]
theorem text_ofChars (chars : List Char) : text (ofChars chars) = chars := by
  fun_induction ofChars chars with
  | case1 => rfl
  | case2 => rfl
  | case3 char rest ih => simpa [text, Glyph.chars] using ih
  | case4 char rest _ _ ih => simpa [text, Glyph.chars] using ih

def unescape : Char → Char
  | 't' => '\t'
  | 'n' => '\n'
  | '_' => ' '
  | '0' => '\x00'
  | char => char

/--
Cuts at the glyph that closes an opening already passed, skipping inner pairs. `depth`
counts the inner openings that still wait for their closing.
-/
def splitClosing (opening closing : Char) (depth : Nat) :
    List Glyph → Option (List Glyph × List Glyph)
  | [] => none
  | glyph :: rest =>
    if glyph = .plain closing then
      match depth with
      | 0 => some ([], rest)
      | depth + 1 =>
        (splitClosing opening closing depth rest).map fun cut => (glyph :: cut.1, cut.2)
    else
      let inner := if glyph = .plain opening then depth + 1 else depth
      (splitClosing opening closing inner rest).map fun cut => (glyph :: cut.1, cut.2)

theorem eq_of_splitClosing {opening closing : Char} {depth : Nat}
    {glyphs inside after : List Glyph}
    (found : splitClosing opening closing depth glyphs = some (inside, after)) :
    glyphs = inside ++ .plain closing :: after := by
  fun_induction splitClosing opening closing depth glyphs generalizing inside with
  | case1 => simp at found
  | case2 => simp_all
  | case3 rest depth ih =>
    obtain ⟨⟨inner, tail⟩, foundInner, same⟩ := Option.map_eq_some_iff.mp found
    obtain ⟨rfl, rfl⟩ := Prod.mk.inj same
    simp [ih foundInner]
  | case4 =>
    rename_i ih
    obtain ⟨⟨inner, tail⟩, foundInner, same⟩ := Option.map_eq_some_iff.mp found
    obtain ⟨rfl, rfl⟩ := Prod.mk.inj same
    simp [ih foundInner]

end Glyph

end MaximalMunch
