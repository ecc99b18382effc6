import MaximalMunch.Pattern.Error
import MaximalMunch.Pattern.Glyph

/-!
References to regular definitions in a pattern text. A brace that is not escaped opens a
reference, which ends at the brace closing it; the text between is the name. Expanding a
reference puts the body of its definition in parentheses.
-/

namespace MaximalMunch

inductive Piece
  | kept (glyph : Glyph)
  | reference (name : String)
  /-- A brace that nothing closes; the text after it is not looked at. -/
  | unclosed (position : Nat)
  deriving DecidableEq, Repr

namespace Piece

def ofGlyphs (position : Nat) : List Glyph → List Piece
  | [] => []
  | glyph :: rest =>
    if glyph = .plain '\x7b' then
      match found : Glyph.splitClosing '\x7b' '\x7d' 0 rest with
      | none => [.unclosed position]
      | some (inside, after) =>
        have : after.length < rest.length := by simp [Glyph.eq_of_splitClosing found]; omega
        let name := Glyph.text inside
        .reference (String.ofList name) :: ofGlyphs (position + name.length + 2) after
    else
      .kept glyph :: ofGlyphs (position + glyph.width) rest
termination_by glyphs => glyphs.length

def ofText (text : String) : List Piece := ofGlyphs 0 (Glyph.ofChars text.toList)

end Piece

section Expand

variable {m : Type → Type} [Monad m] [MonadExcept PatternError m]

/-- The text a piece stands for. `raw` is the text it was cut from. -/
def Piece.expand (body : String → m String) (raw : String) : Piece → m (List Char)
  | .kept glyph => return glyph.chars
  | .reference name => return '(' :: (← body name).toList ++ [')']
  | .unclosed position => throw (.malformed raw position .unclosedReference)

/-- Replaces the references of `text` by what `body` gives for their names, left to right. -/
def expandReferences (body : String → m String) (text : String) : m String := do
  let parts ← (Piece.ofText text).mapM (Piece.expand body text)
  return String.ofList parts.flatten

end Expand

end MaximalMunch
