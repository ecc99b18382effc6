import MaximalMunch.Pattern.Basic
import MaximalMunch.Pattern.Error
import MaximalMunch.Pattern.Glyph

/-!
Reading a pattern text. `|` separates choices and binds loosest, then come sequences, and `*`
repeats the one atom before it. A `*` with no atom to repeat stands for itself, and may in turn
be repeated.
-/

namespace MaximalMunch

/-- One level of grouping while it is read. Choices and items are kept latest first. -/
structure Level where
  choices : List Pattern := []
  items : List Pattern := []
  /-- Whether the latest item is an atom that a `*` may still repeat. -/
  repeatable : Bool := false

namespace Level

def push (level : Level) (item : Pattern) : Level :=
  { level with items := item :: level.items, repeatable := true }

def star (level : Level) : Level :=
  match level.items, level.repeatable with
  | item :: items, true => { level with items := .star item :: items, repeatable := false }
  | _, _ => level.push (.symbol '*')

def bar (level : Level) : Level :=
  { choices := .sequence level.items.reverse :: level.choices }

/-- A single choice is read as its sequence, several as an alternation. -/
def close (level : Level) : Pattern :=
  let last := .sequence level.items.reverse
  match level.choices with
  | [] => last
  | choices => .choice (last :: choices).reverse

end Level

structure Draft where
  choices : List Pattern
  items : List Pattern
  alternation : Bool
  position : Nat
  kind : FaultKind
  deriving Repr

def Level.draft (level : Level) (moreChoices : Bool) (position : Nat) (kind : FaultKind) :
    Draft where
  choices := level.choices.reverse
  items := level.items.reverse
  alternation := moreChoices || !level.choices.isEmpty
  position := position
  kind := kind

/--
Whether a `|` outside groups is left in the text. Closing parentheses without partner bring the
depth below zero, and later ones without partner that open bring it back.
-/
def barFollows (depth : Int) : List Glyph → Bool
  | [] => false
  | .plain '(' :: rest => barFollows (depth + 1) rest
  | .plain ')' :: rest => barFollows (depth - 1) rest
  | .plain '|' :: rest => depth = 0 || barFollows depth rest
  | _ :: rest => barFollows depth rest

namespace Pattern

/-- The end of the text leaves the outermost open group as the leftmost fault. -/
def finish (enclosing : List (Nat × Level)) (whole : Except Draft Pattern) :
    Except Draft Pattern :=
  match enclosing.getLast? with
  | none => whole
  | some (opened, outermost) => .error (outermost.draft false opened .unclosedGroup)

/--
Reads glyphs from `position` on into `level`. `enclosing` holds the levels around it, innermost
first, each with the position of the parenthesis that interrupted it.
-/
def readFrom (position : Nat) (level : Level) (enclosing : List (Nat × Level)) :
    List Glyph → Except Draft Pattern
  | [] => finish enclosing (.ok level.close)
  | glyph :: rest =>
    let next := position + glyph.width
    match glyph with
    | .dangling => finish enclosing (.error (level.draft false position .danglingEscape))
    | .escaped char => readFrom next (level.push (.symbol (Glyph.unescape char))) enclosing rest
    | .plain '(' => readFrom next {} ((position, level) :: enclosing) rest
    | .plain ')' =>
      match enclosing with
      | [] => .error (level.draft (barFollows (-1) rest) position .unmatchedParen)
      | (_, above) :: enclosing => readFrom next (above.push level.close) enclosing rest
    | .plain '|' => readFrom next level.bar enclosing rest
    | .plain '*' => readFrom next level.star enclosing rest
    | .plain '$' => readFrom next (level.push .nothing) enclosing rest
    | .plain char => readFrom next (level.push (.symbol char)) enclosing rest

def read (text : String) : Except Draft Pattern :=
  readFrom 0 {} [] (Glyph.ofChars text.toList)

end Pattern

end MaximalMunch
