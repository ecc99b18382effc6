import MaximalMunch.Definitions.Resolution
import MaximalMunch.Proofs.Brackets
import Mathlib.Logic.Relation

/-!
References in a text, told by its positions. Going over the text from left to right, every brace
that is not escaped opens a reference, and the next reference is looked for behind its end.
-/

namespace MaximalMunch

/-- Reading goes on behind a character, or behind a reference as a whole. -/
inductive Passes (text : List Char) : Nat → Nat → Prop
  | char {position : Nat} (inside : position < text.length)
      (free : ¬ Bare text '\x7b' position) : Passes text position (position + 1)
  | reference {first last : Nat} (closed : Brackets.curly.Matched text first last) :
      Passes text first (last + 1)

/-- A position outside of all references that begin before it. -/
def Reached (text : List Char) (position : Nat) : Prop :=
  Relation.ReflTransGen (Passes text) 0 position

/-- A reference of the text has this name. -/
def Mentions (text : List Char) (name : String) : Prop :=
  ∃ first last, Reached text first ∧ Brackets.curly.Matched text first last ∧
    name = String.ofList (text.extract (first + 1) last)

/-- The brace opens a reference that does not end. -/
structure Unended (text : List Char) (position : Nat) : Prop where
  opens : Bare text '\x7b' position
  never : ∀ last, ¬ Brackets.curly.Matched text position last

/-- Every reference of the text ends. -/
def ClosedReferences (text : List Char) : Prop :=
  ∀ position, Reached text position → Bare text '\x7b' position →
    ∃ last, Brackets.curly.Matched text position last

section Behind

variable {front name rest : List Char}

theorem unended_length (complete : Complete front) (never : Brackets.curly.Unclosed rest) :
    Unended (front ++ '\x7b' :: rest) front.length := by
  refine ⟨(bare_length_iff complete).mpr rfl, ?_⟩
  intro last matched
  rcases (Brackets.matched_length_iff complete).mp matched with
    ⟨inside, after, split, balanced, -⟩
  exact never inside after split balanced

theorem matched_reference (complete : Complete front) (balanced : Brackets.curly.Balanced name)
    (rest : List Char) : Brackets.curly.Matched (front ++ '\x7b' :: (name ++ '\x7d' :: rest))
      front.length (front.length + 1 + name.length) :=
  (Brackets.matched_length_iff complete).mpr ⟨name, rest, rfl, balanced, rfl⟩

theorem complete_reference (balanced : Brackets.curly.Balanced name) :
    Complete ('\x7b' :: (name ++ ['\x7d'])) :=
  Brackets.curly.complete_opening.append
    (balanced.complete.append Brackets.curly.complete_closing)

theorem length_reference (front name : List Char) :
    (front ++ '\x7b' :: (name ++ ['\x7d'])).length = front.length + 1 + name.length + 1 := by
  rw [List.length_append, List.length_cons, List.length_append, List.length_singleton]
  omega

theorem append_reference (front name rest : List Char) :
    front ++ '\x7b' :: (name ++ ['\x7d']) ++ rest =
      front ++ '\x7b' :: (name ++ '\x7d' :: rest) := by
  simp

end Behind

/-- A text begins with a character, an escape, a whole reference or one that never ends. -/
@[elab_as_elim]
theorem reference_induction {motive : List Char → Prop} (empty : motive [])
    (dangling : motive ['\\'])
    (escape : ∀ char rest, motive rest → motive ('\\' :: char :: rest))
    (plain : ∀ char rest, char ≠ '\\' → char ≠ '\x7b' → motive rest → motive (char :: rest))
    (unended : ∀ rest, Brackets.curly.Unclosed rest → motive ('\x7b' :: rest))
    (reference : ∀ name rest, Brackets.curly.Balanced name → motive rest →
      motive ('\x7b' :: (name ++ '\x7d' :: rest)))
    (text : List Char) : motive text := by
  induction length : text.length using Nat.strong_induction_on generalizing text with
  | _ n ih
  match text with
  | [] => exact empty
  | char :: rest =>
      by_cases backslash : char = '\\'
      · subst backslash
        match rest with
        | [] => exact dangling
        | char :: rest =>
            have shorter : rest.length < n := by
              rw [← length, List.length_cons, List.length_cons]
              omega
            exact escape char rest (ih _ shorter rest rfl)
      by_cases brace : char = '\x7b'
      · subst brace
        by_cases never : Brackets.curly.Unclosed rest
        · exact unended rest never
        · unfold Brackets.Unclosed at never
          push Not at never
          rcases never with ⟨name, after, rfl, balanced⟩
          have shorter : after.length < n := by
            rw [← length, List.length_cons, List.length_append, List.length_cons]
            omega
          exact reference name after balanced (ih _ shorter after rfl)
      · have shorter : rest.length < n := length ▸ Nat.lt_succ_self rest.length
        exact plain char rest backslash brace (ih _ shorter rest rfl)

namespace Piece

variable {char : Char} {name rest : List Char}

theorem ofGlyphs_plain (position : Nat) (noEscape : char ≠ '\\') (noBrace : char ≠ '\x7b') :
    ofGlyphs position (Glyph.ofChars (char :: rest)) =
      .kept (.plain char) :: ofGlyphs (position + 1) (Glyph.ofChars rest) := by
  rw [Glyph.ofChars_plain _ noEscape, ofGlyphs, if_neg (by simp [noBrace])]
  rfl

@[simp]
theorem ofGlyphs_escape (position : Nat) (char : Char) (rest : List Char) :
    ofGlyphs position (Glyph.ofChars ('\\' :: char :: rest)) =
      .kept (.escaped char) :: ofGlyphs (position + 2) (Glyph.ofChars rest) := by
  rw [Glyph.ofChars, ofGlyphs, if_neg (by simp)]
  rfl

@[simp]
theorem ofGlyphs_dangling (position : Nat) :
    ofGlyphs position (Glyph.ofChars ['\\']) = [.kept .dangling] := by
  simp [Glyph.ofChars, ofGlyphs]

theorem ofGlyphs_unended (position : Nat) (never : Brackets.curly.Unclosed rest) :
    ofGlyphs position (Glyph.ofChars ('\x7b' :: rest)) = [.unclosed position] := by
  have missing : Glyph.splitClosing '\x7b' '\x7d' 0 (Glyph.ofChars rest) = none :=
    Brackets.splitClosing_eq_none_iff.mpr never
  rw [Glyph.ofChars_plain _ (by decide), ofGlyphs, if_pos rfl]
  split
  · rfl
  · simp_all

theorem ofGlyphs_reference (position : Nat) (balanced : Brackets.curly.Balanced name) :
    ofGlyphs position (Glyph.ofChars ('\x7b' :: (name ++ '\x7d' :: rest))) =
      .reference (String.ofList name) ::
        ofGlyphs (position + name.length + 2) (Glyph.ofChars rest) := by
  have found : Glyph.splitClosing '\x7b' '\x7d' 0 (Glyph.ofChars (name ++ '\x7d' :: rest)) =
      some (Glyph.ofChars name, Glyph.ofChars rest) :=
    Brackets.splitClosing_closing balanced rest
  rw [Glyph.ofChars_plain _ (by decide), ofGlyphs, if_pos rfl]
  split
  · simp_all
  · rename_i inside after cut
    rw [found] at cut
    cases cut
    simp

/-- What a piece that is not kept says of the place it was cut at. -/
def StandsAt (text : List Char) (place : Nat) : Piece → Prop
  | .kept _ => False
  | .reference name => ∃ last, Brackets.curly.Matched text place last ∧
      name = String.ofList (text.extract (place + 1) last)
  | .unclosed position => position = place ∧ Unended text place

/-- The piece stands at a place that reading gets to from the position. -/
def Ahead (text : List Char) (position : Nat) (piece : Piece) : Prop :=
  ∃ place, Relation.ReflTransGen (Passes text) position place ∧ piece.StandsAt text place

variable {text front : List Char} {position last : Nat} {piece : Piece}

theorem StandsAt.bare (stands : piece.StandsAt text position) : Bare text '\x7b' position := by
  cases piece with
  | kept glyph => exact absurd stands id
  | reference name =>
      rcases stands with ⟨last, matched, -⟩
      exact matched.opens
  | unclosed place => exact stands.2.opens

theorem ahead_iff : Ahead text position piece ↔
    piece.StandsAt text position ∨ ∃ next, Passes text position next ∧ Ahead text next piece := by
  constructor
  · intro ahead
    rcases ahead with ⟨place, path, stands⟩
    rcases path.cases_head with rfl | ⟨next, passes, path⟩
    · exact .inl stands
    · exact .inr ⟨next, passes, place, path, stands⟩
  · intro either
    rcases either with stands | ⟨next, passes, place, path, stands⟩
    · exact ⟨position, .refl, stands⟩
    · exact ⟨place, .head passes path, stands⟩

theorem ahead_of_char (inside : position < text.length) (free : ¬ Bare text '\x7b' position) :
    Ahead text position piece ↔ Ahead text (position + 1) piece := by
  rw [ahead_iff]
  constructor
  · intro either
    rcases either with stands | ⟨next, passes, ahead⟩
    · exact absurd stands.bare free
    · cases passes with
      | char => exact ahead
      | reference closed => exact absurd closed.opens free
  · intro ahead
    exact .inr ⟨_, .char inside free, ahead⟩

theorem ahead_of_reference (closed : Brackets.curly.Matched text position last) :
    Ahead text position piece ↔
      piece = .reference (String.ofList (text.extract (position + 1) last)) ∨
        Ahead text (last + 1) piece := by
  rw [ahead_iff]
  constructor
  · intro either
    rcases either with stands | ⟨next, passes, ahead⟩
    · left
      cases piece with
      | kept glyph => exact absurd stands id
      | reference name =>
          rcases stands with ⟨other, matched, rfl⟩
          rw [matched.unique closed]
      | unclosed place => exact absurd closed (stands.2.never last)
    · right
      cases passes with
      | char inside free => exact absurd closed.opens free
      | reference other => exact (other.unique closed) ▸ ahead
  · intro either
    rcases either with rfl | ahead
    · exact .inl ⟨last, closed, rfl⟩
    · exact .inr ⟨_, .reference closed, ahead⟩

theorem ahead_of_unended (unended : Unended text position) :
    Ahead text position piece ↔ piece = .unclosed position := by
  rw [ahead_iff]
  constructor
  · intro either
    rcases either with stands | ⟨next, passes, -⟩
    · cases piece with
      | kept glyph => exact absurd stands id
      | reference name =>
          rcases stands with ⟨last, matched, -⟩
          exact absurd matched (unended.never last)
      | unclosed place => rw [stands.1]
    · cases passes with
      | char inside free => exact absurd unended.opens free
      | reference closed => exact absurd closed (unended.never _)
  · rintro rfl
    exact .inl ⟨rfl, unended⟩

theorem not_ahead_of_end (outside : text.length ≤ position) : ¬ Ahead text position piece := by
  rw [ahead_iff]
  intro either
  rcases either with stands | ⟨next, passes, -⟩
  · exact absurd stands.bare.lt_length (Nat.not_lt.mpr outside)
  · cases passes with
    | char inside free => exact absurd inside (Nat.not_lt.mpr outside)
    | reference closed => exact absurd closed.opens.lt_length (Nat.not_lt.mpr outside)

theorem not_bare_escaped {other : Char} : ¬ Bare ('\\' :: char :: rest) other 1 := by
  intro bare
  apply bare.2
  simp [Escaped, trailingBackslashes]

@[simp]
theorem extract_inside (front name rest : List Char) :
    (front ++ '\x7b' :: (name ++ '\x7d' :: rest)).extract (front.length + 1)
      (front.length + 1 + name.length) = name := by
  rw [List.extract, Nat.add_sub_cancel_left, List.drop_length_add_append]
  simp

theorem mem_ofGlyphs_iff (cut : ∀ glyph, piece ≠ .kept glyph) (complete : Complete front)
    (rest : List Char) :
    piece ∈ ofGlyphs front.length (Glyph.ofChars rest) ↔
      Ahead (front ++ rest) front.length piece := by
  induction rest using reference_induction generalizing front with
  | empty =>
      have nothing : ¬ Ahead (front ++ []) front.length piece := not_ahead_of_end (by simp)
      simp only [Glyph.ofChars, ofGlyphs, List.not_mem_nil, nothing]
  | dangling =>
      have free : ¬ Bare (front ++ ['\\']) '\x7b' front.length := by
        rw [bare_length_iff complete]
        decide
      have nothing : ¬ Ahead (front ++ ['\\']) (front.length + 1) piece :=
        not_ahead_of_end (by simp)
      rw [ofGlyphs_dangling, List.mem_singleton, ahead_of_char (by simp) free]
      simp only [cut, nothing]
  | escape char rest ih =>
      have free : ¬ Bare (front ++ '\\' :: char :: rest) '\x7b' front.length := by
        rw [bare_length_iff complete]
        decide
      have escaped : ¬ Bare (front ++ '\\' :: char :: rest) '\x7b' (front.length + 1) := by
        rw [bare_append complete]
        exact not_bare_escaped
      have next := ih (complete.append (complete_escape char))
      rw [List.length_append, List.append_assoc] at next
      rw [ofGlyphs_escape, List.mem_cons, ahead_of_char (by simp) free,
        ahead_of_char (by simp) escaped]
      simp only [cut, false_or]
      exact next
  | plain char rest noEscape noBrace ih =>
      have free : ¬ Bare (front ++ char :: rest) '\x7b' front.length := by
        rw [bare_length_iff complete]
        exact noBrace
      have next := ih (complete.append (complete_singleton noEscape))
      rw [List.length_append, List.append_assoc] at next
      rw [ofGlyphs_plain _ noEscape noBrace, List.mem_cons, ahead_of_char (by simp) free]
      simp only [cut, false_or]
      exact next
  | unended rest never =>
      have unended := unended_length complete never
      rw [ofGlyphs_unended _ never, List.mem_singleton, ahead_of_unended unended]
  | reference name rest balanced ih =>
      have closed := matched_reference complete balanced rest
      have next := ih (complete.append (complete_reference balanced))
      have place : front.length + name.length + 2 = front.length + 1 + name.length + 1 := by omega
      rw [length_reference, append_reference] at next
      rw [ofGlyphs_reference _ balanced, List.mem_cons, place, next, ahead_of_reference closed,
        extract_inside]

theorem reference_mem_ofText {text name : String} :
    .reference name ∈ ofText text ↔ Mentions text.toList name := by
  have whole : .reference name ∈ ofText text ↔ Ahead text.toList 0 (.reference name) :=
    mem_ofGlyphs_iff (by simp) complete_nil text.toList
  rw [whole]
  constructor
  · intro ahead
    rcases ahead with ⟨place, reached, last, matched, same⟩
    exact ⟨place, last, reached, matched, same⟩
  · intro mentions
    rcases mentions with ⟨place, last, reached, matched, same⟩
    exact ⟨place, reached, last, matched, same⟩

theorem unclosed_mem_ofText {text : String} {position : Nat} :
    .unclosed position ∈ ofText text ↔
      Reached text.toList position ∧ Unended text.toList position := by
  have whole : .unclosed position ∈ ofText text ↔ Ahead text.toList 0 (.unclosed position) :=
    mem_ofGlyphs_iff (by simp) complete_nil text.toList
  rw [whole]
  constructor
  · intro ahead
    rcases ahead with ⟨place, reached, rfl, unended⟩
    exact ⟨reached, unended⟩
  · intro meets
    exact ⟨position, meets.1, rfl, meets.2⟩

theorem closedReferences_iff {text : String} :
    ClosedReferences text.toList ↔ ∀ position, .unclosed position ∉ ofText text := by
  constructor
  · intro closed position member
    rcases unclosed_mem_ofText.mp member with ⟨reached, unended⟩
    rcases closed position reached unended.opens with ⟨last, matched⟩
    exact unended.never last matched
  · intro absent position reached opens
    by_contra open'
    push Not at open'
    exact absent position (unclosed_mem_ofText.mpr ⟨reached, opens, open'⟩)

end Piece

end MaximalMunch
