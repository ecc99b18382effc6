import MaximalMunch.Proofs.PatternGrammar

/-!
Matching of brackets in texts with escapes, told by the positions of a text. A bracket with an odd
number of backslashes directly before it is escaped and matches nothing.
-/

namespace MaximalMunch

def trailingBackslashes (text : List Char) : Nat :=
  (text.reverse.takeWhile fun char => char = '\\').length

def Escaped (text : List Char) (position : Nat) : Prop :=
  trailingBackslashes (text.take position) % 2 = 1

/-- The character stands at the position and is not escaped. -/
def Bare (text : List Char) (char : Char) (position : Nat) : Prop :=
  text[position]? = some char ∧ ¬ Escaped text position

structure Brackets where
  opening : Char
  closing : Char
  distinct : opening ≠ closing
  opening_ne : opening ≠ '\\'
  closing_ne : closing ≠ '\\'

namespace Brackets

def round : Brackets := ⟨'(', ')', by decide, by decide, by decide⟩

def curly : Brackets := ⟨'\x7b', '\x7d', by decide, by decide, by decide⟩

/-- Every bracket of the text that is not escaped has its partner in the text. -/
inductive Balanced (brackets : Brackets) : List Char → Prop
  | empty : Balanced brackets []
  | plain {char : Char} {rest : List Char}
      (free : char ∉ ['\\', brackets.opening, brackets.closing])
      (later : Balanced brackets rest) : Balanced brackets (char :: rest)
  | escape (char : Char) {rest : List Char} (later : Balanced brackets rest) :
      Balanced brackets ('\\' :: char :: rest)
  | pair {inside rest : List Char} (inner : Balanced brackets inside)
      (later : Balanced brackets rest) :
      Balanced brackets (brackets.opening :: (inside ++ brackets.closing :: rest))

/-- The brackets at two positions belong together: what stands between them is balanced. -/
structure Matched (brackets : Brackets) (text : List Char) (first last : Nat) : Prop where
  opens : Bare text brackets.opening first
  closes : Bare text brackets.closing last
  before : first < last
  between : brackets.Balanced (text.extract (first + 1) last)

def Stands (brackets : Brackets) (text : List Char) (position : Nat) : Prop :=
  Bare text brackets.opening position ∨ Bare text brackets.closing position

def Paired (brackets : Brackets) (text : List Char) (position : Nat) : Prop :=
  ∃ other, brackets.Matched text position other ∨ brackets.Matched text other position

def Unmatched (brackets : Brackets) (text : List Char) (position : Nat) : Prop :=
  brackets.Stands text position ∧ ¬ brackets.Paired text position

end Brackets

/-- No escape is left open at the end of the text. -/
def Complete (text : List Char) : Prop := trailingBackslashes text % 2 = 0

section Escapes

variable {front rest : List Char} {char : Char} {position : Nat}

theorem trailingBackslashes_append_mod (complete : Complete front) :
    trailingBackslashes (front ++ rest) % 2 = trailingBackslashes rest % 2 := by
  unfold Complete trailingBackslashes at complete
  unfold trailingBackslashes
  rw [List.reverse_append, List.takeWhile_append]
  split
  case isTrue whole =>
    rw [List.length_append, whole]
    omega
  case isFalse => rfl

theorem complete_append_iff (complete : Complete front) :
    Complete (front ++ rest) ↔ Complete rest := by
  rw [Complete, trailingBackslashes_append_mod complete, Complete]

theorem Complete.append (complete : Complete front) (later : Complete rest) :
    Complete (front ++ rest) :=
  (complete_append_iff complete).mpr later

@[simp]
theorem complete_nil : Complete [] := rfl

theorem complete_singleton (free : char ≠ '\\') : Complete [char] := by
  simp [Complete, trailingBackslashes, free]

@[simp]
theorem complete_escape (char : Char) : Complete ['\\', char] := by
  by_cases backslash : char = '\\'
  · simp [Complete, trailingBackslashes, backslash]
  · simp [Complete, trailingBackslashes, backslash]

theorem escaped_append (complete : Complete front) :
    Escaped (front ++ rest) (front.length + position) ↔ Escaped rest position := by
  unfold Escaped
  rw [List.take_length_add_append, trailingBackslashes_append_mod complete]

theorem bare_append (complete : Complete front) :
    Bare (front ++ rest) char (front.length + position) ↔ Bare rest char position := by
  unfold Bare
  rw [escaped_append complete, List.getElem?_append_right (Nat.le_add_right _ _),
    Nat.add_sub_cancel_left]

theorem bare_append_left (inside : position < front.length) :
    Bare (front ++ rest) char position ↔ Bare front char position := by
  unfold Bare Escaped
  rw [List.take_append_of_le_length (Nat.le_of_lt inside), List.getElem?_append_left inside]

theorem Bare.lt_length (bare : Bare rest char position) : position < rest.length :=
  (List.getElem?_eq_some_iff.mp bare.1).1

theorem Bare.split (bare : Bare rest char position) :
    ∃ front after, rest = front ++ char :: after ∧ front.length = position ∧ Complete front := by
  rcases List.getElem?_eq_some_iff.mp bare.1 with ⟨inside, rfl⟩
  refine ⟨rest.take position, rest.drop (position + 1), ?_, ?_, ?_⟩
  · rw [← List.drop_eq_getElem_cons inside, List.take_append_drop]
  · exact List.length_take_of_le (Nat.le_of_lt inside)
  · have even := bare.2
    unfold Escaped at even
    unfold Complete
    omega

@[simp]
theorem bare_head_iff {first : Char} :
    Bare (first :: rest) char 0 ↔ first = char := by
  simp [Bare, Escaped, trailingBackslashes]

theorem bare_length_iff {first : Char} (complete : Complete front) :
    Bare (front ++ first :: rest) char front.length ↔ first = char := by
  have here : Bare (front ++ first :: rest) char (front.length + 0) ↔ _ := bare_append complete
  rw [Nat.add_zero, bare_head_iff] at here
  exact here

theorem trailingBackslashes_concat (front : List Char) (char : Char) :
    trailingBackslashes (front ++ [char]) =
      if char = '\\' then trailingBackslashes front + 1 else 0 := by
  unfold trailingBackslashes
  rw [List.reverse_append, List.reverse_singleton, List.singleton_append, List.takeWhile_cons]
  by_cases backslash : char = '\\' <;> simp [backslash]

theorem complete_concat (free : char ≠ '\\') : Complete (front ++ [char]) := by
  rw [Complete, trailingBackslashes_concat, if_neg free]

@[simp]
theorem not_escaped_zero (text : List Char) : ¬ Escaped text 0 := by
  rw [Escaped, List.take_zero]
  decide

theorem not_escaped_succ (stands : rest[position]? = some char) (free : char ≠ '\\') :
    ¬ Escaped rest (position + 1) := by
  rw [Escaped, List.take_add_one, stands, Option.toList_some, trailingBackslashes_concat,
    if_neg free]
  decide

theorem escaped_succ (stands : rest[position]? = some '\\') :
    Escaped rest (position + 1) ↔ ¬ Escaped rest position := by
  rw [Escaped, List.take_add_one, stands, Option.toList_some, trailingBackslashes_concat,
    if_pos rfl, Escaped]
  omega

theorem ofChars_append (complete : Complete front) (rest : List Char) :
    Glyph.ofChars (front ++ rest) = Glyph.ofChars front ++ Glyph.ofChars rest := by
  induction front using Glyph.escape_induction with
  | empty => rfl
  | dangling => cases complete
  | escape char later ih =>
      have behind := (complete_append_iff (complete_escape char)).mp complete
      rw [List.cons_append, List.cons_append, Glyph.ofChars, Glyph.ofChars, ih behind,
        List.cons_append]
  | plain char later noEscape ih =>
      have behind := (complete_append_iff (complete_singleton noEscape)).mp complete
      rw [List.cons_append, Glyph.ofChars_plain _ noEscape, Glyph.ofChars_plain _ noEscape,
        ih behind, List.cons_append]

theorem exists_eq_concat_of_not_complete (open' : ¬ Complete rest) :
    ∃ front, rest = front ++ ['\\'] ∧ Complete front := by
  rcases List.eq_nil_or_concat rest with rfl | ⟨front, char, rfl⟩
  · exact absurd complete_nil open'
  · rw [List.concat_eq_append] at open' ⊢
    by_cases backslash : char = '\\'
    · subst backslash
      refine ⟨front, rfl, ?_⟩
      rw [Complete, trailingBackslashes_concat, if_pos rfl] at open'
      rw [Complete]
      omega
    · exact absurd (complete_concat backslash) open'

end Escapes

namespace Brackets

variable {brackets : Brackets} {front rest inside text : List Char} {first last position : Nat}

theorem complete_opening (brackets : Brackets) : Complete [brackets.opening] :=
  complete_singleton brackets.opening_ne

theorem complete_closing (brackets : Brackets) : Complete [brackets.closing] :=
  complete_singleton brackets.closing_ne

namespace Balanced

theorem append (balanced : brackets.Balanced front) (later : brackets.Balanced rest) :
    brackets.Balanced (front ++ rest) := by
  induction balanced with
  | empty => exact later
  | plain free _ ih => exact .plain free ih
  | escape char _ ih => exact .escape char ih
  | pair inner _ _ ih =>
      rw [List.cons_append, List.append_assoc]
      exact .pair inner ih

theorem complete (balanced : brackets.Balanced text) : Complete text := by
  induction balanced with
  | empty => exact complete_nil
  | @plain char rest free later ih =>
      have noEscape : char ≠ '\\' := fun same => free (by simp [same])
      exact (complete_singleton noEscape).append ih
  | escape char later ih => exact (complete_escape char).append ih
  | pair inner later ihInner ihLater =>
      have closed := brackets.complete_closing.append ihLater
      exact brackets.complete_opening.append (ihInner.append closed)

theorem ofChars_append (balanced : brackets.Balanced front) (rest : List Char) :
    Glyph.ofChars (front ++ rest) = Glyph.ofChars front ++ Glyph.ofChars rest :=
  MaximalMunch.ofChars_append balanced.complete rest

theorem ofChars_pair (inner : brackets.Balanced inside) (rest : List Char) :
    Glyph.ofChars (brackets.opening :: (inside ++ brackets.closing :: rest)) =
      .plain brackets.opening ::
        (Glyph.ofChars inside ++ .plain brackets.closing :: Glyph.ofChars rest) := by
  rw [Glyph.ofChars_plain _ brackets.opening_ne, inner.ofChars_append,
    Glyph.ofChars_plain _ brackets.closing_ne]

/-- Cutting at a closing bracket passes over a balanced text at any depth. -/
theorem splitClosing_append (balanced : brackets.Balanced front) (depth : Nat)
    (rest : List Char) :
    Glyph.splitClosing brackets.opening brackets.closing depth (Glyph.ofChars (front ++ rest)) =
      (Glyph.splitClosing brackets.opening brackets.closing depth (Glyph.ofChars rest)).map
        fun cut => (Glyph.ofChars front ++ cut.1, cut.2) := by
  induction balanced generalizing depth rest with
  | empty => simp [Glyph.ofChars]
  | plain free later ih =>
      simp only [List.mem_cons, List.not_mem_nil, or_false, not_or] at free
      rcases free with ⟨noEscape, noOpening, noClosing⟩
      rw [List.cons_append, Glyph.ofChars_plain _ noEscape, Glyph.ofChars_plain _ noEscape]
      simp [Glyph.splitClosing, noOpening, noClosing, ih, Function.comp_def]
  | escape char later ih =>
      simp [Glyph.ofChars, Glyph.splitClosing, ih, Function.comp_def]
  | @pair inside after inner later ihInner ihLater =>
      have passed := ihInner (depth + 1) (brackets.closing :: (after ++ rest))
      rw [inner.ofChars_append, Glyph.ofChars_plain _ brackets.closing_ne, Glyph.splitClosing,
        if_pos rfl, ihLater] at passed
      rw [List.cons_append, List.append_assoc, List.cons_append, inner.ofChars_pair,
        inner.ofChars_pair]
      simp [Glyph.splitClosing, brackets.distinct, passed, Function.comp_def]

end Balanced

/-- No closing bracket belongs to an opening one right before the text. -/
def Unclosed (brackets : Brackets) (text : List Char) : Prop :=
  ∀ inside after, text = inside ++ brackets.closing :: after → ¬ brackets.Balanced inside

/-- A text is balanced up to its first bracket without partner, or up to a lone backslash. -/
inductive Shape (brackets : Brackets) : List Char → Prop
  | balanced {text : List Char} (whole : brackets.Balanced text) : Shape brackets text
  | closing {front : List Char} (before : brackets.Balanced front) (rest : List Char) :
      Shape brackets (front ++ brackets.closing :: rest)
  | opening {front rest : List Char} (before : brackets.Balanced front)
      (never : brackets.Unclosed rest) : Shape brackets (front ++ brackets.opening :: rest)
  | dangling {front : List Char} (before : brackets.Balanced front) :
      Shape brackets (front ++ ['\\'])

theorem Shape.prepend (balanced : brackets.Balanced front) (shape : brackets.Shape text) :
    brackets.Shape (front ++ text) := by
  cases shape with
  | balanced whole => exact .balanced (balanced.append whole)
  | closing before rest =>
      rw [← List.append_assoc]
      exact .closing (balanced.append before) rest
  | opening before never =>
      rw [← List.append_assoc]
      exact .opening (balanced.append before) never
  | dangling before =>
      rw [← List.append_assoc]
      exact .dangling (balanced.append before)

theorem shape (brackets : Brackets) (text : List Char) : brackets.Shape text := by
  match text with
  | [] => exact .balanced .empty
  | char :: rest =>
      by_cases escape : char = '\\'
      · subst escape
        match rest with
        | [] => exact .dangling .empty
        | char :: rest => exact Shape.prepend (.escape char .empty) (brackets.shape rest)
      by_cases closing : char = brackets.closing
      · subst closing
        exact .closing .empty rest
      by_cases opening : char = brackets.opening
      · subst opening
        by_cases never : brackets.Unclosed rest
        · exact .opening .empty never
        · unfold Unclosed at never
          push Not at never
          rcases never with ⟨inside, after, split, balanced⟩
          have shorter : after.length < rest.length := by simp [split]; omega
          have group := Shape.prepend (.pair balanced .empty) (brackets.shape after)
          simpa [split] using group
      · exact Shape.prepend (.plain (by simp [*]) .empty) (brackets.shape rest)
termination_by text.length
decreasing_by all_goals simp <;> omega

theorem splitClosing_of_unclosed (never : brackets.Unclosed text) (depth : Nat) :
    Glyph.splitClosing brackets.opening brackets.closing depth (Glyph.ofChars text) = none := by
  induction length : text.length using Nat.strong_induction_on generalizing text depth with
  | _ n ih
  cases brackets.shape text with
  | balanced whole =>
      rw [← List.append_nil text, whole.splitClosing_append]
      rfl
  | closing before rest => exact absurd before (never _ _ rfl)
  | @opening front rest before later =>
      have shorter : rest.length < n := by simp [← length]; omega
      have deeper := ih _ shorter later (depth + 1) rfl
      rw [before.splitClosing_append, Glyph.ofChars_plain _ brackets.opening_ne]
      simp [Glyph.splitClosing, brackets.distinct, deeper]
  | dangling before =>
      rw [before.splitClosing_append]
      rfl

theorem splitClosing_closing (balanced : brackets.Balanced inside) (rest : List Char) :
    Glyph.splitClosing brackets.opening brackets.closing 0
        (Glyph.ofChars (inside ++ brackets.closing :: rest)) =
      some (Glyph.ofChars inside, Glyph.ofChars rest) := by
  rw [balanced.splitClosing_append, Glyph.ofChars_plain _ brackets.closing_ne]
  simp [Glyph.splitClosing]

/-- The cut is at the closing bracket that ends a balanced text. -/
theorem splitClosing_eq_some_iff {cut after : List Glyph} :
    Glyph.splitClosing brackets.opening brackets.closing 0 (Glyph.ofChars text) =
        some (cut, after) ↔
      ∃ inside rest, text = inside ++ brackets.closing :: rest ∧ brackets.Balanced inside ∧
        cut = Glyph.ofChars inside ∧ after = Glyph.ofChars rest := by
  constructor
  · intro found
    by_cases never : brackets.Unclosed text
    · rw [splitClosing_of_unclosed never] at found
      cases found
    · unfold Unclosed at never
      push Not at never
      rcases never with ⟨inside, rest, rfl, balanced⟩
      rw [splitClosing_closing balanced] at found
      cases found
      exact ⟨inside, rest, rfl, balanced, rfl, rfl⟩
  · intro closed
    rcases closed with ⟨inside, rest, rfl, balanced, rfl, rfl⟩
    exact splitClosing_closing balanced rest

theorem splitClosing_eq_none_iff :
    Glyph.splitClosing brackets.opening brackets.closing 0 (Glyph.ofChars text) = none ↔
      brackets.Unclosed text := by
  constructor
  · intro missing inside after split balanced
    rw [split, splitClosing_closing balanced] at missing
    cases missing
  · intro never
    exact splitClosing_of_unclosed never 0

theorem Balanced.eq_of_closing {other otherRest : List Char} (balanced : brackets.Balanced inside)
    (otherBalanced : brackets.Balanced other)
    (same : inside ++ brackets.closing :: rest = other ++ brackets.closing :: otherRest) :
    inside = other := by
  have first := splitClosing_closing balanced rest
  rw [same, splitClosing_closing otherBalanced] at first
  have cut : Glyph.ofChars other = Glyph.ofChars inside := congrArg Prod.fst (Option.some.inj first)
  rw [← Glyph.text_ofChars inside, ← cut, Glyph.text_ofChars]

theorem matched_length_iff (complete : Complete front) :
    brackets.Matched (front ++ brackets.opening :: rest) front.length last ↔
      ∃ inside after, rest = inside ++ brackets.closing :: after ∧ brackets.Balanced inside ∧
        last = front.length + 1 + inside.length := by
  have complete' : Complete (front ++ [brackets.opening]) :=
    complete.append brackets.complete_opening
  have shape : front ++ brackets.opening :: rest = (front ++ [brackets.opening]) ++ rest := by
    simp
  have length : (front ++ [brackets.opening]).length = front.length + 1 := by simp
  constructor
  · intro matched
    have before := matched.before
    have closes := matched.closes
    have between := matched.between
    rcases Nat.exists_eq_add_of_le before with ⟨place, rfl⟩
    rw [Nat.succ_eq_add_one] at closes between ⊢
    rw [shape, ← length, bare_append complete'] at closes
    rw [shape, ← length, List.extract, Nat.add_sub_cancel_left, List.drop_left] at between
    rcases List.getElem?_eq_some_iff.mp closes.1 with ⟨inside, char⟩
    refine ⟨rest.take place, rest.drop (place + 1), ?_, between, ?_⟩
    · rw [← char, ← List.drop_eq_getElem_cons inside, List.take_append_drop]
    · rw [List.length_take_of_le (Nat.le_of_lt inside)]
  · intro closed
    rcases closed with ⟨inside, after, rfl, balanced, rfl⟩
    constructor
    · exact (bare_length_iff complete).mpr rfl
    · rw [shape, ← length, bare_append complete']
      exact (bare_length_iff balanced.complete).mpr rfl
    · omega
    · rw [shape, ← length, List.extract, Nat.add_sub_cancel_left, List.drop_left, List.take_left]
      exact balanced

theorem Matched.unique {other : Nat} (matched : brackets.Matched text first last)
    (also : brackets.Matched text first other) : last = other := by
  rcases matched.opens.split with ⟨front, rest, rfl, rfl, complete⟩
  rcases (matched_length_iff complete).mp matched with ⟨inside, after, rfl, balanced, rfl⟩
  rcases (matched_length_iff complete).mp also with ⟨inside', after', split, balanced', rfl⟩
  rw [balanced.eq_of_closing balanced' split]

theorem Matched.prepend (complete : Complete front) (matched : brackets.Matched rest first last) :
    brackets.Matched (front ++ rest) (front.length + first) (front.length + last) := by
  constructor
  · rw [bare_append complete]
    exact matched.opens
  · rw [bare_append complete]
    exact matched.closes
  · exact Nat.add_lt_add_left matched.before _
  · have between := matched.between
    rw [List.extract] at between
    rw [List.extract, Nat.add_assoc, List.drop_length_add_append, Nat.add_sub_add_left]
    exact between

theorem Matched.append (matched : brackets.Matched front first last) (rest : List Char) :
    brackets.Matched (front ++ rest) first last := by
  have inside := matched.closes.lt_length
  have before := matched.before
  constructor
  · rw [bare_append_left (Nat.lt_trans before inside)]
    exact matched.opens
  · rw [bare_append_left inside]
    exact matched.closes
  · exact before
  · have between := matched.between
    rw [List.extract] at between
    rw [List.extract, List.drop_append_of_le_length (by omega),
      List.take_append_of_le_length (by simp; omega)]
    exact between

theorem Paired.prepend (complete : Complete front) (paired : brackets.Paired rest position) :
    brackets.Paired (front ++ rest) (front.length + position) := by
  rcases paired with ⟨other, matched | matched⟩
  · exact ⟨_, .inl (matched.prepend complete)⟩
  · exact ⟨_, .inr (matched.prepend complete)⟩

theorem Paired.append (paired : brackets.Paired front position) (rest : List Char) :
    brackets.Paired (front ++ rest) position := by
  rcases paired with ⟨other, matched | matched⟩
  · exact ⟨other, .inl (matched.append rest)⟩
  · exact ⟨other, .inr (matched.append rest)⟩

theorem stands_append (complete : Complete front) :
    brackets.Stands (front ++ rest) (front.length + position) ↔
      brackets.Stands rest position := by
  rw [Stands, bare_append complete, bare_append complete, Stands]

theorem stands_append_left (inside : position < front.length) :
    brackets.Stands (front ++ rest) position ↔ brackets.Stands front position := by
  rw [Stands, bare_append_left inside, bare_append_left inside, Stands]

theorem Stands.lt_length (stands : brackets.Stands text position) : position < text.length := by
  rcases stands with opens | closes
  · exact opens.lt_length
  · exact closes.lt_length

theorem not_stands_singleton {char : Char} (opening : char ≠ brackets.opening)
    (closing : char ≠ brackets.closing) : ¬ brackets.Stands [char] position := by
  intro stands
  have first : position = 0 := Nat.lt_one_iff.mp stands.lt_length
  subst first
  rcases stands with opens | closes
  · exact opening (bare_head_iff.mp opens)
  · exact closing (bare_head_iff.mp closes)

theorem not_stands_escape {char : Char} : ¬ brackets.Stands ['\\', char] position := by
  intro stands
  have inside : position < 2 := stands.lt_length
  have escaped : Escaped ['\\', char] 1 := by simp [Escaped, trailingBackslashes]
  match position with
  | 0 =>
      rcases stands with opens | closes
      · exact brackets.opening_ne (bare_head_iff.mp opens).symm
      · exact brackets.closing_ne (bare_head_iff.mp closes).symm
  | 1 =>
      rcases stands with opens | closes
      · exact opens.2 escaped
      · exact closes.2 escaped

theorem Stands.paired_of_append (complete : Complete front)
    (inFront : brackets.Stands front position → brackets.Paired front position)
    (inRest : ∀ place, brackets.Stands rest place → brackets.Paired rest place)
    (stands : brackets.Stands (front ++ rest) position) :
    brackets.Paired (front ++ rest) position := by
  rcases Nat.lt_or_ge position front.length with inside | beyond
  · exact (inFront ((stands_append_left inside).mp stands)).append rest
  · rcases Nat.exists_eq_add_of_le beyond with ⟨place, rfl⟩
    exact (inRest place ((stands_append complete).mp stands)).prepend complete

theorem Stands.paired_of_pair (inner : brackets.Balanced inside)
    (inInside : ∀ place, brackets.Stands inside place → brackets.Paired inside place)
    (stands : brackets.Stands (brackets.opening :: (inside ++ [brackets.closing])) position) :
    brackets.Paired (brackets.opening :: (inside ++ [brackets.closing])) position := by
  have ends : brackets.Matched (brackets.opening :: (inside ++ [brackets.closing])) 0
      (0 + 1 + inside.length) :=
    (matched_length_iff complete_nil).mpr ⟨inside, [], rfl, inner, rfl⟩
  have length := stands.lt_length
  rw [List.length_cons, List.length_append, List.length_singleton] at length
  match position with
  | 0 => exact ⟨_, .inl ends⟩
  | place + 1 =>
      rcases Nat.lt_or_ge place inside.length with within | beyond
      · rw [Nat.add_comm] at stands ⊢
        have here := (stands_append brackets.complete_opening).mp stands
        have paired := inInside place ((stands_append_left within).mp here)
        exact (paired.append [brackets.closing]).prepend brackets.complete_opening
      · have last : place + 1 = 0 + 1 + inside.length := by omega
        rw [last]
        exact ⟨0, .inr ends⟩

theorem Balanced.paired (balanced : brackets.Balanced text) (position : Nat)
    (stands : brackets.Stands text position) : brackets.Paired text position := by
  induction balanced generalizing position with
  | empty => exact absurd stands.lt_length (Nat.not_lt_zero _)
  | @plain char rest free later ih =>
      simp only [List.mem_cons, List.not_mem_nil, or_false, not_or] at free
      rcases free with ⟨noEscape, noOpening, noClosing⟩
      exact Stands.paired_of_append (complete_singleton noEscape)
        (fun alone => absurd alone (not_stands_singleton noOpening noClosing)) ih stands
  | escape char later ih =>
      exact Stands.paired_of_append (complete_escape char)
        (fun alone => absurd alone not_stands_escape) ih stands
  | @pair inside rest inner later ihInner ihLater =>
      have shape : brackets.opening :: (inside ++ brackets.closing :: rest) =
          (brackets.opening :: (inside ++ [brackets.closing])) ++ rest := by simp
      have complete : Complete (brackets.opening :: (inside ++ [brackets.closing])) :=
        brackets.complete_opening.append (inner.complete.append brackets.complete_closing)
      rw [shape] at stands ⊢
      exact Stands.paired_of_append complete (Stands.paired_of_pair inner ihInner) ihLater stands

theorem Balanced.not_unmatched (balanced : brackets.Balanced front)
    (inside : position < front.length) : ¬ brackets.Unmatched (front ++ rest) position := by
  intro unmatched
  have stands := (stands_append_left inside).mp unmatched.1
  exact unmatched.2 ((balanced.paired position stands).append rest)

theorem unmatched_closing (balanced : brackets.Balanced front) (rest : List Char) :
    brackets.Unmatched (front ++ brackets.closing :: rest) front.length := by
  have stands : Bare (front ++ brackets.closing :: rest) brackets.closing front.length :=
    (bare_length_iff balanced.complete).mpr rfl
  refine ⟨.inr stands, ?_⟩
  intro paired
  rcases paired with ⟨other, matched | matched⟩
  · have same := matched.opens.1.symm.trans stands.1
    exact brackets.distinct (Option.some.inj same)
  · -- The partner has one already, within the balanced text before.
    have opens := (bare_append_left matched.before).mp matched.opens
    rcases balanced.paired other (.inl opens) with ⟨last, inFront | inFront⟩
    · have same := (inFront.append _).unique matched
      exact Nat.ne_of_lt inFront.closes.lt_length same
    · have same := inFront.closes.1.symm.trans opens.1
      exact brackets.distinct (Option.some.inj same).symm

theorem unmatched_opening (balanced : brackets.Balanced front) (never : brackets.Unclosed rest) :
    brackets.Unmatched (front ++ brackets.opening :: rest) front.length := by
  have stands : Bare (front ++ brackets.opening :: rest) brackets.opening front.length :=
    (bare_length_iff balanced.complete).mpr rfl
  refine ⟨.inl stands, ?_⟩
  intro paired
  rcases paired with ⟨other, matched | matched⟩
  · rcases (matched_length_iff balanced.complete).mp matched with ⟨inside, after, split, inner, -⟩
    exact never inside after split inner
  · have same := matched.closes.1.symm.trans stands.1
    exact brackets.distinct (Option.some.inj same).symm

end Brackets

theorem Derives.balanced {part : Part} {text : List Char} {patterns : List Pattern}
    (derived : Derives part text patterns) : Brackets.round.Balanced text := by
  induction derived with
  | @symbol char free =>
      have noMark : char ∉ ['\\', '(', ')'] := by
        simp only [reserved, List.mem_cons, List.not_mem_nil, or_false] at free ⊢
        tauto
      exact .plain noMark .empty
  | nothing => exact .plain (by decide) .empty
  | escape char => exact .escape char .empty
  | group inner ih => exact .pair ih .empty
  | empty => exact .empty
  | plain first later unstarred ihFirst ihLater => exact ihFirst.append ihLater
  | starred first later ihFirst ihLater => exact ihFirst.append (.plain (by decide) ihLater)
  | last only ih => exact ih
  | more first later ihFirst ihLater => exact ihFirst.append (.plain (by decide) ihLater)

end MaximalMunch
