import MaximalMunch.Proofs.Brackets

/-!
Pattern texts looked at by positions. Reading cuts a text into glyphs, so that an escape takes the
character behind it along; here the backslashes before a position are counted backwards, and
brackets with a depth. Every place in a text is checked before it is used, and an access that
fails stops with a stumble.
-/

namespace MaximalMunch

/-- An access that fails, or a loop that comes no closer to its end. -/
inductive Stumble
  | noCharacter (position : Nat)
  | noSlice (start stop : Nat)
  | negativeDepth (position : Nat)
  | noNode (id : Nat)
  | endless (position : Nat)
  deriving DecidableEq, Repr

instance (text : List Char) (position : Nat) : Decidable (Escaped text position) :=
  inferInstanceAs (Decidable (_ = _))

namespace Positional

def charAt (text : List Char) (position : Nat) : Except Stumble Char :=
  match text[position]? with
  | some char => .ok char
  | none => .error (.noCharacter position)

def slice (text : List Char) (start stop : Nat) : Except Stumble (List Char) :=
  if start ≤ stop ∧ stop ≤ text.length then .ok (text.extract start stop)
  else .error (.noSlice start stop)

def isEscaped (text : List Char) (position : Nat) : Except Stumble Bool := do
  let before ← slice text 0 position
  return trailingBackslashes before % 2 = 1

def shallower (depth position : Nat) : Except Stumble Nat :=
  match depth with
  | 0 => .error (.negativeDepth position)
  | outer + 1 => .ok outer

/-- Goes on with `depth` brackets open, until the last of them is closed. -/
def findClosingFrom (brackets : Brackets) (text : List Char) (depth position : Nat) :
    Except Stumble (Option Nat) := do
  if position < text.length then
    let char ← charAt text position
    if ← isEscaped text position then findClosingFrom brackets text depth (position + 1)
    else if char = brackets.opening then
      findClosingFrom brackets text (depth + 1) (position + 1)
    else if char = brackets.closing then
      let outer ← shallower depth position
      if outer = 0 then return some position
      else findClosingFrom brackets text outer (position + 1)
    else findClosingFrom brackets text depth (position + 1)
  else return none
termination_by text.length - position

def findClosing (brackets : Brackets) (text : List Char) (opening : Nat) :
    Except Stumble (Option Nat) :=
  findClosingFrom brackets text 0 opening

/-- Goes on with the choice that begins at `start`. -/
def splitChoicesFrom (text : List Char) (depth : Int) (start position : Nat) :
    Except Stumble (List (Nat × Nat)) := do
  if position < text.length then
    let char ← charAt text position
    if ← isEscaped text position then splitChoicesFrom text depth start (position + 1)
    else if char = '(' then splitChoicesFrom text (depth + 1) start (position + 1)
    else if char = ')' then splitChoicesFrom text (depth - 1) start (position + 1)
    else if char = '|' ∧ depth = 0 then
      let later ← splitChoicesFrom text depth (position + 1) (position + 1)
      return (start, position) :: later
    else splitChoicesFrom text depth start (position + 1)
  else return [(start, text.length)]
termination_by text.length - position

def splitChoices (text : List Char) : Except Stumble (List (Nat × Nat)) :=
  splitChoicesFrom text 0 0 0

variable {text front rest : List Char} {char : Char} {start stop position : Nat}

@[simp]
theorem charAt_length (front : List Char) (char : Char) (rest : List Char) :
    charAt (front ++ char :: rest) front.length = .ok char := by
  simp [charAt]

theorem lt_length_of_charAt (stands : charAt text position = .ok char) :
    position < text.length := by
  apply Nat.lt_of_not_le
  intro outside
  rw [charAt, List.getElem?_eq_none outside] at stands
  cases stands

theorem slice_eq (ordered : start ≤ stop) (inside : stop ≤ text.length) :
    slice text start stop = .ok (text.extract start stop) :=
  if_pos ⟨ordered, inside⟩

theorem isEscaped_eq (inside : position ≤ text.length) :
    isEscaped text position = .ok (decide (Escaped text position)) := by
  rw [isEscaped, slice_eq (Nat.zero_le _) inside]
  rfl

theorem isEscaped_length (complete : Complete front) (rest : List Char) :
    isEscaped (front ++ rest) front.length = .ok false := by
  have free : ¬ Escaped (front ++ rest) front.length := by
    rw [← Nat.add_zero front.length, escaped_append complete]
    exact not_escaped_zero rest
  rw [isEscaped_eq (by simp), decide_eq_false free]

theorem isEscaped_behind (complete : Complete front) (rest : List Char) :
    isEscaped (front ++ '\\' :: rest) (front.length + 1) = .ok true := by
  have escaped : Escaped (front ++ '\\' :: rest) (front.length + 1) := by
    rw [escaped_append complete]
    simp [Escaped, trailingBackslashes]
  rw [isEscaped_eq (by simp), decide_eq_true escaped]

section Closing

variable {brackets : Brackets} {depth : Nat}

@[simp]
theorem findClosingFrom_length (brackets : Brackets) (text : List Char) (depth : Nat) :
    findClosingFrom brackets text depth text.length = .ok none := by
  rw [findClosingFrom, if_neg (Nat.lt_irrefl _)]
  rfl

theorem findClosingFrom_plain (complete : Complete front) (opening : char ≠ brackets.opening)
    (closing : char ≠ brackets.closing) (rest : List Char) (depth : Nat) :
    findClosingFrom brackets (front ++ char :: rest) depth front.length =
      findClosingFrom brackets (front ++ char :: rest) depth (front.length + 1) := by
  rw [findClosingFrom, if_pos (by simp), charAt_length, isEscaped_length complete]
  simp [opening, closing, bind, Except.bind]

theorem findClosingFrom_opening (complete : Complete front) (rest : List Char) (depth : Nat) :
    findClosingFrom brackets (front ++ brackets.opening :: rest) depth front.length =
      findClosingFrom brackets (front ++ brackets.opening :: rest) (depth + 1)
        (front.length + 1) := by
  rw [findClosingFrom, if_pos (by simp), charAt_length, isEscaped_length complete]
  simp [bind, Except.bind]

theorem findClosingFrom_inner (complete : Complete front) (rest : List Char) (depth : Nat) :
    findClosingFrom brackets (front ++ brackets.closing :: rest) (depth + 2) front.length =
      findClosingFrom brackets (front ++ brackets.closing :: rest) (depth + 1)
        (front.length + 1) := by
  rw [findClosingFrom, if_pos (by simp), charAt_length, isEscaped_length complete]
  simp [brackets.distinct.symm, shallower, bind, Except.bind]

theorem findClosingFrom_last (complete : Complete front) (rest : List Char) :
    findClosingFrom brackets (front ++ brackets.closing :: rest) 1 front.length =
      .ok (some front.length) := by
  rw [findClosingFrom, if_pos (by simp), charAt_length, isEscaped_length complete]
  simp [brackets.distinct.symm, shallower, bind, Except.bind, pure, Except.pure]

theorem findClosingFrom_escape (complete : Complete front) (char : Char) (rest : List Char)
    (depth : Nat) :
    findClosingFrom brackets (front ++ '\\' :: char :: rest) depth front.length =
      findClosingFrom brackets (front ++ '\\' :: char :: rest) depth (front.length + 2) := by
  have within : front.length + 1 < (front ++ '\\' :: char :: rest).length := by simp
  have stands : charAt (front ++ '\\' :: char :: rest) (front.length + 1) = .ok char := by
    simp [charAt]
  rw [findClosingFrom_plain complete brackets.opening_ne.symm brackets.closing_ne.symm,
    findClosingFrom, if_pos within, stands, isEscaped_behind complete]
  rfl

/-- Counting a depth finds the bracket that the text is cut at, wherever the text stands. -/
theorem findClosingFrom_eq (brackets : Brackets) (complete : Complete front) (rest : List Char)
    (depth : Nat) : findClosingFrom brackets (front ++ rest) (depth + 1) front.length =
      .ok ((Glyph.splitClosing brackets.opening brackets.closing depth (Glyph.ofChars rest)).map
        fun cut => front.length + (Glyph.text cut.1).length) := by
  induction rest using Glyph.escape_induction generalizing front depth with
  | empty =>
      rw [List.append_nil]
      exact findClosingFrom_length brackets front _
  | dangling =>
      have ended := findClosingFrom_length brackets (front ++ ['\\']) (depth + 1)
      rw [List.length_append, List.length_singleton] at ended
      rw [findClosingFrom_plain complete brackets.opening_ne.symm brackets.closing_ne.symm, ended]
      rfl
  | escape char rest ih =>
      have next := ih (complete.append (complete_escape char)) depth
      rw [List.append_assoc, List.length_append] at next
      refine (findClosingFrom_escape complete char rest _).trans (next.trans ?_)
      simp [Glyph.ofChars, Glyph.splitClosing, Glyph.text, Glyph.chars, Function.comp_def,
        Nat.add_assoc, Nat.add_comm 2]
  | plain char rest noEscape ih =>
      have next := ih (complete.append (complete_singleton noEscape))
      simp only [List.append_assoc, List.singleton_append, List.length_append,
        List.length_singleton] at next
      rw [Glyph.ofChars_plain _ noEscape]
      by_cases opening : char = brackets.opening
      · subst opening
        rw [findClosingFrom_opening complete, next]
        simp [Glyph.splitClosing, brackets.distinct, Glyph.text, Glyph.chars, Function.comp_def,
          Nat.add_assoc, Nat.add_comm 1]
      by_cases closing : char = brackets.closing
      · subst closing
        cases depth with
        | zero =>
          rw [findClosingFrom_last complete]
          simp [Glyph.splitClosing, Glyph.text]
        | succ depth =>
          rw [findClosingFrom_inner complete, next]
          simp [Glyph.splitClosing, Glyph.text, Glyph.chars, Function.comp_def,
            Nat.add_assoc, Nat.add_comm 1]
      · rw [findClosingFrom_plain complete opening closing, next]
        simp [Glyph.splitClosing, opening, closing, Glyph.text, Glyph.chars, Function.comp_def,
            Nat.add_assoc, Nat.add_comm 1]

theorem findClosing_eq (opens : Bare text brackets.opening position) :
    ∃ found, findClosing brackets text position = .ok found ∧
      ∀ last, brackets.Matched text position last ↔ found = some last := by
  rcases opens.split with ⟨front, rest, rfl, rfl, complete⟩
  have entered := findClosingFrom_eq brackets (complete.append brackets.complete_opening) rest 0
  rw [List.append_assoc, List.singleton_append, List.length_append, List.length_singleton]
    at entered
  refine ⟨_, (findClosingFrom_opening complete rest 0).trans entered, ?_⟩
  intro last
  rw [Brackets.matched_length_iff complete, Option.map_eq_some_iff]
  constructor
  · intro closed
    rcases closed with ⟨inside, after, split, balanced, rfl⟩
    refine ⟨_, Brackets.splitClosing_eq_some_iff.mpr ⟨inside, after, split, balanced, rfl, rfl⟩, ?_⟩
    rw [Glyph.text_ofChars]
  · intro found
    rcases found with ⟨⟨cut, after⟩, found, rfl⟩
    rcases Brackets.splitClosing_eq_some_iff.mp found with ⟨inside, after, split, balanced, rfl, -⟩
    exact ⟨inside, after, split, balanced, by rw [Glyph.text_ofChars]⟩

theorem findClosing_balanced (complete : Complete front) {inside : List Char}
    (balanced : brackets.Balanced inside) (rest : List Char) :
    findClosing brackets (front ++ brackets.opening :: (inside ++ brackets.closing :: rest))
      front.length = .ok (some (front.length + 1 + inside.length)) := by
  rcases findClosing_eq ((bare_length_iff complete).mpr rfl) with ⟨found, run, partner⟩
  have matched := (Brackets.matched_length_iff complete).mpr ⟨inside, rest, rfl, balanced, rfl⟩
  rw [run, (partner _).mp matched]

theorem findClosing_unclosed (complete : Complete front) (never : brackets.Unclosed rest) :
    findClosing brackets (front ++ brackets.opening :: rest) front.length = .ok none := by
  rcases findClosing_eq ((bare_length_iff complete).mpr rfl) with ⟨found, run, partner⟩
  cases found with
  | none => exact run
  | some last =>
      rcases (Brackets.matched_length_iff complete).mp ((partner last).mpr rfl) with
        ⟨inside, after, split, balanced, -⟩
      exact absurd balanced (never inside after split)

end Closing

@[simp]
theorem splitChoicesFrom_length (text : List Char) (depth : Int) (start : Nat) :
    splitChoicesFrom text depth start text.length = .ok [(start, text.length)] := by
  rw [splitChoicesFrom, if_neg (Nat.lt_irrefl _)]
  rfl

theorem splitChoicesFrom_char (complete : Complete front) (char : Char) (rest : List Char)
    (depth : Int) (start : Nat) :
    splitChoicesFrom (front ++ char :: rest) depth start front.length =
      if char = '(' then
        splitChoicesFrom (front ++ char :: rest) (depth + 1) start (front.length + 1)
      else if char = ')' then
        splitChoicesFrom (front ++ char :: rest) (depth - 1) start (front.length + 1)
      else if char = '|' ∧ depth = 0 then
        ((start, front.length) :: ·) <$>
          splitChoicesFrom (front ++ char :: rest) depth (front.length + 1) (front.length + 1)
      else splitChoicesFrom (front ++ char :: rest) depth start (front.length + 1) := by
  rw [splitChoicesFrom, if_pos (by simp), charAt_length, isEscaped_length complete]
  simp only [bind, Except.bind, Bool.false_eq_true, if_false]
  rfl

theorem splitChoicesFrom_escape (complete : Complete front) (char : Char) (rest : List Char)
    (depth : Int) (start : Nat) :
    splitChoicesFrom (front ++ '\\' :: char :: rest) depth start front.length =
      splitChoicesFrom (front ++ '\\' :: char :: rest) depth start (front.length + 2) := by
  have within : front.length + 1 < (front ++ '\\' :: char :: rest).length := by simp
  have stands : charAt (front ++ '\\' :: char :: rest) (front.length + 1) = .ok char := by
    simp [charAt]
  rw [splitChoicesFrom_char complete, if_neg (by decide), if_neg (by decide),
    if_neg fun bar => absurd bar.1 (by decide), splitChoicesFrom, if_pos within, stands,
    isEscaped_behind complete]
  rfl

theorem complete_bar : Complete ['|'] := complete_singleton (by decide)

/-- Over the text the depth comes from one value to another, and no choice ends in it. -/
structure Crosses (depth : Int) (text : List Char) (last : Int) : Prop where
  complete : Complete text
  ranges : ∀ front rest start, Complete front →
    splitChoicesFrom (front ++ (text ++ rest)) depth start front.length =
      splitChoicesFrom (front ++ (text ++ rest)) last start (front.length + text.length)
  bars : ∀ rest, barFollows depth (Glyph.ofChars (text ++ rest)) =
    barFollows last (Glyph.ofChars rest)

section Crosses

variable {depth middle last : Int}

theorem Crosses.append (crosses : Crosses depth text middle) (later : Crosses middle rest last) :
    Crosses depth (text ++ rest) last := by
  constructor
  · exact crosses.complete.append later.complete
  · intro front beyond start complete
    have passed := later.ranges (front ++ text) beyond start (complete.append crosses.complete)
    rw [List.append_assoc, List.length_append] at passed
    rw [List.append_assoc, crosses.ranges _ _ _ complete, passed, List.length_append,
      Nat.add_assoc]
  · intro beyond
    rw [List.append_assoc, crosses.bars, later.bars]

theorem crosses_nil (depth : Int) : Crosses depth [] depth :=
  ⟨complete_nil, fun _ _ _ _ => rfl, fun _ => rfl⟩

theorem crosses_escape (depth : Int) (char : Char) : Crosses depth ['\\', char] depth :=
  ⟨complete_escape char, fun _ rest start complete =>
    splitChoicesFrom_escape complete char rest depth start, fun _ => rfl⟩

theorem crosses_opening (depth : Int) : Crosses depth ['('] (depth + 1) :=
  ⟨complete_singleton (by decide),
    fun _ rest start complete => splitChoicesFrom_char complete '(' rest depth start,
    fun _ => rfl⟩

theorem crosses_closing (depth : Int) : Crosses depth [')'] (depth - 1) :=
  ⟨complete_singleton (by decide),
    fun _ rest start complete => splitChoicesFrom_char complete ')' rest depth start,
    fun _ => rfl⟩

theorem crosses_inner (inside : depth ≠ 0) : Crosses depth ['|'] depth := by
  constructor
  · exact complete_bar
  · intro front rest start complete
    refine (splitChoicesFrom_char complete '|' rest depth start).trans ?_
    simp [inside]
  · intro rest
    simp [Glyph.ofChars, barFollows, inside]

theorem crosses_plain (free : char ∉ ['\\', '(', ')', '|']) (depth : Int) :
    Crosses depth [char] depth := by
  simp only [List.mem_cons, List.not_mem_nil, or_false, not_or] at free
  rcases free with ⟨noEscape, noOpening, noClosing, noBar⟩
  constructor
  · exact complete_singleton noEscape
  · intro front rest start complete
    refine (splitChoicesFrom_char complete char rest depth start).trans ?_
    simp [noOpening, noClosing, noBar]
  · intro rest
    rw [List.singleton_append, Glyph.ofChars_plain _ noEscape, barFollows] <;>
      simp [noOpening, noClosing, noBar]

theorem Crosses.cons (crosses : Crosses depth [char] middle) (later : Crosses middle rest last) :
    Crosses depth (char :: rest) last :=
  crosses.append later

theorem Crosses.group (inner : Crosses (depth + 1) text (depth + 1))
    (later : Crosses depth rest last) : Crosses depth ('(' :: (text ++ ')' :: rest)) last := by
  have closed : Crosses (depth + 1) [')'] depth := by
    have closing := crosses_closing (depth + 1)
    rwa [Int.add_sub_cancel] at closing
  exact (crosses_opening depth).cons (inner.append (closed.cons later))

theorem crosses_balanced (balanced : Brackets.round.Balanced text) (inside : 0 < depth) :
    Crosses depth text depth := by
  induction balanced generalizing depth with
  | empty => exact crosses_nil depth
  | @plain char rest free later ih =>
      by_cases bar : char = '|'
      · subst bar
        exact (crosses_inner (Int.ne_of_gt inside)).cons (ih inside)
      · have plain : char ∉ ['\\', '(', ')', '|'] := by
          simp only [List.mem_cons, List.not_mem_nil, or_false, not_or] at free ⊢
          exact ⟨free.1, free.2.1, free.2.2, bar⟩
        exact (crosses_plain plain depth).cons (ih inside)
  | escape char later ih => exact (crosses_escape depth char).append (ih inside)
  | pair inner later ihInner ihLater =>
      exact .group (ihInner (Int.add_pos inside Int.one_pos)) (ihLater inside)

theorem crosses_derives {part : Part} {patterns : List Pattern}
    (derived : Derives part text patterns) (single : part ≠ .choices) : Crosses 0 text 0 := by
  induction derived with
  | symbol free =>
      simp only [reserved, List.mem_cons, List.not_mem_nil, or_false, not_or] at free
      rcases free with ⟨noEscape, noOpening, noClosing, noBar, -⟩
      exact crosses_plain (by simp [noEscape, noOpening, noClosing, noBar]) 0
  | nothing => exact crosses_plain (by decide) 0
  | escape char => exact crosses_escape 0 char
  | group inner => exact .group (crosses_balanced inner.balanced (by decide)) (crosses_nil 0)
  | empty => exact crosses_nil 0
  | plain first later unstarred ihFirst ihLater =>
      exact (ihFirst (by decide)).append (ihLater (by decide))
  | starred first later ihFirst ihLater =>
      have star : Crosses 0 ['*'] 0 := crosses_plain (by decide) 0
      exact (ihFirst (by decide)).append (star.cons (ihLater (by decide)))
  | last => exact absurd rfl single
  | more => exact absurd rfl single

/-- A text is crossed up to its first bar outside of groups, or up to a lone backslash. -/
inductive Course (depth : Int) : List Char → Prop
  | whole {text : List Char} {last : Int} (crosses : Crosses depth text last) : Course depth text
  | dangling {front : List Char} {last : Int} (crosses : Crosses depth front last) :
      Course depth (front ++ ['\\'])
  | bar {front : List Char} (crosses : Crosses depth front 0) (back : List Char) :
      Course depth (front ++ '|' :: back)

theorem Course.prepend (crosses : Crosses depth front middle) (course : Course middle rest) :
    Course depth (front ++ rest) := by
  cases course with
  | whole later => exact .whole (crosses.append later)
  | dangling later =>
      rw [← List.append_assoc]
      exact .dangling (crosses.append later)
  | bar later back =>
      rw [← List.append_assoc]
      exact .bar (crosses.append later) back

theorem course (text : List Char) (depth : Int) : Course depth text := by
  induction text using Glyph.escape_induction generalizing depth with
  | empty => exact .whole (crosses_nil depth)
  | dangling => exact .dangling (crosses_nil depth)
  | escape char rest ih => exact .prepend (crosses_escape depth char) (ih depth)
  | plain char rest noEscape ih =>
      by_cases opening : char = '('
      · subst opening
        exact .prepend (crosses_opening depth) (ih _)
      by_cases closing : char = ')'
      · subst closing
        exact .prepend (crosses_closing depth) (ih _)
      by_cases bar : char = '|'
      · subst bar
        by_cases outside : depth = 0
        · subst outside
          exact .bar (crosses_nil 0) rest
        · exact .prepend (crosses_inner outside) (ih depth)
      · exact .prepend (crosses_plain (by simp [*]) depth) (ih depth)

theorem splitChoicesFrom_bar (crosses : Crosses depth text 0) (complete : Complete front)
    (back : List Char) (start : Nat) :
    splitChoicesFrom (front ++ (text ++ '|' :: back)) depth start front.length =
      ((start, front.length + text.length) :: ·) <$>
        splitChoicesFrom (front ++ (text ++ '|' :: back)) 0 (front.length + text.length + 1)
          (front.length + text.length + 1) := by
  have stop := splitChoicesFrom_char (complete.append crosses.complete) '|' back 0 start
  rw [List.append_assoc, List.length_append] at stop
  rw [crosses.ranges _ _ _ complete, stop, if_neg (by decide), if_neg (by decide),
    if_pos ⟨rfl, rfl⟩]

theorem barFollows_bar (crosses : Crosses depth text 0) (back : List Char) :
    barFollows depth (Glyph.ofChars (text ++ '|' :: back)) = true := by
  rw [crosses.bars, Glyph.ofChars_plain _ (by decide)]
  rfl

theorem exists_bar (follows : barFollows depth (Glyph.ofChars text) = true) :
    ∃ front back, text = front ++ '|' :: back ∧ Crosses depth front 0 := by
  cases course text depth with
  | whole crosses =>
      have none := crosses.bars []
      rw [List.append_nil, follows] at none
      cases none
  | dangling crosses =>
      rw [crosses.bars] at follows
      cases follows
  | bar crosses back => exact ⟨_, back, rfl, crosses⟩

theorem splitChoicesFrom_single (single : barFollows depth (Glyph.ofChars text) = false)
    (complete : Complete front) (start : Nat) :
    splitChoicesFrom (front ++ text) depth start front.length =
      .ok [(start, (front ++ text).length)] := by
  cases course text depth with
  | @whole text last crosses =>
      have passed := crosses.ranges front [] start complete
      rw [List.append_nil, ← List.length_append] at passed
      rw [passed, splitChoicesFrom_length]
  | @dangling text last crosses =>
      have escape := splitChoicesFrom_char (complete.append crosses.complete) '\\' [] last start
      have ended := splitChoicesFrom_length (front ++ text ++ ['\\']) last start
      rw [List.length_append, List.length_singleton] at ended
      rw [if_neg (by decide), if_neg (by decide), if_neg fun bar => absurd bar.1 (by decide),
        ended, List.append_assoc, List.length_append] at escape
      rw [crosses.ranges _ _ _ complete, escape]
      simp [Nat.add_assoc]
  | @bar text crosses back =>
      rw [barFollows_bar crosses] at single
      cases single

theorem exists_splitChoicesFrom (text : List Char) (depth : Int) (complete : Complete front)
    (start : Nat) : ∃ stop others,
      splitChoicesFrom (front ++ text) depth start front.length =
        .ok ((start, stop) :: others) := by
  induction length : text.length using Nat.strong_induction_on
    generalizing text depth front start with
  | _ n ih
  cases follows : barFollows depth (Glyph.ofChars text) with
  | false => exact ⟨_, _, splitChoicesFrom_single follows complete start⟩
  | true =>
      -- Behind the bar the next choice begins, in a shorter text.
      rcases exists_bar follows with ⟨first, back, rfl, crosses⟩
      have shorter : back.length < n := by
        rw [← length, List.length_append, List.length_cons]
        omega
      have before := (complete.append crosses.complete).append complete_bar
      rcases ih _ shorter back 0 before (front.length + first.length + 1) rfl with
        ⟨stop, others, later⟩
      simp only [List.append_assoc, List.singleton_append, List.length_append,
        List.length_singleton] at later
      exact ⟨_, _, (splitChoicesFrom_bar crosses complete back start).trans
        (congrArg _ later)⟩

theorem barFollows_of_unclosed (never : Brackets.round.Unclosed text) (inside : 0 < depth) :
    barFollows depth (Glyph.ofChars text) = false := by
  induction length : text.length using Nat.strong_induction_on generalizing text depth with
  | _ n ih
  cases Brackets.round.shape text with
  | balanced whole =>
      rw [← List.append_nil text, (crosses_balanced whole inside).bars]
      rfl
  | closing before rest => exact absurd before (never _ _ rfl)
  | @opening front rest before later =>
      have shorter : rest.length < n := by simp [← length]; omega
      have opened := (crosses_balanced before inside).append (crosses_opening depth)
      have deeper := ih _ shorter later (Int.add_pos inside Int.one_pos) rfl
      rw [← deeper, ← opened.bars, List.append_assoc]
      rfl
  | dangling before =>
      rw [(crosses_balanced before inside).bars]
      rfl

end Crosses

end Positional

end MaximalMunch
