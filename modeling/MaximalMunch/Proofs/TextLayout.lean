import MaximalMunch.Text.Lines
import MaximalMunch.Text.WhiteSpace
import Mathlib.Data.List.Basic

/-!
How a text falls into lines and a line into words, told by the pieces that they are put together
from. The functions that cut texts find exactly these pieces.
-/

namespace MaximalMunch

/-- A carriage return at the end is left out. -/
inductive DropsReturn : List Char → List Char → Prop
  | returned (line : List Char) : DropsReturn (line ++ ['\r']) line
  | plain {line : List Char} (free : line.getLast? ≠ some '\r') : DropsReturn line line

/--
A line feed ends a line and takes one carriage return before it along. What is left of a line
shows without one more at its end.
-/
inductive FallsInto : List Char → List (List Char) → Prop
  | nothing : FallsInto [] []
  | last {line shown : List Char} (nonempty : line ≠ []) (free : '\n' ∉ line)
      (drops : DropsReturn line shown) : FallsInto line [shown]
  | ended {line bare shown rest : List Char} {later : List (List Char)} (free : '\n' ∉ line)
      (taken : DropsReturn line bare) (drops : DropsReturn bare shown)
      (behind : FallsInto rest later) : FallsInto (line ++ '\n' :: rest) (shown :: later)

/-- Words with white space around them and between them. -/
inductive Spaced : List Char → List (List Char) → Prop
  | blank {gap : List Char} (blank : isBlank gap = true) : Spaced gap []
  | word {gap word rest : List Char} {words : List (List Char)} (blank : isBlank gap = true)
      (nonempty : word ≠ []) (solid : ∀ char ∈ word, isWhiteSpace char = false)
      (parted : ∀ char, rest.head? = some char → isWhiteSpace char = true)
      (later : Spaced rest words) : Spaced (gap ++ (word ++ rest)) (word :: words)

/-- The text without the white space at its ends. -/
inductive Trimmed : List Char → List Char → Prop
  | within {front core back : List Char} (before : isBlank front = true)
      (behind : isBlank back = true)
      (begins : ∀ char, core.head? = some char → isWhiteSpace char = false)
      (ends : ∀ char, core.getLast? = some char → isWhiteSpace char = false) :
      Trimmed (front ++ (core ++ back)) core

section Lines

variable {line rest text : List Char} {char : Char}

theorem dropReturn_eq_iff {shown : List Char} :
    dropReturn line = shown ↔ DropsReturn line shown := by
  constructor
  · rintro rfl
    unfold dropReturn
    split
    case isTrue ends =>
      have split : line.dropLast ++ ['\r'] = line :=
        List.dropLast_append_getLast? '\r' ends
      have drops := DropsReturn.returned line.dropLast
      rwa [split] at drops
    case isFalse free => exact .plain free
  · intro drops
    unfold dropReturn
    cases drops with
    | returned => simp
    | plain free => rw [if_neg free]

theorem dropReturn_cons (nonempty : line ≠ []) :
    dropReturn (char :: line) = char :: dropReturn line := by
  rcases List.exists_cons_of_ne_nil nonempty with ⟨head, tail, rfl⟩
  unfold dropReturn
  rw [List.getLast?_cons_cons]
  split
  · rfl
  · rfl

theorem dropReturn_singleton (other : char ≠ '\r') : dropReturn [char] = [char] := by
  simp [dropReturn, other]

theorem lines_cons (free : char ≠ '\n') (apart : char = '\r' → rest.head? ≠ some '\n') :
    lines (char :: rest) = (char :: (lines rest).headD []) :: (lines rest).tail := by
  conv => lhs; unfold lines
  split
  case h_1 heq => cases heq
  case h_2 heq =>
    cases heq
    exact absurd rfl free
  case h_3 heq =>
    cases heq
    exact absurd rfl (apart rfl)
  case h_4 heq =>
    cases heq
    split
    case h_1 nothing => rw [nothing]; rfl
    case h_2 cut => rw [cut]; rfl

theorem lines_ended (free : '\n' ∉ line) :
    lines (line ++ '\n' :: rest) = dropReturn line :: lines rest := by
  induction line with
  | nil => rfl
  | cons char line ih =>
      rw [List.mem_cons, not_or] at free
      by_cases last : line = []
      · subst last
        by_cases returned : char = '\r'
        · subst returned
          rfl
        · rw [dropReturn_singleton returned, List.singleton_append,
            lines_cons (Ne.symm free.1) fun same => absurd same returned]
          rfl
      · have apart : (line ++ '\n' :: rest).head? ≠ some '\n' := by
          rcases List.exists_cons_of_ne_nil last with ⟨next, tail, rfl⟩
          intro same
          exact free.2 (Option.some.inj same ▸ List.mem_cons_self)
        rw [dropReturn_cons last, List.cons_append,
          lines_cons (Ne.symm free.1) fun _ => apart, ih free.2]
        rfl

theorem lines_last (nonempty : line ≠ []) (free : '\n' ∉ line) : lines line = [line] := by
  induction line with
  | nil => exact absurd rfl nonempty
  | cons char line ih =>
      rw [List.mem_cons, not_or] at free
      have apart : line.head? ≠ some '\n' := fun same =>
        free.2 (List.mem_of_head? same)
      rw [lines_cons (Ne.symm free.1) fun _ => apart]
      by_cases last : line = []
      · subst last
        rfl
      · rw [ih last free.2]
        rfl

theorem exists_line (text : List Char) : text = [] ∨ (text ≠ [] ∧ '\n' ∉ text) ∨
    ∃ line rest, '\n' ∉ line ∧ text = line ++ '\n' :: rest := by
  by_cases ended : '\n' ∈ text
  · rcases List.eq_append_cons_of_mem ended with ⟨line, rest, split, free⟩
    exact .inr (.inr ⟨line, rest, free, split⟩)
  · by_cases nothing : text = []
    · exact .inl nothing
    · exact .inr (.inl ⟨nothing, ended⟩)

theorem fallsInto_lines (text : List Char) : FallsInto text ((lines text).map dropReturn) := by
  rcases exists_line text with rfl | ⟨nonempty, free⟩ | ⟨line, rest, free, split⟩
  · exact .nothing
  · rw [lines_last nonempty free]
    exact .last nonempty free (dropReturn_eq_iff.mp rfl)
  · have shorter : rest.length < text.length := by
      rw [split, List.length_append, List.length_cons]
      omega
    rw [split, lines_ended free, List.map_cons]
    exact .ended free (dropReturn_eq_iff.mp rfl) (dropReturn_eq_iff.mp rfl) (fallsInto_lines rest)
termination_by text.length

theorem fallsInto_iff {shown : List (List Char)} :
    FallsInto text shown ↔ (lines text).map dropReturn = shown := by
  constructor
  · intro falls
    induction falls with
    | nothing => rfl
    | last nonempty free drops =>
        rw [lines_last nonempty free, List.map_singleton, dropReturn_eq_iff.mpr drops]
    | ended free taken drops behind ih =>
        rw [lines_ended free, List.map_cons, ih, dropReturn_eq_iff.mpr taken,
          dropReturn_eq_iff.mpr drops]
  · rintro rfl
    exact fallsInto_lines text

end Lines

section Words

variable {text gap word rest core : List Char} {char : Char} {found : List (List Char)}

theorem words_blank (blank : isBlank gap = true) : words (gap ++ rest) = words rest := by
  induction gap with
  | nil => rfl
  | cons char gap ih =>
      rw [isBlank, List.all_cons, Bool.and_eq_true] at blank
      rw [List.cons_append, words, if_pos blank.1, ih blank.2]

theorem words_solid (nonempty : word ≠ []) (solid : ∀ char ∈ word, isWhiteSpace char = false)
    (parted : ∀ char, rest.head? = some char → isWhiteSpace char = true) :
    words (word ++ rest) = word :: words rest := by
  induction word with
  | nil => exact absurd rfl nonempty
  | cons char word ih =>
      have inside := solid char List.mem_cons_self
      rw [List.cons_append, words, if_neg (by simp [inside])]
      cases word with
      | nil =>
          have alone : (rest.head?.map isWhiteSpace).getD true = true := by
            cases next : rest.head? with
            | none => rfl
            | some other => exact parted other next
          rw [List.nil_append, if_pos alone]
      | cons next word =>
          have goesOn : isWhiteSpace next = false := solid next (by simp)
          have later := ih (List.cons_ne_nil _ _) fun other member =>
            solid other (List.mem_cons_of_mem _ member)
          rw [later, if_neg (by simp [goesOn])]
          rfl

theorem Spaced.head (nonempty : word ≠ []) (solid : ∀ char ∈ word, isWhiteSpace char = false)
    (parted : ∀ char, rest.head? = some char → isWhiteSpace char = true)
    (later : Spaced rest found) : Spaced (word ++ rest) (word :: found) :=
  @Spaced.word [] word rest found rfl nonempty solid parted later

theorem Spaced.cons_blank (blank : isWhiteSpace char = true) (spaced : Spaced rest found) :
    Spaced (char :: rest) found := by
  have more : ∀ gap, isBlank gap = true → isBlank (char :: gap) = true := by
    intro gap also
    rw [isBlank, List.all_cons, blank]
    exact also
  cases spaced with
  | blank also => exact .blank (more _ also)
  | word also nonempty solid parted later => exact .word (more _ also) nonempty solid parted later

theorem Spaced.cons_solid {next : Char} (solid : isWhiteSpace char = false)
    (goesOn : isWhiteSpace next = false) (spaced : Spaced (next :: rest) found) :
    Spaced (char :: next :: rest) (found.modifyHead (char :: ·)) := by
  generalize whole : next :: rest = text at spaced
  cases spaced with
  | blank blank =>
      rw [← whole, isBlank, List.all_cons, goesOn] at blank
      cases blank
  | @word gap word behind later blank nonempty also parted spaced =>
      cases gap with
      | nil =>
          apply Spaced.head (List.cons_ne_nil char word) _ parted spaced
          intro other member
          rcases List.mem_cons.mp member with rfl | member
          · exact solid
          · exact also other member
      | cons first gap =>
          have same : next = first := (List.cons.inj whole).1
          rw [← same, isBlank, List.all_cons, goesOn] at blank
          cases blank

theorem spaced_words (text : List Char) : Spaced text (words text) := by
  induction text with
  | nil => exact .blank rfl
  | cons char rest ih =>
      rw [words]
      split
      case isTrue blank => exact ih.cons_blank blank
      case isFalse solid =>
        rw [Bool.not_eq_true] at solid
        cases rest with
        | nil =>
            apply Spaced.head (List.cons_ne_nil char []) (by simpa using solid) _ ih
            simp
        | cons next rest =>
            by_cases parted : isWhiteSpace next = true
            · rw [if_pos (by simp [parted])]
              apply Spaced.head (List.cons_ne_nil char []) (by simpa using solid) _ ih
              simpa using parted
            · rw [if_neg (by simpa using parted)]
              exact ih.cons_solid solid (by simpa using parted)

theorem spaced_iff : Spaced text found ↔ words text = found := by
  constructor
  · intro spaced
    induction spaced with
    | @blank gap blank =>
        have nothing : words (gap ++ []) = words [] := words_blank blank
        rwa [List.append_nil] at nothing
    | word blank nonempty solid parted later ih =>
        rw [words_blank blank, words_solid nonempty solid parted, ih]
  · rintro rfl
    exact spaced_words text

theorem Spaced.solid (spaced : Spaced text found) :
    ∀ word ∈ found, word ≠ [] ∧ ∀ char ∈ word, isWhiteSpace char = false := by
  induction spaced with
  | blank => simp
  | word _ nonempty solid _ _ ih => exact List.forall_mem_cons.mpr ⟨⟨nonempty, solid⟩, ih⟩

theorem spaced_alone (nonempty : word ≠ []) (solid : ∀ char ∈ word, isWhiteSpace char = false) :
    Spaced word [word] := by
  have spaced : Spaced (word ++ []) [word] := .head nonempty solid (by simp) (.blank rfl)
  rwa [List.append_nil] at spaced

theorem spaced_pair {other : List Char} (nonempty : word ≠ [])
    (solid : ∀ char ∈ word, isWhiteSpace char = false)
    (present : other ≠ []) (also : ∀ char ∈ other, isWhiteSpace char = false) :
    Spaced (word ++ ' ' :: other) [word, other] := by
  apply Spaced.head nonempty solid
  · intro char first
    cases first
    rfl
  · exact .cons_blank rfl (spaced_alone present also)

theorem trimStart_blank (blank : isBlank gap = true) :
    trimStart (gap ++ rest) = trimStart rest := by
  apply List.dropWhile_append_of_pos
  exact List.all_eq_true.mp blank

theorem trimStart_eq_self (begins : ∀ char, rest.head? = some char → isWhiteSpace char = false) :
    trimStart rest = rest := by
  cases rest with
  | nil => rfl
  | cons char rest => rw [trimStart, List.dropWhile_cons_of_neg (by simp [begins char rfl])]

theorem exists_trimStart (text : List Char) : ∃ gap, isBlank gap = true ∧
    text = gap ++ trimStart text ∧
    ∀ char, (trimStart text).head? = some char → isWhiteSpace char = false := by
  refine ⟨text.takeWhile isWhiteSpace, ?_, ?_, ?_⟩
  · exact List.all_takeWhile
  · exact List.takeWhile_append_dropWhile.symm
  · intro char first
    have := List.head?_dropWhile_not isWhiteSpace text
    rw [trimStart] at first
    rw [first] at this
    simpa using this

@[simp]
theorem isBlank_reverse : isBlank gap.reverse = isBlank gap := List.all_reverse

theorem trimStart_reverse_append {back : List Char} (behind : isBlank back = true)
    (ends : ∀ char, core.getLast? = some char → isWhiteSpace char = false) :
    trimStart (core ++ back).reverse = core.reverse := by
  rw [List.reverse_append, trimStart_blank (isBlank_reverse.trans behind)]
  apply trimStart_eq_self
  rw [List.head?_reverse]
  exact ends

theorem trimmed_trim (text : List Char) : Trimmed text (trim text) := by
  rcases exists_trimStart text with ⟨front, before, split, begins⟩
  rcases exists_trimStart (trimStart text).reverse with ⟨back, behind, splitBack, ends⟩
  have whole : trimStart text = trim text ++ back.reverse := by
    have turned := congrArg List.reverse splitBack
    rwa [List.reverse_reverse, List.reverse_append] at turned
  have trimmed : Trimmed (front ++ (trim text ++ back.reverse)) (trim text) := by
    apply Trimmed.within before (isBlank_reverse.trans behind)
    · intro char first
      apply begins char
      rw [whole, List.head?_append, first]
      rfl
    · intro char last
      apply ends char
      rwa [trim, List.getLast?_reverse] at last
  rwa [← whole, ← split] at trimmed

theorem trimmed_iff : Trimmed text core ↔ trim text = core := by
  constructor
  · intro trimmed
    cases trimmed with
    | @within front core back before behind begins ends =>
        rw [trim, trimStart_blank before]
        cases core with
        | nil =>
            have nothing : trimStart (back ++ []) = trimStart [] := trimStart_blank behind
            rw [List.append_nil] at nothing
            rw [List.nil_append, nothing]
            rfl
        | cons char core =>
            have kept : trimStart (char :: core ++ back) = char :: core ++ back :=
              trimStart_eq_self begins
            rw [kept, trimStart_reverse_append behind ends, List.reverse_reverse]
  · rintro rfl
    exact trimmed_trim text

theorem Trimmed.words_eq (trimmed : Trimmed text core) (nonempty : core ≠ [])
    (solid : ∀ char ∈ core, isWhiteSpace char = false) : words text = [core] := by
  cases trimmed with
  | @within front _ back before behind =>
      apply spaced_iff.mp
      apply Spaced.word before nonempty solid
      · intro char first
        exact List.all_eq_true.mp behind char (List.mem_of_head? first)
      · exact .blank behind

end Words

end MaximalMunch
