import MaximalMunch.Proofs.SpecificationFormat
import Mathlib

/-!
Line ends and blank lines carry no meaning. Readers hand on the numbers of their lines and never
look at them, so where a text is spread over more lines, the same is read from it under the numbers
that its lines have then.
-/

namespace MaximalMunch

def returned (text : List Char) : List Char :=
  text.flatMap fun char => if char = '\n' then ['\r', '\n'] else [char]

/-- Each gap is put in before one line, the first gap before the first line. -/
def interleave (gaps : List (List (List Char))) (texts : List (List Char)) : List (List Char) :=
  (List.zipWith (fun gap text => gap ++ [text]) gaps texts).flatten

/-- The text with gaps of further lines before its lines. -/
def spread (gaps : List (List (List Char))) (text : List Char) : List Char :=
  ['\n'].intercalate (interleave gaps (text.splitOn '\n'))

/-- The number of a line behind the gaps before it and before the lines above. -/
def movedBy (gaps : List (List (List Char))) (number : Nat) : Nat :=
  number + (gaps.take number).flatten.length

def Line.renumber (place : Nat → Nat) (line : Line) : Line :=
  { line with number := place line.number }

def RuleSpec.renumber (place : Nat → Nat) (rule : RuleSpec) : RuleSpec :=
  { rule with line := place rule.line }

def SpecificationError.renumber (place : Nat → Nat) (error : SpecificationError) :
    SpecificationError :=
  { error with line := place error.line }

namespace Specification

def Declaration.renumber (place : Nat → Nat) (declaration : Declaration) : Declaration :=
  { declaration with line := place declaration.line }

def renumber (place : Nat → Nat) (specification : Specification) : Specification :=
  { specification with
    definitionLines := specification.definitionLines.map fun entry => (entry.1, place entry.2)
    rules := specification.rules.map (RuleSpec.renumber place) }

/-- What is read comes out moved, and what is reported on its new line. -/
def Reading.moved {α β : Type} (place : Nat → Nat) (move : α → β) (reading : Reading α) :
    Reading β :=
  (reading.map move).mapError (SpecificationError.renumber place)

section Renumbered

variable {place : Nat → Nat} {states units : List String} {line header : Line} {ahead : List Line}

@[simp]
theorem Reading.moved_ok {α β : Type} (move : α → β) (value : α) :
    Reading.moved place move (.ok value) = .ok (move value) := rfl

@[simp]
theorem Reading.moved_error {α β : Type} (move : α → β) (error : SpecificationError) :
    Reading.moved place move (.error error) = .error (error.renumber place) := rfl

theorem Reading.moved_bind {α β γ δ : Type} {move : α → β} {after : γ → δ} {first : Reading α}
    {next : α → Reading γ} {other : β → Reading δ}
    (each : ∀ value, other (move value) = Reading.moved place after (next value)) :
    (Reading.moved place move first >>= other) = Reading.moved place after (first >>= next) := by
  cases first with
  | error error => rfl
  | ok value => exact each value

theorem readDefinition_renumber :
    readDefinition (line.renumber place) = Reading.moved place id (readDefinition line) := by
  unfold readDefinition Line.renumber
  dsimp only
  split
  case h_1 name pattern cut =>
    split
    · rfl
    · rfl
  case h_2 => rfl

theorem readDefinitions_renumber :
    readDefinitions (ahead.map (Line.renumber place)) =
      Reading.moved place
        (Prod.map (List.map (Declaration.renumber place)) (List.map (Line.renumber place)))
        (readDefinitions ahead) := by
  induction ahead with
  | nil => rfl
  | cons line rest ih =>
      rw [List.map_cons, readDefinitions, readDefinitions]
      show (if line.text.head? = some '\x7b' then _ else _) = _
      split
      case isTrue opens =>
        rw [readDefinition_renumber, ih]
        apply Reading.moved_bind
        rintro ⟨name, pattern⟩
        apply Reading.moved_bind
        rintro ⟨later, rest⟩
        rfl
      case isFalse => rfl

theorem readHeader_renumber (kind : Header) (endLine : Nat) :
    readHeader kind (place endLine) (ahead.map (Line.renumber place)) =
      Reading.moved place (Prod.map id (Prod.map place (List.map (Line.renumber place))))
        (readHeader kind endLine ahead) := by
  cases ahead with
  | nil => rfl
  | cons line rest =>
      rw [List.map_cons, readHeader, readHeader]
      dsimp only [Line.renumber]
      split
      case h_1 names found =>
        split
        · rfl
        · rfl
      case h_2 => rfl

theorem readAction_renumber :
    readAction states (line.renumber place) = Reading.moved place id (readAction states line) := by
  unfold readAction Line.renumber
  dsimp only
  split
  case h_1 fault parsed => rfl
  case h_2 target parsed =>
    split
    · rfl
    · rfl
  case h_3 action plain parsed => rfl

theorem readActions_renumber (opened : Nat) :
    readActions states (place opened) (ahead.map (Line.renumber place)) =
      Reading.moved place (Prod.map id (List.map (Line.renumber place)))
        (readActions states opened ahead) := by
  induction ahead with
  | nil => rfl
  | cons line rest ih =>
      rw [List.map_cons, readActions, readActions]
      show (if trim line.text = ['\x7d'] then _ else _) = _
      split
      case isTrue closing => rfl
      case isFalse continues =>
        rw [readAction_renumber, ih]
        apply Reading.moved_bind
        intro action
        apply Reading.moved_bind
        rintro ⟨later, rest⟩
        rfl

theorem readRuleHeader_renumber : readRuleHeader states (header.renumber place) =
    Reading.moved place id (readRuleHeader states header) := by
  unfold readRuleHeader Line.renumber
  dsimp only
  split
  case h_1 text opens =>
    split
    case h_1 state pattern cut =>
      split
      · rfl
      · rfl
    case h_2 => rfl
  case h_2 => rfl

theorem readUnit_renumber (opened : Nat) : readUnit units (place opened) (line.renumber place) =
    Reading.moved place id (readUnit units opened line) := by
  unfold readUnit Line.renumber
  dsimp only
  split
  · rfl
  · split
    · rfl
    · rfl

theorem readRule_renumber :
    readRule states units (header.renumber place) (ahead.map (Line.renumber place)) =
      Reading.moved place (Prod.map (RuleSpec.renumber place) (List.map (Line.renumber place)))
        (readRule states units header ahead) := by
  unfold readRule
  rw [readRuleHeader_renumber]
  apply Reading.moved_bind
  rintro ⟨state, pattern⟩
  match ahead with
  | [] => rfl
  | [opening] => rfl
  | opening :: unitLine :: body =>
      show (if trim opening.text = ['\x7b'] then _ else _) =
        Reading.moved place _ (if trim opening.text = ['\x7b'] then _ else _)
      split
      case isFalse => rfl
      case isTrue opens =>
        show (readUnit units (place header.number) _ >>= _) = _
        rw [readUnit_renumber]
        apply Reading.moved_bind
        intro unit
        show (readActions states (place header.number) _ >>= _) = _
        rw [readActions_renumber]
        apply Reading.moved_bind
        rintro ⟨actions, rest⟩
        rfl

theorem readRules_of_error {error : SpecificationError}
    (first : readRule states units header ahead = .error error) :
    readRules states units (header :: ahead) = .error error := by
  rw [readRules]
  split
  case h_1 fault read =>
    rw [first] at read
    cases read
    rfl
  case h_2 rule rest read =>
    rw [first] at read
    cases read

theorem readRules_renumber : readRules states units (ahead.map (Line.renumber place)) =
    Reading.moved place (List.map (RuleSpec.renumber place)) (readRules states units ahead) := by
  induction length : ahead.length using Nat.strongRecOn generalizing ahead with
  | _ bound ih =>
      cases ahead with
      | nil =>
          rw [List.map_nil, readRules]
          rfl
      | cons header lines =>
          have moves : readRule states units (header.renumber place)
              (lines.map (Line.renumber place)) = Reading.moved place
                (Prod.map (RuleSpec.renumber place) (List.map (Line.renumber place)))
                (readRule states units header lines) := readRule_renumber
          cases read : readRule states units header lines with
          | error error =>
              rw [read, Reading.moved_error] at moves
              rw [List.map_cons, readRules_of_error moves, readRules_of_error read]
              rfl
          | ok result =>
              rcases result with ⟨rule, rest⟩
              have shorter : rest.length < bound :=
                length ▸ Nat.lt_succ_of_le (readRule_length read)
              rw [read, Reading.moved_ok] at moves
              rw [List.map_cons, readRules_cons moves, readRules_cons read,
                ih rest.length shorter rfl]
              cases readRules states units rest with
              | error error => rfl
              | ok rules => rfl

theorem ofLines_renumber (endLine : Nat) :
    ofLines (place endLine) (ahead.map (Line.renumber place)) =
      Reading.moved place (renumber place) (ofLines endLine ahead) := by
  unfold ofLines
  rw [readDefinitions_renumber]
  apply Reading.moved_bind
  rintro ⟨declarations, behind⟩
  show (readHeader .states (place endLine) _ >>= _) = _
  rw [readHeader_renumber]
  apply Reading.moved_bind
  rintro ⟨states, number, others⟩
  show (if states.isEmpty then _ else _) = Reading.moved place _ (if states.isEmpty then _ else _)
  split
  case isTrue => rfl
  case isFalse nonempty =>
    show (readHeader .units (place endLine) _ >>= _) = _
    rw [readHeader_renumber]
    apply Reading.moved_bind
    rintro ⟨units, _, rest⟩
    show (readRules states units _ >>= _) = _
    rw [readRules_renumber]
    apply Reading.moved_bind
    intro rules
    show Except.ok _ = Except.ok _
    rw [renumber, List.map_map, List.map_map, List.map_map]
    rfl

end Renumbered

section LineEnds

variable {line text : List Char} {texts : List (List Char)}

/-- What is left of lines that stand between line feeds. -/
def shown : List (List Char) → List (List Char)
  | [] => []
  | [last] => if last = [] then [] else [dropReturn last]
  | line :: rest => dropReturn (dropReturn line) :: shown rest

theorem shown_cons (line : List Char) (present : texts ≠ []) :
    shown (line :: texts) = dropReturn (dropReturn line) :: shown texts := by
  rcases List.exists_cons_of_ne_nil present with ⟨next, later, rfl⟩
  rfl

theorem map_dropReturn_lines (free : ∀ line ∈ texts, '\n' ∉ line) :
    (lines (['\n'].intercalate texts)).map dropReturn = shown texts := by
  induction texts with
  | nil => rfl
  | cons line texts ih =>
      rw [List.forall_mem_cons] at free
      cases texts with
      | nil =>
          rw [List.intercalate_singleton, shown]
          split
          case isTrue empty =>
            rw [empty]
            rfl
          case isFalse nonempty =>
            rw [lines_last nonempty free.1]
            rfl
      | cons next later =>
          rw [List.intercalate_cons_cons, List.append_assoc, List.singleton_append,
            lines_ended free.1, List.map_cons, ih free.2, shown_cons line (List.cons_ne_nil _ _)]

theorem free_splitOn (text : List Char) : ∀ line ∈ text.splitOn '\n', '\n' ∉ line := by
  induction text with
  | nil => simp
  | cons char rest ih =>
      rw [List.splitOn_cons_eq_if_modifyHead]
      split
      case isTrue => simpa using ih
      case isFalse other =>
        rcases List.exists_cons_of_ne_nil (List.splitOn_ne_nil '\n' rest) with ⟨line, later, cut⟩
        rw [cut, List.forall_mem_cons] at ih
        rw [cut, List.modifyHead_cons, List.forall_mem_cons]
        refine ⟨?_, ih.2⟩
        rw [List.mem_cons, not_or]
        exact ⟨fun same => other (beq_iff_eq.mpr same.symm), ih.1⟩

@[simp]
theorem returned_append (front back : List Char) :
    returned (front ++ back) = returned front ++ returned back := List.flatMap_append

theorem returned_of_free (free : '\n' ∉ line) : returned line = line := by
  induction line with
  | nil => rfl
  | cons char line ih =>
      rw [List.mem_cons, not_or] at free
      rw [returned, List.flatMap_cons, if_neg (Ne.symm free.1), ← returned, ih free.2]
      rfl

theorem dropReturn_of_free (free : '\r' ∉ line) : dropReturn line = line :=
  dropReturn_eq_iff.mpr (.plain fun last => free (List.mem_of_getLast? last))

theorem lines_returned (text : List Char) (free : '\r' ∉ text) :
    lines (returned text) = lines text := by
  rcases exists_line text with rfl | ⟨-, bare⟩ | ⟨line, rest, bare, split⟩
  · rfl
  · rw [returned_of_free bare]
  · have shorter : rest.length < text.length := by
      rw [split, List.length_append, List.length_cons]
      omega
    have shape : returned text = line ++ ['\r'] ++ '\n' :: returned rest := by
      rw [split, returned_append, returned_of_free bare, List.append_assoc]
      rfl
    have ended : '\n' ∉ line ++ ['\r'] := by simp [bare]
    rw [split, List.mem_append, List.mem_cons, not_or, not_or] at free
    rw [shape, split, lines_ended ended, lines_ended bare, lines_returned rest free.2.2,
      dropReturn_eq_iff.mpr (.returned line), dropReturn_of_free free.1]
termination_by text.length

/-- Lines of white space only, none of which a line feed ends early. -/
def BlankLines (gap : List (List Char)) : Prop :=
  ∀ line ∈ gap, isBlank line = true ∧ '\n' ∉ line

instance (gap : List (List Char)) : Decidable (BlankLines gap) :=
  inferInstanceAs (Decidable (∀ line ∈ gap, isBlank line = true ∧ '\n' ∉ line))

theorem isBlank_dropReturn (blank : isBlank line = true) : isBlank (dropReturn line) = true := by
  unfold dropReturn
  split
  case isTrue =>
    apply List.all_eq_true.mpr
    intro char member
    exact List.all_eq_true.mp blank char (List.dropLast_subset line member)
  case isFalse => exact blank

theorem contentLines_cons (text : List Char) (texts : List (List Char)) :
    contentLines (text :: texts) = (if isBlank text then [] else [⟨1, text⟩]) ++
      (contentLines texts).map (Line.renumber Nat.succ) := by
  have later : (texts.zipIdx 1).map (fun entry => (⟨entry.2 + 1, entry.1⟩ : Line)) =
      (texts.zipIdx.map fun entry => (⟨entry.2 + 1, entry.1⟩ : Line)).map
        (Line.renumber Nat.succ) := by
    rw [List.zipIdx_succ, List.map_map, List.map_map]
    rfl
  rw [contentLines, List.zipIdx_cons, List.map_cons, Nat.zero_add, later, List.filter_cons,
    List.filter_map]
  by_cases blank : isBlank text = true
  · simp [blank, contentLines, Function.comp_def, Line.renumber]
  · simp [blank, contentLines, Function.comp_def, Line.renumber]

variable {gap : List (List Char)} {gaps : List (List (List Char))}

theorem contentLines_append (blank : ∀ line ∈ gap, isBlank line = true)
    (texts : List (List Char)) : contentLines (gap ++ texts) =
      (contentLines texts).map (Line.renumber (· + gap.length)) := by
  induction gap with
  | nil => exact (List.map_id' _).symm
  | cons line gap ih =>
      rw [List.forall_mem_cons] at blank
      rw [List.cons_append, contentLines_cons, if_pos blank.1, ih blank.2, List.nil_append,
        List.map_map]
      rfl

theorem shown_append (gap : List (List Char)) (present : texts ≠ []) :
    shown (gap ++ texts) = gap.map (fun line => dropReturn (dropReturn line)) ++ shown texts := by
  induction gap with
  | nil => rfl
  | cons line gap ih =>
      rw [List.cons_append, shown_cons line (List.append_ne_nil_of_right_ne_nil gap present), ih]
      rfl

@[simp]
theorem movedBy_succ (gap : List (List Char)) (gaps : List (List (List Char))) (number : Nat) :
    movedBy (gap :: gaps) (number + 1) = movedBy gaps number + 1 + gap.length := by
  rw [movedBy, movedBy, List.take_succ_cons, List.flatten_cons, List.length_append]
  omega

@[simp]
theorem interleave_cons (gap : List (List Char)) (gaps : List (List (List Char)))
    (text : List Char) (texts : List (List Char)) :
    interleave (gap :: gaps) (text :: texts) = gap ++ text :: interleave gaps texts := by
  simp [interleave]

theorem interleave_ne_nil (same : gaps.length = texts.length) (present : texts ≠ []) :
    interleave gaps texts ≠ [] := by
  cases texts with
  | nil => exact absurd rfl present
  | cons text texts =>
      cases gaps with
      | nil => cases same
      | cons gap gaps =>
          rw [interleave_cons]
          exact List.append_ne_nil_of_right_ne_nil gap (List.cons_ne_nil _ _)

theorem renumber_comp (place other : Nat → Nat) :
    Line.renumber place ∘ Line.renumber other = Line.renumber (place ∘ other) := rfl

theorem contentLines_cons_moved {gaps : List (List (List Char))} {texts others : List (List Char)}
    (gap : List (List Char)) (text : List Char)
    (rest : contentLines others = (contentLines texts).map (Line.renumber (movedBy gaps))) :
    (contentLines (text :: others)).map (Line.renumber (· + gap.length)) =
      (contentLines (text :: texts)).map (Line.renumber (movedBy (gap :: gaps))) := by
  have later : ((· + gap.length) ∘ Nat.succ) ∘ movedBy gaps =
      movedBy (gap :: gaps) ∘ Nat.succ := by
    funext number
    exact (movedBy_succ gap gaps number).symm
  have first : 1 + gap.length = movedBy (gap :: gaps) 1 := by simp [movedBy]
  rw [contentLines_cons, contentLines_cons, rest, List.map_append, List.map_append, List.map_map,
    List.map_map, List.map_map, renumber_comp, renumber_comp, renumber_comp, later]
  congr 1
  split
  · rfl
  · rw [List.map_singleton, List.map_singleton, Line.renumber, Line.renumber, first]

theorem contentLines_interleave (same : gaps.length = texts.length)
    (blank : ∀ gap ∈ gaps, BlankLines gap) : contentLines (shown (interleave gaps texts)) =
      (contentLines (shown texts)).map (Line.renumber (movedBy gaps)) := by
  induction gaps generalizing texts with
  | nil =>
      cases texts with
      | nil => rfl
      | cons text texts => cases same
  | cons gap gaps ih =>
      cases texts with
      | nil => cases same
      | cons text texts =>
          rw [List.forall_mem_cons] at blank
          have blankGap : ∀ line ∈ gap.map (fun line => dropReturn (dropReturn line)),
              isBlank line = true := by
            rw [List.forall_mem_map]
            intro line member
            exact isBlank_dropReturn (isBlank_dropReturn (blank.1 line member).1)
          have rest := ih (Nat.succ.inj same) blank.2
          rw [interleave_cons, shown_append gap (List.cons_ne_nil _ _),
            contentLines_append blankGap, List.length_map]
          by_cases last : texts = []
          · -- The last line shows as it did, for nothing is put in behind it.
            subst last
            rw [List.eq_nil_of_length_eq_zero (Nat.succ.inj same)] at rest ⊢
            show (contentLines (shown [text])).map _ = _
            rw [shown]
            split
            · rfl
            · exact contentLines_cons_moved gap _ rfl
          · rw [shown_cons text last, shown_cons text (interleave_ne_nil (Nat.succ.inj same) last)]
            exact contentLines_cons_moved gap _ rest

theorem length_shown_interleave (same : gaps.length = texts.length) (present : texts ≠ []) :
    (shown (interleave gaps texts)).length + 1 = movedBy gaps ((shown texts).length + 1) := by
  induction texts generalizing gaps with
  | nil => exact absurd rfl present
  | cons text texts ih =>
      cases gaps with
      | nil => cases same
      | cons gap gaps =>
          rw [interleave_cons, shown_append gap (List.cons_ne_nil _ _), List.length_append,
            List.length_map, movedBy_succ]
          by_cases last : texts = []
          · subst last
            rw [List.eq_nil_of_length_eq_zero (Nat.succ.inj same)]
            show gap.length + (shown [text]).length + 1 = _
            rw [movedBy]
            simp
            omega
          · have rest := ih (Nat.succ.inj same) last
            rw [shown_cons text last, shown_cons text (interleave_ne_nil (Nat.succ.inj same) last),
              List.length_cons, List.length_cons, ← rest]
            omega

theorem free_interleave (blank : ∀ gap ∈ gaps, BlankLines gap)
    (free : ∀ line ∈ texts, '\n' ∉ line) : ∀ line ∈ interleave gaps texts, '\n' ∉ line := by
  intro line member
  rcases List.mem_flatten.mp member with ⟨part, listed, inside⟩
  rcases List.mem_iff_getElem.mp listed with ⟨index, bound, rfl⟩
  rw [List.getElem_zipWith, List.mem_append, List.mem_singleton] at inside
  rcases inside with filling | rfl
  · exact (blank _ (List.getElem_mem _) line filling).2
  · exact free _ (List.getElem_mem _)

end LineEnds

theorem ofText_eq_of_shown (source : List Char) : ofText (String.ofList source) =
    ofLines ((shown (source.splitOn '\n')).length + 1)
      (contentLines (shown (source.splitOn '\n'))) := by
  have shows : (lines source).map dropReturn = shown (source.splitOn '\n') := by
    rw [← map_dropReturn_lines (free_splitOn source), List.intercalate_splitOn]
  have length : (numberedLines source).length = (shown (source.splitOn '\n')).length := by
    rw [← shows, numberedLines]
    simp
  rw [ofText, String.toList_ofList, filter_numberedLines, shows, length]

/--
Carriage returns before the line feeds make no difference, and further blank lines none but to the
numbers of the lines below them, which are those that the lines then have.
-/
theorem ofText_spread (source : String) :
    ('\r' ∉ source.toList → ofText (String.ofList (returned source.toList)) = ofText source) ∧
      ∀ gaps : List (List (List Char)), gaps.length = (source.toList.splitOn '\n').length →
        (∀ gap ∈ gaps, BlankLines gap) →
          ofText (String.ofList (spread gaps source.toList)) =
            Reading.moved (movedBy gaps) (renumber (movedBy gaps)) (ofText source) := by
  constructor
  · intro free
    rw [ofText, ofText, String.toList_ofList, numberedLines, numberedLines, lines_returned _ free]
  · intro gaps same blank
    have free := free_splitOn source.toList
    have present : source.toList.splitOn '\n' ≠ [] := List.splitOn_ne_nil _ _
    have cut : (spread gaps source.toList).splitOn '\n' =
        interleave gaps (source.toList.splitOn '\n') :=
      List.splitOn_intercalate '\n' (free_interleave blank free) (interleave_ne_nil same present)
    have read := ofText_eq_of_shown source.toList
    rw [String.ofList_toList] at read
    rw [ofText_eq_of_shown, cut, length_shown_interleave same present,
      contentLines_interleave same blank, ofLines_renumber, read]

def digitRule : String := "\x7bd\x7d 0\n%X S\n%L A\n<S>\x7bd\x7d\n\x7b\nA\n\x7d"

def digitSpecification (declared begins : Nat) : Specification where
  definitions := ⟨[("d", "0")]⟩
  definitionLines := [("d", declared)]
  states := ["S"]
  units := ["A"]
  rules := [⟨"S", "\x7bd\x7d", "A", [], begins⟩]

def digitGaps : List (List (List Char)) :=
  [[[], [' ', '\t']], [], [], [['\r']], [], [['\r']], []]

theorem ofText_spread_block :
    '\r' ∉ digitRule.toList ∧
      ofText "\x7bd\x7d 0\r\n%X S\r\n%L A\r\n<S>\x7bd\x7d\r\n\x7b\r\nA\r\n\x7d" =
        .ok (digitSpecification 1 4) ∧
      digitGaps.length = (digitRule.toList.splitOn '\n').length ∧
      (∀ gap ∈ digitGaps, BlankLines gap) ∧
      ofText "\n \t\n\x7bd\x7d 0\n%X S\n%L A\n\r\n<S>\x7bd\x7d\n\x7b\n\r\nA\n\x7d" =
        .ok (digitSpecification 3 7) := by
  have read : ofText digitRule = .ok (digitSpecification 1 4) := by cbv
  have free : '\r' ∉ digitRule.toList := by decide
  have same : digitGaps.length = (digitRule.toList.splitOn '\n').length := by decide
  have blank : ∀ gap ∈ digitGaps, BlankLines gap := by decide
  rcases ofText_spread digitRule with ⟨ends, gaps⟩
  have moved := gaps digitGaps same blank
  rw [read] at moved
  exact ⟨free, (ends free).trans read, same, blank, moved⟩

end Specification

end MaximalMunch
