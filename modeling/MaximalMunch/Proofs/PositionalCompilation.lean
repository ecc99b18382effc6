import MaximalMunch.Proofs.PatternFaults
import MaximalMunch.Proofs.PositionalLayout

/-!
Compiling a text by positions is compiling it: no access fails, whatever the text and the
definitions are, and the graph, the fragment and the faults are the same. Going over escapes from
left to right and counting backslashes backwards agree on every character.
-/

namespace MaximalMunch

namespace Positional

open Choice

/-- The text begins with a parenthesis without partner, or it is a lone backslash. -/
inductive Faulty : FaultKind → List Char → Prop
  | paren (rest : List Char) : Faulty .unmatchedParen (')' :: rest)
  | group {rest : List Char} (never : Brackets.round.Unclosed rest) :
      Faulty .unclosedGroup ('(' :: rest)
  | escape : Faulty .danglingEscape ['\\']

section Faults

variable {whole slice rest text : List Char} {base place limit less : Nat} {graph : Graph}
  {work : Work} {kind : FaultKind} {items : List Pattern} {starts : List Start}

theorem Faulty.head_ne (faulty : Faulty kind rest) : rest.head? ≠ some '*' := by
  cases faulty <;> simp

theorem Recorded.mono (recorded : Recorded whole limit starts) (le : less ≤ limit) :
    Recorded whole less starts :=
  ⟨recorded.sound, fun position before => recorded.noted position (Nat.lt_of_lt_of_le before le)⟩

theorem Site.not_matched (site : Site whole base slice place ('(' :: rest))
    (ending : whole.length = base + slice.length) (never : Brackets.round.Unclosed rest)
    (last : Nat) : ¬ Brackets.round.Matched whole (base + place) last := by
  rcases site with ⟨⟨before, after, rfl, rfl, complete⟩, front, rfl, rfl, later⟩
  have nothing : after = [] := by
    simp only [List.length_append] at ending
    exact List.length_eq_zero_iff.mp (by omega)
  subst nothing
  intro matched
  rw [List.append_nil, ← List.append_assoc, ← List.length_append] at matched
  rcases (Brackets.matched_length_iff (complete.append later)).mp matched with
    ⟨inside, beyond, split, balanced, -⟩
  exact never inside beyond split balanced

theorem Site.findClosing_none (site : Site whole base slice place ('(' :: rest))
    (never : Brackets.round.Unclosed rest) : findClosing .round slice place = .ok none := by
  rcases site.places with ⟨front, rfl, rfl, complete⟩
  exact findClosing_unclosed complete never

theorem Faulty.sound (faulty : Faulty kind rest) (site : Site whole base slice place rest)
    (ending : kind ≠ .unmatchedParen → whole.length = base + slice.length) :
    Start.Sound whole ⟨base, slice, place⟩ := by
  cases faulty with
  | paren rest => exact site.sound_of_ne (by decide)
  | @group rest never =>
      apply site.sound
      intro _
      refine ⟨none, site.findClosing_none never, ?_⟩
      intro last
      constructor
      · intro matched
        exact absurd matched (site.not_matched (ending (by decide)) never last)
      · intro found
        cases found
  | escape => exact site.sound_of_ne (by decide)

/-- At a fault the run stops, and the item that is faulty is noted. -/
theorem runs_faulty (faulty : Faulty kind rest) (site : Site whole base slice place rest)
    (ending : kind ≠ .unmatchedParen → whole.length = base + slice.length)
    (midway : Midway whole (base + place) graph work) :
    ∃ later, Runs (atom slice base place) work (.error (base + place, kind)) later ∧
      Midway whole (base + place) graph later := by
  rcases midway with ⟨rfl, recorded⟩
  have noted := recorded.note (faulty.sound site ending) rfl
  refine ⟨⟨work.graph, ⟨base, slice, place⟩ :: work.starts⟩, ?_, rfl,
    noted.mono (Nat.le_succ _)⟩
  rw [atom]
  apply (runs_note _ work).bind
  cases faulty with
  | paren rest =>
      apply Runs.access site.charAt_eq
      exact .throw _ _
  | @group rest never =>
      apply Runs.access site.charAt_eq
      apply Runs.access (site.findClosing_none never)
      exact .throw _ _
  | escape =>
      have ended : slice[place + 1]? = none := site.getElem?_eq 1
      apply Runs.access site.charAt_eq
      simp only [ended]
      exact .throw _ _

theorem runs_sequence_faulty (laid : RunsSequence text items) (complete : Complete text)
    (faulty : Faulty kind rest) (site : Site whole base (text ++ rest) 0 (text ++ rest))
    (ending : kind ≠ .unmatchedParen → whole.length = base + (text ++ rest).length)
    (midway : Midway whole base graph work) :
    ∃ later, Runs (sequence (text ++ rest) base) work (.error (base + text.length, kind)) later ∧
      Midway whole (base + text.length)
        (graph.addEnds.1.addItems graph.addEnds.2.entry items).1 later := by
  rcases midway with ⟨rfl, recorded⟩
  have entry := entry_lt_addEnds work.graph
  have begun : Midway whole (base + 0) work.graph.addEnds.1
      ⟨work.graph.addEnds.1, work.starts⟩ := ⟨rfl, recorded⟩
  rcases laid whole base (text ++ rest) 0 rest _ _ _ site begun faulty.head_ne entry with
    ⟨middle, behind, onward⟩
  rw [Nat.zero_add] at behind onward
  have fault := site.advance complete
  rw [Nat.zero_add] at fault
  rcases runs_faulty faulty fault ending behind with ⟨later, stops, stands⟩
  have inside : text.length < (text ++ rest).length := by
    cases faulty <;> simp
  refine ⟨later, ?_, stands⟩
  rw [sequence]
  apply (runs_addEnds work).bind
  apply Runs.stop
  apply onward
  rw [Positional.items, if_pos inside]
  exact stops.stop

/-- The faulty text up to its first bar outside of groups, and what comes after. -/
structure Cut (kind : FaultKind) (rest piece beyond : List Char) : Prop where
  rest_eq : rest = piece ++ beyond
  faulty : Faulty kind piece
  single : barFollows 0 (Glyph.ofChars piece) = false
  more : beyond = [] ↔ barFollows 0 (Glyph.ofChars rest) = false
  ending : kind ≠ .unmatchedParen → beyond = []
  ranges : ∀ front start, Complete front → ∃ others, (others = [] ↔ beyond = []) ∧
    splitChoicesFrom (front ++ rest) 0 start front.length =
      .ok ((start, front.length + piece.length) :: others)

/-- Only behind a closing parenthesis a bar can seem to stand outside of groups. -/
theorem Faulty.eq_of_barFollows (faulty : Faulty kind rest)
    (follows : barFollows 0 (Glyph.ofChars rest) = true) :
    kind = .unmatchedParen ∧ rest.head? = some ')' := by
  cases faulty with
  | paren rest => exact ⟨rfl, rfl⟩
  | @group rest never =>
      rw [Glyph.ofChars_plain _ (by decide), barFollows,
        barFollows_of_unclosed never (by decide)] at follows
      cases follows
  | escape => cases follows

theorem exists_cut (faulty : Faulty kind rest) : ∃ piece beyond, Cut kind rest piece beyond := by
  cases follows : barFollows 0 (Glyph.ofChars rest) with
  | false =>
      refine ⟨rest, [], (List.append_nil rest).symm, faulty, follows, by simp [follows],
        fun _ => rfl, ?_⟩
      intro front start complete
      refine ⟨[], by simp, ?_⟩
      rw [splitChoicesFrom_single follows complete, List.length_append]
  | true =>
      rcases faulty.eq_of_barFollows follows with ⟨rfl, head⟩
      rcases exists_bar follows with ⟨piece, back, rfl, crosses⟩
      -- The parenthesis stands before the bar, so it ends the run in the choice that it begins.
      have begins : Faulty .unmatchedParen piece := by
        cases piece with
        | nil => cases head
        | cons first piece =>
            cases head
            exact .paren piece
      have single : barFollows 0 (Glyph.ofChars piece) = false := by
        rw [← List.append_nil piece, crosses.bars]
        rfl
      refine ⟨piece, '|' :: back, rfl, begins, single, by simp [follows],
        fun other => absurd rfl other, ?_⟩
      intro front start complete
      have before := (complete.append crosses.complete).append complete_bar
      rcases exists_splitChoicesFrom back 0 before (front.length + piece.length + 1) with
        ⟨stop, others, later⟩
      simp only [List.append_assoc, List.singleton_append, List.length_append,
        List.length_singleton] at later
      refine ⟨(front.length + piece.length + 1, stop) :: others, by simp,
        (splitChoicesFrom_bar crosses complete back start).trans ?_⟩
      rw [Nat.add_assoc]
      exact congrArg _ later

variable {earlier : List Choice} {choice : Choice} {piece beyond : List Char}

theorem site_self (text : List Char) : Site text 0 text 0 text :=
  ⟨⟨[], [], by simp, rfl, complete_nil⟩, [], rfl, rfl, complete_nil⟩

theorem midway_zero (text : List Char) (graph : Graph) : Midway text 0 graph ⟨graph, []⟩ :=
  ⟨rfl, fun _ member => absurd member List.not_mem_nil,
    fun _ before => absurd before (Nat.not_lt_zero _)⟩

theorem Cut.single_append (cut : Cut kind rest piece beyond) (laid : choice.Laid) :
    barFollows 0 (Glyph.ofChars (choice.text ++ piece)) = false := by
  rw [laid.crosses.bars]
  exact cut.single

theorem Cut.splitChoices_eq (cut : Cut kind rest piece beyond)
    (laid : ∀ choice ∈ earlier, choice.Laid) (last : choice.Laid) :
    ∃ others, (others = [] ↔ beyond = []) ∧
      splitChoices (ended earlier ++ (choice.text ++ rest)) =
        .ok (Choice.ranges 0 earlier ++ ((ended earlier).length,
          (ended earlier).length + (choice.text ++ piece).length) :: others) := by
  have complete := complete_ended laid
  rcases cut.ranges (ended earlier ++ choice.text) (ended earlier).length
    (complete.append last.crosses.complete) with ⟨others, same, found⟩
  refine ⟨others, same, ?_⟩
  have passed := splitChoicesFrom_ended laid complete_nil (choice.text ++ rest)
  have crossed := last.crosses.ranges (ended earlier) rest (ended earlier).length complete
  rw [List.append_assoc, List.length_append] at found
  rw [List.nil_append, List.length_nil, Nat.zero_add, crossed, found] at passed
  rw [List.length_append, ← Nat.add_assoc]
  exact passed

theorem runs_choices_single_faulty (last : choice.Laid) (faulty : Faulty kind rest)
    (single : barFollows 0 (Glyph.ofChars rest) = false) (graph : Graph) :
    ∃ later, Runs (choices (choice.text ++ rest) 0) ⟨graph, []⟩
        (.error (choice.text.length, kind)) later ∧
      Midway (choice.text ++ rest) choice.text.length
        (graph.addEnds.1.addItems graph.addEnds.2.entry choice.items).1 later := by
  have site := site_self (choice.text ++ rest)
  have begun := midway_zero (choice.text ++ rest) graph
  have one : barFollows 0 (Glyph.ofChars (choice.text ++ rest)) = false := by
    rw [last.crosses.bars]
    exact single
  rcases runs_sequence_faulty last.runs last.crosses.complete faulty site
    (fun _ => (Nat.zero_add _).symm) begun with ⟨later, stops, stands⟩
  rw [Nat.zero_add] at stops stands
  exact ⟨later, runs_choices_single one stops, stands⟩

theorem runs_alternative_faulty {start : Nat} {ends : Fragment} (last : choice.Laid)
    (cut : Cut kind rest piece beyond)
    (site : Site whole base slice start (choice.text ++ piece ++ beyond))
    (shorter : (choice.text ++ piece).length < slice.length)
    (ending : kind ≠ .unmatchedParen →
      whole.length = base + start + (choice.text ++ piece).length)
    (midway : Midway whole (base + start) graph work) :
    ∃ later, Midway whole (base + start + choice.text.length)
        (graph.addEnds.1.addItems graph.addEnds.2.entry choice.items).1 later ∧
      ∀ others, Runs (alternatives slice base ends
        ((start, start + (choice.text ++ piece).length) :: others)) work
          (.error (base + start + choice.text.length, kind)) later := by
  rcases runs_sequence_faulty last.runs last.crosses.complete cut.faulty site.part ending midway
    with ⟨later, stops, stands⟩
  refine ⟨later, stands, ?_⟩
  intro others
  rw [alternatives]
  apply Runs.access (portion_eq site.slice_eq shorter)
  apply Runs.stop
  exact runs_choices_single (cut.single_append last) stops

theorem runs_choices_several_faulty (laid : ∀ choice ∈ earlier, choice.Laid) (last : choice.Laid)
    (cut : Cut kind rest piece beyond) (several : earlier ≠ [] ∨ beyond ≠ [])
    (text_eq : text = ended earlier ++ (choice.text ++ rest)) (graph : Graph) {chosen : Graph}
    (chosen_eq : chosen = graph.addEnds.1.addChoices graph.addEnds.2 (earlier.map pattern)) :
    ∃ later, Runs (choices text 0) ⟨graph, []⟩
        (.error ((ended earlier).length + choice.text.length, kind)) later ∧
      Midway text ((ended earlier).length + choice.text.length)
        (chosen.addEnds.1.addItems chosen.addEnds.2.entry choice.items).1 later := by
  subst chosen_eq
  rcases cut.splitChoices_eq laid last with ⟨others, same, found⟩
  have begun : Midway text (0 + 0) graph.addEnds.1 ⟨graph.addEnds.1, []⟩ :=
    ⟨rfl, (midway_zero text graph).recorded⟩
  rw [← text_eq] at found
  rw [cut.rest_eq, ← List.append_assoc choice.text] at text_eq
  have site : Site text 0 text 0 (ended earlier ++ (choice.text ++ piece ++ beyond)) := by
    rw [← text_eq]
    exact site_self text
  rcases runs_alternatives laid site begun (entry_lt_addEnds graph) with
    ⟨middle, behind, onward⟩
  have here := site.advance (complete_ended laid)
  rw [Nat.zero_add] at behind here
  have length := here.length_eq
  rw [List.length_append] at length
  -- Something stands before the choice or behind it, so that the run on its slice ends.
  have shorter : (choice.text ++ piece).length < text.length := by
    rcases several with present | present
    · have positive := length_ended_pos present
      omega
    · have positive := List.length_pos_iff.mpr present
      omega
  have ending : kind ≠ .unmatchedParen →
      text.length = 0 + (ended earlier).length + (choice.text ++ piece).length := by
    intro other
    rw [length, cut.ending other, List.length_nil]
    omega
  rcases runs_alternative_faulty last cut here shorter ending behind with ⟨later, stands, stops⟩
  rw [Nat.zero_add] at stops stands
  have split : earlier ≠ [] ∨ others ≠ [] := several.imp id same.not.mpr
  refine ⟨later, ?_, stands⟩
  rw [choices]
  apply Runs.access found
  rw [if_neg (length_ranges_ne_one split 0 _)]
  apply (runs_addEnds _).bind
  apply Runs.stop
  exact onward _ _ _ (stops others)

end Faults

section Texts

variable {text : String} {rest front : List Char} {kind : FaultKind} {draft : Draft}
  {pattern : Pattern}

theorem readFrom_faulty (faulty : Faulty kind rest) (position : Nat) (level : Level) :
    Pattern.readFrom position level [] (Glyph.ofChars rest) =
      .error (level.draft (barFollows 0 (Glyph.ofChars rest)) position kind) := by
  cases faulty with
  | paren rest => rfl
  | @group rest never =>
      rw [Glyph.ofChars_plain _ (by decide), Pattern.readFrom_opening,
        Pattern.readFrom_unclosed never rfl, barFollows, barFollows_of_unclosed never (by decide)]
  | escape => rfl

theorem ofChoices_inj {choices others : List Pattern} {items otherItems : List Pattern}
    (same : Pattern.ofChoices (choices ++ [.sequence items]) =
      Pattern.ofChoices (others ++ [.sequence otherItems])) :
    choices = others ∧ items = otherItems := by
  by_cases single : choices = []
  · by_cases otherSingle : others = []
    · subst single otherSingle
      cases same
      exact ⟨rfl, rfl⟩
    · subst single
      rw [ofChoices_concat otherSingle] at same
      cases same
  · by_cases otherSingle : others = []
    · subst otherSingle
      rw [ofChoices_concat single] at same
      cases same
    · rw [ofChoices_concat single, ofChoices_concat otherSingle] at same
      rcases List.append_inj' (Pattern.choice.inj same) rfl with ⟨front, back⟩
      cases back
      exact ⟨front, rfl⟩

theorem exists_derives (balanced : Brackets.round.Balanced front) :
    ∃ patterns, Derives .choices front patterns := by
  rcases Pattern.readFrom_balanced balanced 0 {} [] [] with ⟨last, read⟩
  rw [List.append_nil] at read
  have accepted : Pattern.readFrom 0 {} [] (Glyph.ofChars front) = .ok last.close := read
  rcases remaining_of_readFrom accepted with ⟨choices, finishes, -⟩
  rcases Level.finishes_fresh rfl finishes with ⟨patterns, derived, -⟩
  exact ⟨patterns, derived⟩

/-- A text is a pattern, or it has a faulty end behind a pattern. -/
theorem balanced_or_faulty (text : List Char) : Brackets.round.Balanced text ∨
    ∃ front rest kind, text = front ++ rest ∧ Brackets.round.Balanced front ∧ Faulty kind rest := by
  cases Brackets.round.shape text with
  | balanced whole => exact .inl whole
  | closing before rest => exact .inr ⟨_, _, _, rfl, before, .paren rest⟩
  | opening before never => exact .inr ⟨_, _, _, rfl, before, .group never⟩
  | dangling before => exact .inr ⟨_, _, _, rfl, before, .escape⟩

theorem runs_choices_ok (read : Pattern.read text = .ok pattern) (graph : Graph) :
    ∃ later, Runs (choices text.toList 0) ⟨graph, []⟩ (.ok (graph.addPattern pattern).2) later ∧
      Midway text.toList text.toList.length (graph.addPattern pattern).1 later := by
  rcases read_eq_ok_iff.mp read with ⟨patterns, derived, rfl⟩
  rcases runsPart derived with ⟨earlier, last, divided⟩
  rcases divided.runsGroup text.toList 0 graph _ (site_self _) (midway_zero _ graph) with
    ⟨later, runs, behind⟩
  rw [Nat.zero_add] at behind
  exact ⟨later, runs, behind⟩

theorem Divided.draft_eq {patterns : List Pattern} {earlier : List Choice} {last : Choice}
    (divided : Divided front patterns earlier last) {level : Level}
    (closed : level.close = .ofChoices patterns) (more : Bool) (position : Nat) :
    level.draft more position kind =
      ⟨earlier.map Choice.pattern, last.items, more || !earlier.isEmpty, position, kind⟩ := by
  rw [level.close_eq, divided.patterns_eq] at closed
  rcases ofChoices_inj closed with ⟨choices, items⟩
  have empty : level.choices.isEmpty = earlier.isEmpty := by
    rw [← List.isEmpty_reverse, choices, List.isEmpty_map]
  rw [Level.draft, choices, items, empty]

theorem addDraft_eq (graph : Graph) (draft : Draft) :
    graph.addDraft draft =
      let chosen := if draft.alternation then
        graph.addEnds.1.addChoices graph.addEnds.2 draft.choices else graph
      (chosen.addEnds.1.addItems chosen.addEnds.2.entry draft.items).1 :=
  rfl

theorem runs_choices_faulty {text : List Char} {patterns : List Pattern} {earlier : List Choice}
    {last : Choice} (divided : Divided front patterns earlier last) (faulty : Faulty kind rest)
    (text_eq : text = front ++ rest) (graph : Graph) :
    ∃ later, Runs (choices text 0) ⟨graph, []⟩ (.error (front.length, kind)) later ∧
      Midway text front.length (graph.addDraft ⟨earlier.map Choice.pattern, last.items,
        barFollows 0 (Glyph.ofChars rest) || !earlier.isEmpty, front.length, kind⟩) later := by
  rcases exists_cut faulty with ⟨piece, beyond, cut⟩
  have length : front.length = (ended earlier).length + last.text.length := by
    rw [divided.text_eq, List.length_append]
  rw [divided.text_eq, List.append_assoc] at text_eq
  by_cases several : earlier ≠ [] ∨ beyond ≠ []
  · have alternation : (barFollows 0 (Glyph.ofChars rest) || !earlier.isEmpty) = true := by
      rw [cut.more.ne, Bool.ne_false_iff] at several
      rw [Bool.or_eq_true, Bool.not_eq_true', List.isEmpty_eq_false_iff]
      exact several.symm
    rw [alternation, addDraft_eq, length]
    exact runs_choices_several_faulty divided.earlier divided.last cut several text_eq graph rfl
  · push Not at several
    rcases several with ⟨rfl, nothing⟩
    have single := cut.more.mp nothing
    rw [single, addDraft_eq, length]
    have alone : text = last.text ++ rest := text_eq
    have behind : (ended []).length + last.text.length = last.text.length := Nat.zero_add _
    rw [alone, behind]
    exact runs_choices_single_faulty divided.last faulty single graph

theorem runs_choices_error (read : Pattern.read text = .error draft) (graph : Graph) :
    draft.position ≤ text.toList.length ∧ ∃ later, Runs (choices text.toList 0) ⟨graph, []⟩
        (.error (draft.position, draft.kind)) later ∧
      Midway text.toList draft.position (graph.addDraft draft) later := by
  rcases balanced_or_faulty text.toList with
    balanced | ⟨front, rest, kind, text_eq, balanced, faulty⟩
  · rcases exists_derives balanced with ⟨patterns, derived⟩
    rw [read_of_derives derived] at read
    cases read
  · rcases exists_derives balanced with ⟨patterns, derived⟩
    rcases runsPart derived with ⟨earlier, last, divided⟩
    rcases derived.reads 0 {} [] rest (by simp [Level.Open]) rfl faulty.head_ne with
      ⟨level, closed, readFront⟩
    rw [Pattern.read, text_eq, readFront, readFrom_faulty faulty, divided.draft_eq closed,
      Nat.zero_add] at read
    rcases Except.error.inj read with rfl
    refine ⟨?_, runs_choices_faulty divided faulty text_eq graph⟩
    rw [text_eq, List.length_append]
    exact Nat.le_add_right _ _

end Texts

/-- How far the items of a text are gone over: to its end, or to its fault. -/
def reach (text : List Char) : Except PatternError Fragment → Nat
  | .error (.malformed _ position _) => position
  | _ => text.length

theorem Start.Sound.getElem?_eq {text : List Char} {start : Start} (sound : start.Sound text) :
    text[start.position]? = start.slice[start.place]? := by
  rcases sound.within with ⟨after, split⟩
  rw [← List.getElem?_append_left sound.inside, split, List.getElem?_drop]
  rfl

theorem Start.Sound.not_escaped {text : List Char} {start : Start} (sound : start.Sound text) :
    ¬ Escaped text start.position := by
  have inside := Nat.le_of_lt sound.inside
  have free : ¬ Escaped start.slice start.place := by
    have even := sound.even
    rw [Escaped]
    omega
  have same := sound.alike start.place inside
  have within : start.position < text.length := by
    have stands := sound.getElem?_eq
    rw [List.getElem?_eq_getElem sound.inside] at stands
    exact (List.getElem?_eq_some_iff.mp stands).1
  rw [isEscaped_eq inside, decide_eq_false free] at same
  intro escaped
  have counted : isEscaped text start.position = .ok true := by
    rw [isEscaped_eq (Nat.le_of_lt within), decide_eq_true escaped]
  cases same.trans counted

/-- An escape is consumed from left to right exactly where backslashes are counted to one. -/
theorem Recorded.isEscaped_iff {text : List Char} {limit : Nat} {starts : List Start}
    (recorded : Recorded text limit starts) (inside : limit ≤ text.length) {position : Nat}
    (before : position ≤ limit) :
    isEscaped text position = .ok true ↔
      ∃ start ∈ starts, start.slice[start.place]? = some '\\' ∧ start.position + 1 = position := by
  rw [isEscaped_eq (Nat.le_trans before inside), Except.ok.injEq, decide_eq_true_eq]
  constructor
  · intro escaped
    cases position with
    | zero => exact absurd escaped (not_escaped_zero text)
    | succ place =>
        have stands : text[place]? = some text[place] := List.getElem?_eq_getElem (by omega)
        have backslash : text[place] = '\\' := by
          by_contra other
          exact not_escaped_succ stands other escaped
        rw [backslash] at stands
        have bare : Bare text '\\' place := ⟨stands, (escaped_succ stands).mp escaped⟩
        rcases recorded.noted place before bare with ⟨start, listed, rfl⟩
        refine ⟨start, listed, ?_, rfl⟩
        rw [← (recorded.sound start listed).getElem?_eq]
        exact stands
  · intro consumed
    rcases consumed with ⟨start, listed, stands, rfl⟩
    have sound := recorded.sound start listed
    rw [← sound.getElem?_eq] at stands
    exact (escaped_succ stands).mpr sound.not_escaped

/-- A compilation is the run over the expansion, with its faults told as errors. -/
theorem compile_of_runs {graph : Graph} {text normalized : String}
    {outcome : Except (Nat × FaultKind) Fragment} {later : Work}
    (substituted : graph.definitions.substitute text = .ok normalized)
    (runs : Runs (choices normalized.toList 0) ⟨graph, []⟩ outcome later) :
    compile graph text = .ok ⟨later.graph,
      outcome.mapError fun fault => .malformed normalized fault.1 fault.2, later.starts⟩ := by
  have follows := substitute_follows graph.definitions text
  unfold Follows at follows
  rw [substituted] at follows
  rw [compile, follows]
  unfold Runs at runs
  show ((choices normalized.toList 0).run.run ⟨graph, []⟩ >>= _) = _
  rw [runs]
  rfl

theorem compile_eq (graph : Graph) (text : String) :
    ∃ compiled, compile graph text = .ok compiled ∧
      (compiled.graph, compiled.result) = graph.compile text ∧
      ∀ normalized, graph.definitions.substitute text = .ok normalized →
        reach normalized.toList compiled.result ≤ normalized.toList.length ∧
          Recorded normalized.toList (reach normalized.toList compiled.result)
            compiled.starts := by
  cases substituted : graph.definitions.substitute text with
  | error fault =>
      have follows := substitute_follows graph.definitions text
      unfold Follows at follows
      rw [compile, follows, substituted]
      refine ⟨_, rfl, ?_, ?_⟩
      · simp [Graph.compile, substituted]
      · intro normalized other
        cases other
  | ok normalized =>
      cases read : Pattern.read normalized with
      | ok pattern =>
          rcases runs_choices_ok read graph with ⟨later, runs, behind⟩
          refine ⟨_, compile_of_runs substituted runs, ?_, ?_⟩
          · rw [behind.graph, Graph.compile_of_read substituted read]
            rfl
          · intro other same
            cases same
            exact ⟨Nat.le_refl _, behind.recorded⟩
      | error draft =>
          rcases runs_choices_error read graph with ⟨inside, later, runs, behind⟩
          refine ⟨_, compile_of_runs substituted runs, ?_, ?_⟩
          · rw [behind.graph, Graph.compile_of_draft substituted read]
            rfl
          · intro other same
            cases same
            exact ⟨inside, behind.recorded⟩

/--
No access fails while a text is expanded, a table is resolved or a pattern is compiled, and the
results are those of reading glyphs. From an opening bracket that is not escaped the search finds
its partner, or nothing if it has none. No item of a pattern starts behind an odd number of
backslashes of its slice, and a character is escaped if and only if an item takes it along, up to
the fault if there is one.
-/
theorem scanning_never_stumbles (table : DefinitionTable) (graph : Graph) (text : String) :
    (substitute table text).run = Except.ok <$> table.substitute text ∧
    (resolve table).run = Except.ok <$> table.resolve ∧
    (∀ (brackets : Brackets) (chars : List Char) (position : Nat),
      chars[position]? = some brackets.opening → isEscaped chars position = .ok false →
      ∃ found, findClosing brackets chars position = .ok found ∧
        ∀ last, brackets.Matched chars position last ↔ found = some last) ∧
    ∃ compiled, compile graph text = .ok compiled ∧
      (compiled.graph, compiled.result) = graph.compile text ∧
      ∀ normalized, graph.definitions.substitute text = .ok normalized →
        (∀ start ∈ compiled.starts, start.Sound normalized.toList) ∧
        ∀ position ≤ reach normalized.toList compiled.result,
          isEscaped normalized.toList position = .ok true ↔
            ∃ start ∈ compiled.starts, start.slice[start.place]? = some '\\' ∧
              start.position + 1 = position := by
  refine ⟨substitute_follows table text, resolve_follows table, ?_, ?_⟩
  · intro brackets chars position stands counted
    have inside : position < chars.length := (List.getElem?_eq_some_iff.mp stands).1
    rw [isEscaped_eq (Nat.le_of_lt inside), Except.ok.injEq, decide_eq_false_iff_not] at counted
    exact findClosing_eq ⟨stands, counted⟩
  · rcases compile_eq graph text with ⟨compiled, runs, same, recorded⟩
    refine ⟨compiled, runs, same, ?_⟩
    intro normalized substituted
    rcases recorded normalized substituted with ⟨inside, noted⟩
    exact ⟨noted.sound, fun position before => noted.isEscaped_iff inside before⟩

def withParenthesis : Graph where
  definitions := ⟨[("D", "0|\\(")]⟩

theorem scanning_never_stumbles_strays :
    withParenthesis.definitions.substitute "\\\\(a\\)|\x7bD\x7d)*)(" =
        .ok "\\\\(a\\)|(0|\\())*)(" ∧
      Brackets.round.Matched "\\\\(a\\)|(0|\\())*)(".toList 2 13 ∧
      ∃ compiled, compile withParenthesis "\\\\(a\\)|\x7bD\x7d)*)(" = .ok compiled ∧
        compiled.result = .error (.malformed "\\\\(a\\)|(0|\\())*)(" 15 .unmatchedParen) ∧
        ∃ start ∈ compiled.starts, start.position = 10 ∧
          start.Sound "\\\\(a\\)|(0|\\())*)(".toList := by
  have substituted : withParenthesis.definitions.substitute "\\\\(a\\)|\x7bD\x7d)*)(" =
      .ok "\\\\(a\\)|(0|\\())*)(" := by cbv
  have failed : (withParenthesis.compile "\\\\(a\\)|\x7bD\x7d)*)(").2 =
      .error (.malformed "\\\\(a\\)|(0|\\())*)(" 15 .unmatchedParen) := by cbv
  rcases scanning_never_stumbles {} withParenthesis "\\\\(a\\)|\x7bD\x7d)*)(" with
    ⟨-, -, partner, compiled, runs, same, classified⟩
  have result : compiled.result =
      .error (.malformed "\\\\(a\\)|(0|\\())*)(" 15 .unmatchedParen) :=
    (congrArg Prod.snd same).trans failed
  rcases classified _ substituted with ⟨sound, escapes⟩
  have found : findClosing .round "\\\\(a\\)|(0|\\())*)(".toList 2 = .ok (some 13) := by cbv
  rcases partner .round "\\\\(a\\)|(0|\\())*)(".toList 2 (by cbv) (by cbv) with
    ⟨place, searched, matched⟩
  cases searched.symm.trans found
  have within : 11 ≤ reach "\\\\(a\\)|(0|\\())*)(".toList compiled.result := by
    rw [result]
    decide
  rcases (escapes 11 within).mp (by cbv) with ⟨start, listed, -, behind⟩
  exact ⟨substituted, (matched 13).mpr rfl, compiled, runs, result, start, listed,
    Nat.succ.inj behind, sound start listed⟩

end Positional

end MaximalMunch
