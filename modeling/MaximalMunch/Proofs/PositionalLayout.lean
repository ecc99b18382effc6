import MaximalMunch.Proofs.PositionalPatterns

/-!
What is laid out of a text that derives a pattern is the fragment of that pattern. Wherever an item
starts, in whatever slice, no escape is open: the slice tells escaped characters and partners of
parentheses as the whole text does.
-/

namespace MaximalMunch

namespace Positional

/-- The slice of the whole text begins at `base`, and the rest of it at a place in the slice. -/
structure Site (whole : List Char) (base : Nat) (slice : List Char) (place : Nat)
    (rest : List Char) : Prop where
  slices : ∃ before after, whole = before ++ (slice ++ after) ∧ before.length = base ∧
    Complete before
  places : ∃ front, slice = front ++ rest ∧ front.length = place ∧ Complete front

structure Start.Sound (whole : List Char) (start : Start) : Prop where
  within : start.slice <+: whole.drop start.base
  inside : start.place < start.slice.length
  even : trailingBackslashes (start.slice.take start.place) % 2 = 0
  /-- The slice and the whole text agree on what is escaped. -/
  alike : ∀ place ≤ start.slice.length,
    isEscaped start.slice place = isEscaped whole (start.base + place)
  /-- The partner found in the slice is the one in the whole text. -/
  partner : start.slice[start.place]? = some '(' →
    ∃ found, findClosing .round start.slice start.place = .ok found ∧
      ∀ last, Brackets.round.Matched whole start.position last ↔
        found.map (start.base + ·) = some last

/-- Every backslash before the limit that takes a character along is the start of an item. -/
structure Recorded (whole : List Char) (limit : Nat) (starts : List Start) : Prop where
  sound : ∀ start ∈ starts, start.Sound whole
  noted : ∀ position < limit, Bare whole '\\' position →
    ∃ start ∈ starts, start.position = position

section Sites

variable {whole slice rest text : List Char} {base place limit position : Nat} {char : Char}
  {starts : List Start} {start : Start}

namespace Site

theorem advance (site : Site whole base slice place (text ++ rest)) (complete : Complete text) :
    Site whole base slice (place + text.length) rest := by
  rcases site.places with ⟨front, rfl, rfl, before⟩
  refine ⟨site.slices, front ++ text, ?_, ?_, before.append complete⟩
  · rw [List.append_assoc]
  · rw [List.length_append]

theorem next (site : Site whole base slice place (char :: rest)) (free : char ≠ '\\') :
    Site whole base slice (place + 1) rest :=
  advance (show Site whole base slice place ([char] ++ rest) from site) (complete_singleton free)

theorem append_nil (site : Site whole base slice place rest) :
    Site whole base slice place (rest ++ []) :=
  (List.append_nil rest).symm ▸ site

theorem part (site : Site whole base slice place (text ++ rest)) :
    Site whole (base + place) text 0 text := by
  rcases site with ⟨⟨before, after, rfl, rfl, complete⟩, front, rfl, rfl, later⟩
  refine ⟨⟨before ++ front, rest ++ after, ?_, ?_, complete.append later⟩, [], rfl, rfl,
    complete_nil⟩
  · simp only [List.append_assoc]
  · rw [List.length_append]

theorem slice_eq (site : Site whole base slice place (text ++ rest)) :
    Positional.slice slice place (place + text.length) = .ok text := by
  rcases site.places with ⟨front, rfl, rfl, -⟩
  rw [Positional.slice_eq (Nat.le_add_right _ _) (by simp), List.extract, Nat.add_sub_cancel_left,
    List.drop_left, List.take_left]

theorem length_eq (site : Site whole base slice place rest) :
    slice.length = place + rest.length := by
  rcases site.places with ⟨front, rfl, rfl, -⟩
  exact List.length_append

theorem getElem?_eq (site : Site whole base slice place rest) (offset : Nat) :
    slice[place + offset]? = rest[offset]? := by
  rcases site.places with ⟨front, rfl, rfl, -⟩
  rw [List.getElem?_append_right (Nat.le_add_right _ _), Nat.add_sub_cancel_left]

theorem charAt_eq (site : Site whole base slice place (char :: rest)) :
    charAt slice place = .ok char := by
  rcases site.places with ⟨front, rfl, rfl, -⟩
  exact charAt_length front char rest

theorem bare_iff (site : Site whole base slice place (char :: rest)) (other : Char) :
    Bare whole other (base + place) ↔ char = other := by
  rcases site with ⟨⟨before, after, rfl, rfl, complete⟩, front, rfl, rfl, later⟩
  rw [bare_append complete, List.append_assoc]
  exact bare_length_iff later

theorem matched (site : Site whole base slice place rest) {first last : Nat}
    (closed : Brackets.round.Matched slice first last) :
    Brackets.round.Matched whole (base + first) (base + last) := by
  rcases site.slices with ⟨before, after, rfl, rfl, complete⟩
  exact (closed.append after).prepend complete

theorem isEscaped_eq (site : Site whole base slice place rest) {offset : Nat}
    (inside : offset ≤ slice.length) :
    isEscaped slice offset = isEscaped whole (base + offset) := by
  rcases site.slices with ⟨before, after, rfl, rfl, complete⟩
  have within : before.length + offset ≤ (before ++ (slice ++ after)).length := by
    simp only [List.length_append]
    omega
  rw [Positional.isEscaped_eq inside, Positional.isEscaped_eq within]
  congr 1
  rw [decide_eq_decide, escaped_append complete, Escaped, Escaped,
    List.take_append_of_le_length inside]

theorem sound (site : Site whole base slice place (char :: rest))
    (partner : char = '(' → ∃ found, findClosing .round slice place = .ok found ∧
      ∀ last, Brackets.round.Matched whole (base + place) last ↔
        found.map (base + ·) = some last) :
    Start.Sound whole ⟨base, slice, place⟩ := by
  constructor
  · rcases site.slices with ⟨before, after, rfl, rfl, -⟩
    rw [List.drop_left]
    exact List.prefix_append slice after
  · show place < slice.length
    rw [site.length_eq, List.length_cons]
    omega
  · rcases site.places with ⟨front, rfl, rfl, complete⟩
    rw [List.take_left]
    exact complete
  · exact fun offset inside => site.isEscaped_eq inside
  · intro stands
    have same := site.getElem?_eq 0
    rw [Nat.add_zero, stands] at same
    exact partner (Option.some.inj same).symm

theorem sound_of_ne (site : Site whole base slice place (char :: rest)) (other : char ≠ '(') :
    Start.Sound whole ⟨base, slice, place⟩ :=
  site.sound fun same => absurd same other

end Site

theorem Recorded.pass (recorded : Recorded whole limit starts) (free : ¬ Bare whole '\\' limit) :
    Recorded whole (limit + 1) starts := by
  refine ⟨recorded.sound, ?_⟩
  intro position before bare
  rcases Nat.lt_succ_iff_lt_or_eq.mp before with earlier | rfl
  · exact recorded.noted position earlier bare
  · exact absurd bare free

theorem Recorded.note (recorded : Recorded whole limit starts) (sound : start.Sound whole)
    (here : start.position = limit) : Recorded whole (limit + 1) (start :: starts) := by
  constructor
  · intro other member
    rcases List.mem_cons.mp member with rfl | listed
    · exact sound
    · exact recorded.sound other listed
  · intro position before bare
    rcases Nat.lt_succ_iff_lt_or_eq.mp before with earlier | rfl
    · rcases recorded.noted position earlier bare with ⟨other, listed, same⟩
      exact ⟨other, List.mem_cons_of_mem _ listed, same⟩
    · exact ⟨start, List.mem_cons_self, here⟩

end Sites

/-- The graph of the work, and how far the items that start in the whole text are noted. -/
structure Midway (whole : List Char) (limit : Nat) (graph : Graph) (work : Work) : Prop where
  graph : work.graph = graph
  recorded : Recorded whole limit work.starts

theorem Midway.skip {whole slice rest : List Char} {base place : Nat} {char : Char} {graph : Graph}
    {work : Work} (midway : Midway whole (base + place) graph work)
    (site : Site whole base slice place (char :: rest)) (free : char ≠ '\\') :
    Midway whole (base + (place + 1)) graph work :=
  ⟨midway.graph, midway.recorded.pass fun bare => free ((site.bare_iff '\\').mp bare)⟩

/-- From any site of the text, the run lays out the one pattern that the text stands for. -/
def RunsAtom (text : List Char) (pattern : Pattern) : Prop :=
  ∀ whole base slice place rest graph work, Site whole base slice place (text ++ rest) →
    Midway whole (base + place) graph work →
    ∃ stop later, stop + 1 = place + text.length ∧
      Runs (atom slice base place) work (.ok ((graph.addPattern pattern).2, stop)) later ∧
      Midway whole (base + (place + text.length)) (graph.addPattern pattern).1 later

def RunsGroup (text : List Char) (pattern : Pattern) : Prop :=
  ∀ whole base graph work, Site whole base text 0 text → Midway whole base graph work →
    ∃ later, Runs (choices text base) work (.ok (graph.addPattern pattern).2) later ∧
      Midway whole (base + text.length) (graph.addPattern pattern).1 later

section Atoms

variable {whole slice rest text : List Char} {base place : Nat} {char : Char} {graph : Graph}
  {work later : Work} {outcome : Except (Nat × FaultKind) (Fragment × Nat)}

theorem runsAtom_symbol (free : char ∉ reserved) : RunsAtom [char] (.symbol char) := by
  intro whole base slice place rest graph work site midway
  rcases midway with ⟨rfl, recorded⟩
  simp only [reserved, List.mem_cons, List.not_mem_nil, or_false, not_or] at free
  rcases free with ⟨noEscape, noOpening, noClosing, noBar, noDollar⟩
  have noted := recorded.note (site.sound_of_ne noOpening) rfl
  have runs : Runs (atom slice base place) work
      (.ok ((work.graph.addPattern (.symbol char)).2, place))
      ⟨(work.graph.addPattern (.symbol char)).1, ⟨base, slice, place⟩ :: work.starts⟩ := by
    rw [atom]
    apply (runs_note _ work).bind
    apply Runs.access site.charAt_eq
    split
    case h_1 => exact absurd rfl noEscape
    case h_2 => exact absurd rfl noOpening
    case h_3 => exact absurd rfl noClosing
    case h_4 => exact absurd rfl noDollar
    case h_5 => exact (runs_symbol char _).bind (.pure _ _)
  exact ⟨place, _, rfl, runs, rfl, noted⟩

theorem runsAtom_nothing : RunsAtom ['$'] .nothing := by
  intro whole base slice place rest graph work site midway
  rcases midway with ⟨rfl, recorded⟩
  have noted := recorded.note (site.sound_of_ne (by decide)) rfl
  have runs : Runs (atom slice base place) work (.ok ((work.graph.addPattern .nothing).2, place))
      ⟨(work.graph.addPattern .nothing).1, ⟨base, slice, place⟩ :: work.starts⟩ := by
    rw [atom]
    apply (runs_note _ work).bind
    apply Runs.access site.charAt_eq
    exact (runs_nothing _).bind (.pure _ _)
  exact ⟨place, _, rfl, runs, rfl, noted⟩

theorem runsAtom_escape (char : Char) :
    RunsAtom ['\\', char] (.symbol (Glyph.unescape char)) := by
  intro whole base slice place rest graph work site midway
  rcases midway with ⟨rfl, recorded⟩
  have noted := recorded.note (site.sound_of_ne (by decide)) rfl
  have stands : slice[place + 1]? = some char := site.getElem?_eq 1
  have escape := (site.bare_iff '\\').mpr rfl
  -- A backslash behind the first one is taken along with it, and no item starts there.
  have free : ¬ Bare whole '\\' (base + place + 1) :=
    fun bare => bare.2 ((escaped_succ escape.1).mpr escape.2)
  have runs : Runs (atom slice base place) work
      (.ok ((work.graph.addPattern (.symbol (Glyph.unescape char))).2, place + 1))
      ⟨(work.graph.addPattern (.symbol (Glyph.unescape char))).1,
        ⟨base, slice, place⟩ :: work.starts⟩ := by
    rw [atom]
    apply (runs_note _ work).bind
    apply Runs.access site.charAt_eq
    simp only [stands]
    exact (runs_symbol _ _).bind (.pure _ _)
  exact ⟨place + 1, _, rfl, runs, rfl, noted.pass free⟩

theorem runsAtom_group {pattern : Pattern} (balanced : Brackets.round.Balanced text)
    (inner : RunsGroup text pattern) : RunsAtom ('(' :: (text ++ [')'])) pattern := by
  intro whole base slice place rest graph work site midway
  rcases midway with ⟨rfl, recorded⟩
  have shape : '(' :: (text ++ [')']) ++ rest = '(' :: (text ++ ')' :: rest) := by simp
  rw [shape] at site
  have closed : findClosing .round slice place = .ok (some (place + 1 + text.length)) := by
    rcases site.places with ⟨front, rfl, rfl, complete⟩
    exact findClosing_balanced complete balanced rest
  have matched : Brackets.round.Matched whole (base + place)
      (base + (place + 1 + text.length)) := by
    apply site.matched
    rcases site.places with ⟨front, rfl, rfl, complete⟩
    exact (Brackets.matched_length_iff complete).mpr ⟨text, rest, rfl, balanced, rfl⟩
  have sound := site.sound fun _ => ⟨_, closed, fun last => by
    rw [Option.map_some, Option.some_inj]
    exact ⟨matched.unique, fun same => same ▸ matched⟩⟩
  have within := site.next (by decide)
  have shorter : text.length < slice.length := by
    rw [site.length_eq, List.length_cons, List.length_append]
    omega
  have noted : Midway whole (base + place + 1) work.graph
      ⟨work.graph, ⟨base, slice, place⟩ :: work.starts⟩ := ⟨rfl, recorded.note sound rfl⟩
  rcases inner whole (base + place + 1) work.graph _ within.part noted with
    ⟨later, laid, behind⟩
  have runs : Runs (atom slice base place) work
      (.ok ((work.graph.addPattern pattern).2, place + 1 + text.length)) later := by
    rw [atom]
    apply (runs_note _ work).bind
    apply Runs.access site.charAt_eq
    apply Runs.access closed
    apply Runs.access (portion_eq within.slice_eq shorter)
    exact laid.bind (.pure _ _)
  have ended := within.advance balanced.complete
  have place_eq : base + place + 1 + text.length = base + (place + 1 + text.length) := by omega
  rw [place_eq] at behind
  have behind_eq : place + ('(' :: (text ++ [')'])).length = place + 1 + text.length + 1 := by
    simp
    omega
  rw [behind_eq]
  exact ⟨place + 1 + text.length, later, rfl, runs, behind.skip ended (by decide)⟩

end Atoms

/-- An item is an atom with the star behind it, if there is one. -/
def RunsItem (text : List Char) (item : Pattern) (beyond : List Char) : Prop :=
  ∀ whole base slice place graph work, Site whole base slice place (text ++ beyond) →
    Midway whole (base + place) graph work →
    ∃ inner last stop middle later, stop + 1 = place + text.length ∧
      Runs (atom slice base place) work (.ok (inner, last)) middle ∧
      Runs (starred slice inner last) middle (.ok ((graph.addPattern item).2, stop)) later ∧
      Midway whole (base + (place + text.length)) (graph.addPattern item).1 later

/-- From any site of the text, the run chains the items behind those before. -/
def RunsSequence (text : List Char) (patterns : List Pattern) : Prop :=
  ∀ whole base slice place rest graph work last, Site whole base slice place (text ++ rest) →
    Midway whole (base + place) graph work → rest.head? ≠ some '*' → last < graph.size →
    ∃ later, Midway whole (base + (place + text.length)) (graph.addItems last patterns).1 later ∧
      ∀ outcome final,
        Runs (items slice base (place + text.length) (graph.addItems last patterns).2) later
          outcome final →
        Runs (items slice base place last) work outcome final

section Sequences

variable {text rest beyond : List Char} {atom item : Pattern} {items : List Pattern}

theorem runsItem_plain (first : RunsAtom text atom) (complete : Complete text)
    (unstarred : beyond.head? ≠ some '*') : RunsItem text atom beyond := by
  intro whole base slice place graph work site midway
  rcases first whole base slice place beyond graph work site midway with
    ⟨stop, later, ends, runs, behind⟩
  have plain : slice[stop + 1]? ≠ some '*' := by
    have next := (site.advance complete).getElem?_eq 0
    rwa [ends, ← Nat.add_zero (place + text.length), next, ← List.head?_eq_getElem?]
  exact ⟨_, stop, stop, later, later, ends, runs, runs_unstarred plain _ _, behind⟩

theorem runsItem_starred (first : RunsAtom text atom) (complete : Complete text)
    (beyond : List Char) : RunsItem (text ++ ['*']) (.star atom) beyond := by
  intro whole base slice place graph work site midway
  rw [List.append_assoc] at site
  rcases first whole base slice place ('*' :: beyond) graph work site midway with
    ⟨stop, middle, ends, runs, behind⟩
  have star := site.advance complete
  have stands : slice[stop + 1]? = some '*' := by
    rw [ends, ← Nat.add_zero (place + text.length), star.getElem?_eq]
    rfl
  have passed := behind.skip star (by decide)
  rw [List.length_append, List.length_singleton, ← Nat.add_assoc place, ← ends]
  rw [← ends] at passed
  exact ⟨_, stop, stop + 1, middle, _, rfl, runs, runs_starred stands behind.graph, rfl,
    passed.recorded⟩

theorem runsSequence_nil : RunsSequence [] [] := by
  intro whole base slice place rest graph work last site midway unstarred issued
  exact ⟨work, midway, fun outcome final runs => runs⟩

theorem runsSequence_cons (present : text ≠ []) (complete : Complete text)
    (first : ∀ beyond, beyond.head? ≠ some '*' → RunsItem text item (rest ++ beyond))
    (later : RunsSequence rest items) : RunsSequence (text ++ rest) (item :: items) := by
  intro whole base slice place beyond graph work last site midway ending issued
  rw [List.append_assoc] at site
  rcases first beyond ending whole base slice place graph work site midway with
    ⟨inner, close, stop, middle, around, ends, runs, wraps, behind⟩
  have positive := List.length_pos_iff.mpr present
  have inside : place < slice.length := by
    rw [site.length_eq, List.length_append]
    omega
  have known : last < around.graph.size := by
    rw [behind.graph]
    exact Nat.lt_of_lt_of_le issued (size_le_addPattern graph item)
  have linked : Midway whole (base + (place + text.length))
      ((graph.addPattern item).1.addEpsilon last (graph.addPattern item).2.entry)
      { around with graph := around.graph.addEpsilon last (graph.addPattern item).2.entry } :=
    ⟨by rw [behind.graph], behind.recorded⟩
  have accept : (graph.addPattern item).2.accept <
      ((graph.addPattern item).1.addEpsilon last (graph.addPattern item).2.entry).size := by
    simpa using accept_lt_addPattern graph item
  rcases later whole base slice _ beyond _ _ _ (site.advance complete) linked ending accept with
    ⟨final, stands, onward⟩
  rw [List.length_append, ← Nat.add_assoc place]
  refine ⟨final, stands, ?_⟩
  intro outcome ended chained
  rw [Positional.items, if_pos inside]
  apply runs.bind
  apply wraps.bind
  apply (runs_link known _).bind
  apply Runs.access (ahead_eq (ends ▸ Nat.lt_add_of_pos_right positive))
  have chain := onward outcome ended chained
  rw [← ends] at chain
  exact chain

theorem runsSequence_starred (first : RunsAtom text atom) (complete : Complete text)
    (later : RunsSequence rest items) :
    RunsSequence (text ++ '*' :: rest) (.star atom :: items) := by
  have starred : Complete (text ++ ['*']) := complete_concat (by decide)
  have whole := runsSequence_cons (by simp) starred
    (fun beyond _ => runsItem_starred first complete (rest ++ beyond)) later
  rw [List.append_assoc] at whole
  exact whole

theorem issued_addItems (graph : Graph) (last : Nat) (issued : last < graph.size)
    (items : List Pattern) :
    (graph.addItems last items).2 < (graph.addItems last items).1.size := by
  induction items generalizing graph last with
  | nil => exact issued
  | cons item items ih =>
      apply ih
      simpa using accept_lt_addPattern graph item

theorem runs_items_length (text : List Char) (base last : Nat) (work : Work) :
    Runs (Positional.items text base text.length last) work (.ok last) work := by
  rw [Positional.items, if_neg (Nat.lt_irrefl _)]
  exact .pure _ _

theorem runs_sequence (laid : RunsSequence text items) {whole : List Char} {base : Nat}
    {graph : Graph} {work : Work} (site : Site whole base text 0 text)
    (midway : Midway whole base graph work) :
    ∃ later, Runs (sequence text base) work (.ok (graph.addPattern (.sequence items)).2) later ∧
      Midway whole (base + text.length) (graph.addPattern (.sequence items)).1 later := by
  rcases midway with ⟨rfl, recorded⟩
  have entry := entry_lt_addEnds work.graph
  have begun : Midway whole (base + 0) work.graph.addEnds.1
      { work with graph := work.graph.addEnds.1 } := ⟨rfl, recorded⟩
  rcases laid whole base text 0 [] _ _ _ site.append_nil begun (by simp) entry with
    ⟨⟨chained, starts⟩, ⟨rfl, noted⟩, onward⟩
  rw [Nat.zero_add] at noted onward
  have issued := issued_addItems work.graph.addEnds.1 _ entry items
  refine ⟨⟨_, starts⟩, ?_, rfl, noted⟩
  rw [sequence]
  apply (runs_addEnds work).bind
  apply (onward _ _ (runs_items_length text base _ _)).bind
  exact (runs_link issued _).bind (.pure _ _)

end Sequences

structure Choice where
  text : List Char
  items : List Pattern

namespace Choice

def pattern (choice : Choice) : Pattern := .sequence choice.items

structure Laid (choice : Choice) : Prop where
  derived : Derives .sequence choice.text choice.items
  runs : RunsSequence choice.text choice.items

def ended (choices : List Choice) : List Char := choices.flatMap fun choice => choice.text ++ ['|']

def ranges (start : Nat) : List Choice → List (Nat × Nat)
  | [] => []
  | choice :: later =>
    (start, start + choice.text.length) :: ranges (start + choice.text.length + 1) later

theorem ended_cons (choice : Choice) (later : List Choice) (rest : List Char) :
    ended (choice :: later) ++ rest = choice.text ++ '|' :: (ended later ++ rest) := by
  simp [ended]

@[simp]
theorem length_ended_cons (choice : Choice) (later : List Choice) :
    (ended (choice :: later)).length = choice.text.length + 1 + (ended later).length := by
  have shape := ended_cons choice later []
  rw [List.append_nil, List.append_nil] at shape
  rw [shape, List.length_append, List.length_cons]
  omega

theorem length_ended_pos {choices : List Choice} (present : choices ≠ []) :
    0 < (ended choices).length := by
  cases choices with
  | nil => exact absurd rfl present
  | cons choice later =>
      rw [length_ended_cons]
      omega

end Choice

open Choice

section Choices

variable {text rest front : List Char} {items : List Pattern} {earlier : List Choice}
  {choice : Choice}

theorem Choice.Laid.crosses (laid : choice.Laid) : Crosses 0 choice.text 0 :=
  crosses_derives laid.derived (by decide)

theorem Choice.Laid.single (laid : choice.Laid) :
    barFollows 0 (Glyph.ofChars choice.text) = false := by
  rw [← List.append_nil choice.text, laid.crosses.bars]
  rfl

/-- The text is cut at the bars between its choices. -/
theorem splitChoicesFrom_ended (laid : ∀ choice ∈ earlier, choice.Laid) (complete : Complete front)
    (rest : List Char) :
    splitChoicesFrom (front ++ (ended earlier ++ rest)) 0 front.length front.length =
      (ranges front.length earlier ++ ·) <$>
        splitChoicesFrom (front ++ (ended earlier ++ rest)) 0
          (front.length + (ended earlier).length) (front.length + (ended earlier).length) := by
  induction earlier generalizing front with
  | nil => simp [ended, ranges]
  | cons choice later ih =>
      have crosses := (laid choice List.mem_cons_self).crosses
      have next := ih (fun other member => laid other (List.mem_cons_of_mem _ member))
        ((complete.append crosses.complete).append complete_bar)
      simp only [List.append_assoc, List.singleton_append, List.length_append,
        List.length_singleton] at next
      rw [ended_cons, splitChoicesFrom_bar crosses complete, Nat.add_assoc front.length, next,
        length_ended_cons, ranges]
      simp [Nat.add_assoc]

theorem runs_choices_single {base : Nat} {work later : Work}
    {outcome : Except (Nat × FaultKind) Fragment}
    (single : barFollows 0 (Glyph.ofChars text) = false)
    (runs : Runs (sequence text base) work outcome later) :
    Runs (choices text base) work outcome later := by
  have one : splitChoices text = .ok [(0, text.length)] :=
    splitChoicesFrom_single single complete_nil 0
  rw [choices]
  exact Runs.access one runs

theorem Choice.Laid.runsGroup (laid : choice.Laid) : RunsGroup choice.text choice.pattern := by
  intro whole base graph work site midway
  rcases runs_sequence laid.runs site midway with ⟨later, runs, behind⟩
  exact ⟨later, runs_choices_single laid.single runs, behind⟩

section Alternatives

variable {whole slice : List Char} {base start : Nat} {graph : Graph} {ends : Fragment}
  {work : Work}

theorem runs_alternative {pattern : Pattern} (laid : RunsGroup text pattern)
    (site : Site whole base slice start (text ++ rest)) (shorter : text.length < slice.length)
    (midway : Midway whole (base + start) graph work) (issued : ends.entry < graph.size) :
    ∃ later, Midway whole (base + (start + text.length))
        (((graph.addPattern pattern).1.addEpsilon ends.entry
          (graph.addPattern pattern).2.entry).addEpsilon
            (graph.addPattern pattern).2.accept ends.accept) later ∧
      ∀ others outcome final, Runs (alternatives slice base ends others) later outcome final →
        Runs (alternatives slice base ends ((start, start + text.length) :: others)) work
          outcome final := by
  rcases laid whole (base + start) graph work site.part midway with
    ⟨⟨_, starts⟩, runs, ⟨rfl, noted⟩⟩
  have entry : ends.entry < (graph.addPattern pattern).1.size :=
    Nat.lt_of_lt_of_le issued (size_le_addPattern graph pattern)
  have accept : (graph.addPattern pattern).2.accept <
      ((graph.addPattern pattern).1.addEpsilon ends.entry
        (graph.addPattern pattern).2.entry).size := by
    simpa using accept_lt_addPattern graph pattern
  rw [Nat.add_assoc] at noted
  refine ⟨⟨_, starts⟩, ⟨rfl, noted⟩, ?_⟩
  intro others outcome final onward
  rw [alternatives]
  apply Runs.access (portion_eq site.slice_eq shorter)
  apply runs.bind
  apply (runs_link entry _).bind
  exact (runs_link accept _).bind onward

theorem runs_alternatives (laid : ∀ choice ∈ earlier, choice.Laid)
    (site : Site whole base slice start (ended earlier ++ rest))
    (midway : Midway whole (base + start) graph work) (issued : ends.entry < graph.size) :
    ∃ later, Midway whole (base + (start + (ended earlier).length))
        (graph.addChoices ends (earlier.map Choice.pattern)) later ∧
      ∀ others outcome final, Runs (alternatives slice base ends others) later outcome final →
        Runs (alternatives slice base ends (ranges start earlier ++ others)) work
          outcome final := by
  induction earlier generalizing start graph work with
  | nil => exact ⟨work, midway, fun others outcome final runs => runs⟩
  | cons choice later ih =>
      have first := laid choice List.mem_cons_self
      have others := fun other member => laid other (List.mem_cons_of_mem choice member)
      rw [ended_cons] at site
      have bar := site.advance first.crosses.complete
      have shorter : choice.text.length < slice.length := by
        rw [site.length_eq, List.length_append, List.length_cons]
        omega
      rcases runs_alternative first.runsGroup site shorter midway issued with
        ⟨middle, behind, wraps⟩
      have grown : ends.entry < (((graph.addPattern choice.pattern).1.addEpsilon ends.entry
          (graph.addPattern choice.pattern).2.entry).addEpsilon
            (graph.addPattern choice.pattern).2.accept ends.accept).size := by
        simpa using Nat.lt_of_lt_of_le issued (size_le_addPattern graph _)
      rcases ih others (bar.next (by decide)) (behind.skip bar (by decide)) grown with
        ⟨final, stands, onward⟩
      have place : start + (ended (choice :: later)).length =
          start + choice.text.length + 1 + (ended later).length := by
        simp
        omega
      rw [place]
      exact ⟨final, stands, fun rest outcome last runs =>
        wraps _ outcome last (onward rest outcome last runs)⟩

theorem size_le_addChoices (graph : Graph) (ends : Fragment) (choices : List Pattern) :
    graph.size ≤ (graph.addChoices ends choices).size := by
  induction choices generalizing graph with
  | nil => exact Nat.le_refl _
  | cons choice choices ih =>
      have grown := ih (((graph.addPattern choice).1.addEpsilon ends.entry
        (graph.addPattern choice).2.entry).addEpsilon (graph.addPattern choice).2.accept
          ends.accept)
      rw [Graph.size_addEpsilon, Graph.size_addEpsilon] at grown
      exact Nat.le_trans (size_le_addPattern graph choice) grown

theorem addChoices_concat (graph : Graph) (ends : Fragment) (choices : List Pattern)
    (last : Pattern) : graph.addChoices ends (choices ++ [last]) =
      (graph.addChoices ends choices).addChoices ends [last] := by
  induction choices generalizing graph with
  | nil => rfl
  | cons choice choices ih => exact ih _

end Alternatives

theorem complete_ended (laid : ∀ choice ∈ earlier, choice.Laid) : Complete (ended earlier) := by
  induction earlier with
  | nil => exact complete_nil
  | cons choice later ih =>
      have first := (laid choice List.mem_cons_self).crosses.complete
      have others := ih fun other member => laid other (List.mem_cons_of_mem _ member)
      have whole := first.append (complete_bar.append others)
      rw [← List.append_nil (ended _), ended_cons, List.append_nil]
      exact whole

theorem splitChoices_ended (laid : ∀ choice ∈ earlier, choice.Laid)
    (single : barFollows 0 (Glyph.ofChars text) = false) :
    splitChoices (ended earlier ++ text) =
      .ok (ranges 0 earlier ++ [((ended earlier).length, (ended earlier ++ text).length)]) := by
  have cut := splitChoicesFrom_ended laid complete_nil text
  have last := splitChoicesFrom_single single (complete_ended laid) (ended earlier).length
  rw [List.nil_append, List.length_nil, Nat.zero_add, last] at cut
  exact cut

@[simp]
theorem length_ranges (start : Nat) (choices : List Choice) :
    (ranges start choices).length = choices.length := by
  induction choices generalizing start with
  | nil => rfl
  | cons choice choices ih => exact congrArg (· + 1) (ih _)

theorem length_ranges_ne_one {others : List (Nat × Nat)} (several : earlier ≠ [] ∨ others ≠ [])
    (start : Nat) (range : Nat × Nat) : (ranges start earlier ++ range :: others).length ≠ 1 := by
  rw [List.length_append, length_ranges, List.length_cons]
  rcases several with present | present
  · have positive := List.length_pos_iff.mpr present
    omega
  · have positive := List.length_pos_iff.mpr present
    omega

theorem ofChoices_concat {choices : List Pattern} (several : choices ≠ []) (last : Pattern) :
    Pattern.ofChoices (choices ++ [last]) = .choice (choices ++ [last]) := by
  cases choices with
  | nil => exact absurd rfl several
  | cons first others => cases others <;> rfl

theorem runsGroup_several (several : earlier ≠ []) (laid : ∀ choice ∈ earlier, choice.Laid)
    (last : choice.Laid) : RunsGroup (ended earlier ++ choice.text)
      (.choice (earlier.map Choice.pattern ++ [choice.pattern])) := by
  intro whole base graph work site midway
  rcases midway with ⟨rfl, recorded⟩
  have entry := entry_lt_addEnds work.graph
  have begun : Midway whole (base + 0) work.graph.addEnds.1
      ⟨work.graph.addEnds.1, work.starts⟩ := ⟨rfl, recorded⟩
  rcases runs_alternatives laid site begun entry with ⟨middle, behind, onward⟩
  have final := (site.advance (complete_ended laid)).append_nil
  have positive := length_ended_pos several
  have shorter : choice.text.length < (ended earlier ++ choice.text).length := by
    rw [List.length_append]
    omega
  have issued := Nat.lt_of_lt_of_le entry
    (size_le_addChoices _ work.graph.addEnds.2 (earlier.map Choice.pattern))
  rcases runs_alternative last.runsGroup final shorter behind issued with
    ⟨later, stands, wraps⟩
  have cut := splitChoices_ended laid last.single
  rw [Nat.zero_add] at stands wraps
  rw [List.length_append] at cut
  refine ⟨later, ?_, ?_⟩
  · have wrapped := wraps [] (.ok ()) later (by rw [alternatives]; exact .pure _ _)
    rw [choices]
    apply Runs.access cut
    rw [if_neg (length_ranges_ne_one (.inl several) 0 _)]
    apply (runs_addEnds work).bind
    exact (onward _ _ _ wrapped).bind (.pure _ _)
  · have laidOut := addChoices_concat work.graph.addEnds.1 work.graph.addEnds.2
      (earlier.map Choice.pattern) choice.pattern
    rw [List.length_append]
    exact ⟨stands.graph.trans laidOut.symm, stands.recorded⟩

theorem runsGroup_choices (laid : ∀ choice ∈ earlier, choice.Laid) (last : choice.Laid) :
    RunsGroup (ended earlier ++ choice.text)
      (.ofChoices (earlier.map Choice.pattern ++ [choice.pattern])) := by
  by_cases single : earlier = []
  · subst single
    exact last.runsGroup
  · rw [ofChoices_concat (by simpa using single)]
    exact runsGroup_several single laid last

end Choices

structure Divided (text : List Char) (patterns : List Pattern) (earlier : List Choice)
    (last : Choice) : Prop where
  text_eq : text = ended earlier ++ last.text
  patterns_eq : patterns = earlier.map Choice.pattern ++ [last.pattern]
  earlier : ∀ choice ∈ earlier, choice.Laid
  last : last.Laid

/-- What the run makes of a text that derives such a part of a pattern. -/
def RunsPart (text : List Char) (patterns : List Pattern) : Part → Prop
  | .atom => ∀ pattern, patterns = [pattern] → RunsAtom text pattern
  | .sequence => RunsSequence text patterns
  | .choices => ∃ earlier last, Divided text patterns earlier last

theorem Divided.runsGroup {text : List Char} {patterns : List Pattern} {earlier : List Choice}
    {last : Choice} (divided : Divided text patterns earlier last) :
    RunsGroup text (.ofChoices patterns) := by
  rw [divided.text_eq, divided.patterns_eq]
  exact runsGroup_choices divided.earlier divided.last

theorem runsPart {part : Part} {text : List Char} {patterns : List Pattern}
    (derived : Derives part text patterns) : RunsPart text patterns part := by
  induction derived with
  | symbol free =>
      intro pattern same
      cases same
      exact runsAtom_symbol free
  | nothing =>
      intro pattern same
      cases same
      exact runsAtom_nothing
  | escape char =>
      intro pattern same
      cases same
      exact runsAtom_escape char
  | group inner ih =>
      intro pattern same
      cases same
      rcases ih with ⟨earlier, last, divided⟩
      exact runsAtom_group inner.balanced divided.runsGroup
  | empty => exact runsSequence_nil
  | @plain text rest atom items first later unstarred ihFirst ihLater =>
      apply runsSequence_cons (first.atom_ne_nil rfl) first.balanced.complete _ ihLater
      intro beyond ending
      apply runsItem_plain (ihFirst _ rfl) first.balanced.complete
      cases rest with
      | nil => exact ending
      | cons => exact unstarred
  | starred first later ihFirst ihLater =>
      exact runsSequence_starred (ihFirst _ rfl) first.balanced.complete ihLater
  | @last text items only ih =>
      exact ⟨[], ⟨text, items⟩, rfl, rfl, by simp, ⟨only, ih⟩⟩
  | @more text rest items choices first later ihFirst ihLater =>
      rcases ihLater with ⟨earlier, last, divided⟩
      refine ⟨⟨text, items⟩ :: earlier, last, ?_, ?_, ?_, divided.last⟩
      · rw [ended_cons, divided.text_eq]
      · rw [divided.patterns_eq]; rfl
      · intro choice member
        rcases List.mem_cons.mp member with rfl | listed
        · exact ⟨first, ihFirst⟩
        · exact divided.earlier choice listed

end Positional

end MaximalMunch
