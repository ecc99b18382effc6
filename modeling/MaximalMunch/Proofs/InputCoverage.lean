import MaximalMunch.Proofs.Termination

/-!
Nothing of the input is lost. The cycles of a session go over it in consecutive spans, each that
of a match or of one skipped character, and the tokens, the errors and the counters agree with
them.
-/

namespace MaximalMunch

def Cycle.error? (cycle : Cycle) : Option LexicalError :=
  match cycle.outcome with
  | .skipped error => some error
  | _ => none

theorem Cycle.error?_eq_some {cycle : Cycle} {error : LexicalError} :
    cycle.error? = some error ↔ cycle.outcome = .skipped error := by
  unfold Cycle.error?
  split <;> simp_all

def Cycle.stop (cycle : Cycle) : Nat := cycle.position + cycle.span.length

/-- Cycles over the input from one place to another, each from where the one before it ended. -/
inductive Tiles (input : List Char) : Nat → List Cycle → Nat → Prop
  | done (place : Nat) : Tiles input place [] place
  | next {cycle : Cycle} {cycles : List Cycle} {stop : Nat}
      (span : cycle.span = input.extract cycle.position cycle.stop)
      (later : Tiles input cycle.stop cycles stop) :
      Tiles input cycle.position (cycle :: cycles) stop

/-- A token shows the span of its cycle, and an error shows the one character of it. -/
structure Cycle.Shows (cycle : Cycle) : Prop where
  lexeme : ∀ token, cycle.outcome = .emitted token → token.lexeme = String.ofList cycle.span
  skipped : ∀ error, cycle.outcome = .skipped error →
    cycle.span = [error.char] ∧ error.position = cycle.position

namespace Tiles

variable {input : List Char} {cycles : List Cycle} {start stop : Nat}

theorem start_le (tiles : Tiles input start cycles stop) : start ≤ stop := by
  induction tiles with
  | done place => exact Nat.le_refl place
  | next span later ih => exact Nat.le_trans (Nat.le_add_right _ _) ih

theorem flatMap_span (tiles : Tiles input start cycles stop) :
    cycles.flatMap Cycle.span = input.extract start stop := by
  induction tiles with
  | done place => simp
  | @next cycle cycles stop span later ih =>
      have within := later.start_le
      have begins : cycle.position ≤ cycle.stop := Nat.le_add_right _ _
      rw [List.flatMap_cons, ih, span, List.extract, List.extract, List.extract]
      have split : stop - cycle.position = (cycle.stop - cycle.position) + (stop - cycle.stop) := by
        omega
      have behind : cycle.stop = cycle.position + (cycle.stop - cycle.position) := by omega
      rw [split, List.take_add, List.drop_drop, ← behind]

theorem error_place {cycle : Cycle} {error : LexicalError} (shows : cycle.Shows)
    (span : cycle.span = input.extract cycle.position cycle.stop)
    (skipped : cycle.outcome = .skipped error) :
    error.position = cycle.position ∧ cycle.stop = error.position + 1 ∧
      input[error.position]? = some error.char := by
  rcases shows.skipped error skipped with ⟨alone, place⟩
  have length : cycle.stop = cycle.position + 1 := by rw [Cycle.stop, alone, List.length_singleton]
  rw [length, List.extract, Nat.add_sub_cancel_left, alone] at span
  have first := congrArg List.head? span
  rw [List.head?_take, if_neg Nat.one_ne_zero, List.head?_drop] at first
  rw [place]
  exact ⟨rfl, length, first.symm⟩

theorem errors (tiles : Tiles input start cycles stop) (shows : ∀ cycle ∈ cycles, cycle.Shows) :
    (∀ error ∈ cycles.filterMap Cycle.error?,
      start ≤ error.position ∧ input[error.position]? = some error.char) ∧
    (cycles.filterMap Cycle.error?).Pairwise fun earlier later =>
      earlier.position < later.position := by
  induction tiles with
  | done place => exact ⟨by simp, List.Pairwise.nil⟩
  | @next cycle cycles stop span later ih =>
      have begins : cycle.position ≤ cycle.stop := Nat.le_add_right _ _
      rcases ih fun other member => shows other (List.mem_cons_of_mem _ member) with
        ⟨placed, ascending⟩
      have onward : ∀ error ∈ cycles.filterMap Cycle.error?,
          cycle.position ≤ error.position ∧ input[error.position]? = some error.char :=
        fun error member => ⟨Nat.le_trans begins (placed error member).1, (placed error member).2⟩
      cases skipped : cycle.error? with
      | none =>
          rw [List.filterMap_cons_none skipped]
          exact ⟨onward, ascending⟩
      | some error =>
          have outcome := Cycle.error?_eq_some.mp skipped
          rcases error_place (shows cycle List.mem_cons_self) span outcome with
            ⟨place, ends, char⟩
          rw [List.filterMap_cons_some skipped]
          constructor
          · intro other member
            rcases List.mem_cons.mp member with rfl | member
            · exact ⟨Nat.le_of_eq place.symm, char⟩
            · exact onward other member
          · apply List.pairwise_cons.mpr
            refine ⟨fun other member => ?_, ascending⟩
            have beyond := (placed other member).1
            omega

end Tiles

namespace Session

variable {bundle : Bundle} {input : String} {first session next last : Session} {cycle : Cycle}
  {trace : List (Cycle × Session)}

theorem Placed.take_eq_extract (placed : Placed input session) (length : Nat) :
    session.rest.take length =
      input.toList.extract session.position (session.position + length) := by
  rw [List.extract, Nat.add_sub_cancel_left, placed.rest]

theorem span_of_took (placed : Placed input session) (took : Took bundle session cycle next) :
    cycle.position = session.position ∧ cycle.stop = next.position ∧
      cycle.span = input.toList.extract cycle.position cycle.stop := by
  have single : ∀ {char tail}, session.rest = char :: tail →
      [char] = input.toList.extract session.position (session.position + 1) := by
    intro char tail reads
    rw [← placed.take_eq_extract, reads]
    rfl
  cases took with
  | unmatched reads scanned => exact ⟨rfl, rfl, single reads⟩
  | refused reads scanned empty repeats => exact ⟨rfl, rfl, single reads⟩
  | @kept found unfinished scanned moves =>
      have length : (session.rest.take (session.effectOf found).kept).length =
          (session.effectOf found).kept := List.length_take_of_le (kept_effectOf_le scanned)
      refine ⟨rfl, ?_, ?_⟩
      · rw [Cycle.stop, length]
        rfl
      · rw [Cycle.stop, length]
        exact placed.take_eq_extract _

theorem shows_of_took (took : Took bundle session cycle next) : cycle.Shows := by
  cases took with
  | unmatched reads scanned => constructor <;> simp [skip]
  | refused reads scanned empty repeats => constructor <;> simp [skip]
  | @kept found unfinished scanned moves =>
      cases unit : (session.effectOf found).unit with
      | none => constructor <;> simp [keep, unit]
      | some tag => constructor <;> simp [keep, unit]

theorem counts_of_took (took : Took bundle session cycle next) :
    next.stats.tokens = session.stats.tokens + cycle.token?.toList.length ∧
      next.errors.toList = session.errors.toList ++ cycle.error?.toList := by
  cases took with
  | unmatched reads scanned => simp [skip, Cycle.token?, Cycle.error?]
  | refused reads scanned empty repeats => simp [skip, Cycle.token?, Cycle.error?]
  | @kept found unfinished scanned moves =>
      cases unit : (session.effectOf found).unit with
      | none => simp [keep, unit, Cycle.token?, Cycle.error?]
      | some tag => simp [keep, unit, Cycle.token?, Cycle.error?]

structure Counted (session : Session) : Prop where
  characters : session.stats.matched + session.stats.skipped = session.position
  skips : session.stats.skipped = session.errors.size

theorem Counted.took (counted : Counted session) (took : Took bundle session cycle next) :
    Counted next := by
  have characters := counted.characters
  have skips := counted.skips
  cases took with
  | unmatched reads scanned => constructor <;> simp [skip] <;> omega
  | refused reads scanned empty repeats => constructor <;> simp [skip] <;> omega
  | @kept found unfinished scanned moves =>
      cases unit : (session.effectOf found).unit with
      | none => constructor <;> simp [keep, unit] <;> omega
      | some tag => constructor <;> simp [keep, unit] <;> omega

theorem Runs.counted (run : Runs bundle first trace last)
    (started : Session.start bundle input = .ok first) : Counted last := by
  apply run.invariant Counted fun _ _ _ => Counted.took
  rw [start_eq_ok started]
  exact ⟨rfl, rfl⟩

theorem Runs.tiles (run : Runs bundle first trace last) (placed : Placed input first) :
    Tiles input.toList first.position (trace.map Prod.fst) last.position := by
  induction run with
  | stay session => exact .done session.position
  | more stepped later ih =>
      have took := took_of_step stepped
      rcases span_of_took placed took with ⟨start, stop, span⟩
      rw [List.map_cons, ← start]
      apply Tiles.next span
      rw [stop]
      exact ih (placed.took took)

theorem Runs.shows (run : Runs bundle first trace last) :
    ∀ cycle ∈ trace.map Prod.fst, cycle.Shows := by
  induction run with
  | stay session => simp
  | more stepped later ih =>
      rw [List.map_cons]
      intro cycle member
      rcases List.mem_cons.mp member with rfl | member
      · exact shows_of_took (took_of_step stepped)
      · exact ih cycle member

theorem Runs.counts (run : Runs bundle first trace last) :
    last.stats.tokens =
        first.stats.tokens + ((trace.map Prod.fst).filterMap Cycle.token?).length ∧
      last.errors.toList =
        first.errors.toList ++ (trace.map Prod.fst).filterMap Cycle.error? := by
  induction run with
  | stay session => simp
  | @more session next last cycle trace stepped later ih =>
      rcases counts_of_took (took_of_step stepped) with ⟨tokens, errors⟩
      rw [ih.1, ih.2, tokens, errors, List.map_cons]
      constructor
      · cases emits : cycle.token? <;> simp [emits, Nat.add_assoc, Nat.add_comm]
      · cases skips : cycle.error? <;> simp [skips]

def ask (bundle : Bundle) : Nat → Session → List Token × Session
  | 0, session => ([], session)
  | calls + 1, session =>
    let later := ask bundle calls (session.next bundle).2
    ((session.next bundle).1.toList ++ later.1, later.2)

theorem Pulls.runs {token : Option Token} (pulls : Pulls bundle session token last) :
    ∃ trace, Runs bundle session trace last ∧
      (trace.map Prod.fst).filterMap Cycle.token? = token.toList := by
  induction pulls with
  | @ended session ended => exact ⟨[], .stay session, rfl⟩
  | @emitted session next cycle token stepped emits =>
      exact ⟨[(cycle, next)], .more stepped (.stay next), by simp [emits]⟩
  | silent stepped silent later ih =>
      rcases ih with ⟨trace, run, tokens⟩
      refine ⟨_ :: trace, .more stepped run, ?_⟩
      rw [List.map_cons, List.filterMap_cons_none silent, tokens]

theorem runs_ask (bundle : Bundle) (calls : Nat) (session : Session) :
    ∃ trace, Runs bundle session trace (session.ask bundle calls).2 ∧
      (trace.map Prod.fst).filterMap Cycle.token? = (session.ask bundle calls).1 := by
  induction calls generalizing session with
  | zero => exact ⟨[], .stay session, rfl⟩
  | succ calls ih =>
      rcases (pulls_next bundle session).runs with ⟨front, run, tokens⟩
      rcases ih (session.next bundle).2 with ⟨back, onward, later⟩
      refine ⟨front ++ back, run.trans onward, ?_⟩
      rw [List.map_append, List.filterMap_append, tokens, later]
      rfl

theorem Pulls.next_eq {token : Option Token} (pulls : Pulls bundle session token last) :
    session.next bundle = (token, last) := by
  induction pulls with
  | ended ended => exact next_of_none ended
  | emitted stepped emits => rw [next_of_some stepped, emits]
  | silent stepped silent later ih => rw [next_of_some stepped, silent, ih]

theorem Collects.ask_eq {tokens : List Token} (collects : Collects bundle session tokens last) :
    session.ask bundle (tokens.length + 1) = (tokens, last) := by
  induction collects with
  | ended pulled => simp [ask, pulled.next_eq]
  | more pulled later ih => rw [List.length_cons, ask, pulled.next_eq, ih]; rfl

/-- A session accounts for every character before its position. -/
structure Accounts (input : String) (cycles : List Cycle) (tokens : List Token)
    (session : Session) : Prop where
  characters : session.stats.matched + session.stats.skipped = session.position
  skips : session.stats.skipped = session.errors.size
  count : session.stats.tokens = tokens.length
  emitted : tokens = cycles.filterMap Cycle.token?
  errors : session.errors.toList = cycles.filterMap Cycle.error?
  tiles : Tiles input.toList 0 cycles session.position
  spans : cycles.flatMap Cycle.span = input.toList.take session.position
  shows : ∀ cycle ∈ cycles, cycle.Shows
  chars : ∀ error ∈ session.errors, input.toList[error.position]? = some error.char
  ascending : session.errors.toList.Pairwise fun earlier later =>
    earlier.position < later.position

theorem Runs.accounts (run : Runs bundle first trace last)
    (started : Session.start bundle input = .ok first) :
    Accounts input (trace.map Prod.fst) ((trace.map Prod.fst).filterMap Cycle.token?) last := by
  have counted := run.counted started
  have counts := run.counts
  have shows := run.shows
  have begins := start_eq_ok started
  have tiles : Tiles input.toList 0 (trace.map Prod.fst) last.position := by
    have whole := run.tiles (begins ▸ startIn_placed bundle.startState input)
    rwa [begins] at whole
  rw [begins] at counts
  have errors : last.errors.toList = (trace.map Prod.fst).filterMap Cycle.error? := by
    simpa [startIn] using counts.2
  rcases tiles.errors shows with ⟨placed, ascending⟩
  constructor
  · exact counted.characters
  · exact counted.skips
  · simpa [startIn] using counts.1
  · rfl
  · exact errors
  · exact tiles
  · rw [tiles.flatMap_span]
    simp
  · exact shows
  · intro error member
    rw [← Array.mem_toList_iff, errors] at member
    exact (placed error member).2
  · rw [errors]
    exact ascending

/--
Between calls for tokens, as often as they come, all characters before the position are accounted
for. When no more tokens come the position is the end of the input.
-/
theorem ask_accounts (started : Session.start bundle input = .ok first) :
    (∀ calls, ∃ trace, Runs bundle first trace (first.ask bundle calls).2 ∧
      Accounts input (trace.map Prod.fst) (first.ask bundle calls).1
        (first.ask bundle calls).2) ∧
    (∃ calls, first.ask bundle calls =
      ((first.drain bundle).1.filterMap Cycle.token?, (first.drain bundle).2)) ∧
    (first.drain bundle).2.position = input.length := by
  refine ⟨?_, ?_, ?_⟩
  · intro calls
    rcases runs_ask bundle calls first with ⟨trace, run, tokens⟩
    refine ⟨trace, run, ?_⟩
    rw [← tokens]
    exact run.accounts started
  · exact ⟨_, (collects_drain bundle first).ask_eq⟩
  · exact position_drain started (.stay first)

def givingBack : Bundle where
  startState := "S"
  states := StateTable.push (StateTable.push {} "S" ⟨some "PAIR", ⟨0, 2⟩, [.goBack 1]⟩) "S"
    ⟨some "LOST", ⟨1, 2⟩, [.goBack 0, .incrementLine]⟩
  graph :=
    { nodes := #[{ transitions := OrderedMap.empty.insert 'a' 1 },
        { transitions := OrderedMap.empty.insert 'b' 2 }, {}] }

def afterFirst : Session where
  rest := ['b']
  position := 1
  state := "S"
  stats := { tokens := 1, matched := 1 }

def afterSkipped : Session where
  rest := []
  position := 2
  state := "S"
  line := 2
  errors := #[⟨1, 2, 'b'⟩]
  stats := { tokens := 1, matched := 1, skipped := 1 }

theorem ask_accounts_givingBack :
    Session.start givingBack "ab" = .ok (startIn "S" "ab") ∧
      ∃ trace, Runs givingBack (startIn "S" "ab") trace afterSkipped ∧
        Accounts "ab" (trace.map Prod.fst) [⟨"PAIR", 1, "a"⟩] afterSkipped := by
  have started : Session.start givingBack "ab" = .ok (startIn "S" "ab") := by cbv
  have first : (startIn "S" "ab").step givingBack =
      some (⟨0, "S", some ⟨0, ⟨some "PAIR", ⟨0, 2⟩, [.goBack 1]⟩, 2⟩, ['a'],
        .emitted ⟨"PAIR", 1, "a"⟩⟩, afterFirst) := by cbv
  have second : afterFirst.step givingBack =
      some (⟨1, "S", some ⟨1, ⟨some "LOST", ⟨1, 2⟩, [.goBack 0, .incrementLine]⟩, 1⟩, ['b'],
        .skipped ⟨1, 2, 'b'⟩⟩, afterSkipped) := by cbv
  have collects : Collects givingBack (startIn "S" "ab") [⟨"PAIR", 1, "a"⟩] afterSkipped :=
    .more (.emitted first rfl) (.ended (.silent second rfl (.ended rfl)))
  have asked : (startIn "S" "ab").ask givingBack 2 = ([⟨"PAIR", 1, "a"⟩], afterSkipped) :=
    collects.ask_eq
  have accounts := (ask_accounts started).1 2
  rw [asked] at accounts
  exact ⟨started, accounts⟩

end Session

end MaximalMunch
