import MaximalMunch.Proofs.MatchOutcome
import MaximalMunch.Proofs.ScannedMatches

/-!
Why a session skips a character. It does so at a position where no rule of the lexer state accepts
anything, or where the winning rule gives all of its match back and leads to a state that the
session has been in at this position already. There is no other error.
-/

namespace MaximalMunch

/-- The state behind the rule's actions. -/
def Rule.leadsTo (rule : Rule) (state : String) : String := rule.targets.getLast?.getD state

theorem Tiles.apart {input : List Char} {cycles : List Cycle} {start stop : Nat}
    (tiles : Tiles input start cycles stop) :
    (∀ cycle ∈ cycles, start ≤ cycle.position) ∧
      cycles.Pairwise fun earlier later => earlier.stop ≤ later.position := by
  induction tiles with
  | done place => exact ⟨by simp, .nil⟩
  | @next cycle cycles stop span later ih =>
      have begins : cycle.position ≤ cycle.stop := Nat.le_add_right _ _
      constructor
      · intro other member
        obtain rfl | behind := List.mem_cons.mp member
        · exact Nat.le_refl _
        · exact Nat.le_trans begins (ih.1 other behind)
      · exact List.pairwise_cons.mpr ih

theorem Tiles.error_outside {input : List Char} {cycles : List Cycle} {start stop : Nat}
    {cycle : Cycle} {error : LexicalError} (tiles : Tiles input start cycles stop)
    (shows : ∀ cycle ∈ cycles, cycle.Shows) (recorded : error ∈ cycles.filterMap Cycle.error?)
    (member : cycle ∈ cycles) (kept : cycle.error? = none) :
    error.position < cycle.position ∨ cycle.stop ≤ error.position := by
  obtain ⟨skipping, listed, skips⟩ := List.mem_filterMap.mp recorded
  obtain ⟨single, place⟩ := (shows skipping listed).skipped error (Cycle.error?_eq_some.mp skips)
  have ends : skipping.stop = error.position + 1 := by
    rw [Cycle.stop, single, place, List.length_singleton]
  have other : skipping ≠ cycle := by
    rintro rfl
    rw [kept] at skips
    cases skips
  have symmetric : Std.Symm fun first second : Cycle =>
      first.stop ≤ second.position ∨ second.stop ≤ first.position := ⟨fun _ _ => Or.symm⟩
  have apart : cycles.Pairwise fun first second =>
      first.stop ≤ second.position ∨ second.stop ≤ first.position :=
    tiles.apart.2.imp Or.inl
  obtain before | behind := apart.forall listed member other
  · exact .inl (by omega)
  · exact .inr (by omega)

namespace Session

variable {bundle : Bundle} {input : String} {first session next last : Session} {cycle : Cycle}
  {front back trace : List (Cycle × Session)} {entry : Cycle × Session} {found : Match}
  {rule : Rule} {stop : Nat} {visited : Set String}

/-- The longest stretch from the position that a rule accepts, by the first rule to accept it. -/
structure Winner (bundle : Bundle) (input : String) (session : Session) (rule : Rule)
    (stop : Nat) : Prop where
  longest : IsGreatest (session.matchEnds bundle input) stop
  first : ∃ index, (bundle.rules session.state)[index]? = some rule ∧
    IsLeast (session.matchIndices bundle input stop) index

theorem Placed.winner_of_scan (placed : Placed input session)
    (scanned : scan bundle.graph (bundle.rules session.state) session.rest = some found) :
    session.Winner bundle input found.rule (session.position + found.length) := by
  obtain ⟨listed, wins⟩ := scan_eq_some_iff.mp scanned
  obtain ⟨longest, least⟩ := placed.wins_iff.mp wins
  exact ⟨longest, found.index, listed, least⟩

theorem Placed.scan_of_winner (placed : Placed input session)
    (winner : session.Winner bundle input rule stop) :
    ∃ found, scan bundle.graph (bundle.rules session.state) session.rest = some found ∧
      found.rule = rule ∧ session.position + found.length = stop := by
  obtain ⟨longest, index, listed, least⟩ := winner
  obtain ⟨length, rfl⟩ := Nat.exists_eq_add_of_le (Nat.le_of_lt longest.1.1)
  refine ⟨⟨index, rule, length⟩, ?_, rfl, rfl⟩
  exact scan_eq_some_iff.mpr ⟨listed, placed.wins_iff.mpr ⟨longest, least⟩⟩

theorem kept_effectOf_eq_zero (session : Session) (positive : 0 < found.length) :
    (session.effectOf found).kept = 0 ↔ .goBack 0 ∈ found.rule.actions := by
  obtain ⟨place, least⟩ := Effect.isLeast_kept_applyAll
    ⟨session.state, session.line, found.length, found.rule.unit⟩ found.rule.actions
  constructor
  · intro empty
    obtain whole | given := place
    · exact absurd (whole.symm.trans empty) (Nat.ne_of_gt positive)
    · exact empty ▸ given
  · intro given
    exact Nat.le_zero.mp (least (.inr given))

/--
What makes a session skip a character: nothing to match, or an empty match that leads to one of
the states it has visited here.
-/
inductive Justified (bundle : Bundle) (input : String) (visited : Set String)
    (session : Session) : Prop
  | unmatched (absent : ∀ stop, session.position < stop → stop ≤ input.length →
      ∀ rule ∈ bundle.rules session.state, ¬ session.Accepts bundle input stop rule) :
      Justified bundle input visited session
  | repeated {rule : Rule} {stop : Nat} (winner : session.Winner bundle input rule stop)
      (empty : .goBack 0 ∈ rule.actions) (again : rule.leadsTo session.state ∈ visited) :
      Justified bundle input visited session

theorem Placed.error?_iff (placed : Placed input session)
    (closed : ∀ state, state ∈ session.closed ↔ state ∈ visited)
    (took : Took bundle session cycle next) :
    (∃ error, cycle.error? = some error) ↔ session.Justified bundle input visited := by
  cases took with
  | unmatched reads scanned =>
      refine iff_of_true ⟨_, rfl⟩ (.unmatched ?_)
      exact placed.unmatched_iff.mp (scan_eq_none_iff.mp scanned)
  | @refused char tail found reads scanned empty repeats =>
      have given := (kept_effectOf_eq_zero session (length_le_of_scan scanned).1).mp empty
      rw [state_effectOf, closed] at repeats
      exact iff_of_true ⟨_, rfl⟩ (.repeated (placed.winner_of_scan scanned) given repeats)
  | @kept found unfinished scanned moves =>
      refine iff_of_false ?_ ?_
      · rintro ⟨error, skips⟩
        rw [error?_keep] at skips
        cases skips
      · rintro (absent | @⟨rule, stop, winner, empty, again⟩)
        · have none := scan_eq_none_iff.mpr (placed.unmatched_iff.mpr absent)
          rw [scanned] at none
          cases none
        · obtain ⟨other, same, rfl, -⟩ := placed.scan_of_winner winner
          obtain rfl := Option.some.inj (same.symm.trans scanned)
          have kept := (kept_effectOf_eq_zero session (length_le_of_scan scanned).1).mpr empty
          apply moves kept
          rw [state_effectOf, closed]
          exact again

theorem Took.error_position (took : Took bundle session cycle next) {error : LexicalError}
    (skips : cycle.error? = some error) : error.position = session.position := by
  have shown := (shows_of_took took).skipped error (Cycle.error?_eq_some.mp skips)
  exact shown.2.trans (closed_of_took took).1

theorem Placed.entered (placed : Placed input session)
    (closed : ∀ state, state ∈ session.closed ↔ state ∈ visited)
    (took : Took bundle session cycle next) (winner : session.Winner bundle input rule stop)
    (empty : .goBack 0 ∈ rule.actions) (fresh : rule.leadsTo session.state ∉ visited) :
    cycle.error? = none ∧ next.errors = session.errors ∧ next.position = session.position ∧
      next.state = rule.leadsTo session.state := by
  obtain ⟨found, scanned, rfl, -⟩ := placed.scan_of_winner winner
  have alike : ∀ {other}, scan bundle.graph (bundle.rules session.state) session.rest = some other →
      other = found := fun again => Option.some.inj (again.symm.trans scanned)
  cases took with
  | unmatched reads none =>
      rw [scanned] at none
      cases none
  | refused reads again empty repeats =>
      obtain rfl := alike again
      rw [state_effectOf, closed] at repeats
      exact absurd repeats fresh
  | kept unfinished again moves =>
      obtain rfl := alike again
      have nothing := (kept_effectOf_eq_zero session (length_le_of_scan scanned).1).mpr empty
      refine ⟨error?_keep .., rfl, ?_, state_effectOf _ _⟩
      simp [nothing]

theorem Runs.split (run : Runs bundle first (front ++ entry :: back) last) :
    ∃ before, Runs bundle first front before ∧ before.step bundle = some entry ∧
      Runs bundle entry.2 back last := by
  induction front generalizing first with
  | nil =>
      cases run with
      | more stepped later => exact ⟨first, .stay first, stepped, later⟩
  | cons head front ih =>
      cases run with
      | more stepped later =>
          obtain ⟨before, earlier, taken, onward⟩ := ih later
          exact ⟨before, .more stepped earlier, taken, onward⟩

/-- The states the session has been in at its position, by the run that has led to it. -/
def visitedBy (trace : List (Cycle × Session)) (session : Session) : Set String :=
  insert session.state (passedThrough trace session.position)

theorem Runs.closed_iff (run : Runs bundle first trace session)
    (started : Session.start bundle input = .ok first) (state : String) :
    state ∈ session.closed ↔ state ∈ session.visitedBy trace := by
  apply run.mem_closed_iff
  rw [start_eq_ok started]
  rfl

theorem Runs.mem_errors (run : Runs bundle first trace last)
    (started : Session.start bundle input = .ok first) {error : LexicalError} :
    error ∈ last.errors ↔ ∃ entry ∈ trace, entry.1.error? = some error := by
  rw [← Array.mem_toList_iff, (run.accounts started).errors]
  simp [List.mem_filterMap]

/--
Every error is justified, and nothing that is no error is taken for one: a character is skipped
where nothing matches, or where an empty match leads to a state visited there. The errors lie at
different positions, outside all that matches have kept, and an empty match into a state that was
not visited is none.
-/
theorem errors_justified (started : Session.start bundle input = .ok first)
    (run : Runs bundle first trace last) :
    (∀ position, (∃ error ∈ last.errors, error.position = position) ↔
      ∃ front entry back before, trace = front ++ entry :: back ∧
        Runs bundle first front before ∧ before.step bundle = some entry ∧
          before.position = position ∧
            before.Justified bundle input (before.visitedBy front)) ∧
    (last.errors.toList.Pairwise fun earlier later => earlier.position < later.position) ∧
    (∀ entry ∈ trace, entry.1.error? = none → ∀ error ∈ last.errors,
      error.position < entry.1.position ∨ entry.1.stop ≤ error.position) ∧
    ∀ front entry back before rule stop, trace = front ++ entry :: back →
      Runs bundle first front before → before.step bundle = some entry →
        before.Winner bundle input rule stop → .goBack 0 ∈ rule.actions →
          rule.leadsTo before.state ∉ before.visitedBy front →
            entry.1.error? = none ∧ entry.2.errors = before.errors ∧
              entry.2.position = before.position ∧
                entry.2.state = rule.leadsTo before.state := by
  have accounts := run.accounts started
  refine ⟨?_, accounts.ascending, ?_, ?_⟩
  · intro position
    constructor
    · rintro ⟨error, recorded, rfl⟩
      obtain ⟨entry, member, skips⟩ := (run.mem_errors started).mp recorded
      obtain ⟨front, back, rfl⟩ := List.append_of_mem member
      obtain ⟨before, earlier, stepped, -⟩ := run.split
      have took := took_of_step stepped
      have justified := (earlier.placed started).error?_iff (earlier.closed_iff started) took
      exact ⟨front, entry, back, before, rfl, earlier, stepped, (took.error_position skips).symm,
        justified.mp ⟨error, skips⟩⟩
    · rintro ⟨front, entry, back, before, rfl, earlier, stepped, rfl, justified⟩
      have took := took_of_step stepped
      have skips := (earlier.placed started).error?_iff (earlier.closed_iff started) took
      obtain ⟨error, skipped⟩ := skips.mpr justified
      have recorded := (run.mem_errors started).mpr ⟨entry, by simp, skipped⟩
      exact ⟨error, recorded, took.error_position skipped⟩
  · intro entry member kept error recorded
    rw [← Array.mem_toList_iff, accounts.errors] at recorded
    exact accounts.tiles.error_outside accounts.shows recorded (List.mem_map_of_mem member) kept
  · intro front entry back before rule stop _ earlier stepped winner empty fresh
    exact (earlier.placed started).entered (earlier.closed_iff started) (took_of_step stepped)
      winner empty fresh

def givenUp : Session where
  rest := []
  position := 1
  state := "S"
  line := 3
  errors := #[⟨0, 3, 'a'⟩]
  stats := { tokens := 1, skipped := 1 }

theorem errors_justified_swinging :
    ∃ trace, Runs swinging (startIn "S" "a") trace givenUp ∧
      ∃ front before, before.position = 0 ∧ Runs swinging (startIn "S" "a") front before ∧
        before.Justified swinging "a" (before.visitedBy front) := by
  have started : Session.start swinging "a" = .ok (startIn "S" "a") := by cbv
  have first : ∃ cycle, (startIn "S" "a").step swinging = some (cycle, handedOver) := ⟨_, by cbv⟩
  have second : ∃ cycle, handedOver.step swinging = some (cycle, givenUp) := ⟨_, by cbv⟩
  obtain ⟨handing, first⟩ := first
  obtain ⟨skipping, second⟩ := second
  have run := Runs.more first (.more second (.stay givenUp))
  obtain ⟨front, -, -, before, -, earlier, -, place, justified⟩ :=
    ((errors_justified started run).1 0).mp ⟨⟨0, 3, 'a'⟩, by simp [givenUp], rfl⟩
  exact ⟨_, run, front, before, place, earlier, justified⟩

end Session

end MaximalMunch
