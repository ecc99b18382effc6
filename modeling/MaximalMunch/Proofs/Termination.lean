import MaximalMunch.Proofs.SessionRuns
import Mathlib

/-!
Sessions end, for all bundles. Each cycle spends some of a budget: every character of the input
pays for as many cycles as there are names that a session can have as its state, because at one
position empty matches enter each of them at most once.
-/

namespace MaximalMunch

/-- The names a lexer state can have: the start state and what rules switch to. -/
def Bundle.stateNames (bundle : Bundle) : List String :=
  (bundle.startState :: bundle.targets).dedup

namespace Session

variable {bundle : Bundle} {input : String} {first session next last : Session} {cycle : Cycle}
  {trace : List (Cycle × Session)}

/-- The states closed to empty matches are different names, and the current state is one. -/
structure Tracked (bundle : Bundle) (session : Session) : Prop where
  current : session.state ∈ session.closed
  distinct : session.closed.Nodup
  named : ∀ state ∈ session.closed, state ∈ bundle.stateNames

def budget (bundle : Bundle) (session : Session) : Nat :=
  bundle.stateNames.length * session.rest.length + 1 - session.closed.length

namespace Tracked

theorem closed_le (tracked : Tracked bundle session) :
    session.closed.length ≤ bundle.stateNames.length :=
  (List.subperm_of_subset tracked.distinct tracked.named).length_le

theorem closed_positive (tracked : Tracked bundle session) : 0 < session.closed.length :=
  List.length_pos_of_mem tracked.current

theorem closed_of_fresh (fresh : session.visited = []) : session.closed = [session.state] := by
  simp [closed, fresh]

theorem of_fresh (fresh : session.visited = []) (named : session.state ∈ bundle.stateNames) :
    Tracked bundle session := by
  have closed := closed_of_fresh fresh
  constructor
  · rw [closed]
    exact List.mem_singleton_self _
  · rw [closed]
    exact List.nodup_singleton _
  · rw [closed]
    intro state member
    rw [List.mem_singleton.mp member]
    exact named

theorem startIn (bundle : Bundle) (input : String) :
    Tracked bundle (startIn bundle.startState input) :=
  of_fresh rfl (List.mem_dedup.mpr List.mem_cons_self)

theorem effectOf_named (tracked : Tracked bundle session) {text : List Char} {found : Match}
    (scanned : scan bundle.graph (bundle.rules session.state) text = some found) :
    (session.effectOf found).state ∈ bundle.stateNames := by
  have reached := Effect.applyAll_state
    ⟨session.state, session.line, found.length, found.rule.unit⟩ found.rule.actions
  rcases reached with same | switched
  · have stays : (session.effectOf found).state = session.state := same
    rw [stays]
    exact tracked.named _ tracked.current
  · have target := Bundle.targets_of_rule (scan_mem scanned) switched
    exact List.mem_dedup.mpr (List.mem_cons_of_mem _ target)

theorem took (tracked : Tracked bundle session) (taken : Took bundle session cycle next) :
    Tracked bundle next := by
  cases taken with
  | unmatched input scanned => exact of_fresh rfl (tracked.named _ tracked.current)
  | refused input scanned empty repeats => exact of_fresh rfl (tracked.effectOf_named scanned)
  | @kept found unfinished scanned moves =>
      by_cases empty : (session.effectOf found).kept = 0
      · have closed : (session.advanced (session.effectOf found)).closed =
            (session.effectOf found).state :: session.closed := by
          simp [Session.closed, empty]
        constructor
        · rw [closed]
          exact List.mem_cons_self
        · rw [closed]
          exact List.nodup_cons.mpr ⟨moves empty, tracked.distinct⟩
        · rw [closed]
          intro state member
          rcases List.mem_cons.mp member with rfl | earlier
          · exact tracked.effectOf_named scanned
          · exact tracked.named state earlier
      · apply of_fresh
        · simp [empty]
        · exact tracked.effectOf_named scanned

end Tracked

theorem Runs.tracked (run : Runs bundle first trace last)
    (started : Session.start bundle input = .ok first) : Tracked bundle last := by
  apply run.invariant (Tracked bundle) fun _ _ _ => Tracked.took
  rw [start_eq_ok started]
  exact Tracked.startIn bundle input

theorem budget_lt_of_shorter (tracked : Tracked bundle session) (fresh : next.visited = [])
    (shorter : next.rest.length < session.rest.length) :
    next.budget bundle < session.budget bundle := by
  -- A cycle that goes over characters can spend all that one of them pays for.
  have closed := tracked.closed_le
  have alone := Tracked.closed_of_fresh fresh
  have pays : bundle.stateNames.length * (next.rest.length + 1) ≤
      bundle.stateNames.length * session.rest.length := Nat.mul_le_mul_left _ shorter
  rw [Nat.mul_succ] at pays
  unfold budget
  rw [alone, List.length_singleton]
  have positive := tracked.closed_positive
  omega

theorem budget_lt_of_took (tracked : Tracked bundle session)
    (took : Took bundle session cycle next) : next.budget bundle < session.budget bundle := by
  have later := tracked.took took
  cases took with
  | @unmatched char tail input scanned =>
      apply budget_lt_of_shorter tracked rfl
      rw [input]
      exact Nat.lt_succ_self _
  | @refused char tail found input scanned empty repeats =>
      apply budget_lt_of_shorter tracked rfl
      rw [input]
      exact Nat.lt_succ_self _
  | @kept found unfinished scanned moves =>
      have positive := List.length_pos_iff.mpr unfinished
      by_cases empty : (session.effectOf found).kept = 0
      · have closed : (session.advanced (session.effectOf found)).closed.length =
            session.closed.length + 1 := by
          simp [Session.closed, empty]
        have rest : (session.advanced (session.effectOf found)).rest.length =
            session.rest.length := by
          simp [empty]
        -- The position stays, but one more state is closed, and there are only so many names.
        have bounded := later.closed_le
        have pays : bundle.stateNames.length * 1 ≤
            bundle.stateNames.length * session.rest.length := Nat.mul_le_mul_left _ positive
        unfold budget
        rw [rest, closed]
        omega
      · apply budget_lt_of_shorter tracked
        · simp [empty]
        · show (session.rest.drop _).length < _
          rw [List.length_drop]
          omega

theorem Runs.length_add_budget_le (run : Runs bundle first trace last)
    (tracked : Tracked bundle first) :
    trace.length + last.budget bundle ≤ first.budget bundle := by
  induction run with
  | stay => simp
  | @more session next last cycle trace stepped later ih =>
      have took := took_of_step stepped
      have spent := budget_lt_of_took tracked took
      have rest := ih (tracked.took took)
      rw [List.length_cons]
      omega

theorem budget_startIn (bundle : Bundle) (input : String) :
    (startIn bundle.startState input).budget bundle =
      bundle.stateNames.length * input.length := by
  simp [budget, startIn, closed, String.length_toList]

def produced (session : Session) : Nat := session.stats.tokens + session.stats.suppressed

theorem produced_le_of_took (took : Took bundle session cycle next) :
    next.produced ≤ session.produced + 1 := by
  cases took with
  | unmatched input scanned => exact Nat.le_succ _
  | refused input scanned empty repeats => exact Nat.le_succ _
  | @kept found unfinished scanned moves =>
      cases unit : (session.effectOf found).unit with
      | none => simp [produced, keep, unit, Nat.add_assoc]
      | some tag => simp [produced, keep, unit]; omega

theorem Runs.produced_le (run : Runs bundle first trace last) :
    last.produced ≤ first.produced + trace.length := by
  induction run with
  | stay => simp
  | more stepped later ih =>
      have one := produced_le_of_took (took_of_step stepped)
      rw [List.length_cons]
      omega

/-- The position of an empty match that was kept, and the state entered through it. -/
def enteredEmpty? (entry : Cycle × Session) : Option (Nat × String) :=
  if entry.1.span = [] then some (entry.1.position, entry.2.state) else none

def emptyEntries (trace : List (Cycle × Session)) : List (Nat × String) :=
  trace.filterMap enteredEmpty?

/-- An empty match leads to a state that was not closed, and any other cycle moves on. -/
theorem enteredEmpty?_of_took (took : Took bundle session cycle next) :
    enteredEmpty? (cycle, next) = none ∧ session.position < next.position ∨
      enteredEmpty? (cycle, next) = some (session.position, next.state) ∧
        next.position = session.position ∧ next.state ∉ session.closed ∧
          next.closed = next.state :: session.closed := by
  cases took with
  | unmatched input scanned => exact .inl ⟨rfl, Nat.lt_succ_self _⟩
  | refused input scanned empty repeats => exact .inl ⟨rfl, Nat.lt_succ_self _⟩
  | @kept found unfinished scanned moves =>
      by_cases empty : (session.effectOf found).kept = 0
      · right
        refine ⟨?_, ?_, moves empty, ?_⟩
        · simp [enteredEmpty?, empty]
        · simp [empty]
        · simp [closed, empty]
      · left
        constructor
        · simp [enteredEmpty?, empty, unfinished]
        · show session.position < session.position + _
          omega

/-- From here on empty matches lie at this position, outside the closed states, or further on. -/
theorem Runs.emptyEntries_later (run : Runs bundle first trace last) :
    ∀ entry ∈ emptyEntries trace, first.position < entry.1 ∨
      entry.1 = first.position ∧ entry.2 ∉ first.closed := by
  induction run with
  | stay => simp [emptyEntries]
  | @more session next last cycle trace stepped later ih =>
      intro entry member
      rcases enteredEmpty?_of_took (took_of_step stepped) with ⟨none, onward⟩ | ⟨some, still⟩
      · rw [emptyEntries, List.filterMap_cons_none none] at member
        rcases ih entry member with beyond | here
        · exact .inl (Nat.lt_trans onward beyond)
        · exact .inl (here.1 ▸ onward)
      · rcases still with ⟨same, fresh, closed⟩
        rw [emptyEntries, List.filterMap_cons_some some] at member
        rcases List.mem_cons.mp member with rfl | member
        · exact .inr ⟨rfl, fresh⟩
        · rw [← same]
          apply (ih entry member).imp_right
          intro here
          rw [closed] at here
          exact ⟨here.1, fun old => here.2 (List.mem_cons_of_mem _ old)⟩

theorem Runs.emptyEntries_nodup (run : Runs bundle first trace last) :
    (emptyEntries trace).Nodup := by
  induction run with
  | stay => exact List.nodup_nil
  | @more session next last cycle trace stepped later ih =>
      rcases enteredEmpty?_of_took (took_of_step stepped) with ⟨none, -⟩ | ⟨some, same, -, closed⟩
      · rw [emptyEntries, List.filterMap_cons_none none]
        exact ih
      · rw [emptyEntries, List.filterMap_cons_some some]
        apply List.nodup_cons.mpr
        refine ⟨?_, ih⟩
        intro again
        rcases later.emptyEntries_later _ again with beyond | here
        · exact Nat.lt_irrefl _ (same ▸ beyond)
        · rw [closed] at here
          exact here.2 List.mem_cons_self

/-- The loop that looks for the next token, as it runs to its end. -/
inductive Pulls (bundle : Bundle) : Session → Option Token → Session → Prop
  | ended {session : Session} (ended : session.step bundle = none) :
      Pulls bundle session none session
  | emitted {session next : Session} {cycle : Cycle} {token : Token}
      (stepped : session.step bundle = some (cycle, next)) (emits : cycle.token? = some token) :
      Pulls bundle session (some token) next
  | silent {session next last : Session} {cycle : Cycle} {token : Option Token}
      (stepped : session.step bundle = some (cycle, next)) (silent : cycle.token? = none)
      (later : Pulls bundle next token last) : Pulls bundle session token last

/-- Asking for tokens until there is none. -/
inductive Collects (bundle : Bundle) : Session → List Token → Session → Prop
  | ended {session last : Session} (pulled : Pulls bundle session none last) :
      Collects bundle session [] last
  | more {session next last : Session} {token : Token} {tokens : List Token}
      (pulled : Pulls bundle session (some token) next)
      (later : Collects bundle next tokens last) : Collects bundle session (token :: tokens) last

theorem pulls_next (bundle : Bundle) (session : Session) :
    Pulls bundle session (session.next bundle).1 (session.next bundle).2 := by
  cases stepped : session.step bundle with
  | none =>
      rw [next_of_none stepped]
      exact .ended stepped
  | some taken =>
      have _ := step_progress stepped
      rw [next_of_some stepped]
      cases emits : taken.1.token? with
      | none => exact .silent stepped emits (pulls_next bundle taken.2)
      | some token => exact .emitted stepped emits
termination_by (session.rest.length, session.prospects bundle)
decreasing_by assumption

theorem Collects.silent {tokens : List Token} (stepped : session.step bundle = some (cycle, next))
    (silent : cycle.token? = none) (later : Collects bundle next tokens last) :
    Collects bundle session tokens last := by
  cases later with
  | ended pulled => exact .ended (.silent stepped silent pulled)
  | more pulled later => exact .more (.silent stepped silent pulled) later

theorem collects_drain (bundle : Bundle) (session : Session) :
    Collects bundle session ((session.drain bundle).1.filterMap Cycle.token?)
      (session.drain bundle).2 := by
  cases stepped : session.step bundle with
  | none =>
      rw [drain_of_none stepped]
      exact .ended (.ended stepped)
  | some taken =>
      have _ := step_progress stepped
      have later := collects_drain bundle taken.2
      rw [drain_of_some stepped]
      cases emits : taken.1.token? with
      | none =>
          rw [List.filterMap_cons_none emits]
          exact later.silent stepped emits
      | some token =>
          rw [List.filterMap_cons_some emits]
          exact .more (.emitted stepped emits) later
termination_by (session.rest.length, session.prospects bundle)
decreasing_by assumption

theorem Runs.trans {later : List (Cycle × Session)} (front : Runs bundle first trace session)
    (back : Runs bundle session later last) : Runs bundle first (trace ++ later) last := by
  induction front with
  | stay => exact back
  | more stepped _ ih => exact .more stepped (ih back)

theorem position_drain (started : Session.start bundle input = .ok first)
    (run : Runs bundle first trace session) : (session.drain bundle).2.position = input.length := by
  rcases runs_drain bundle session with ⟨later, onward, -⟩
  have placed := (run.trans onward).placed started
  have nothing := step_eq_none_iff.mp (step_drain_eq_none bundle session)
  have length := placed.rest_length
  have bounded := placed.bounded
  rw [nothing, List.length_nil] at length
  omega

/--
From every session that is reached, asking for the next token comes to an end, and so does asking
until there is none, with the whole input behind it. At one position no lexer state is entered
twice through empty matches, which bounds the number of cycles.
-/
theorem runs_terminate (started : Session.start bundle input = .ok first) :
    ∀ trace session, Runs bundle first trace session →
      Pulls bundle session (session.next bundle).1 (session.next bundle).2 ∧
      Collects bundle session ((session.drain bundle).1.filterMap Cycle.token?)
        (session.drain bundle).2 ∧
      (session.drain bundle).2.position = input.length ∧
      (emptyEntries trace).Nodup ∧
      trace.length ≤ bundle.stateNames.length * input.length ∧
      session.stats.tokens + session.stats.suppressed ≤
        bundle.stateNames.length * input.length := by
  intro trace session run
  have begins := start_eq_ok started
  have cycles : trace.length ≤ bundle.stateNames.length * input.length := by
    have tracked : Tracked bundle first := begins ▸ Tracked.startIn bundle input
    have spent := run.length_add_budget_le tracked
    rw [begins, budget_startIn] at spent
    omega
  have produced : session.produced ≤ trace.length := by
    have counted := run.produced_le
    rw [begins] at counted
    simpa [Session.produced, startIn] using counted
  refine ⟨pulls_next bundle session, collects_drain bundle session, position_drain started run,
    run.emptyEntries_nodup, cycles, ?_⟩
  exact Nat.le_trans produced cycles

def bouncing : Bundle where
  startState := "S"
  states := StateTable.push (StateTable.push {} "S"
    ⟨none, ⟨0, 1⟩, [.switchState "T", .goBack 0]⟩) "S" ⟨some "LOST", ⟨7, 8⟩, []⟩
  graph := { nodes := #[{ transitions := OrderedMap.empty.insert 'a' 1 }, {}] }

def bounced : Session where
  rest := ['a', 'a']
  state := "T"
  visited := ["T", "S"]
  stats := { suppressed := 1 }

theorem runs_terminate_bouncing :
    bouncing.fault? = some (.unknownTarget "S" "T") ∧ (bounced.drain bouncing).2.position = 2 ∧
      bounced.stats.tokens + bounced.stats.suppressed ≤ 2 * 2 := by
  have faulty : bouncing.fault? = some (.unknownTarget "S" "T") := by cbv
  have names : bouncing.stateNames.length = 2 := by cbv
  have started : Session.start bouncing "aa" = .ok (startIn "S" "aa") := by cbv
  have stepped : (startIn "S" "aa").step bouncing =
      some (⟨0, "S", some ⟨0, ⟨none, ⟨0, 1⟩, [.switchState "T", .goBack 0]⟩, 1⟩, [],
        .suppressed⟩, bounced) := by cbv
  have ends := runs_terminate started _ _ (.more stepped (.stay bounced))
  rw [names] at ends
  exact ⟨faulty, ends.2.2.1, ends.2.2.2.2.2⟩

end Session

end MaximalMunch
