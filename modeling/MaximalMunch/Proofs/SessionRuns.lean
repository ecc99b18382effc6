import MaximalMunch.Proofs.LongestMatch
import MaximalMunch.Session.Run
import Mathlib.Tactic.Simps.Basic

/-!
Runs of a session, cycle by cycle. A cycle takes one of three courses: no rule matches, an empty
match is refused, or a match is kept. In the first two one character is skipped.
-/

namespace MaximalMunch

theorem Effect.kept_apply_le (effect : Effect) (action : Action) :
    (effect.apply action).kept ≤ effect.kept := by
  cases action with
  | switchState target => exact Nat.le_refl _
  | goBack count => exact Nat.min_le_right _ _
  | suppress => exact Nat.le_refl _
  | incrementLine => exact Nat.le_refl _

theorem Effect.kept_applyAll_le (effect : Effect) (actions : List Action) :
    (effect.applyAll actions).kept ≤ effect.kept := by
  induction actions generalizing effect with
  | nil => exact Nat.le_refl _
  | cons action later ih =>
      calc (effect.applyAll (action :: later)).kept
          = ((effect.apply action).applyAll later).kept := rfl
        _ ≤ (effect.apply action).kept := ih _
        _ ≤ effect.kept := effect.kept_apply_le action

namespace Session

variable {bundle : Bundle} {input : String} {session first next last : Session} {cycle : Cycle}
  {trace : List (Cycle × Session)}

/-- The session behind an effect, where the lexer state and the line stand when it is refused. -/
@[simps]
def moved (session : Session) (effect : Effect) : Session :=
  { session with state := effect.state, line := effect.line }

@[simps]
def advanced (session : Session) (effect : Effect) : Session :=
  { session with
    rest := session.rest.drop effect.kept
    position := session.position + effect.kept
    state := effect.state
    line := effect.line
    visited := if effect.kept = 0 then effect.state :: session.closed else []
    stats := (keep session.stats effect (session.rest.take effect.kept)).2 }

/-- The courses a cycle can take. -/
inductive Took (bundle : Bundle) (session : Session) : Cycle → Session → Prop
  | unmatched {char : Char} {tail : List Char} (input : session.rest = char :: tail)
      (scanned : scan bundle.graph (bundle.rules session.state) session.rest = none) :
      Took bundle session
        ⟨session.position, session.state, none, [char], .skipped (session.skip char tail).1⟩
        (session.skip char tail).2
  | refused {char : Char} {tail : List Char} {found : Match} (input : session.rest = char :: tail)
      (scanned : scan bundle.graph (bundle.rules session.state) session.rest = some found)
      (empty : (session.effectOf found).kept = 0)
      (repeats : (session.effectOf found).state ∈ session.closed) :
      Took bundle session
        ⟨session.position, session.state, some found, [char],
          .skipped ((session.moved (session.effectOf found)).skip char tail).1⟩
        ((session.moved (session.effectOf found)).skip char tail).2
  | kept {found : Match} (unfinished : session.rest ≠ [])
      (scanned : scan bundle.graph (bundle.rules session.state) session.rest = some found)
      (moves : (session.effectOf found).kept = 0 →
        (session.effectOf found).state ∉ session.closed) :
      Took bundle session
        ⟨session.position, session.state, some found,
          session.rest.take (session.effectOf found).kept,
          (keep session.stats (session.effectOf found)
            (session.rest.take (session.effectOf found).kept)).1⟩
        (session.advanced (session.effectOf found))

theorem took_of_step (stepped : session.step bundle = some (cycle, next)) :
    Took bundle session cycle next := by
  unfold step at stepped
  cases input : session.rest with
  | nil => simp [input] at stepped
  | cons char tail =>
      simp only [input] at stepped
      rw [← input] at stepped
      cases scanned : scan bundle.graph (bundle.rules session.state) session.rest with
      | none =>
          simp only [scanned, Option.some.injEq, Prod.mk.injEq] at stepped
          rcases stepped with ⟨rfl, rfl⟩
          exact .unmatched input scanned
      | some found =>
          simp only [scanned] at stepped
          by_cases refusal : (session.effectOf found).kept = 0 ∧
              (session.effectOf found).state ∈ session.closed
          · rw [if_pos refusal] at stepped
            simp only [Option.some.injEq, Prod.mk.injEq] at stepped
            rcases stepped with ⟨rfl, rfl⟩
            exact .refused input scanned refusal.1 refusal.2
          · rw [if_neg refusal] at stepped
            simp only [Option.some.injEq, Prod.mk.injEq] at stepped
            rcases stepped with ⟨rfl, rfl⟩
            have unfinished : session.rest ≠ [] := by simp [input]
            exact .kept unfinished scanned fun empty repeats => refusal ⟨empty, repeats⟩

theorem step_eq_none_iff : session.step bundle = none ↔ session.rest = [] := by
  unfold step
  cases input : session.rest with
  | nil => simp
  | cons char tail =>
      simp only [reduceCtorEq, iff_false]
      split
      · simp
      · split <;> simp

theorem kept_effectOf_le {text : List Char} {found : Match}
    (scanned : scan bundle.graph (bundle.rules session.state) text = some found) :
    (session.effectOf found).kept ≤ text.length :=
  Nat.le_trans (Effect.kept_applyAll_le _ _) (length_le_of_scan scanned).2

/-- Cycles one after another, each with the session behind it. -/
inductive Runs (bundle : Bundle) : Session → List (Cycle × Session) → Session → Prop
  | stay (session : Session) : Runs bundle session [] session
  | more {session next last : Session} {cycle : Cycle} {trace : List (Cycle × Session)}
      (stepped : session.step bundle = some (cycle, next)) (later : Runs bundle next trace last) :
      Runs bundle session ((cycle, next) :: trace) last

theorem Runs.invariant (holds : Session → Prop)
    (preserved : ∀ session cycle next, holds session → Took bundle session cycle next →
      holds next)
    (run : Runs bundle first trace last) (start : holds first) : holds last := by
  induction run with
  | stay => exact start
  | more stepped _ ih => exact ih (preserved _ _ _ start (took_of_step stepped))

/-- What links a session to the run that led to it: it holds at the start and behind each cycle. -/
theorem Runs.history (holds : List (Cycle × Session) → Session → Prop)
    (run : Runs bundle first trace last) (start : holds [] first)
    (step : ∀ trace session cycle next, holds trace session → Took bundle session cycle next →
      holds (trace ++ [(cycle, next)]) next) : holds trace last := by
  have onward : ∀ earlier, holds earlier first → holds (earlier ++ trace) last := by
    clear start
    induction run with
    | stay =>
        intro earlier before
        rwa [List.append_nil]
    | more stepped later ih =>
        intro earlier before
        have behind := ih _ (step earlier _ _ _ before (took_of_step stepped))
        rwa [List.append_assoc] at behind
  exact onward [] start

theorem runs_drain (bundle : Bundle) (session : Session) :
    ∃ trace, Runs bundle session trace (session.drain bundle).2 ∧
      trace.map Prod.fst = (session.drain bundle).1 := by
  cases stepped : session.step bundle with
  | none =>
      rw [drain_of_none stepped]
      exact ⟨[], .stay session, rfl⟩
  | some taken =>
      have _ := step_progress stepped
      rcases runs_drain bundle taken.2 with ⟨trace, run, cycles⟩
      rw [drain_of_some stepped]
      refine ⟨taken :: trace, .more stepped run, ?_⟩
      rw [List.map_cons, cycles]
termination_by (session.rest.length, session.prospects bundle)
decreasing_by assumption

theorem step_drain_eq_none (bundle : Bundle) (session : Session) :
    (session.drain bundle).2.step bundle = none := by
  cases stepped : session.step bundle with
  | none =>
      rw [drain_of_none stepped]
      exact stepped
  | some taken =>
      have _ := step_progress stepped
      rw [drain_of_some stepped]
      exact step_drain_eq_none bundle taken.2
termination_by (session.rest.length, session.prospects bundle)
decreasing_by assumption

structure Placed (input : String) (session : Session) : Prop where
  rest : session.rest = input.toList.drop session.position
  bounded : session.position ≤ input.length

theorem startIn_placed (state input : String) : Placed input (startIn state input) :=
  ⟨rfl, Nat.zero_le _⟩

theorem start_eq_ok (started : Session.start bundle input = .ok first) :
    first = startIn bundle.startState input := by
  unfold Session.start at started
  by_cases known : bundle.states.contains bundle.startState
  · rw [if_pos known] at started
    exact (Except.ok.inj started).symm
  · rw [if_neg known] at started
    cases started

theorem tokenize_of_start (started : Session.start bundle input = .ok first) :
    tokenize bundle input = .ok (TokenStream.ofRun (first.drain bundle)) := by
  rw [tokenize, started]
  rfl

theorem Placed.rest_length (placed : Placed input session) :
    session.rest.length = input.length - session.position := by
  rw [placed.rest, List.length_drop, String.length_toList]

theorem Placed.head (placed : Placed input session) {char : Char} {tail : List Char}
    (reads : session.rest = char :: tail) : input.toList[session.position]? = some char := by
  have first := congrArg List.head? (placed.rest.symm.trans reads)
  rw [List.head?_drop] at first
  exact first

theorem Placed.skip (placed : Placed input session) {char : Char} {tail : List Char}
    (rest : session.rest = char :: tail) : Placed input (session.skip char tail).2 := by
  constructor
  · show tail = input.toList.drop (session.position + 1)
    rw [← List.drop_drop, ← placed.rest, rest]
    rfl
  · have length := placed.rest_length
    rw [rest, List.length_cons] at length
    show session.position + 1 ≤ input.length
    omega

theorem Placed.took (placed : Placed input session) (took : Took bundle session cycle next) :
    Placed input next := by
  cases took with
  | unmatched input scanned => exact placed.skip input
  | @refused char tail found input scanned empty repeats =>
      have moved : Placed _ (session.moved (session.effectOf found)) :=
        ⟨placed.rest, placed.bounded⟩
      exact moved.skip input
  | @kept found unfinished scanned moves =>
      have within := kept_effectOf_le scanned
      have length := placed.rest_length
      have bounded := placed.bounded
      constructor
      · show session.rest.drop _ = input.toList.drop (session.position + _)
        rw [← List.drop_drop, ← placed.rest]
      · show session.position + (session.effectOf found).kept ≤ input.length
        omega

theorem Runs.placed (run : Runs bundle first trace last)
    (started : Session.start bundle input = .ok first) : Placed input last := by
  apply run.invariant (Placed input) fun _ _ _ => Placed.took
  rw [start_eq_ok started]
  exact startIn_placed _ _

end Session

end MaximalMunch
