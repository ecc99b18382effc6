import MaximalMunch.Proofs.ScannerCycles
import Mathlib.Data.List.Forall2

/-!
Two lexers side by side. Where their rules correspond one by one and have the same fragments of
one graph, they find the same matches; where each cycle of one is answered by a cycle of the
other, their sessions go through the whole input in step.
-/

namespace MaximalMunch

structure RulesCorrespond (related : Nat → Rule → Rule → Prop) (rules others : List Rule) :
    Prop where
  length : rules.length = others.length
  relates : ∀ index rule other, rules[index]? = some rule → others[index]? = some other →
    related index rule other

/-- Two lexers over one graph, with related rules at every place of every state. -/
structure Bundle.Corresponds (related : String → Nat → Rule → Rule → Prop) (first second : Bundle) :
    Prop where
  startState : first.startState = second.startState
  graph : first.graph = second.graph
  known : ∀ state, first.states.contains state = second.states.contains state
  rules : ∀ state, RulesCorrespond (related state) (first.rules state) (second.rules state)

section Matches

variable {graph : Graph} {rules others : List Rule} {text : List Char}

theorem Rule.language_congr {rule other : Rule} (same : rule.fragment = other.fragment) :
    rule.language graph = other.language graph := by
  rw [Rule.language, Rule.language, same]

theorem scan_eq_none_of_languages
    (same : Rule.languages graph rules = Rule.languages graph others)
    (scanned : scan graph rules text = none) : scan graph others text = none := by
  rw [scan_eq_none_iff] at scanned ⊢
  exact same ▸ scanned

theorem scan_eq_some_of_languages
    (same : Rule.languages graph rules = Rule.languages graph others) {found : Match}
    (scanned : scan graph rules text = some found) :
    ∃ other, others[found.index]? = some other ∧
      scan graph others text = some { found with rule := other } := by
  rcases scan_eq_some_iff.mp scanned with ⟨listed, wins⟩
  rw [same] at wins
  rcases wins.holds with ⟨language, placed, -⟩
  rw [Rule.languages, List.getElem?_map] at placed
  rcases Option.map_eq_some_iff.mp placed with ⟨other, known, -⟩
  exact ⟨other, known, scan_eq_some_iff.mpr ⟨known, wins⟩⟩

end Matches

namespace Bundle.Corresponds

variable {related wider : String → Nat → Rule → Rule → Prop} {first second : Bundle}
  {state : String} {text : List Char}

theorem mono (same : first.Corresponds related second)
    (widens : ∀ state index rule other, related state index rule other →
      wider state index rule other) : first.Corresponds wider second := by
  refine ⟨same.startState, same.graph, same.known, fun state => ⟨(same.rules state).length, ?_⟩⟩
  intro index rule other listed beside
  exact widens _ _ _ _ ((same.rules state).relates index rule other listed beside)

theorem languages (same : first.Corresponds related second)
    (fragments : ∀ state index rule other, related state index rule other →
      rule.fragment = other.fragment) (state : String) :
    Rule.languages first.graph (first.rules state) =
      Rule.languages first.graph (second.rules state) := by
  have length := (same.rules state).length
  apply List.ext_getElem
  · rw [Rule.languages, Rule.languages, List.length_map, List.length_map, length]
  · intro index inside _
    rw [Rule.languages, List.length_map] at inside
    have listed := List.getElem?_eq_getElem inside
    have beside := List.getElem?_eq_getElem (length ▸ inside)
    have relates := (same.rules state).relates index _ _ listed beside
    simpa only [Rule.languages, List.getElem_map] using
      Rule.language_congr (fragments state index _ _ relates)

theorem scan_none (same : first.Corresponds related second)
    (fragments : ∀ state index rule other, related state index rule other →
      rule.fragment = other.fragment)
    (scanned : scan first.graph (first.rules state) text = none) :
    scan second.graph (second.rules state) text = none := by
  rw [← same.graph]
  exact scan_eq_none_of_languages (same.languages fragments state) scanned

theorem scan_some (same : first.Corresponds related second)
    (fragments : ∀ state index rule other, related state index rule other →
      rule.fragment = other.fragment) {found : Match}
    (scanned : scan first.graph (first.rules state) text = some found) :
    ∃ other, related state found.index found.rule other ∧
      scan second.graph (second.rules state) text = some { found with rule := other } := by
  rw [← same.graph]
  rcases scan_eq_some_of_languages (same.languages fragments state) scanned with
    ⟨other, placed, also⟩
  have listed := (scan_eq_some_iff.mp scanned).1
  exact ⟨other, (same.rules state).relates found.index found.rule other listed placed, also⟩

theorem start (same : first.Corresponds related second) {input : String} {session : Session}
    (started : Session.start first input = .ok session) :
    Session.start second input = .ok session := by
  rw [Session.start, ← same.startState, ← same.known]
  exact started

end Bundle.Corresponds

theorem lookup_of_forall₂ {α β : Type} [DecidableEq α] (related : α → β → β → Prop)
    {entries others : List (α × β)}
    (same : List.Forall₂ (fun entry other => entry.1 = other.1 ∧ related entry.1 entry.2 other.2)
      entries others) (key : α) :
    Option.Rel (related key) (entries.lookup key) (others.lookup key) := by
  induction same with
  | nil => exact .none
  | @cons entry other _ _ relates later ih =>
      rw [lookup_cons_eq_ite, lookup_cons_eq_ite, ← relates.1]
      by_cases here : key = entry.1
      · rw [if_pos here, if_pos here]
        exact .some (here ▸ relates.2)
      · rw [if_neg here, if_neg here]
        exact ih

theorem RulesCorrespond.nil {related : Nat → Rule → Rule → Prop} : RulesCorrespond related [] [] :=
  ⟨rfl, fun _ _ _ listed => by cases listed⟩

theorem RulesCorrespond.cons {related : Nat → Rule → Rule → Prop} {rule other : Rule}
    {rules others : List Rule} (first : related 0 rule other)
    (later : RulesCorrespond (fun index => related (index + 1)) rules others) :
    RulesCorrespond related (rule :: rules) (other :: others) := by
  constructor
  · rw [List.length_cons, List.length_cons, later.length]
  · intro index one another listed beside
    cases index with
    | zero =>
        cases listed
        cases beside
        exact first
    | succ index => exact later.relates index one another listed beside

theorem RulesCorrespond.of_rel {related : Nat → Rule → Rule → Prop}
    {rules others : Option (List Rule)}
    (same : Option.Rel (RulesCorrespond related) rules others) :
    rules.isSome = others.isSome ∧ RulesCorrespond related (rules.getD []) (others.getD []) := by
  cases same with
  | none => exact ⟨rfl, .nil⟩
  | some relates => exact ⟨rfl, relates⟩

theorem Bundle.corresponds_of_entries {related : String → Nat → Rule → Rule → Prop}
    {first second : Bundle} (startState : first.startState = second.startState)
    (graph : first.graph = second.graph)
    (entries : List.Forall₂ (fun entry other => entry.1 = other.1 ∧
      RulesCorrespond (related entry.1) entry.2 other.2)
        first.states.states.entries second.states.states.entries) :
    first.Corresponds related second := by
  have bound := fun state => RulesCorrespond.of_rel
    (lookup_of_forall₂ (fun state => RulesCorrespond (related state)) entries state)
  exact ⟨startState, graph, fun state => (bound state).1, fun state => (bound state).2⟩

namespace Session

structure Lockstep (first second : Bundle) (sessions : Session → Session → Prop)
    (cycles : Cycle → Cycle → Prop) : Prop where
  ended : ∀ session other, sessions session other → session.rest = [] → other.rest = []
  answered : ∀ session other cycle next, sessions session other →
    Took first session cycle next → ∃ answer after, Took second other answer after ∧
      cycles cycle answer ∧ sessions next after

variable {first second : Bundle} {sessions : Session → Session → Prop}
  {cycles : Cycle → Cycle → Prop} {session other last : Session} {trace : List (Cycle × Session)}

theorem drain_of_runs {bundle : Bundle} (run : Runs bundle session trace last)
    (ended : last.rest = []) : session.drain bundle = (trace.map Prod.fst, last) := by
  induction run with
  | stay => exact drain_of_none (step_eq_none_iff.mpr ended)
  | more stepped later ih =>
      rw [drain_of_some stepped, ih ended]
      rfl

@[simp]
theorem rest_drain (bundle : Bundle) (session : Session) : (session.drain bundle).2.rest = [] :=
  step_eq_none_iff.mp (step_drain_eq_none bundle session)

namespace Lockstep

theorem runs (lockstep : Lockstep first second sessions cycles)
    (run : Runs first session trace last) (related : sessions session other) :
    ∃ answers final, Runs second other answers final ∧
      List.Forall₂ cycles (trace.map Prod.fst) (answers.map Prod.fst) ∧ sessions last final := by
  induction run generalizing other with
  | stay => exact ⟨[], other, .stay other, .nil, related⟩
  | more stepped later ih =>
      rcases lockstep.answered _ _ _ _ related (took_of_step stepped) with
        ⟨answer, after, took, same, onward⟩
      rcases ih onward with ⟨answers, final, run, all, ends⟩
      exact ⟨(answer, after) :: answers, final, .more (step_of_took took) run, .cons same all, ends⟩

theorem drain (lockstep : Lockstep first second sessions cycles)
    (related : sessions session other) :
    List.Forall₂ cycles (session.drain first).1 (other.drain second).1 ∧
      sessions (session.drain first).2 (other.drain second).2 := by
  rcases runs_drain first session with ⟨trace, run, drained⟩
  rcases lockstep.runs run related with ⟨answers, final, answered, all, ends⟩
  have ended : final.rest = [] := lockstep.ended _ _ ends (rest_drain first session)
  rw [drain_of_runs answered ended, ← drained]
  exact ⟨all, ends⟩

end Lockstep

end Session

end MaximalMunch
