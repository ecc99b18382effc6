import MaximalMunch.Session.Cycle

/-!
Every cycle makes progress: it shortens the input, or it enters a lexer state that empty matches
have not gone through at this position, and there are only so many of these.
-/

namespace MaximalMunch

def Action.target? : Action → Option String
  | .switchState target => some target
  | _ => none

def Rule.targets (rule : Rule) : List String := rule.actions.filterMap Action.target?

def Bundle.targets (bundle : Bundle) : List String :=
  bundle.states.pairs.flatMap fun pair => pair.2.targets

theorem Effect.applyAll_state (effect : Effect) (actions : List Action) :
    (effect.applyAll actions).state = effect.state ∨
      (effect.applyAll actions).state ∈ actions.filterMap Action.target? := by
  induction actions generalizing effect with
  | nil => exact .inl rfl
  | cons action later ih =>
    have step : (effect.applyAll (action :: later)) = (effect.apply action).applyAll later := rfl
    rw [step]
    rcases ih (effect.apply action) with same | switched
    · rw [same]
      cases action <;> simp [Effect.apply, Action.target?]
    · exact .inr (List.mem_filterMap.mpr (by
        obtain ⟨origin, member, target⟩ := List.mem_filterMap.mp switched
        exact ⟨origin, List.mem_cons_of_mem _ member, target⟩))

theorem Bundle.targets_of_rule {bundle : Bundle} {state target : String} {rule : Rule}
    (member : rule ∈ bundle.rules state) (switches : target ∈ rule.targets) :
    target ∈ bundle.targets := by
  refine List.mem_flatMap.mpr ⟨(state, rule), ?_, switches⟩
  cases found : bundle.rules? state with
  | none => simp [Bundle.rules, found] at member
  | some rules =>
    have known : rule ∈ rules := by simpa [Bundle.rules, found] using member
    refine List.mem_flatMap.mpr ⟨(state, rules), ?_, List.mem_map.mpr ⟨rule, known, rfl⟩⟩
    obtain ⟨before, after, split, -⟩ := List.lookup_eq_some_iff.mp found
    simp [split]

namespace Session

/-- The states a session may still enter before it has to move on. -/
def prospects (bundle : Bundle) (session : Session) : Nat :=
  ((session.state :: bundle.targets).filter (· ∉ session.visited)).length

theorem visited_subset_closed {session : Session} {state : String}
    (member : state ∈ session.visited) : state ∈ session.closed := by
  unfold closed
  cases visited : session.visited with
  | nil => simp [visited] at member
  | cons => simpa [visited] using member

theorem prospects_lt {bundle : Bundle} {session next : Session}
    (reached : next.state = session.state ∨ next.state ∈ bundle.targets)
    (fresh : next.state ∉ session.closed)
    (visited : next.visited = next.state :: session.closed) :
    next.prospects bundle < session.prospects bundle := by
  have left : next.prospects bundle =
      (bundle.targets.filter (· ∉ next.state :: session.closed)).length := by
    simp [prospects, visited]
  have narrowed : bundle.targets.filter (· ∉ next.state :: session.closed) =
      (bundle.targets.filter (· ∉ session.visited)).filter
        (· ∉ next.state :: session.closed) := by
    rw [List.filter_filter]
    refine List.filter_congr fun state _ => ?_
    by_cases member : state ∈ session.visited
    · simp [member, visited_subset_closed member]
    · simp [member]
  have most : (bundle.targets.filter (· ∉ next.state :: session.closed)).length ≤
      (bundle.targets.filter (· ∉ session.visited)).length := by
    rw [narrowed]
    exact List.length_filter_le _ _
  have kept : (bundle.targets.filter (· ∉ session.visited)).length ≤
      session.prospects bundle := by
    unfold prospects
    rw [List.filter_cons]
    split <;> simp
  rw [left]
  by_cases target : next.state ∈ bundle.targets
  · refine Nat.lt_of_lt_of_le ?_ kept
    rw [narrowed]
    refine List.length_filter_lt_length_iff_exists.mpr ⟨next.state, ?_, by simp⟩
    refine List.mem_filter.mpr ⟨target, ?_⟩
    simpa using fun member => fresh (visited_subset_closed member)
  · have stayed : next.state = session.state := reached.resolve_right target
    have unseen : session.state ∉ session.visited := fun member =>
      fresh (stayed ▸ visited_subset_closed member)
    have one : session.prospects bundle =
        (bundle.targets.filter (· ∉ session.visited)).length + 1 := by
      simp [prospects, unseen]
    omega

theorem step_progress {bundle : Bundle} {session next : Session} {cycle : Cycle}
    (stepped : session.step bundle = some (cycle, next)) :
    Prod.Lex (· < ·) (· < ·) (next.rest.length, next.prospects bundle)
      (session.rest.length, session.prospects bundle) := by
  unfold step at stepped
  split at stepped
  · simp at stepped
  case h_2 char tail input =>
    have shorter : tail.length < session.rest.length := by simp [input]
    split at stepped
    case h_1 =>
      simp only [skip, Option.some.injEq, Prod.mk.injEq] at stepped
      obtain ⟨-, rfl⟩ := stepped
      exact Prod.Lex.left _ _ shorter
    case h_2 found scanned =>
      dsimp only at stepped
      split at stepped
      case isTrue =>
        simp only [skip, Option.some.injEq, Prod.mk.injEq] at stepped
        obtain ⟨-, rfl⟩ := stepped
        exact Prod.Lex.left _ _ shorter
      case isFalse accepted =>
        simp only [Option.some.injEq, Prod.mk.injEq] at stepped
        obtain ⟨-, rfl⟩ := stepped
        by_cases empty : (session.effectOf found).kept = 0
        · have same : (session.rest.drop (session.effectOf found).kept).length =
              session.rest.length := by simp [empty]
          rw [same]
          refine Prod.Lex.right _ (prospects_lt ?_ ?_ ?_)
          · have reached := Effect.applyAll_state
              ⟨session.state, session.line, found.length, found.rule.unit⟩ found.rule.actions
            exact reached.imp_right fun switched =>
              Bundle.targets_of_rule (scan_mem scanned) switched
          · exact fun member => accepted ⟨empty, member⟩
          · simp [empty]
        · refine Prod.Lex.left _ _ ?_
          simp only [List.length_drop]
          have : 0 < session.rest.length := by simp [input]
          omega

end Session

end MaximalMunch
