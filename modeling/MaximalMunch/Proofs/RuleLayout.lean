import MaximalMunch.Proofs.CompilerCorrectness
import MaximalMunch.Proofs.FullExpansion
import MaximalMunch.Proofs.LongestMatch
import MaximalMunch.Specification.Compile

/-!
A compiled lexer has, for every lexer state, the rules written for it, in the order they were
written and with the languages of their fully expanded patterns.
-/

namespace MaximalMunch

/-- The words of a rule's pattern with all its references unfolded. -/
def RuleSpec.language (definitions : DefinitionTable) (rule : RuleSpec) : Language Char :=
  {word | ∃ expanded, Unfolds definitions rule.pattern.toList 0 expanded ∧
    word ∈ textLanguage expanded}

/-- What a rule tags its tokens with: a dash stands for none, any other text for itself. -/
def RuleSpec.tag? (rule : RuleSpec) : Option String :=
  if rule.unit = "-" then none else some rule.unit

def Specification.rulesOf (specification : Specification) (state : String) : List RuleSpec :=
  specification.rules.filter fun rule => rule.state = state

theorem RuleSpec.language_eq {definitions : DefinitionTable} {rule : RuleSpec}
    {expanded : List Char} (expands : Expands definitions (Piece.ofText rule.pattern) expanded) :
    rule.language definitions = textLanguage expanded := by
  apply Set.ext
  intro word
  constructor
  · intro member
    rcases member with ⟨other, alsoExpands, member⟩
    rw [expands.unique (Expands.iff_unfolds.mpr alsoExpands)]
    exact member
  · intro member
    exact ⟨expanded, Expands.iff_unfolds.mp expands, member⟩

structure Realizes (graph : Graph) (definitions : DefinitionTable) (written : RuleSpec)
    (rule : Rule) : Prop where
  unit : rule.unit = written.tag?
  actions : rule.actions = written.actions
  language : rule.language graph = written.language definitions

section Layout

variable {definitions : DefinitionTable} {graph later : Graph} {rules : List RuleSpec}
  {laid : List (String × Rule)}

namespace Graph

theorem layRules_cons {rule : RuleSpec}
    (lays : graph.layRules (rule :: rules) = .ok (later, laid)) :
    ∃ next fragment rest, graph.compile rule.pattern = (next, .ok fragment) ∧
      next.layRules rules = .ok (later, rest) ∧
        laid = (rule.state, ⟨unitOfText rule.unit, fragment, rule.actions⟩) :: rest := by
  rw [layRules] at lays
  cases compiled : graph.compile rule.pattern with
  | mk next result =>
      cases result with
      | error fault => simp [compiled] at lays
      | ok fragment =>
          simp only [compiled] at lays
          cases more : next.layRules rules with
          | error fault => simp [more, bind, Except.bind] at lays
          | ok behind =>
              simp only [more, bind, Except.bind, pure, Except.pure, Except.ok.injEq,
                Prod.mk.injEq] at lays
              rcases lays with ⟨rfl, rfl⟩
              exact ⟨next, fragment, behind.2, rfl, more, rfl⟩

theorem grows_of_layRules (lays : graph.layRules rules = .ok (later, laid)) :
    Grows graph later fun _ => False := by
  induction rules generalizing graph laid with
  | nil =>
      cases lays
      exact Grows.refl _
  | cons rule rules ih =>
      rcases layRules_cons lays with ⟨next, fragment, rest, compiled, more, rfl⟩
      rcases compile_lays compiled with ⟨normalized, -, block⟩
      exact block.grows.trans (ih more)

theorem realizes_of_layRules (resolves : definitions.resolve = .ok graph.definitions)
    (lays : graph.layRules rules = .ok (later, laid)) :
    List.Forall₂ (fun written placed => placed.1 = written.state ∧
      Realizes later definitions written placed.2) rules laid := by
  induction rules generalizing graph laid with
  | nil =>
      cases lays
      exact .nil
  | cons rule rules ih =>
      rcases layRules_cons lays with ⟨next, fragment, rest, compiled, more, rfl⟩
      rcases compile_lays compiled with ⟨normalized, substituted, block⟩
      have onward := grows_of_layRules more
      have expands := DefinitionTable.expands_of_substitute resolves substituted
      refine .cons ⟨rfl, rfl, rfl, ?_⟩ (ih ?_ more)
      · rw [RuleSpec.language_eq expands]
        exact Set.ext (block.accepts_iff onward)
      · rw [resolves, block.grows.definitions]

end Graph

end Layout

namespace StateTable

def rulesIn (table : StateTable) (state : String) : List Rule := (table.rules? state).getD []

@[simp]
theorem rulesIn_declare (table : StateTable) (declared state : String) :
    (table.declare declared).rulesIn state = table.rulesIn state := by
  by_cases same : state = declared
  · simp [rulesIn, rules?, declare, same]
  · simp [rulesIn, rules?, declare, same]

@[simp]
theorem rulesIn_push (table : StateTable) (target state : String) (rule : Rule) :
    (table.push target rule).rulesIn state =
      table.rulesIn state ++ if target = state then [rule] else [] := by
  by_cases same : state = target
  · simp [rulesIn, rules?, push, same]
  · simp [rulesIn, rules?, push, same, Ne.symm same]

@[simp]
theorem rulesIn_foldl_declare (states : List String) (table : StateTable) (state : String) :
    (states.foldl declare table).rulesIn state = table.rulesIn state := by
  induction states generalizing table with
  | nil => rfl
  | cons declared states ih =>
      calc ((declared :: states).foldl declare table).rulesIn state
          = (states.foldl declare (table.declare declared)).rulesIn state := rfl
        _ = (table.declare declared).rulesIn state := ih _
        _ = table.rulesIn state := table.rulesIn_declare declared state

theorem rulesIn_foldl_push (rules : List (String × Rule)) (table : StateTable) (state : String) :
    (rules.foldl (fun table rule => table.push rule.1 rule.2) table).rulesIn state =
      table.rulesIn state ++ (rules.filter fun rule => rule.1 = state).map Prod.snd := by
  induction rules generalizing table with
  | nil => simp
  | cons rule rules ih =>
      rw [List.foldl_cons, ih, rulesIn_push, List.append_assoc]
      by_cases same : rule.1 = state
      · simp [same]
      · simp [same]

end StateTable

theorem Specification.rulesIn_stateTable (states : List String) (rules : List (String × Rule))
    (state : String) : (Specification.stateTable states rules).rulesIn state =
      (rules.filter fun rule => rule.1 = state).map Prod.snd := by
  rw [Specification.stateTable, StateTable.rulesIn_foldl_push, StateTable.rulesIn_foldl_declare]
  rfl

theorem forall₂_filter_state {related : RuleSpec → Rule → Prop} {rules : List RuleSpec}
    {laid : List (String × Rule)}
    (each : List.Forall₂ (fun written placed => placed.1 = written.state ∧
      related written placed.2) rules laid) (state : String) :
    List.Forall₂ related (rules.filter fun rule => rule.state = state)
      ((laid.filter fun rule => rule.1 = state).map Prod.snd) := by
  induction each with
  | nil => exact .nil
  | @cons written placed rules laid first later ih =>
      by_cases same : written.state = state
      · have placedSame : placed.1 = state := first.1.trans same
        simp only [List.filter_cons, same, placedSame, decide_true, if_true, List.map_cons]
        exact .cons first.2 ih
      · have placedOther : placed.1 ≠ state := fun equal => same (first.1.symm.trans equal)
        simpa [List.filter_cons, same, placedOther] using ih

structure Implements (bundle : Bundle) (specification : Specification) : Prop where
  startState : bundle.startState = specification.states.headD ""
  known : bundle.states.contains bundle.startState = true
  rules : ∀ state, List.Forall₂ (Realizes bundle.graph specification.definitions)
    (specification.rulesOf state) (bundle.rules state)

theorem Bundle.eq_of_validate {candidate bundle : Bundle}
    (valid : candidate.validate = .ok bundle) :
    bundle = candidate ∧ candidate.states.contains candidate.startState = true := by
  unfold Bundle.validate at valid
  cases fault : candidate.fault? with
  | some fault' => simp [fault] at valid
  | none =>
      rw [fault] at valid
      cases valid
      refine ⟨rfl, ?_⟩
      unfold Bundle.fault? at fault
      by_cases known : candidate.states.contains candidate.startState
      · exact known
      · simp [known] at fault

theorem Specification.layOut_of_resolve {specification : Specification}
    {resolved : DefinitionTable} (resolves : specification.definitions.resolve = .ok resolved) :
    specification.layOut = Graph.layRules { definitions := resolved } specification.rules := by
  rw [layOut, resolvedDefinitions, resolves]
  rfl

theorem Specification.layOut_of_unresolved {specification : Specification} {fault : PatternError}
    (unresolved : specification.definitions.resolve = .error fault) :
    specification.layOut = .error ⟨specification.faultLine fault, .badPattern fault⟩ := by
  rw [layOut, resolvedDefinitions, unresolved]
  rfl

theorem Specification.layOut_eq_ok {specification : Specification} {graph : Graph}
    {laid : List (String × Rule)} (lays : specification.layOut = .ok (graph, laid)) :
    ∃ resolved, specification.definitions.resolve = .ok resolved ∧
      Graph.layRules { definitions := resolved } specification.rules = .ok (graph, laid) := by
  cases resolves : specification.definitions.resolve with
  | error fault =>
      rw [layOut_of_unresolved resolves] at lays
      cases lays
  | ok resolved =>
      rw [layOut_of_resolve resolves] at lays
      exact ⟨resolved, rfl, lays⟩

theorem Specification.compile_eq_ok {specification : Specification} {bundle : Bundle}
    (compiled : specification.compile = .ok bundle) : ∃ graph laid,
      specification.layOut = .ok (graph, laid) ∧
        Bundle.validate ⟨specification.startState,
          Specification.stateTable specification.states laid, graph⟩ = .ok bundle := by
  unfold Specification.compile at compiled
  cases lays : specification.layOut with
  | error fault => simp [lays, Except.mapError, bind, Except.bind] at compiled
  | ok result =>
      simp only [lays, Except.mapError, bind, Except.bind] at compiled
      cases valid : Bundle.validate ⟨specification.startState,
          Specification.stateTable specification.states result.2, result.1⟩ with
      | error fault => simp [valid] at compiled
      | ok checked =>
          simp only [valid, Except.ok.injEq] at compiled
          subst compiled
          exact ⟨result.1, result.2, rfl, valid⟩

theorem Specification.implements_of_compile {specification : Specification} {bundle : Bundle}
    (compiled : specification.compile = .ok bundle) : Implements bundle specification := by
  rcases Specification.compile_eq_ok compiled with ⟨graph, laid, lays, valid⟩
  rcases Specification.layOut_eq_ok lays with ⟨resolved, resolves, placed⟩
  rcases Bundle.eq_of_validate valid with ⟨rfl, known⟩
  refine ⟨rfl, known, ?_⟩
  intro state
  have each := Graph.realizes_of_layRules resolves placed
  have grouped := forall₂_filter_state each state
  have listed : Bundle.rules ⟨specification.startState,
      Specification.stateTable specification.states laid, graph⟩ state =
        (laid.filter fun rule => rule.1 = state).map Prod.snd :=
    Specification.rulesIn_stateTable specification.states laid state
  rw [listed]
  exact grouped

end MaximalMunch
