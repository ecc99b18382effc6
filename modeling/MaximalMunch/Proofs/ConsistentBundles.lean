import MaximalMunch.Proofs.RuleLayout
import MaximalMunch.Proofs.SpecificationFormat
import MaximalMunch.Session.Run

/-!
Whatever a lexer refers to, it has, if it was made from a source text: reading finds the unknown
names, and rules are laid out inside the graph. So making a lexer fails only where the
specification does, and what is made passes validation.
-/

namespace MaximalMunch

namespace StateTable

variable {table : StateTable} {state : String}

@[simp]
theorem mem_names : state ∈ table.names ↔ table.contains state = true := OrderedMap.mem_keys

@[simp]
theorem mem_pairs {rule : Rule} : (state, rule) ∈ table.pairs ↔ rule ∈ table.rulesIn state := by
  rw [pairs, List.mem_flatMap]
  constructor
  · rintro ⟨⟨name, rules⟩, member, listed⟩
    rcases List.mem_map.mp listed with ⟨same, placed, equal⟩
    cases equal
    have bound : table.rules? state = some rules := OrderedMap.get?_eq_some_iff.mpr member
    rw [rulesIn, bound]
    exact placed
  · intro placed
    cases bound : table.rules? state with
    | none =>
        rw [rulesIn, bound] at placed
        cases placed
    | some rules =>
        rw [rulesIn, bound] at placed
        exact ⟨(state, rules), OrderedMap.get?_eq_some_iff.mp bound, List.mem_map_of_mem placed⟩

@[simp]
theorem contains_foldl_declare {states : List String} :
    (states.foldl declare table).contains state = true ↔
      state ∈ states ∨ table.contains state = true := by
  induction states generalizing table with
  | nil => simp
  | cons declared states ih =>
      rw [List.foldl_cons, ih, List.mem_cons, or_assoc, or_left_comm]
      exact or_congr_right (OrderedMap.contains_insert _ _ _ _)

@[simp]
theorem contains_foldl_push {rules : List (String × Rule)} :
    (rules.foldl (fun table rule => table.push rule.1 rule.2) table).contains state = true ↔
      state ∈ rules.map Prod.fst ∨ table.contains state = true := by
  induction rules generalizing table with
  | nil => simp
  | cons rule rules ih =>
      rw [List.foldl_cons, ih, List.map_cons, List.mem_cons, or_assoc, or_left_comm]
      exact or_congr_right (OrderedMap.contains_insert _ _ _ _)

end StateTable

/-- No name and no node that the bundle refers to is missing. -/
structure Bundle.Consistent (bundle : Bundle) : Prop where
  start : bundle.states.contains bundle.startState = true
  entry : ∀ state, ∀ rule ∈ bundle.rules state, bundle.graph.contains rule.fragment.entry = true
  accept : ∀ state, ∀ rule ∈ bundle.rules state,
    bundle.graph.contains rule.fragment.accept = true
  target : ∀ state, ∀ rule ∈ bundle.rules state, ∀ target, .switchState target ∈ rule.actions →
    bundle.states.contains target = true

namespace Bundle

variable {bundle : Bundle} {state : String} {rule : Rule}

theorem findSome?_actionFault?_eq_none_iff (state : String) {actions : List Action} :
    actions.findSome? (bundle.actionFault? state) = none ↔
      ∀ target, .switchState target ∈ actions → bundle.states.contains target = true := by
  rw [List.findSome?_eq_none_iff]
  constructor
  · intro none target member
    have known := none _ member
    rw [actionFault?] at known
    split at known
    case isTrue contained => exact contained
    case isFalse => cases known
  · intro known action member
    cases action with
    | switchState target => exact if_pos (known target member)
    | goBack count => rfl
    | suppress => rfl
    | incrementLine => rfl

theorem ruleFault?_eq_none_iff : bundle.ruleFault? state rule = none ↔
    bundle.graph.contains rule.fragment.entry = true ∧
      bundle.graph.contains rule.fragment.accept = true ∧
        ∀ target, .switchState target ∈ rule.actions → bundle.states.contains target = true := by
  rw [ruleFault?, ← findSome?_actionFault?_eq_none_iff state, ← and_assoc, ← Bool.and_eq_true]
  split
  case isTrue inside => simp [inside]
  case isFalse outside => simp [outside]

theorem fault?_eq_none_iff : bundle.fault? = none ↔ bundle.Consistent := by
  rw [fault?]
  constructor
  · intro none
    split at none
    case isFalse => cases none
    case isTrue known =>
      have sound : ∀ state, ∀ rule ∈ bundle.rules state, bundle.ruleFault? state rule = .none :=
        fun state rule placed =>
          List.findSome?_eq_none_iff.mp none (state, rule) (StateTable.mem_pairs.mpr placed)
      constructor
      · exact known
      · exact fun state rule placed => (ruleFault?_eq_none_iff.mp (sound state rule placed)).1
      · exact fun state rule placed => (ruleFault?_eq_none_iff.mp (sound state rule placed)).2.1
      · exact fun state rule placed => (ruleFault?_eq_none_iff.mp (sound state rule placed)).2.2
  · intro consistent
    rw [if_pos consistent.start, List.findSome?_eq_none_iff]
    rintro ⟨state, rule⟩ listed
    have placed := StateTable.mem_pairs.mp listed
    exact ruleFault?_eq_none_iff.mpr ⟨consistent.entry state rule placed,
      consistent.accept state rule placed, consistent.target state rule placed⟩

theorem validate_eq_ok_iff : bundle.validate = .ok bundle ↔ bundle.Consistent := by
  rw [← fault?_eq_none_iff, validate]
  cases bundle.fault? with
  | none => simp
  | some fault => simp

end Bundle

structure Fits (graph : Graph) (written : RuleSpec) (placed : String × Rule) : Prop where
  state : placed.1 = written.state
  actions : placed.2.actions = written.actions
  entry : graph.contains placed.2.fragment.entry = true
  accept : graph.contains placed.2.fragment.accept = true

namespace Graph

variable {graph later : Graph} {rules : List RuleSpec} {laid : List (String × Rule)}

theorem fits_of_layRules (lays : graph.layRules rules = .ok (later, laid)) :
    List.Forall₂ (Fits later) rules laid := by
  induction rules generalizing graph laid with
  | nil =>
      cases lays
      exact .nil
  | cons rule rules ih =>
      rcases layRules_cons lays with ⟨next, fragment, rest, compiled, more, rfl⟩
      rcases compile_lays compiled with ⟨normalized, -, block⟩
      have grown := (grows_of_layRules more).size_le
      have inside : ∀ {node}, Added graph next node → later.contains node = true :=
        fun added => decide_eq_true (Nat.lt_of_lt_of_le added.2 grown)
      exact .cons ⟨rfl, rfl, inside block.entry, inside block.accept⟩ (ih more)

theorem layRules_of_compile (rules : List RuleSpec) {rule : RuleSpec} {next : Graph}
    {fragment : Fragment} (compiled : graph.compile rule.pattern = (next, .ok fragment)) :
    graph.layRules (rule :: rules) = (next.layRules rules).map fun behind =>
      (behind.1, (rule.state, ⟨unitOfText rule.unit, fragment, rule.actions⟩) :: behind.2) := by
  rw [layRules]
  simp only [compiled]
  cases next.layRules rules with
  | error fault => rfl
  | ok behind => rfl

theorem layRules_eq_error {error : SpecificationError}
    (refused : graph.layRules rules = .error error) : ∃ front rule back before laid fault,
      rules = front ++ rule :: back ∧ graph.layRules front = .ok (before, laid) ∧
        (before.compile rule.pattern).2 = .error fault ∧
          error = ⟨rule.line, .badPattern fault⟩ := by
  induction rules generalizing graph with
  | nil => cases refused
  | cons rule rules ih =>
      rcases compiled : graph.compile rule.pattern with ⟨next, result⟩
      cases result with
      | error fault =>
          rw [layRules, compiled] at refused
          cases refused
          exact ⟨[], rule, rules, graph, [], fault, rfl, rfl, by rw [compiled], rfl⟩
      | ok fragment =>
          rw [layRules_of_compile rules compiled] at refused
          cases more : next.layRules rules with
          | ok behind =>
              rw [more] at refused
              cases refused
          | error fault =>
              rw [more] at refused
              cases refused
              rcases ih more with ⟨front, broken, back, before, laid, fault, rfl, lays, cause, rfl⟩
              have placed := layRules_of_compile front compiled
              rw [lays] at placed
              exact ⟨rule :: front, broken, back, before, _, fault, rfl, placed, cause, rfl⟩

end Graph

namespace Specification

variable {source : String} {specification : Specification} {states units : List String}

structure Declares (states : List String) (rule : RuleSpec) : Prop where
  state : rule.state ∈ states
  target : ∀ target, .switchState target ∈ rule.actions → target ∈ states

theorem WritesRule.declares {block : List Line} {rule : RuleSpec}
    (writes : WritesRule states units block rule) : Declares states rule := by
  cases writes with
  | rule number pattern named declared opens unitWritten notClosing known written closes =>
      refine ⟨declared, ?_⟩
      intro target member
      rcases exists_of_forall₂_right written member with ⟨line, listed, writes⟩
      exact writes.declared target rfl

theorem Written.declares (written : Written source specification) :
    specification.states ≠ [] ∧
      ∀ rule ∈ specification.rules, Declares specification.states rule := by
  cases written with
  | written falls layout declared holds statesWritten nonempty unitsWritten rulesWritten =>
      refine ⟨nonempty, ?_⟩
      intro rule member
      rcases exists_of_forall₂_right rulesWritten member with ⟨block, listed, writes⟩
      exact writes.declares

variable {graph : Graph} {laid : List (String × Rule)}

@[simp]
theorem contains_stateTable {name : String} :
    (stateTable states laid).contains name = true ↔
      name ∈ laid.map Prod.fst ∨ name ∈ states := by
  rw [stateTable, StateTable.contains_foldl_push, StateTable.contains_foldl_declare]
  simp [StateTable.contains, OrderedMap.contains]

def names (specification : Specification) : List String :=
  specification.states ++ specification.rules.map RuleSpec.state

theorem states_of_fits {rules : List RuleSpec} (fits : List.Forall₂ (Fits graph) rules laid) :
    laid.map Prod.fst = rules.map RuleSpec.state := by
  induction fits with
  | nil => rfl
  | cons first _ ih => rw [List.map_cons, List.map_cons, first.state, ih]

section LaidOut

variable (lays : specification.layOut = .ok (graph, laid))

include lays

theorem rules_fit_of_layOut : List.Forall₂ (Fits graph) specification.rules laid := by
  rcases layOut_eq_ok lays with ⟨resolved, resolves, placed⟩
  exact Graph.fits_of_layRules placed

theorem contains_iff_mem_names {name : String} :
    (stateTable specification.states laid).contains name = true ↔ name ∈ specification.names := by
  rw [contains_stateTable, states_of_fits (rules_fit_of_layOut lays), names, List.mem_append,
    or_comm]

theorem exists_fits_of_mem {state : String} {rule : Rule}
    (member : rule ∈ (stateTable specification.states laid).rulesIn state) :
    ∃ original ∈ specification.rules, Fits graph original (state, rule) := by
  rw [rulesIn_stateTable, List.mem_map] at member
  rcases member with ⟨⟨name, rule⟩, kept, rfl⟩
  rcases List.mem_filter.mp kept with ⟨listed, same⟩
  cases of_decide_eq_true same
  exact exists_of_forall₂_right (rules_fit_of_layOut lays) listed

/-- What is laid out lies inside the graph, so only names can be missing. -/
theorem consistent_iff_of_layOut :
    Bundle.Consistent
        ⟨specification.startState, stateTable specification.states laid, graph⟩ ↔
      specification.startState ∈ specification.names ∧
        ∀ rule ∈ specification.rules, ∀ target, .switchState target ∈ rule.actions →
          target ∈ specification.names := by
  constructor
  · intro consistent
    refine ⟨(contains_iff_mem_names lays).mp consistent.start, ?_⟩
    intro original listed target switches
    rcases exists_of_forall₂_left (rules_fit_of_layOut lays) listed with ⟨placed, member, fits⟩
    have grouped : placed.2 ∈ (stateTable specification.states laid).rulesIn placed.1 := by
      rw [rulesIn_stateTable]
      exact List.mem_map_of_mem (List.mem_filter.mpr ⟨member, decide_eq_true rfl⟩)
    rw [← fits.actions] at switches
    exact (contains_iff_mem_names lays).mp (consistent.target _ _ grouped target switches)
  · rintro ⟨start, targets⟩
    constructor
    · exact (contains_iff_mem_names lays).mpr start
    · intro state rule member
      rcases exists_fits_of_mem lays member with ⟨original, listed, fits⟩
      exact fits.entry
    · intro state rule member
      rcases exists_fits_of_mem lays member with ⟨original, listed, fits⟩
      exact fits.accept
    · intro state rule member target switches
      rcases exists_fits_of_mem lays member with ⟨original, listed, fits⟩
      rw [fits.actions] at switches
      exact (contains_iff_mem_names lays).mpr (targets original listed target switches)

end LaidOut

theorem consistent_of_layOut (written : Written source specification)
    (lays : specification.layOut = .ok (graph, laid)) :
    Bundle.Consistent
        ⟨specification.startState, stateTable specification.states laid, graph⟩ ∧
      ∀ name, (stateTable specification.states laid).contains name = true ↔
        name ∈ specification.states := by
  rcases written.declares with ⟨nonempty, declares⟩
  have declared : ∀ name, name ∈ specification.names ↔ name ∈ specification.states := by
    intro name
    rw [names, List.mem_append, or_iff_left_iff_imp, List.mem_map]
    rintro ⟨rule, member, rfl⟩
    exact (declares rule member).state
  constructor
  · rw [consistent_iff_of_layOut lays, declared, startState]
    constructor
    · cases states : specification.states with
      | nil => exact absurd states nonempty
      | cons first others => exact List.mem_cons_self
    · intro rule member target switches
      exact (declared target).mpr ((declares rule member).target target switches)
  · intro name
    rw [contains_iff_mem_names lays, declared]

/-- Where in a source text an error comes from: the text, its definitions or a pattern. -/
inductive Fails (source : String) : SpecificationError → Prop
  | reading {error : SpecificationError} (unread : ofText source = .error error) :
      Fails source error
  | resolving {specification : Specification} {fault : PatternError}
      (written : Written source specification)
      (unresolved : specification.definitions.resolve = .error fault) :
      Fails source ⟨specification.faultLine fault, .badPattern fault⟩
  | compiling {specification : Specification} {resolved : DefinitionTable}
      {front back : List RuleSpec} {rule : RuleSpec} {before : Graph}
      {laid : List (String × Rule)} {fault : PatternError}
      (written : Written source specification)
      (resolves : specification.definitions.resolve = .ok resolved)
      (listed : specification.rules = front ++ rule :: back)
      (earlier : Graph.layRules { definitions := resolved } front = .ok (before, laid))
      (refused : (before.compile rule.pattern).2 = .error fault) :
      Fails source ⟨rule.line, .badPattern fault⟩

theorem fails_of_layOut {error : SpecificationError} (written : Written source specification)
    (stopped : specification.layOut = .error error) : Fails source error := by
  cases resolves : specification.definitions.resolve with
  | error fault =>
      rw [layOut_of_unresolved resolves] at stopped
      cases stopped
      exact .resolving written resolves
  | ok resolved =>
      rw [layOut_of_resolve resolves] at stopped
      rcases Graph.layRules_eq_error stopped with
        ⟨front, rule, back, before, laid, fault, listed, earlier, refused, rfl⟩
      exact .compiling written resolves listed earlier refused

end Specification

theorem generate_of_ofText {source : String} {specification : Specification}
    (read : Specification.ofText source = .ok specification) :
    generate source = specification.compile := by
  rw [generate, read]
  rfl

theorem Specification.compile_of_layOut {specification : Specification} {graph : Graph}
    {laid : List (String × Rule)} (lays : specification.layOut = .ok (graph, laid)) :
    specification.compile = (Bundle.validate ⟨specification.startState,
      stateTable specification.states laid, graph⟩).mapError .bundle := by
  rw [compile, lays]
  rfl

theorem tokenize_eq_ok {bundle : Bundle}
    (known : bundle.states.contains bundle.startState = true) (input : String) :
    ∃ stream, tokenize bundle input = .ok stream := by
  rw [tokenize, Session.start, if_pos known]
  exact ⟨_, rfl⟩

/--
A source text gives a lexer or an error of its own. The lexer has exactly the declared states,
passes validation and tokenizes every input.
-/
theorem generate_consistent (source : String) :
    (∃ error, Specification.Fails source error ∧
      generate source = .error (.specification error)) ∨
    ∃ specification bundle, Specification.Written source specification ∧
      generate source = .ok bundle ∧ bundle.validate = .ok bundle ∧
        (∀ name, name ∈ bundle.states.names ↔ name ∈ specification.states) ∧
          ∀ input, ∃ stream, tokenize bundle input = .ok stream := by
  cases read : Specification.ofText source with
  | error error =>
      refine .inl ⟨error, .reading read, ?_⟩
      rw [generate, read]
      rfl
  | ok specification =>
      have written := Specification.written_of_ofText read
      cases lays : specification.layOut with
      | error error =>
          refine .inl ⟨error, Specification.fails_of_layOut written lays, ?_⟩
          rw [generate_of_ofText read, Specification.compile, lays]
          rfl
      | ok result =>
          rcases result with ⟨graph, laid⟩
          rcases Specification.consistent_of_layOut written lays with ⟨consistent, known⟩
          have valid := Bundle.validate_eq_ok_iff.mpr consistent
          refine .inr ⟨specification, _, written, ?_, valid, ?_, tokenize_eq_ok consistent.start⟩
          · rw [generate_of_ofText read, Specification.compile_of_layOut lays, valid]
            rfl
          · intro name
            rw [StateTable.mem_names]
            exact known name

end MaximalMunch
