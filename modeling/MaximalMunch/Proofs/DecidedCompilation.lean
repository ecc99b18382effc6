import MaximalMunch.Proofs.CompiledBlocks
import MaximalMunch.Proofs.ConsistentBundles

/-!
When a specification compiles, whatever its fields hold. The definitions are resolved first, then
the patterns are laid out one after another, and the names are looked at last: what is reported is
what fails first, and if nothing fails the lexer has all rules of the specification and no others.
-/

namespace MaximalMunch

/-- The pattern compiles with these definitions; what else a graph holds has no say in it. -/
def DefinitionTable.Admits (table : DefinitionTable) (pattern : String) : Prop :=
  ∃ later fragment, Graph.compile { definitions := table } pattern = (later, .ok fragment)

namespace Graph

variable {graph later : Graph} {text : String} {rules : List RuleSpec}
  {laid : List (String × Rule)}

theorem compile_eq_error_iff {fault : PatternError} : (graph.compile text).2 = .error fault ↔
    (Graph.compile { definitions := graph.definitions } text).2 = .error fault := by
  have block := congrArg Prod.snd (compile_eq_beside graph text)
  rw [block]
  show (graph.emptied.compile text).2.map _ = _ ↔ (graph.emptied.compile text).2 = _
  cases (graph.emptied.compile text).2 with
  | error other => rfl
  | ok fragment => simp [Except.map]

theorem exists_compile_eq_ok_iff :
    (∃ later fragment, graph.compile text = (later, .ok fragment)) ↔
      ∀ fault, (graph.compile text).2 ≠ .error fault := by
  rcases graph.compile text with ⟨later, fault | fragment⟩ <;> simp

theorem admits_iff : graph.definitions.Admits text ↔
    ∃ later fragment, graph.compile text = (later, .ok fragment) := by
  rw [DefinitionTable.Admits, exists_compile_eq_ok_iff, exists_compile_eq_ok_iff]
  exact forall_congr' fun fault => not_congr compile_eq_error_iff.symm

theorem layRules_eq_ok_iff : (∃ result, graph.layRules rules = .ok result) ↔
    ∀ rule ∈ rules, graph.definitions.Admits rule.pattern := by
  induction rules generalizing graph with
  | nil => exact iff_of_true ⟨_, rfl⟩ (by simp)
  | cons rule rules ih =>
      have kept : ∀ {next fragment}, graph.compile rule.pattern = (next, .ok fragment) →
          next.definitions = graph.definitions := by
        intro next fragment compiled
        obtain ⟨normalized, -, block⟩ := compile_lays compiled
        exact block.grows.definitions
      rw [List.forall_mem_cons, admits_iff]
      constructor
      · rintro ⟨⟨later, laid⟩, lays⟩
        obtain ⟨next, fragment, rest, compiled, more, -⟩ := layRules_cons lays
        have others := ih.mp ⟨_, more⟩
        rw [kept compiled] at others
        exact ⟨⟨next, fragment, compiled⟩, others⟩
      · rintro ⟨⟨next, fragment, compiled⟩, others⟩
        rw [← kept compiled] at others
        obtain ⟨behind, more⟩ := ih.mpr others
        rw [layRules_of_compile rules compiled, more]
        exact ⟨_, rfl⟩

end Graph

theorem sum_length_insertEntry {β : Type} (key : String) (value : List β)
    {entries : List (String × List β)} (ascending : AscendingKeys entries) :
    ((insertEntry key value entries).map fun entry => entry.2.length).sum +
        ((entries.lookup key).getD []).length =
      (entries.map fun entry => entry.2.length).sum + value.length := by
  induction entries with
  | nil => simp [insertEntry]
  | cons head rest ih =>
      obtain ⟨later, tail⟩ := List.pairwise_cons.mp ascending
      rw [insertEntry, lookup_cons_eq_ite]
      split
      case isTrue before =>
        have absent : rest.lookup key = none := by
          rw [List.lookup_eq_none_iff]
          intro entry member
          have beyond := Std.lt_trans before (later entry member)
          exact bne_iff_ne.mpr (Std.ne_of_lt beyond)
        rw [if_neg (Std.ne_of_lt before), absent]
        simp
        omega
      case isFalse notBefore =>
        split
        case isTrue after =>
          have rest := ih tail
          rw [if_neg (Std.ne_of_lt after).symm]
          simp only [List.map_cons, List.sum_cons]
          omega
        case isFalse notAfter =>
          have same : key = head.1 := by
            obtain before | equal | after := Std.lt_trichotomy key head.1
            · exact absurd before notBefore
            · exact equal
            · exact absurd after notAfter
          rw [if_pos same]
          simp
          omega

namespace StateTable

variable (table : StateTable)

theorem ruleCount_eq_sum :
    table.ruleCount = (table.states.entries.map fun entry => entry.2.length).sum := by
  simp [ruleCount, pairs, List.length_flatMap]

@[simp]
theorem ruleCount_declare (state : String) : (table.declare state).ruleCount = table.ruleCount := by
  have counted := sum_length_insertEntry state ((table.rules? state).getD [])
    table.states.ascending
  rw [ruleCount_eq_sum, ruleCount_eq_sum]
  exact Nat.add_right_cancel counted

@[simp]
theorem ruleCount_push (state : String) (rule : Rule) :
    (table.push state rule).ruleCount = table.ruleCount + 1 := by
  have counted := sum_length_insertEntry state ((table.rules? state).getD [] ++ [rule])
    table.states.ascending
  rw [List.length_append, Nat.add_comm _ [rule].length, ← Nat.add_assoc] at counted
  rw [ruleCount_eq_sum, ruleCount_eq_sum]
  exact Nat.add_right_cancel counted

variable {table}

@[simp]
theorem ruleCount_foldl_declare (states : List String) :
    (states.foldl declare table).ruleCount = table.ruleCount := by
  induction states generalizing table with
  | nil => rfl
  | cons state states ih => simp [ih]

@[simp]
theorem ruleCount_foldl_push (rules : List (String × Rule)) :
    (rules.foldl (fun table rule => table.push rule.1 rule.2) table).ruleCount =
      table.ruleCount + rules.length := by
  induction rules generalizing table with
  | nil => rfl
  | cons rule rules ih =>
      rw [List.foldl_cons, ih, ruleCount_push, List.length_cons, Nat.add_right_comm, Nat.add_assoc]

end StateTable

namespace Bundle

variable {bundle : Bundle} {state : String} {rule : Rule} {fault : BundleFault}

theorem eq_unknownTarget_of_ruleFault? (entry : bundle.graph.contains rule.fragment.entry = true)
    (accept : bundle.graph.contains rule.fragment.accept = true)
    (faulty : bundle.ruleFault? state rule = some fault) :
    ∃ target, .switchState target ∈ rule.actions ∧ bundle.states.contains target = false ∧
      fault = .unknownTarget state target := by
  rw [ruleFault?, entry, accept] at faulty
  obtain ⟨action, member, found⟩ := List.exists_of_findSome?_eq_some faulty
  cases action with
  | switchState target =>
      rw [actionFault?] at found
      split at found
      case isTrue => cases found
      case isFalse unknown =>
        cases found
        exact ⟨target, member, Bool.eq_false_iff.mpr unknown, rfl⟩
  | goBack count => cases found
  | suppress => cases found
  | incrementLine => cases found

theorem fault?_eq_some (faulty : bundle.fault? = some fault) :
    bundle.states.contains bundle.startState = false ∧ fault = .missingStart bundle.startState ∨
      bundle.states.contains bundle.startState = true ∧ ∃ state, ∃ rule ∈ bundle.rules state,
        bundle.ruleFault? state rule = some fault := by
  rw [fault?] at faulty
  split at faulty
  case isTrue known =>
    obtain ⟨⟨state, rule⟩, listed, found⟩ := List.exists_of_findSome?_eq_some faulty
    exact .inr ⟨known, state, rule, StateTable.mem_pairs.mp listed, found⟩
  case isFalse unknown =>
    cases faulty
    exact .inl ⟨Bool.eq_false_iff.mpr unknown, rfl⟩

end Bundle

namespace Specification

variable {specification : Specification} {graph : Graph} {laid : List (String × Rule)}

/-- What stops the compilation: each error says that nothing before it has failed. -/
inductive Stops (specification : Specification) : LexerError → Prop
  | unresolved {fault : PatternError} (fails : specification.definitions.resolve = .error fault) :
      Stops specification (.specification ⟨specification.faultLine fault, .badPattern fault⟩)
  | refused {resolved : DefinitionTable} {front back : List RuleSpec} {rule : RuleSpec}
      {fault : PatternError} (resolves : specification.definitions.resolve = .ok resolved)
      (listed : specification.rules = front ++ rule :: back)
      (admitted : ∀ earlier ∈ front, resolved.Admits earlier.pattern)
      (refused : (Graph.compile { definitions := resolved } rule.pattern).2 = .error fault) :
      Stops specification (.specification ⟨rule.line, .badPattern fault⟩)
  | startless {resolved : DefinitionTable}
      (resolves : specification.definitions.resolve = .ok resolved)
      (admitted : ∀ rule ∈ specification.rules, resolved.Admits rule.pattern)
      (missing : specification.states.headD "" ∉ specification.names) :
      Stops specification (.bundle (.missingStart (specification.states.headD "")))
  | untargeted {resolved : DefinitionTable} {rule : RuleSpec} {target : String}
      (resolves : specification.definitions.resolve = .ok resolved)
      (admitted : ∀ rule ∈ specification.rules, resolved.Admits rule.pattern)
      (known : specification.states.headD "" ∈ specification.names)
      (listed : rule ∈ specification.rules) (switches : .switchState target ∈ rule.actions)
      (missing : target ∉ specification.names) :
      Stops specification (.bundle (.unknownTarget rule.state target))

theorem layOut_eq_ok_iff : (∃ result, specification.layOut = .ok result) ↔
    ∃ resolved, specification.definitions.resolve = .ok resolved ∧
      ∀ rule ∈ specification.rules, resolved.Admits rule.pattern := by
  constructor
  · rintro ⟨⟨graph, laid⟩, lays⟩
    obtain ⟨resolved, resolves, placed⟩ := layOut_eq_ok lays
    exact ⟨resolved, resolves, Graph.layRules_eq_ok_iff.mp ⟨_, placed⟩⟩
  · rintro ⟨resolved, resolves, admitted⟩
    rw [layOut_of_resolve resolves]
    exact Graph.layRules_eq_ok_iff.mpr admitted

theorem stops_of_layOut {error : SpecificationError}
    (stopped : specification.layOut = .error error) :
    specification.Stops (.specification error) := by
  cases resolves : specification.definitions.resolve with
  | error fault =>
      rw [layOut_of_unresolved resolves] at stopped
      cases stopped
      exact .unresolved resolves
  | ok resolved =>
      rw [layOut_of_resolve resolves] at stopped
      obtain ⟨front, rule, back, before, laid, fault, listed, earlier, refused, rfl⟩ :=
        Graph.layRules_eq_error stopped
      have kept : before.definitions = resolved := (Graph.grows_of_layRules earlier).definitions
      rw [Graph.compile_eq_error_iff, kept] at refused
      have admitted := Graph.layRules_eq_ok_iff.mp ⟨_, earlier⟩
      exact .refused resolves listed admitted refused

theorem stops_of_fault? {fault : BundleFault} (lays : specification.layOut = .ok (graph, laid))
    (faulty : Bundle.fault? ⟨specification.startState, stateTable specification.states laid,
      graph⟩ = some fault) : specification.Stops (.bundle fault) := by
  obtain ⟨resolved, resolves, admitted⟩ := layOut_eq_ok_iff.mp ⟨_, lays⟩
  have missing : ∀ {name}, (stateTable specification.states laid).contains name = false →
      name ∉ specification.names := by
    intro name absent known
    rw [(contains_iff_mem_names lays).mpr known] at absent
    cases absent
  obtain ⟨unknown, rfl⟩ | ⟨known, state, rule, placed, found⟩ := Bundle.fault?_eq_some faulty
  · exact .startless resolves admitted (missing unknown)
  · obtain ⟨original, listed, fits⟩ := exists_fits_of_mem lays placed
    obtain ⟨target, switches, unknown, rfl⟩ :=
      Bundle.eq_unknownTarget_of_ruleFault? fits.entry fits.accept found
    have state : state = original.state := fits.state
    have actions : rule.actions = original.actions := fits.actions
    rw [actions] at switches
    rw [state]
    exact .untargeted resolves admitted ((contains_iff_mem_names lays).mp known) listed switches
      (missing unknown)

theorem ruleCount_of_layOut (lays : specification.layOut = .ok (graph, laid)) :
    (stateTable specification.states laid).ruleCount = specification.rules.length := by
  have none : ({} : StateTable).ruleCount = 0 := rfl
  rw [stateTable, StateTable.ruleCount_foldl_push, StateTable.ruleCount_foldl_declare, none,
    Nat.zero_add, (rules_fit_of_layOut lays).length_eq]

/--
Compilation is decided by the definitions, by each pattern alone and by the names. What is reported
is the first failure in this order, and a lexer has exactly the states and the rules that the
specification names.
-/
theorem compile_decided (specification : Specification) :
    ((∃ bundle, specification.compile = .ok bundle) ↔
      (∃ resolved, specification.definitions.resolve = .ok resolved ∧
        ∀ rule ∈ specification.rules, resolved.Admits rule.pattern) ∧
      specification.states.headD "" ∈ specification.names ∧
      ∀ rule ∈ specification.rules, ∀ target, .switchState target ∈ rule.actions →
        target ∈ specification.names) ∧
    (∀ error, specification.compile = .error error → specification.Stops error) ∧
    ∀ bundle, specification.compile = .ok bundle →
      specification.definitions.resolve = .ok bundle.graph.definitions ∧
        bundle.startState = specification.states.headD "" ∧
          (∀ name, name ∈ bundle.states.names ↔ name ∈ specification.names) ∧
            (∀ state, List.Forall₂ (Realizes bundle.graph specification.definitions)
              (specification.rulesOf state) (bundle.rules state)) ∧
              bundle.states.ruleCount = specification.rules.length := by
  refine ⟨⟨?succeeds, ?makes⟩, ?stops, ?made⟩
  case succeeds =>
    rintro ⟨bundle, compiled⟩
    obtain ⟨graph, laid, lays, valid⟩ := compile_eq_ok compiled
    obtain ⟨rfl, -⟩ := Bundle.eq_of_validate valid
    have consistent := Bundle.validate_eq_ok_iff.mp valid
    exact ⟨layOut_eq_ok_iff.mp ⟨_, lays⟩, (consistent_iff_of_layOut lays).mp consistent⟩
  case makes =>
    rintro ⟨admitted, named⟩
    obtain ⟨⟨graph, laid⟩, lays⟩ := layOut_eq_ok_iff.mpr admitted
    have consistent := (consistent_iff_of_layOut lays).mpr named
    rw [compile_of_layOut lays, Bundle.validate_eq_ok_iff.mpr consistent]
    exact ⟨_, rfl⟩
  case stops =>
    intro error stopped
    cases lays : specification.layOut with
    | error cause =>
        rw [compile, lays] at stopped
        cases stopped
        exact stops_of_layOut lays
    | ok result =>
        rw [compile_of_layOut lays, Bundle.validate] at stopped
        split at stopped
        case h_1 => cases stopped
        case h_2 fault faulty =>
          cases stopped
          exact stops_of_fault? lays faulty
  case made =>
    intro bundle compiled
    have implements := implements_of_compile compiled
    obtain ⟨graph, laid, lays, valid⟩ := compile_eq_ok compiled
    obtain ⟨resolved, resolves, placed⟩ := layOut_eq_ok lays
    obtain ⟨rfl, -⟩ := Bundle.eq_of_validate valid
    refine ⟨?_, rfl, ?_, implements.rules, ruleCount_of_layOut lays⟩
    · rw [resolves, (Graph.grows_of_layRules placed).definitions]
    · intro name
      rw [StateTable.mem_names]
      exact contains_iff_mem_names lays

def undeclared : Specification where
  definitions := ⟨[("Bit", "0|1")]⟩
  states := ["A", "A"]
  rules := [⟨"B", "\x7bBit\x7d", "-", [.switchState "A"], 7⟩,
    ⟨"A", "*", "STAR", [.switchState "B"], 9⟩]

theorem compile_decided_undeclared :
    ∃ bundle, undeclared.compile = .ok bundle ∧ bundle.states.ruleCount = 2 ∧
      "B" ∈ bundle.states.names ∧ (bundle.rules "A").map Rule.unit = [some "STAR"] ∧
        (bundle.rules "B").map Rule.unit = [none] := by
  have resolves : undeclared.definitions.resolve = .ok undeclared.definitions := by cbv
  have admitted : ∀ rule ∈ undeclared.rules, undeclared.definitions.Admits rule.pattern := by
    have reference : (Graph.compile { definitions := undeclared.definitions }
        "\x7bBit\x7d").2 = .ok ⟨0, 1⟩ := by cbv
    have star : (Graph.compile { definitions := undeclared.definitions } "*").2 = .ok ⟨0, 1⟩ := by
      cbv
    intro rule listed
    simp only [undeclared, List.mem_cons, List.not_mem_nil, or_false] at listed
    obtain rfl | rfl := listed
    · exact ⟨_, _, Prod.ext rfl reference⟩
    · exact ⟨_, _, Prod.ext rfl star⟩
  have targets : ∀ rule ∈ undeclared.rules, ∀ target, .switchState target ∈ rule.actions →
      target ∈ undeclared.names := by
    simp [undeclared, names]
  obtain ⟨decides, -, made⟩ := compile_decided undeclared
  obtain ⟨bundle, compiled⟩ := decides.mpr ⟨⟨_, resolves, admitted⟩, by decide, targets⟩
  obtain ⟨-, -, names, rules, count⟩ := made bundle compiled
  have units : ∀ state, (bundle.rules state).map Rule.unit =
      (undeclared.rulesOf state).map RuleSpec.tag? := by
    intro state
    rw [← List.forall₂_eq_eq_eq, List.forall₂_map_left_iff, List.forall₂_map_right_iff]
    exact ((rules state).imp fun written rule realizes => realizes.unit).flip
  exact ⟨bundle, compiled, count, (names "B").mpr (by decide), units "A", units "B"⟩

end Specification

end MaximalMunch
