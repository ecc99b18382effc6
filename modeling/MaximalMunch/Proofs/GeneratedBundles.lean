import MaximalMunch.Proofs.ActionTexts
import MaximalMunch.Proofs.BundleRoundTrip
import MaximalMunch.Proofs.ConsistentBundles
import MaximalMunch.Proofs.Refinement
import MaximalMunch.Proofs.SharedGraph

/-!
A generated lexer is one that can be stored: the counts of its actions were read as counts, and
its edges and rules stay inside the graph, so that its numbers are in range as soon as its nodes
can be numbered.
-/

namespace MaximalMunch

namespace Action

variable {action : Action} {text : List Char}

theorem fits_of_parse (parsed : parse text = .ok action) : action.Fits := by
  rcases parse_eq_ok_iff.mp parsed with ⟨found, -, spelled⟩
  cases spelled with
  | switchState target => trivial
  | goBack spelled => exact spelled.lt
  | suppress => trivial
  | incrementLine => trivial

end Action

namespace Specification

variable {source : String} {specification : Specification} {states units : List String}

theorem WritesRule.fits {block : List Line} {rule : RuleSpec}
    (writes : WritesRule states units block rule) : ∀ action ∈ rule.actions, action.Fits := by
  cases writes with
  | rule number pattern named declared opens unitWritten notClosing known written closes =>
      intro action member
      rcases exists_of_forall₂_right written member with ⟨line, listed, writes⟩
      exact Action.fits_of_parse writes.parsed

theorem Written.fits (written : Written source specification) :
    ∀ rule ∈ specification.rules, ∀ action ∈ rule.actions, action.Fits := by
  cases written with
  | written falls layout declared holds statesWritten nonempty unitsWritten rulesWritten =>
      intro rule member
      rcases exists_of_forall₂_right rulesWritten member with ⟨block, listed, writes⟩
      exact writes.fits

end Specification

namespace Graph

variable {graph later : Graph} {rules : List RuleSpec} {laid : List (String × Rule)}

theorem WellWired.compile (wired : graph.WellWired) (text : String) :
    (graph.compile text).1.WellWired :=
  (edits_wires graph text).keeps (fun _ _ => WellWired.apply) wired

theorem WellWired.layRules (wired : graph.WellWired)
    (lays : graph.layRules rules = .ok (later, laid)) : later.WellWired := by
  induction rules generalizing graph laid with
  | nil =>
      cases lays
      exact wired
  | cons rule rules ih =>
      rcases layRules_cons lays with ⟨next, fragment, rest, compiled, more, -⟩
      have wired := wired.compile rule.pattern
      rw [compiled] at wired
      exact ih wired more

theorem WellWired.fits (wired : graph.WellWired) (countable : graph.size ≤ nodeLimit) :
    ∀ node ∈ graph.nodes.toList, node.Fits := by
  intro node member
  rcases List.mem_iff_getElem?.mp member with ⟨id, listed⟩
  have here : graph.node? id = some node := by
    rw [node?, ← Array.getElem?_toList]
    exact listed
  have inside : ∀ {label target}, graph.Edge id label target → target < nodeLimit :=
    fun edge => Nat.lt_of_lt_of_le (wired.closed _ _ _ edge) countable
  constructor
  · intro target silent
    have edge : graph.Edge id none target := by
      show target ∈ graph.epsilonTargets id
      rw [epsilonTargets, here]
      exact silent
    exact inside edge
  · rintro ⟨char, target⟩ transition
    have edge : graph.Edge id (some char) target := by
      show graph.target? id char = some target
      rw [target?, here]
      exact OrderedMap.get?_eq_some_iff.mpr transition
    exact inside edge

end Graph

theorem Specification.fits_of_layOut {source : String} {specification : Specification}
    {graph : Graph} {laid : List (String × Rule)} (written : Written source specification)
    (lays : specification.layOut = .ok (graph, laid)) (countable : graph.size ≤ nodeLimit) :
    Bundle.Fits ⟨specification.startState, stateTable specification.states laid, graph⟩ := by
  rcases layOut_eq_ok lays with ⟨resolved, resolves, placed⟩
  constructor
  · rintro ⟨state, rules⟩ listed rule member
    have paired : (state, rule) ∈ (stateTable specification.states laid).pairs :=
      List.mem_flatMap.mpr ⟨_, listed, List.mem_map_of_mem member⟩
    rcases exists_fits_of_mem lays (StateTable.mem_pairs.mp paired) with ⟨original, known, fits⟩
    have inside : ∀ {id}, graph.contains id = true → id < nodeLimit :=
      fun within => Nat.lt_of_lt_of_le (of_decide_eq_true within) countable
    refine ⟨⟨inside fits.entry, inside fits.accept⟩, ?_⟩
    rw [fits.actions]
    exact written.fits original known
  · exact ((Graph.wellWired_empty resolved).layRules placed).fits countable

/-- What was generated is consistent and can be stored. -/
theorem fits_of_generate {source : String} {bundle : Bundle}
    (generated : generate source = .ok bundle) (countable : bundle.graph.size ≤ nodeLimit) :
    bundle.Fits ∧ bundle.validate = .ok bundle := by
  rcases generate_eq_ok generated with ⟨specification, read, compiled⟩
  have written := Specification.written_of_ofText read
  rcases Specification.compile_eq_ok compiled with ⟨graph, laid, lays, valid⟩
  rcases Bundle.eq_of_validate valid with ⟨rfl, -⟩
  exact ⟨Specification.fits_of_layOut written lays countable, valid⟩

end MaximalMunch
