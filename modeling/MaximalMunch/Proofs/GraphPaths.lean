import MaximalMunch.Graph.Fragment
import MaximalMunch.Proofs.OrderedMaps

/-!
Edges and paths of a graph. An edge reads one character or nothing; a path spells the characters
its edges read.
-/

namespace MaximalMunch

namespace Graph

def Edge (graph : Graph) (source : Nat) (label : Option Char) (target : Nat) : Prop :=
  match label with
  | none => target ∈ graph.epsilonTargets source
  | some char => graph.target? source char = some target

inductive Path (graph : Graph) : Nat → List Char → Nat → Prop
  | here (id : Nat) : graph.Path id [] id
  | step {source middle target : Nat} {label : Option Char} {word : List Char}
      (edge : graph.Edge source label middle) (later : graph.Path middle word target) :
      graph.Path source (label.toList ++ word) target

variable {graph whole : Graph} {source middle target : Nat} {label : Option Char}
  {word front back : List Char}

theorem edge_congr (same : whole.node? source = graph.node? source) :
    whole.Edge source label target ↔ graph.Edge source label target := by
  cases label <;> simp [Edge, epsilonTargets, target?, same]

theorem not_edge_of_bare (bare : graph.node? source = none ∨ graph.node? source = some {}) :
    ¬ graph.Edge source label target := by
  intro edge
  cases label with
  | none =>
      rcases bare with absent | fresh
      · simp [Edge, epsilonTargets, absent] at edge
      · simp only [Edge, epsilonTargets, fresh] at edge
        exact absurd edge List.not_mem_nil
  | some char =>
      rcases bare with absent | fresh
      · simp [Edge, target?, absent] at edge
      · simp [Edge, target?, fresh] at edge

theorem Edge.inside (edge : graph.Edge source label target) : source < graph.size := by
  rcases Nat.lt_or_ge source graph.size with inside | outside
  · exact inside
  · exact absurd edge (not_edge_of_bare (.inl (Array.getElem?_eq_none outside)))

@[simp]
theorem size_addNode (graph : Graph) : graph.addNode.1.size = graph.size + 1 :=
  Array.size_push _

@[simp]
theorem edge_addNode :
    graph.addNode.1.Edge source label target ↔ graph.Edge source label target := by
  have changed : graph.addNode.1.node? source =
      if source = graph.size then some {} else graph.node? source := Array.getElem?_push
  by_cases here : source = graph.size
  · have fresh : graph.addNode.1.node? source = some {} := by rw [changed, if_pos here]
    have absent : graph.node? source = none := Array.getElem?_eq_none (Nat.le_of_eq here.symm)
    exact iff_of_false (not_edge_of_bare (.inr fresh)) (not_edge_of_bare (.inl absent))
  · exact edge_congr (by rw [changed, if_neg here])

@[simp]
theorem size_addEpsilon (graph : Graph) (first second : Nat) :
    (graph.addEpsilon first second).size = graph.size :=
  Array.size_modify

@[simp]
theorem definitions_addEpsilon (graph : Graph) (first second : Nat) :
    (graph.addEpsilon first second).definitions = graph.definitions := rfl

theorem edge_addEpsilon {first second : Nat} (inside : first < graph.size) :
    (graph.addEpsilon first second).Edge source label target ↔
      graph.Edge source label target ∨ source = first ∧ label = none ∧ target = second := by
  have changed : (graph.addEpsilon first second).node? source =
      if first = source then (graph.node? source).map fun node =>
        { node with epsilon := node.epsilon.insert second } else graph.node? source :=
    Array.getElem?_modify
  by_cases here : source = first
  · subst here
    have found : graph.node? source = some graph.nodes[source] := Array.getElem?_eq_getElem inside
    rw [if_pos rfl, found, Option.map_some] at changed
    cases label with
    | none =>
        have inserted : target ∈ (graph.nodes[source].epsilon.insert second).elements ↔
            target = second ∨ target ∈ graph.nodes[source].epsilon.elements :=
          OrderedSet.mem_insert
        simpa [Edge, epsilonTargets, found, changed, or_comm] using inserted
    | some char => simp [Edge, target?, found, changed]
  · rw [if_neg (Ne.symm here)] at changed
    rw [edge_congr changed]
    simp [here]

@[simp]
theorem size_addTransition (graph : Graph) (first : Nat) (char : Char) (second : Nat) :
    (graph.addTransition first char second).size = graph.size :=
  Array.size_modify

@[simp]
theorem definitions_addTransition (graph : Graph) (first : Nat) (char : Char) (second : Nat) :
    (graph.addTransition first char second).definitions = graph.definitions := rfl

/-- A transition takes the place of the one its node had for the character. -/
theorem edge_addTransition_iff {first second : Nat} {char : Char}
    (inside : first < graph.size) :
    (graph.addTransition first char second).Edge source label target ↔
      graph.Edge source label target ∧ ¬ (source = first ∧ label = some char) ∨
        source = first ∧ label = some char ∧ target = second := by
  have changed : (graph.addTransition first char second).node? source =
      if first = source then (graph.node? source).map fun node =>
        { node with transitions := node.transitions.insert char second }
      else graph.node? source := Array.getElem?_modify
  by_cases here : source = first
  · subst here
    have found : graph.node? source = some graph.nodes[source] := Array.getElem?_eq_getElem inside
    rw [if_pos rfl, found, Option.map_some] at changed
    cases label with
    | none => simp [Edge, epsilonTargets, found, changed]
    | some other =>
        by_cases same : other = char
        · simp [Edge, target?, changed, same, eq_comm]
        · simp [Edge, target?, found, changed, same]
  · rw [if_neg (Ne.symm here)] at changed
    rw [edge_congr changed]
    simp [here]

theorem edge_addTransition {first second : Nat} {char : Char} (inside : first < graph.size)
    (fresh : ∀ target, ¬ graph.Edge first (some char) target) :
    (graph.addTransition first char second).Edge source label target ↔
      graph.Edge source label target ∨
        source = first ∧ label = some char ∧ target = second := by
  have kept : graph.Edge source label target → ¬ (source = first ∧ label = some char) := by
    rintro edge ⟨rfl, rfl⟩
    exact fresh target edge
  rw [edge_addTransition_iff inside, and_iff_left_of_imp kept]

@[simp]
theorem size_addEnds (graph : Graph) : graph.addEnds.1.size = graph.size + 2 := by
  simp [addEnds]

@[simp]
theorem definitions_addEnds (graph : Graph) :
    graph.addEnds.1.definitions = graph.definitions := rfl

@[simp]
theorem edge_addEnds :
    graph.addEnds.1.Edge source label target ↔ graph.Edge source label target :=
  edge_addNode.trans edge_addNode

@[simp]
theorem entry_addEnds (graph : Graph) : graph.addEnds.2.entry = graph.size := rfl

@[simp]
theorem accept_addEnds (graph : Graph) : graph.addEnds.2.accept = graph.size + 1 :=
  size_addNode graph

namespace Path

theorem edge (edge : graph.Edge source label target) : graph.Path source label.toList target := by
  simpa using Path.step edge (.here target)

theorem trans (first : graph.Path source front middle) (second : graph.Path middle back target) :
    graph.Path source (front ++ back) target := by
  induction first with
  | here => exact second
  | step edge _ ih =>
      rw [List.append_assoc]
      exact .step edge (ih second)

theorem mono (kept : ∀ source label target, graph.Edge source label target →
      whole.Edge source label target)
    (path : graph.Path source word target) : whole.Path source word target := by
  induction path with
  | here id => exact .here id
  | step edge _ ih => exact .step (kept _ _ _ edge) ih

theorem eq_of_final (final : ∀ label target, ¬ graph.Edge source label target)
    (path : graph.Path source word target) : target = source ∧ word = [] := by
  cases path with
  | here => exact ⟨rfl, rfl⟩
  | step edge _ => exact absurd edge (final _ _)

theorem head (path : graph.Path source word target) (apart : source ≠ target) :
    ∃ label middle rest, word = label.toList ++ rest ∧ graph.Edge source label middle ∧
      graph.Path middle rest target := by
  cases path with
  | here => exact absurd rfl apart
  | step edge later => exact ⟨_, _, _, rfl, edge, later⟩

/--
Nodes of a block with a single gate lead out of it only through the gate, so that a path to
the outside first comes to the gate.
-/
theorem leave {block : Nat → Prop} {gate : Nat}
    (inner : ∀ source label target, block source → source ≠ gate →
      whole.Edge source label target → graph.Edge source label target ∧ block target)
    (path : whole.Path source word target) (start : block source)
    (outside : block target → target = gate) :
    ∃ front back, word = front ++ back ∧ graph.Path source front gate ∧
      whole.Path gate back target := by
  induction path with
  | here id =>
      rcases outside start with rfl
      exact ⟨[], [], rfl, .here _, .here _⟩
  | @step source middle target label word edge later ih =>
      by_cases gated : source = gate
      · subst gated
        exact ⟨[], _, rfl, .here _, .step edge later⟩
      · rcases inner _ _ _ start gated edge with ⟨kept, stays⟩
        rcases ih stays outside with ⟨front, back, rfl, within, beyond⟩
        exact ⟨label.toList ++ front, back, by simp, .step kept within, beyond⟩

theorem confined {block : Nat → Prop}
    (inner : ∀ source label target, block source →
      whole.Edge source label target → graph.Edge source label target ∧ block target)
    (path : whole.Path source word target) (start : block source) :
    graph.Path source word target ∧ block target := by
  induction path with
  | here id => exact ⟨.here id, start⟩
  | step edge _ ih =>
      rcases inner _ _ _ start edge with ⟨kept, stays⟩
      exact ⟨.step kept (ih stays).1, (ih stays).2⟩

end Path

end Graph

end MaximalMunch
