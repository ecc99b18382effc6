import MaximalMunch.Proofs.SharedGraph
import Mathlib

/-!
Which edges a graph has, told by the edits that made it. Edits come in any order, and their edges
may lead anywhere: a node keeps all silent edges it is given, and of the transitions it is given
for one character the last.
-/

namespace MaximalMunch

namespace Graph

variable {definitions : DefinitionTable} {graph : Graph} {edit : Edit} {edits : List Edit}
  {source target : Nat} {label : Option Char}

/-- An edit gives the edge to a node there is by then, and no later edit replaces it. -/
def Draws (edits : List Edit) (source : Nat) (label : Option Char) (target : Nat) : Prop :=
  ∃ front edit back, edits = front ++ edit :: back ∧ edit.Adds source label target ∧
    source < front.count .node ∧
      (label ≠ none → ∀ later ∈ back, ∀ other, ¬ later.Adds source label other)

theorem not_draws_nil : ¬ Draws [] source label target := by
  rintro ⟨front, edit, back, split, -⟩
  simp at split

theorem draws_concat : Draws (edits ++ [edit]) source label target ↔
    Draws edits source label target ∧ (label ≠ none → ∀ other, ¬ edit.Adds source label other) ∨
      edit.Adds source label target ∧ source < edits.count .node := by
  constructor
  · rintro ⟨front, drawing, back, split, adds, there, kept⟩
    obtain rfl | ⟨earlier, last, rfl⟩ := List.eq_nil_or_concat back
    · obtain ⟨rfl, same⟩ := List.append_inj' split rfl
      obtain rfl := List.singleton_inj.mp same
      exact .inr ⟨adds, there⟩
    · rw [List.concat_eq_append, ← List.cons_append, ← List.append_assoc] at split
      obtain ⟨rfl, same⟩ := List.append_inj' split rfl
      obtain rfl := List.singleton_inj.mp same
      refine .inl ⟨⟨front, drawing, earlier, rfl, adds, there, ?_⟩, ?_⟩
      · intro reads later member
        exact kept reads later (by simp [member])
      · intro reads
        exact kept reads edit (by simp)
  · rintro (⟨⟨front, drawing, back, rfl, adds, there, kept⟩, spared⟩ | ⟨adds, there⟩)
    · refine ⟨front, drawing, back ++ [edit], by simp, adds, there, ?_⟩
      intro reads later member
      obtain earlier | last := List.mem_append.mp member
      · exact kept reads later earlier
      · rw [List.mem_singleton.mp last]
        exact spared reads
    · exact ⟨edits, edit, [], rfl, adds, there, by simp⟩

theorem run_concat : graph.run (edits ++ [edit]) = (graph.run edits).apply edit :=
  List.foldl_append

theorem size_run : (graph.run edits).size = graph.size + edits.count .node := by
  induction edits using List.reverseRecOn with
  | nil => rfl
  | append_singleton edits edit ih =>
      rw [run_concat, List.count_append]
      cases edit with
      | node => simp [apply, ih, Nat.add_assoc]
      | epsilon first second => simp [apply, ih]
      | transition first char second => simp [apply, ih]

theorem modify_of_outside {nodes : Array Node} {id : Nat} (outside : nodes.size ≤ id)
    (change : Node → Node) : nodes.modify id change = nodes := by
  apply Array.ext_getElem?
  intro place
  rw [Array.getElem?_modify]
  split
  case isTrue same =>
    subst same
    rw [Array.getElem?_eq_none outside]
    rfl
  case isFalse => rfl

theorem apply_of_outside (adds : edit.Adds source label target)
    (outside : ¬ source < graph.size) : graph.apply edit = graph := by
  have beyond : graph.nodes.size ≤ source := Nat.le_of_not_lt outside
  cases edit with
  | node => exact adds.elim
  | epsilon first second =>
      obtain ⟨rfl, -, -⟩ := adds
      rw [apply, addEpsilon, modify_of_outside beyond]
  | transition first char second =>
      obtain ⟨rfl, -, -⟩ := adds
      rw [apply, addTransition, modify_of_outside beyond]

theorem edge_apply_of_outside (adds : edit.Adds source label target)
    (outside : ¬ source < graph.size) {other : Nat} {read : Option Char} {next : Nat} :
    (graph.apply edit).Edge other read next ↔
      graph.Edge other read next ∧ (read ≠ none → ∀ goal, ¬ edit.Adds other read goal) ∨
        edit.Adds other read next ∧ other < graph.size := by
  have elsewhere : ∀ {other read goal}, other < graph.size → ¬ edit.Adds other read goal := by
    intro other read goal inside again
    have same : other = source := by
      cases edit with
      | node => exact adds.elim
      | epsilon first second => exact again.1.trans adds.1.symm
      | transition first char second => exact again.1.trans adds.1.symm
    exact outside (same ▸ inside)
  rw [apply_of_outside adds outside]
  constructor
  · intro edge
    exact .inl ⟨edge, fun _ _ => elsewhere edge.inside⟩
  · rintro (⟨edge, -⟩ | ⟨again, inside⟩)
    · exact edge
    · exact absurd again (elsewhere inside)

theorem edge_apply : (graph.apply edit).Edge source label target ↔
    graph.Edge source label target ∧ (label ≠ none → ∀ other, ¬ edit.Adds source label other) ∨
      edit.Adds source label target ∧ source < graph.size := by
  cases edit with
  | node => simp [apply, Edit.Adds]
  | epsilon first second =>
      by_cases inside : first < graph.size
      · have spared : label ≠ none →
            ∀ other, ¬ (Edit.epsilon first second).Adds source label other :=
          fun reads other adds => reads adds.2.1
        rw [apply, edge_addEpsilon inside, and_iff_left spared]
        apply or_congr_right
        exact (and_iff_left_of_imp fun adds => adds.1 ▸ inside).symm
      · have adds : (Edit.epsilon first second).Adds first none second := ⟨rfl, rfl, rfl⟩
        exact edge_apply_of_outside adds inside
  | transition first char second =>
      by_cases inside : first < graph.size
      · have spared : ¬ (source = first ∧ label = some char) ↔ (label ≠ none →
            ∀ other, ¬ (Edit.transition first char second).Adds source label other) := by
          constructor
          · intro apart reads other adds
            exact apart ⟨adds.1, adds.2.1⟩
          · rintro kept ⟨rfl, rfl⟩
            exact kept (Option.some_ne_none char) second ⟨rfl, rfl, rfl⟩
        rw [apply, edge_addTransition_iff inside, spared]
        apply or_congr_right
        exact (and_iff_left_of_imp fun adds => adds.1 ▸ inside).symm
      · have adds : (Edit.transition first char second).Adds first (some char) second :=
          ⟨rfl, rfl, rfl⟩
        exact edge_apply_of_outside adds inside

/-- The edges of a graph are those that were drawn, from the empty graph on. -/
theorem edge_run_iff : (Graph.run { definitions := definitions } edits).Edge source label target ↔
    Draws edits source label target := by
  induction edits using List.reverseRecOn with
  | nil =>
      have bare : Graph.node? { definitions := definitions } source = none := rfl
      exact iff_of_false (not_edge_of_bare (.inl bare)) not_draws_nil
  | append_singleton edits edit ih =>
      have size : (Graph.run { definitions := definitions } edits).size = edits.count .node :=
        size_run.trans (Nat.zero_add _)
      rw [run_concat, edge_apply, draws_concat, ih, size]

end Graph

end MaximalMunch
