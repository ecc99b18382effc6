import MaximalMunch.Graph.Simulation
import MaximalMunch.Proofs.GraphPaths

/-!
The active nodes of a simulation are the ends of the paths that spell what has been read, so a
fragment accepts a word if and only if a path between its ends spells the word.
-/

namespace MaximalMunch

namespace Graph

variable {graph : Graph} {source target : Nat} {word : List Char}

/-- Silent edges from `seen` lead to `seen` again or to a node that is still to be looked at. -/
def Settled (graph : Graph) (seen : OrderedSet Nat) (pending : List Nat) : Prop :=
  ∀ source ∈ seen, ∀ target, graph.Edge source none target → target ∈ seen ∨ target ∈ pending

theorem Path.mem_of_settled {seen : OrderedSet Nat} (path : graph.Path source word target)
    (silent : word = []) (settled : graph.Settled seen []) (member : source ∈ seen) :
    target ∈ seen := by
  induction path with
  | here id => exact member
  | @step source middle target label word edge later ih =>
      cases label with
      | some char => cases silent
      | none =>
          have next := (settled _ member _ edge).resolve_right List.not_mem_nil
          exact ih silent next

/-- A silent path leads to the node from one already seen or still to be looked at. -/
def Reached (graph : Graph) (seen : OrderedSet Nat) (pending : List Nat) (target : Nat) : Prop :=
  ∃ source, (source ∈ seen ∨ source ∈ pending) ∧ graph.Path source [] target

section Step

variable {seen : OrderedSet Nat} {pending : List Nat} {id : Nat}

theorem Settled.pass (settled : graph.Settled seen (id :: pending)) (old : id ∈ seen) :
    graph.Settled seen pending := by
  intro source member target edge
  rcases settled source member target edge with known | waiting
  · exact .inl known
  · rcases List.mem_cons.mp waiting with rfl | waiting
    · exact .inl old
    · exact .inr waiting

theorem Settled.visit (settled : graph.Settled seen (id :: pending)) :
    graph.Settled (seen.insert id) (graph.epsilonTargets id ++ pending) := by
  intro source member target edge
  rcases OrderedSet.mem_insert.mp member with rfl | old
  · exact .inr (List.mem_append_left _ edge)
  · rcases settled source old target edge with known | waiting
    · exact .inl (OrderedSet.mem_insert.mpr (.inr known))
    · rcases List.mem_cons.mp waiting with rfl | waiting
      · exact .inl (OrderedSet.mem_insert.mpr (.inl rfl))
      · exact .inr (List.mem_append_right _ waiting)

theorem reached_pass (old : id ∈ seen) :
    graph.Reached seen pending target ↔ graph.Reached seen (id :: pending) target := by
  constructor
  · intro reached
    rcases reached with ⟨source, start, path⟩
    exact ⟨source, start.imp_right (List.mem_cons_of_mem _), path⟩
  · intro reached
    rcases reached with ⟨source, known | waiting, path⟩
    · exact ⟨source, .inl known, path⟩
    · rcases List.mem_cons.mp waiting with rfl | waiting
      · exact ⟨source, .inl old, path⟩
      · exact ⟨source, .inr waiting, path⟩

theorem reached_visit :
    graph.Reached (seen.insert id) (graph.epsilonTargets id ++ pending) target ↔
      graph.Reached seen (id :: pending) target := by
  constructor
  · intro reached
    rcases reached with ⟨source, known | waiting, path⟩
    · rcases OrderedSet.mem_insert.mp known with rfl | old
      · exact ⟨source, .inr List.mem_cons_self, path⟩
      · exact ⟨source, .inl old, path⟩
    · rcases List.mem_append.mp waiting with next | waiting
      · have edge : graph.Edge id none source := next
        exact ⟨id, .inr List.mem_cons_self, .step edge path⟩
      · exact ⟨source, .inr (List.mem_cons_of_mem _ waiting), path⟩
  · intro reached
    rcases reached with ⟨source, known | waiting, path⟩
    · exact ⟨source, .inl (OrderedSet.mem_insert.mpr (.inr known)), path⟩
    · rcases List.mem_cons.mp waiting with rfl | waiting
      · exact ⟨source, .inl (OrderedSet.mem_insert.mpr (.inl rfl)), path⟩
      · exact ⟨source, .inr (List.mem_append_right _ waiting), path⟩

theorem mem_close (settled : graph.Settled seen pending) :
    target ∈ graph.close seen pending ↔ graph.Reached seen pending target := by
  induction seen, pending using close.induct graph with
  | case1 seen =>
      rw [close]
      constructor
      · intro member
        exact ⟨target, .inl member, .here target⟩
      · intro reached
        rcases reached with ⟨source, start | start, path⟩
        · exact path.mem_of_settled rfl settled start
        · exact absurd start List.not_mem_nil
  | case2 seen id pending old ih =>
      rw [close, if_pos old, ih (settled.pass old), reached_pass old]
  | case3 seen id pending fresh ih =>
      rw [close, if_neg fresh, ih settled.visit, reached_visit]

end Step

@[simp]
theorem mem_closure {seeds : List Nat} :
    target ∈ graph.closure seeds ↔ ∃ source ∈ seeds, graph.Path source [] target := by
  have empty : ∀ source, source ∉ (∅ : OrderedSet Nat) := fun _ => List.not_mem_nil
  have settled : graph.Settled ∅ seeds := fun source member => absurd member (empty source)
  simp [closure, mem_close settled, Reached, empty]

theorem closure_settled (graph : Graph) (seeds : List Nat) :
    graph.Settled (graph.closure seeds) [] := by
  intro source member target edge
  rcases mem_closure.mp member with ⟨seed, start, path⟩
  exact .inl (mem_closure.mpr ⟨seed, start, path.trans (.edge edge)⟩)

theorem Path.next_of_settled {seen : OrderedSet Nat} {char : Char} {spelled : List Char}
    (path : graph.Path source spelled target) (spells : spelled = char :: word)
    (settled : graph.Settled seen []) (member : source ∈ seen) :
    ∃ reader ∈ seen, ∃ next, graph.target? reader char = some next ∧
      graph.Path next word target := by
  induction path with
  | here id => cases spells
  | @step source middle target label rest edge later ih =>
      cases label with
      | none =>
          have next := (settled _ member _ edge).resolve_right List.not_mem_nil
          exact ih spells next
      | some read =>
          rcases List.cons.inj spells with ⟨rfl, rfl⟩
          exact ⟨source, member, middle, edge, later⟩

end Graph

namespace Simulation

variable {graph : Graph} {simulation : Simulation} {target : Nat} {word : List Char}

@[simp]
theorem mem_start (fragment : Fragment) :
    target ∈ (start graph fragment).active ↔ graph.Path fragment.entry [] target := by
  simp [start]

@[simp]
theorem mem_step {char : Char} : target ∈ (simulation.step graph char).active ↔
    ∃ reader ∈ simulation.active, ∃ next, graph.target? reader char = some next ∧
      graph.Path next [] target := by
  simp only [step, Graph.mem_closure, List.mem_filterMap]
  constructor
  · intro reached
    rcases reached with ⟨next, ⟨reader, active, reads⟩, path⟩
    exact ⟨reader, active, next, reads, path⟩
  · intro reached
    rcases reached with ⟨reader, active, next, reads, path⟩
    exact ⟨next, ⟨reader, active, reads⟩, path⟩

theorem mem_run (settled : graph.Settled simulation.active []) :
    target ∈ (simulation.run graph word).active ↔
      ∃ source ∈ simulation.active, graph.Path source word target := by
  induction word generalizing simulation with
  | nil =>
      constructor
      · intro member
        exact ⟨target, member, .here target⟩
      · intro reached
        rcases reached with ⟨source, active, path⟩
        exact path.mem_of_settled rfl settled active
  | cons char word ih =>
      -- After a character the active nodes are closed under silent edges again.
      have next : graph.Settled (simulation.step graph char).active [] :=
        Graph.closure_settled graph _
      refine (ih next).trans ?_
      constructor
      · intro reached
        rcases reached with ⟨source, active, path⟩
        rcases mem_step.mp active with ⟨reader, before, next, reads, silent⟩
        have edge : graph.Edge reader (some char) next := reads
        exact ⟨reader, before, .step edge (silent.trans path)⟩
      · intro reached
        rcases reached with ⟨source, active, path⟩
        rcases path.next_of_settled rfl settled active with ⟨reader, before, next, reads, later⟩
        exact ⟨next, mem_step.mpr ⟨reader, before, next, reads, .here next⟩, later⟩

@[simp]
theorem mem_run_start (fragment : Fragment) :
    target ∈ ((start graph fragment).run graph word).active ↔
      graph.Path fragment.entry word target := by
  rw [mem_run (Graph.closure_settled graph [fragment.entry])]
  constructor
  · intro reached
    rcases reached with ⟨source, active, path⟩
    exact ((mem_start fragment).mp active).trans path
  · intro path
    exact ⟨fragment.entry, (mem_start fragment).mpr (.here _), path⟩

@[simp] theorem fragment_run (graph : Graph) (simulation : Simulation) (word : List Char) :
    (simulation.run graph word).fragment = simulation.fragment := by
  induction word generalizing simulation with
  | nil => rfl
  | cons char word ih => exact ih (simulation.step graph char)

theorem run_append (graph : Graph) (simulation : Simulation) (front back : List Char) :
    simulation.run graph (front ++ back) = (simulation.run graph front).run graph back :=
  List.foldl_append

theorem isDead_step (graph : Graph) (dead : simulation.isDead) (char : Char) :
    (simulation.step graph char).isDead := by
  have none : simulation.active.elements = [] := List.isEmpty_iff.mp dead
  simp only [step, none, List.filterMap_nil, Graph.closure, Graph.close, isDead]
  rfl

theorem isDead_run (graph : Graph) (dead : simulation.isDead) (word : List Char) :
    (simulation.run graph word).isDead := by
  induction word generalizing simulation with
  | nil => exact dead
  | cons char word ih => exact ih (isDead_step graph dead char)

theorem not_isAccepting_of_isDead (dead : simulation.isDead) : simulation.isAccepting = false := by
  have none : simulation.active.elements = [] := List.isEmpty_iff.mp dead
  have absent : simulation.fragment.accept ∉ simulation.active := by
    intro member
    change _ ∈ simulation.active.elements at member
    simp [none] at member
  simp [isAccepting, absent]

theorem accepts_eq_isAccepting_run (graph : Graph) (simulation : Simulation) (word : List Char) :
    simulation.accepts graph word = (simulation.run graph word).isAccepting := by
  induction word generalizing simulation with
  | nil => rfl
  | cons char word ih =>
      rw [accepts]
      by_cases dead : (simulation.step graph char).isDead
      · have silent : ((simulation.step graph char).run graph word).isAccepting = false :=
          not_isAccepting_of_isDead (isDead_run graph dead word)
        rw [if_pos dead]
        exact silent.symm
      · rw [if_neg dead]
        exact ih _

end Simulation

namespace Fragment

variable {graph : Graph} {fragment : Fragment} {word : List Char}

theorem accepts_eq_isAccepting_run (graph : Graph) (fragment : Fragment) (word : List Char) :
    fragment.accepts graph word =
      ((Simulation.start graph fragment).run graph word).isAccepting :=
  Simulation.accepts_eq_isAccepting_run graph _ word

theorem accepts_iff_path :
    fragment.accepts graph word ↔ graph.Path fragment.entry word fragment.accept := by
  rw [accepts_eq_isAccepting_run, Simulation.isAccepting, decide_eq_true_iff,
    Simulation.fragment_run]
  exact Simulation.mem_run_start fragment

end Fragment

end MaximalMunch
