import MaximalMunch.Graph.Fragment

/-!
Running a fragment on a word by following the set of all nodes the word can lead to.
-/

namespace MaximalMunch

namespace Graph

def unseen (graph : Graph) (seen : OrderedSet Nat) : Nat :=
  ((List.range graph.size).filter (· ∉ seen)).length

theorem unseen_insert_lt {graph : Graph} {seen : OrderedSet Nat} {id : Nat}
    (inside : id < graph.size) (fresh : id ∉ seen) :
    graph.unseen (seen.insert id) < graph.unseen seen := by
  unfold unseen
  have split : (List.range graph.size).filter (· ∉ seen.insert id) =
      ((List.range graph.size).filter (· ∉ seen)).filter (· ≠ id) := by
    rw [List.filter_filter]
    congr 1
    funext other
    by_cases same : other = id <;> simp [same]
  rw [split]
  refine List.length_filter_lt_length_iff_exists.mpr ⟨id, ?_, by simp⟩
  exact List.mem_filter.mpr ⟨List.mem_range.mpr inside, by simpa using fresh⟩

theorem unseen_insert_le (graph : Graph) (seen : OrderedSet Nat) (id : Nat) :
    graph.unseen (seen.insert id) ≤ graph.unseen seen := by
  simp only [unseen, ← List.countP_eq_length_filter]
  refine List.countP_mono_left fun other _ absent => ?_
  simp only [decide_eq_true_eq, OrderedSet.mem_insert, not_or] at absent ⊢
  exact absent.2

/-- Adds to `seen` all nodes that epsilon edges lead to from the pending ones. -/
def close (graph : Graph) (seen : OrderedSet Nat) : List Nat → OrderedSet Nat
  | [] => seen
  | id :: pending =>
    if id ∈ seen then graph.close seen pending
    else graph.close (seen.insert id) (graph.epsilonTargets id ++ pending)
termination_by pending => (graph.unseen seen, pending.length)
decreasing_by
  · exact Prod.Lex.right _ (by simp)
  · by_cases inside : id < graph.size
    · exact Prod.Lex.left _ _ (unseen_insert_lt inside ‹_›)
    · rw [epsilonTargets_of_not_contains inside]
      rcases Nat.lt_or_eq_of_le (unseen_insert_le graph seen id) with less | same
      · exact Prod.Lex.left _ _ less
      · rw [same]
        exact Prod.Lex.right _ (by simp)

def closure (graph : Graph) (seeds : List Nat) : OrderedSet Nat := graph.close ∅ seeds

end Graph

/-- A fragment together with the nodes that the characters read so far can lead to. -/
structure Simulation where
  fragment : Fragment
  active : OrderedSet Nat
  deriving DecidableEq, Repr

namespace Simulation

def start (graph : Graph) (fragment : Fragment) : Simulation :=
  ⟨fragment, graph.closure [fragment.entry]⟩

def reset (graph : Graph) (simulation : Simulation) : Simulation :=
  start graph simulation.fragment

def step (graph : Graph) (simulation : Simulation) (char : Char) : Simulation :=
  { simulation with
    active := graph.closure (simulation.active.elements.filterMap fun id => graph.target? id char) }

def run (graph : Graph) (simulation : Simulation) (word : List Char) : Simulation :=
  word.foldl (step graph) simulation

def isAccepting (simulation : Simulation) : Bool := simulation.fragment.accept ∈ simulation.active

def isDead (simulation : Simulation) : Bool := simulation.active.isEmpty

/-- Whether `word` leads to the accept node. A dead simulation gives up at once. -/
def accepts (graph : Graph) (simulation : Simulation) : List Char → Bool
  | [] => simulation.isAccepting
  | char :: rest =>
    let next := simulation.step graph char
    if next.isDead then false else next.accepts graph rest

end Simulation

def Fragment.accepts (graph : Graph) (fragment : Fragment) (word : List Char) : Bool :=
  (Simulation.start graph fragment).accepts graph word

end MaximalMunch
