import MaximalMunch.Definitions.Table
import MaximalMunch.Ordered.Map
import MaximalMunch.Ordered.Set

/-!
The graph all patterns of a lexer share. Nodes are numbered in the order they are added and are
never removed. An edge may lead to a number that no node has.
-/

namespace MaximalMunch

structure Node where
  epsilon : OrderedSet Nat := ∅
  transitions : OrderedMap Char Nat := ∅
  deriving DecidableEq, Repr

instance : Inhabited Node := ⟨{}⟩

def Node.edgeCount (node : Node) : Nat := node.epsilon.size + node.transitions.size

structure Graph where
  nodes : Array Node := #[]
  /-- The regular definitions that patterns of this graph may refer to. -/
  definitions : DefinitionTable := {}
  deriving DecidableEq, Repr

namespace Graph

def size (graph : Graph) : Nat := graph.nodes.size

def contains (graph : Graph) (id : Nat) : Bool := id < graph.size

def node? (graph : Graph) (id : Nat) : Option Node := graph.nodes[id]?

def edgeCount (graph : Graph) : Nat :=
  graph.nodes.foldl (fun total node => total + node.edgeCount) 0

def epsilonTargets (graph : Graph) (id : Nat) : List Nat :=
  match graph.node? id with
  | some node => node.epsilon.elements
  | none => []

def target? (graph : Graph) (id : Nat) (char : Char) : Option Nat := do
  let node ← graph.node? id
  node.transitions.get? char

def addNode (graph : Graph) : Graph × Nat :=
  ({ graph with nodes := graph.nodes.push {} }, graph.size)

/-- Edges leave nodes of the graph only; from any other number nothing is added. -/
def addEpsilon (graph : Graph) (source target : Nat) : Graph :=
  { graph with
    nodes := graph.nodes.modify source fun node =>
      { node with epsilon := node.epsilon.insert target } }

def addTransition (graph : Graph) (source : Nat) (char : Char) (target : Nat) : Graph :=
  { graph with
    nodes := graph.nodes.modify source fun node =>
      { node with transitions := node.transitions.insert char target } }

theorem epsilonTargets_of_not_contains {graph : Graph} {id : Nat}
    (outside : ¬ id < graph.size) : graph.epsilonTargets id = [] := by
  have absent : graph.nodes[id]? = none := Array.getElem?_eq_none (Nat.le_of_not_lt outside)
  simp [epsilonTargets, node?, absent]

end Graph

end MaximalMunch
