import MaximalMunch.Definitions.Resolution
import MaximalMunch.Graph.Basic
import MaximalMunch.Pattern.Reading

/-!
Laying a pattern out in a graph. Each part of the pattern becomes a fragment between an entry
and an accept node, and the fragments of the parts are linked by epsilon edges. Only fresh nodes
get edges, so what the graph held before stays as it is.
-/

namespace MaximalMunch

structure Fragment where
  entry : Nat
  accept : Nat
  deriving DecidableEq, Repr

namespace Graph

def addEnds (graph : Graph) : Graph × Fragment :=
  let (graph, entry) := graph.addNode
  let (graph, accept) := graph.addNode
  (graph, ⟨entry, accept⟩)

mutual

def addPattern (graph : Graph) : Pattern → Graph × Fragment
  | .symbol char =>
    let (graph, ends) := graph.addEnds
    (graph.addTransition ends.entry char ends.accept, ends)
  | .nothing =>
    let (graph, ends) := graph.addEnds
    (graph.addEpsilon ends.entry ends.accept, ends)
  | .star pattern =>
    let (graph, inner) := addPattern graph pattern
    let (graph, ends) := graph.addEnds
    let graph := graph.addEpsilon ends.entry inner.entry
    let graph := graph.addEpsilon ends.entry ends.accept
    let graph := graph.addEpsilon inner.accept inner.entry
    (graph.addEpsilon inner.accept ends.accept, ends)
  | .sequence items =>
    let (graph, ends) := graph.addEnds
    let (graph, last) := addItems graph ends.entry items
    (graph.addEpsilon last ends.accept, ends)
  | .choice alternatives =>
    let (graph, ends) := graph.addEnds
    (addChoices graph ends alternatives, ends)

/-- Chains the items one after another behind `last` and gives the end of the chain. -/
def addItems (graph : Graph) (last : Nat) : List Pattern → Graph × Nat
  | [] => (graph, last)
  | item :: rest =>
    let (graph, part) := addPattern graph item
    addItems (graph.addEpsilon last part.entry) part.accept rest

def addChoices (graph : Graph) (ends : Fragment) : List Pattern → Graph
  | [] => graph
  | alternative :: rest =>
    let (graph, part) := addPattern graph alternative
    let graph := graph.addEpsilon ends.entry part.entry
    addChoices (graph.addEpsilon part.accept ends.accept) ends rest

end

/-- What is laid out of a faulty pattern: all that stands before the fault. -/
def addDraft (graph : Graph) (draft : Draft) : Graph :=
  let graph :=
    if draft.alternation then
      let (graph, ends) := graph.addEnds
      addChoices graph ends draft.choices
    else graph
  let (graph, ends) := graph.addEnds
  (addItems graph ends.entry draft.items).1

/--
Compiles a pattern text. References are expanded by the graph's definitions first, and a fault is
reported in the expanded text.
-/
def compile (graph : Graph) (text : String) : Graph × Except PatternError Fragment :=
  match graph.definitions.substitute text with
  | .error fault => (graph, .error fault)
  | .ok normalized =>
    match Pattern.read normalized with
    | .ok pattern =>
      let (graph, fragment) := graph.addPattern pattern
      (graph, .ok fragment)
    | .error draft =>
      (graph.addDraft draft, .error (.malformed normalized draft.position draft.kind))

end Graph

end MaximalMunch
