import MaximalMunch.Proofs.OrderedLists
import MaximalMunch.Proofs.SharedGraph

/-!
What compiling adds to a graph is a block that does not depend on the graph: the block that the
same text gives alone, with its numbers shifted behind the nodes there were. So no pattern can
change another.
-/

namespace MaximalMunch

theorem insertElement_shift (offset element : Nat) (elements : List Nat) :
    insertElement (offset + element) (elements.map (offset + ·)) =
      (insertElement element elements).map (offset + ·) := by
  induction elements with
  | nil => rfl
  | cons head rest ih =>
      simp only [List.map_cons, insertElement, Nat.add_lt_add_iff_left, ih]
      split
      · rfl
      · split <;> rfl

def OrderedSet.shift (offset : Nat) (set : OrderedSet Nat) : OrderedSet Nat where
  elements := set.elements.map (offset + ·)
  ascending := List.pairwise_map.mpr (set.ascending.imp fun less => Nat.add_lt_add_left less offset)

@[simp]
theorem OrderedSet.insert_shift (offset element : Nat) (set : OrderedSet Nat) :
    (set.shift offset).insert (offset + element) = (set.insert element).shift offset :=
  OrderedSet.eq_of_elements (insertElement_shift offset element set.elements)

section Values

variable {α β γ : Type} [LT α]

def OrderedMap.mapValues (change : β → γ) (map : OrderedMap α β) : OrderedMap α γ where
  entries := map.entries.map fun entry => (entry.1, change entry.2)
  ascending := by
    have ascending := map.ascending
    rw [AscendingKeys] at ascending ⊢
    rwa [List.pairwise_map]

variable [DecidableLT α]

theorem insertEntry_map (change : β → γ) (key : α) (value : β) (entries : List (α × β)) :
    insertEntry key (change value) (entries.map fun entry => (entry.1, change entry.2)) =
      (insertEntry key value entries).map fun entry => (entry.1, change entry.2) := by
  induction entries with
  | nil => rfl
  | cons head rest ih =>
      simp only [List.map_cons, insertEntry, ih]
      split
      · rfl
      · split <;> rfl

variable [LE α] [Std.IsLinearOrder α] [Std.LawfulOrderLT α]

theorem OrderedMap.insert_mapValues (change : β → γ) (key : α) (value : β)
    (map : OrderedMap α β) :
    (map.mapValues change).insert key (change value) = (map.insert key value).mapValues change :=
  OrderedMap.eq_of_entries (insertEntry_map change key value map.entries)

end Values

def Node.shift (offset : Nat) (node : Node) : Node where
  epsilon := node.epsilon.shift offset
  transitions := node.transitions.mapValues (offset + ·)

def Fragment.shift (offset : Nat) (fragment : Fragment) : Fragment :=
  ⟨offset + fragment.entry, offset + fragment.accept⟩

namespace Graph

/-- The nodes of another graph behind those of this one. -/
def beside (graph block : Graph) : Graph :=
  { graph with nodes := graph.nodes ++ block.nodes.map (Node.shift graph.size) }

variable (graph block : Graph)

@[simp]
theorem size_beside : (graph.beside block).size = graph.size + block.size := by
  simp [beside, size]

@[simp]
theorem addNode_beside :
    (graph.beside block).addNode =
      (graph.beside block.addNode.1, graph.size + block.addNode.2) := by
  have nodes : (graph.nodes ++ block.nodes.map (Node.shift graph.size)).push {} =
      graph.nodes ++ (block.nodes.push {}).map (Node.shift graph.size) := by
    rw [Array.map_push, Array.append_push]
    rfl
  simp only [addNode, size_beside]
  rw [beside, nodes]
  rfl

theorem modify_beside {change shifted : Node → Node} (id : Nat)
    (agree : ∀ node, shifted (node.shift graph.size) = (change node).shift graph.size) :
    (graph.nodes ++ block.nodes.map (Node.shift graph.size)).modify (graph.size + id) shifted =
      graph.nodes ++ (block.nodes.modify id change).map (Node.shift graph.size) := by
  apply Array.ext_getElem?
  intro place
  rw [Array.getElem?_modify, Array.getElem?_append, Array.getElem?_append]
  split
  case isTrue same =>
    have behind : ¬ place < graph.nodes.size := by
      rw [← same, size]
      omega
    have back : place - graph.nodes.size = id := by
      rw [← same, size]
      omega
    rw [if_neg behind, if_neg behind, Array.getElem?_map, Array.getElem?_map, back,
      Array.getElem?_modify, if_pos rfl, Option.map_map, Option.map_map]
    exact congrArg (fun change => Option.map change block.nodes[id]?) (funext agree)
  case isFalse other =>
    split
    case isTrue => rfl
    case isFalse behind =>
      have apart : id ≠ place - graph.nodes.size := by
        rw [size] at other
        omega
      rw [Array.getElem?_map, Array.getElem?_map, Array.getElem?_modify, if_neg apart]

@[simp]
theorem addEpsilon_beside (source target : Nat) :
    (graph.beside block).addEpsilon (graph.size + source) (graph.size + target) =
      graph.beside (block.addEpsilon source target) := by
  have inserted : ∀ node : Node,
      { node.shift graph.size with
        epsilon := (node.shift graph.size).epsilon.insert (graph.size + target) } =
      ({ node with epsilon := node.epsilon.insert target } : Node).shift graph.size := by
    intro node
    simp [Node.shift]
  simp only [addEpsilon, beside]
  rw [modify_beside graph block source inserted]

@[simp]
theorem addTransition_beside (source : Nat) (char : Char) (target : Nat) :
    (graph.beside block).addTransition (graph.size + source) char (graph.size + target) =
      graph.beside (block.addTransition source char target) := by
  have inserted : ∀ node : Node,
      { node.shift graph.size with
        transitions := (node.shift graph.size).transitions.insert char (graph.size + target) } =
      ({ node with transitions := node.transitions.insert char target } : Node).shift
        graph.size := by
    intro node
    simp only [Node.shift, OrderedMap.insert_mapValues]
  simp only [addTransition, beside]
  rw [modify_beside graph block source inserted]

@[simp]
theorem addEnds_beside : (graph.beside block).addEnds =
    (graph.beside block.addEnds.1, block.addEnds.2.shift graph.size) := by
  simp [addEnds, Fragment.shift]

mutual

theorem addPattern_beside (block : Graph) : (pattern : Pattern) →
    (graph.beside block).addPattern pattern =
      (graph.beside (block.addPattern pattern).1, (block.addPattern pattern).2.shift graph.size)
  | .symbol char => by
      simp [addPattern, Fragment.shift]
  | .nothing => by
      simp [addPattern, Fragment.shift]
  | .star inner => by
      simp [addPattern, addPattern_beside block inner, Fragment.shift]
  | .sequence items => by
      simp [addPattern, addItems_beside block.addEnds.1 block.size items, Fragment.shift]
  | .choice alternatives => by
      simp [addPattern, addChoices_beside block.addEnds.1 block.addEnds.2 alternatives]

theorem addItems_beside (block : Graph) (last : Nat) : (items : List Pattern) →
    (graph.beside block).addItems (graph.size + last) items =
      (graph.beside (block.addItems last items).1, graph.size + (block.addItems last items).2)
  | [] => rfl
  | item :: rest => by
      simp only [addItems, addPattern_beside block item, Fragment.shift, addEpsilon_beside]
      exact addItems_beside _ _ rest

theorem addChoices_beside (block : Graph) (ends : Fragment) : (alternatives : List Pattern) →
    (graph.beside block).addChoices (ends.shift graph.size) alternatives =
      graph.beside (block.addChoices ends alternatives)
  | [] => rfl
  | alternative :: rest => by
      simp only [addChoices, addPattern_beside block alternative]
      rw [← addChoices_beside _ ends rest, Fragment.shift, Fragment.shift, addEpsilon_beside,
        addEpsilon_beside]

end

theorem addDraft_beside (block : Graph) (draft : Draft) :
    (graph.beside block).addDraft draft = graph.beside (block.addDraft draft) := by
  simp only [addDraft]
  split
  case isTrue =>
    simp only [addEnds_beside, addChoices_beside]
    simp only [Fragment.shift, addItems_beside]
  case isFalse =>
    simp only [addEnds_beside, Fragment.shift, addItems_beside]

def emptied : Graph := { definitions := graph.definitions }

@[simp]
theorem beside_emptied : graph.beside graph.emptied = graph := by
  simp [beside, emptied]

theorem compile_eq_beside (text : String) : graph.compile text =
    (graph.beside (graph.emptied.compile text).1,
      (graph.emptied.compile text).2.map (Fragment.shift graph.size)) := by
  have same : graph.emptied.definitions = graph.definitions := rfl
  rw [compile, compile, same]
  cases graph.definitions.substitute text with
  | error fault =>
      dsimp only
      rw [beside_emptied]
      rfl
  | ok normalized =>
      dsimp only
      cases Pattern.read normalized with
      | error draft =>
          have laid := addDraft_beside graph graph.emptied draft
          rw [beside_emptied] at laid
          dsimp only
          rw [laid]
          rfl
      | ok pattern =>
          have laid := addPattern_beside graph graph.emptied pattern
          rw [beside_emptied] at laid
          dsimp only
          rw [laid]
          rfl

theorem node?_beside_old {id : Nat} (old : id < graph.size) :
    (graph.beside block).node? id = graph.node? id :=
  Array.getElem?_append_left old

@[simp]
theorem node?_beside_new (id : Nat) :
    (graph.beside block).node? (graph.size + id) =
      (block.node? id).map (Node.shift graph.size) := by
  calc (graph.beside block).node? (graph.size + id)
      = (block.nodes.map (Node.shift graph.size))[graph.size + id - graph.nodes.size]? :=
        Array.getElem?_append_right (Nat.le_add_right _ _)
    _ = (block.nodes.map (Node.shift graph.size))[id]? := by rw [size, Nat.add_sub_cancel_left]
    _ = (block.node? id).map (Node.shift graph.size) := Array.getElem?_map

theorem grows_compileAll (texts : List String) :
    Grows graph (graph.compileAll texts) fun _ => False := by
  induction texts generalizing graph with
  | nil => exact Grows.refl graph
  | cons text texts ih =>
      have grown : Grows graph (graph.compile text).1 fun _ => False := by
        rw [compile_eq_beside]
        refine ⟨rfl, ?_, fun source label target old _ => ?_⟩
        · rw [size_beside]
          exact Nat.le_add_right _ _
        · exact edge_congr (node?_beside_old graph _ old)
      exact grown.trans (ih _)

theorem accepts_compileAll {text : String} {after : Graph} {fragment : Fragment}
    (compiled : graph.compile text = (after, .ok fragment)) (later : List String)
    (word : List Char) :
    fragment.accepts (after.compileAll later) word = fragment.accepts after word := by
  obtain ⟨normalized, -, laid⟩ := compile_lays compiled
  rw [Bool.eq_iff_iff, laid.accepts_iff (grows_compileAll after later),
    laid.accepts_iff (Grows.refl after)]

/--
Compiling adds one block behind the nodes there are, the same behind every graph with these
definitions, and gives the same result up to the numbers of the nodes. Nothing else is changed,
and nothing compiled later changes what the fragment accepts.
-/
theorem compile_appends (text : String) :
    graph.compile text = (graph.beside (graph.emptied.compile text).1,
      (graph.emptied.compile text).2.map (Fragment.shift graph.size)) ∧
    (graph.compile text).1.definitions = graph.definitions ∧
    (graph.compile text).1.size = graph.size + (graph.emptied.compile text).1.size ∧
    (∀ id, id < graph.size → (graph.compile text).1.node? id = graph.node? id) ∧
    (∀ id, (graph.compile text).1.node? (graph.size + id) =
      ((graph.emptied.compile text).1.node? id).map (Node.shift graph.size)) ∧
    ∀ fragment, (graph.compile text).2 = .ok fragment → ∀ later word,
      fragment.accepts ((graph.compile text).1.compileAll later) word =
        fragment.accepts (graph.compile text).1 word := by
  have block := compile_eq_beside graph text
  refine ⟨block, ?_, ?_, fun id old => ?_, fun id => ?_, fun fragment done later word => ?_⟩
  · rw [block]
    rfl
  · rw [block, size_beside]
  · rw [block, node?_beside_old graph _ old]
  · rw [block, node?_beside_new]
  · exact accepts_compileAll graph (Prod.ext rfl done) later word

theorem compile_appends_withForeignEdges :
    (withForeignEdges.compile "\x7bBit\x7d*").2 = .ok ⟨2, 3⟩ ∧
      ∀ word, Fragment.accepts
          ((withForeignEdges.compile "\x7bBit\x7d*").1.compileAll ["a(", ")"]) ⟨2, 3⟩ word =
        Fragment.accepts (withForeignEdges.compile "\x7bBit\x7d*").1 ⟨2, 3⟩ word := by
  have done : (withForeignEdges.compile "\x7bBit\x7d*").2 = .ok ⟨2, 3⟩ := by cbv
  obtain ⟨-, -, -, -, -, kept⟩ := compile_appends withForeignEdges "\x7bBit\x7d*"
  exact ⟨done, kept _ done _⟩

end Graph

end MaximalMunch
