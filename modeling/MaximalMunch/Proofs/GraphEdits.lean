import MaximalMunch.Proofs.CompilerCorrectness

/-!
The single changes that compiling makes to a graph, in their order. A change only ever adds to
nodes of the same compilation: an epsilon edge to a node that reads no character, a transition to
a node without any edge.
-/

namespace MaximalMunch

namespace Graph

inductive Edit
  | node
  | epsilon (source target : Nat)
  | transition (source : Nat) (char : Char) (target : Nat)
  deriving DecidableEq, Repr

def apply (graph : Graph) : Edit → Graph
  | .node => graph.addNode.1
  | .epsilon source target => graph.addEpsilon source target
  | .transition source char target => graph.addTransition source char target

def run (graph : Graph) (edits : List Edit) : Graph := edits.foldl apply graph

mutual

def patternEdits (graph : Graph) : Pattern → List Edit
  | .symbol char => [.node, .node, .transition graph.size char (graph.size + 1)]
  | .nothing => [.node, .node, .epsilon graph.size (graph.size + 1)]
  | .star inner =>
    let (middle, part) := graph.addPattern inner
    patternEdits graph inner ++ [.node, .node, .epsilon middle.size part.entry,
      .epsilon middle.size (middle.size + 1), .epsilon part.accept part.entry,
      .epsilon part.accept (middle.size + 1)]
  | .sequence items =>
    let (_, last) := graph.addEnds.1.addItems graph.size items
    [.node, .node] ++ itemsEdits graph.addEnds.1 graph.size items ++
      [.epsilon last (graph.size + 1)]
  | .choice alternatives =>
    [.node, .node] ++ choicesEdits graph.addEnds.1 graph.addEnds.2 alternatives

def itemsEdits (graph : Graph) (last : Nat) : List Pattern → List Edit
  | [] => []
  | item :: rest =>
    let (middle, part) := graph.addPattern item
    patternEdits graph item ++ .epsilon last part.entry ::
      itemsEdits (middle.addEpsilon last part.entry) part.accept rest

def choicesEdits (graph : Graph) (ends : Fragment) : List Pattern → List Edit
  | [] => []
  | alternative :: rest =>
    let (middle, part) := graph.addPattern alternative
    patternEdits graph alternative ++ .epsilon ends.entry part.entry ::
      .epsilon part.accept ends.accept ::
      choicesEdits ((middle.addEpsilon ends.entry part.entry).addEpsilon part.accept ends.accept)
        ends rest

end

def chainEdits (graph : Graph) (items : List Pattern) : List Edit :=
  [.node, .node] ++ itemsEdits graph.addEnds.1 graph.size items

def draftEdits (graph : Graph) (draft : Draft) : List Edit :=
  if draft.alternation then
    patternEdits graph (.choice draft.choices) ++
      chainEdits (graph.addPattern (.choice draft.choices)).1 draft.items
  else chainEdits graph draft.items

/-- Also what is laid out of a faulty text before the fault is found. -/
def edits (graph : Graph) (text : String) : List Edit :=
  match graph.definitions.substitute text with
  | .error _ => []
  | .ok normalized =>
    match Pattern.read normalized with
    | .ok pattern => graph.patternEdits pattern
    | .error draft => graph.draftEdits draft

def Edit.Adds : Edit → Nat → Option Char → Nat → Prop
  | .node, _, _, _ => False
  | .epsilon first second, source, label, target =>
    source = first ∧ label = none ∧ target = second
  | .transition first char second, source, label, target =>
    source = first ∧ label = some char ∧ target = second

def Within (low : Nat) (graph : Graph) (id : Nat) : Prop := low ≤ id ∧ id < graph.size

/-- An edge that may be added: it shares its source with others only if it and they are silent. -/
structure Room (low : Nat) (graph : Graph) (source : Nat) (label : Option Char) (target : Nat) :
    Prop where
  origin : Within low graph source
  goal : Within low graph target
  beside : ∀ other next, graph.Edge source other next → label = none ∧ other = none

def Edit.Fits (low : Nat) (graph : Graph) (edit : Edit) : Prop :=
  ∀ source label target, edit.Adds source label target → Room low graph source label target

variable {low : Nat} {graph middle after : Graph} {edit : Edit} {front back : List Edit}
  {source target : Nat} {label : Option Char}

theorem fits_node : Edit.node.Fits low graph := fun _ _ _ adds => adds.elim

theorem fits_epsilon (room : Room low graph source none target) :
    (Edit.epsilon source target).Fits low graph := by
  rintro _ _ _ ⟨rfl, rfl, rfl⟩
  exact room

theorem fits_transition {char : Char} (room : Room low graph source (some char) target) :
    (Edit.transition source char target).Fits low graph := by
  rintro _ _ _ ⟨rfl, rfl, rfl⟩
  exact room

theorem Edit.Fits.edge_apply (fits : edit.Fits low graph) :
    (graph.apply edit).Edge source label target ↔
      graph.Edge source label target ∨ edit.Adds source label target := by
  cases edit with
  | node => exact edge_addNode.trans (or_iff_left id).symm
  | epsilon first second => exact edge_addEpsilon (fits _ _ _ ⟨rfl, rfl, rfl⟩).origin.2
  | transition first char second =>
      have room : Room low graph first (some char) second := fits _ _ _ ⟨rfl, rfl, rfl⟩
      apply edge_addTransition room.origin.2
      intro other edge
      exact Option.some_ne_none _ (room.beside _ _ edge).1

theorem size_le_apply (graph : Graph) (edit : Edit) : graph.size ≤ (graph.apply edit).size := by
  cases edit with
  | node => exact (size_addNode graph).symm ▸ Nat.le_succ _
  | epsilon first second => exact (size_addEpsilon graph first second).ge
  | transition first char second => exact (size_addTransition graph first char second).ge

/-- Carrying out the edits one after another, each of which fits, makes `after` of the graph. -/
inductive Wires (low : Nat) : Graph → List Edit → Graph → Prop
  | done (graph : Graph) : Wires low graph [] graph
  | edit {graph after : Graph} {edit : Edit} {later : List Edit} (fits : edit.Fits low graph)
      (rest : Wires low (graph.apply edit) later after) : Wires low graph (edit :: later) after

namespace Wires

theorem run_eq (wires : Wires low graph front after) : graph.run front = after := by
  induction wires with
  | done => rfl
  | edit _ _ ih => exact ih

theorem append (wires : Wires low graph front middle) (later : Wires low middle back after) :
    Wires low graph (front ++ back) after := by
  induction wires with
  | done => exact later
  | edit fits _ ih => exact .edit fits (ih later)

theorem split (wires : Wires low graph (front ++ back) after) :
    Wires low graph front (graph.run front) ∧ Wires low (graph.run front) back after := by
  induction front generalizing graph with
  | nil => exact ⟨.done graph, wires⟩
  | cons edit front ih =>
      cases wires with
      | edit fits rest => exact ⟨.edit fits (ih rest).1, (ih rest).2⟩

theorem size_le (wires : Wires low graph front after) : graph.size ≤ after.size := by
  induction wires with
  | done => exact Nat.le_refl _
  | @edit graph _ edit _ _ _ ih => exact Nat.le_trans (size_le_apply graph edit) ih

end Wires

theorem wires_addEnds (graph : Graph) : Wires low graph [.node, .node] graph.addEnds.1 :=
  .edit fits_node (.edit fits_node (.done _))

def Bare (graph : Graph) (id : Nat) : Prop := ∀ label target, ¬ graph.Edge id label target

def Silent (graph : Graph) (id : Nat) : Prop :=
  ∀ label target, graph.Edge id label target → label = none

theorem Bare.silent {id : Nat} (bare : graph.Bare id) : graph.Silent id :=
  fun label target edge => absurd edge (bare label target)

theorem bare_size (graph : Graph) : graph.addEnds.1.Bare graph.size := by
  intro label target edge
  exact absurd (edge_addEnds.mp edge).inside (Nat.lt_irrefl _)

structure MayLink (low : Nat) (graph : Graph) (source target : Nat) : Prop where
  silent : graph.Silent source
  origin : Within low graph source
  goal : Within low graph target

theorem MayLink.addEpsilon {first second : Nat} (link : MayLink low graph source target)
    (inside : first < graph.size) : MayLink low (graph.addEpsilon first second) source target := by
  refine ⟨?_, ?_, ?_⟩
  · intro label target edge
    obtain old | ⟨-, same, -⟩ := (edge_addEpsilon inside).mp edge
    · exact link.silent label target old
    · exact same
  · simpa [Within] using link.origin
  · simpa [Within] using link.goal

theorem wires_links (links : List (Nat × Nat))
    (may : links.Forall fun link => MayLink low graph link.1 link.2) :
    Wires low graph (links.map fun link => .epsilon link.1 link.2)
      (links.foldl (fun graph link => graph.addEpsilon link.1 link.2) graph) := by
  induction links generalizing graph with
  | nil => exact .done graph
  | cons link links ih =>
      obtain ⟨first, others⟩ := (List.forall_cons _ _ _).mp may
      have room : Room low graph link.1 none link.2 :=
        ⟨first.origin, first.goal, fun other next edge => ⟨rfl, first.silent other next edge⟩⟩
      apply Wires.edit (fits_epsilon room)
      apply ih
      exact others.imp fun _ other => other.addEpsilon first.origin.2

section Part

variable {language : Language Char} {part : Fragment} (laid : Lays graph middle part language)
  (below : low ≤ graph.size)

include laid below

theorem within_entry : Within low middle part.entry :=
  ⟨Nat.le_trans below laid.entry.1, laid.entry.2⟩

theorem within_accept : Within low middle part.accept :=
  ⟨Nat.le_trans below laid.accept.1, laid.accept.2⟩

theorem loopEdits_wires : Wires low middle
    [.node, .node, .epsilon middle.size part.entry, .epsilon middle.size (middle.size + 1),
      .epsilon part.accept part.entry, .epsilon part.accept (middle.size + 1)]
    ((((middle.addEnds.1.addEpsilon middle.size part.entry).addEpsilon
      middle.size (middle.size + 1)).addEpsilon part.accept part.entry).addEpsilon
        part.accept (middle.size + 1)) := by
  have size := size_addEnds middle
  have grown := laid.grows.size_le
  obtain ⟨entryLow, entryInside⟩ := within_entry laid below
  obtain ⟨acceptLow, acceptInside⟩ := within_accept laid below
  have entry : Within low middle.addEnds.1 part.entry := ⟨entryLow, by omega⟩
  have accept : Within low middle.addEnds.1 part.accept := ⟨acceptLow, by omega⟩
  have first : Within low middle.addEnds.1 middle.size := ⟨by omega, by omega⟩
  have second : Within low middle.addEnds.1 (middle.size + 1) := ⟨by omega, by omega⟩
  have start : middle.addEnds.1.Silent middle.size := (bare_size middle).silent
  have ending : middle.addEnds.1.Silent part.accept := fun label target edge =>
    absurd (edge_addEnds.mp edge) (laid.final label target)
  exact (wires_addEnds middle).append (wires_links
    [(middle.size, part.entry), (middle.size, middle.size + 1), (part.accept, part.entry),
      (part.accept, middle.size + 1)]
    ⟨⟨start, first, entry⟩, ⟨start, first, second⟩, ⟨ending, accept, entry⟩,
      ⟨ending, accept, second⟩⟩)

end Part

mutual

theorem patternEdits_wires (graph : Graph) (low : Nat) (below : low ≤ graph.size) :
    (pattern : Pattern) → Wires low graph (graph.patternEdits pattern) (graph.addPattern pattern).1
  | .symbol char => by
      have size := size_addEnds graph
      have room : Room low graph.addEnds.1 graph.size (some char) (graph.size + 1) := by
        refine ⟨⟨below, by omega⟩, ⟨by omega, by omega⟩, fun other next edge => ?_⟩
        exact absurd edge (bare_size graph other next)
      simp only [patternEdits, addPattern, ends_addEnds]
      exact (wires_addEnds graph).append (.edit (fits_transition room) (.done _))
  | .nothing => by
      have size := size_addEnds graph
      have link : MayLink low graph.addEnds.1 graph.size (graph.size + 1) :=
        ⟨(bare_size graph).silent, ⟨below, by omega⟩, ⟨by omega, by omega⟩⟩
      simp only [patternEdits, addPattern, ends_addEnds]
      exact (wires_addEnds graph).append (wires_links [(graph.size, graph.size + 1)] link)
  | .star inner => by
      have laid := addPattern_lays graph inner
      have wires := patternEdits_wires graph low below inner
      simp only [patternEdits, addPattern, ends_addEnds]
      exact wires.append (loopEdits_wires laid below)
  | .sequence items => by
      have size := size_addEnds graph
      have chain := addItems_chains _ _ (by omega) (bare_size graph) items
      have wires := itemsEdits_wires _ low _ ⟨below, by omega⟩ (bare_size graph) items
      have grown := wires.size_le
      have link : MayLink low (graph.addEnds.1.addItems graph.size items).1
          (graph.addEnds.1.addItems graph.size items).2 (graph.size + 1) := by
        have place := chain.last_apart.1
        exact ⟨fun label target edge => absurd edge (chain.final label target),
          ⟨by omega, chain.last_inside⟩, ⟨by omega, by omega⟩⟩
      simp only [patternEdits, addPattern, ends_addEnds]
      exact ((wires_addEnds graph).append wires).append (wires_links [(_, graph.size + 1)] link)
  | .choice alternatives => by
      have acceptLow : low ≤ graph.addEnds.2.accept := by
        rw [accept_addEnds]
        omega
      have wires := choicesEdits_wires _ low _ (forkable_addEnds graph) below acceptLow
        (bare_size graph).silent alternatives
      simp only [patternEdits, addPattern]
      exact (wires_addEnds graph).append wires

theorem itemsEdits_wires (graph : Graph) (low last : Nat) (inside : Within low graph last)
    (bare : graph.Bare last) : (items : List Pattern) →
    Wires low graph (graph.itemsEdits last items) (graph.addItems last items).1
  | [] => .done graph
  | item :: rest => by
      have laid := addPattern_lays graph item
      have below : low ≤ graph.size := Nat.le_of_lt (Nat.lt_of_le_of_lt inside.1 inside.2)
      have wires := patternEdits_wires graph low below item
      have lastInside := Nat.lt_of_lt_of_le inside.2 wires.size_le
      have lastBare : (graph.addPattern item).1.Bare last := fun label target edge =>
        bare label target ((laid.grows.kept _ _ _ inside.2 id).mp edge)
      have acceptBare : ((graph.addPattern item).1.addEpsilon last
          (graph.addPattern item).2.entry).Bare (graph.addPattern item).2.accept := by
        intro label target edge
        obtain inner | ⟨same, -⟩ := (edge_addEpsilon lastInside).mp edge
        · exact laid.final label target inner
        · have := laid.accept.1
          have := inside.2
          omega
      have link : MayLink low (graph.addPattern item).1 last (graph.addPattern item).2.entry :=
        ⟨lastBare.silent, ⟨inside.1, lastInside⟩, within_entry laid below⟩
      have accept : Within low ((graph.addPattern item).1.addEpsilon last
          (graph.addPattern item).2.entry) (graph.addPattern item).2.accept := by
        simpa [Within] using within_accept laid below
      simp only [itemsEdits, addItems]
      exact wires.append ((wires_links [(last, (graph.addPattern item).2.entry)] link).append
        (itemsEdits_wires _ low _ accept acceptBare rest))

theorem choicesEdits_wires (graph : Graph) (low : Nat) (ends : Fragment)
    (fork : Forkable graph ends) (entryLow : low ≤ ends.entry) (acceptLow : low ≤ ends.accept)
    (silent : graph.Silent ends.entry) : (alternatives : List Pattern) →
    Wires low graph (graph.choicesEdits ends alternatives) (graph.addChoices ends alternatives)
  | [] => .done graph
  | alternative :: rest => by
      have laid := addPattern_lays graph alternative
      have below : low ≤ graph.size := Nat.le_of_lt (Nat.lt_of_le_of_lt entryLow fork.entry)
      have wires := patternEdits_wires graph low below alternative
      have entryInside := Nat.lt_of_lt_of_le fork.entry wires.size_le
      have acceptInside := Nat.lt_of_lt_of_le fork.accept wires.size_le
      have links := linksPart_addEpsilon entryInside laid.accept.2
      have opening : MayLink low (graph.addPattern alternative).1 ends.entry
          (graph.addPattern alternative).2.entry := by
        refine ⟨fun label target edge => ?_, ⟨entryLow, entryInside⟩, within_entry laid below⟩
        exact silent label target ((laid.grows.kept _ _ _ fork.entry id).mp edge)
      have closing : MayLink low (graph.addPattern alternative).1
          (graph.addPattern alternative).2.accept ends.accept :=
        ⟨fun label target edge => absurd edge (laid.final label target),
          within_accept laid below, ⟨acceptLow, acceptInside⟩⟩
      have others := choicesEdits_wires _ low _ (links.forkable laid fork) entryLow acceptLow
        (fun label target edge => ((links.edges _ _ _).mp edge).elim
          (opening.silent label target) And.left) rest
      simp only [choicesEdits, addChoices]
      exact wires.append
        ((wires_links [(ends.entry, _), (_, ends.accept)] ⟨opening, closing⟩).append others)

end

theorem chainEdits_wires (graph : Graph) (low : Nat) (below : low ≤ graph.size)
    (items : List Pattern) :
    Wires low graph (graph.chainEdits items) (graph.addEnds.1.addItems graph.size items).1 := by
  have size := size_addEnds graph
  have inside : Within low graph.addEnds.1 graph.size := ⟨below, by omega⟩
  exact (wires_addEnds graph).append (itemsEdits_wires _ low _ inside (bare_size graph) items)

theorem draftEdits_wires (graph : Graph) (draft : Draft) :
    Wires graph.size graph (graph.draftEdits draft) (graph.addDraft draft) := by
  rw [draftEdits, addDraft]
  split
  case isTrue =>
    have choices := patternEdits_wires graph _ (Nat.le_refl _) (.choice draft.choices)
    exact choices.append (chainEdits_wires _ _ choices.size_le draft.items)
  case isFalse => exact chainEdits_wires graph _ (Nat.le_refl _) draft.items

/-- A compilation carries out its edits, with nodes of its own. -/
theorem edits_wires (graph : Graph) (text : String) :
    Wires graph.size graph (graph.edits text) (graph.compile text).1 := by
  rw [edits, compile]
  cases graph.definitions.substitute text with
  | error fault => exact .done graph
  | ok normalized =>
      dsimp only
      cases Pattern.read normalized with
      | error draft => exact draftEdits_wires graph draft
      | ok pattern => exact patternEdits_wires graph _ (Nat.le_refl _) pattern

end Graph

end MaximalMunch
