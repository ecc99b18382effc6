import MaximalMunch.Proofs.DrawnGraphs
import MaximalMunch.Proofs.OrderedLists
import MaximalMunch.Proofs.SimulationPaths

/-!
The search behind the active nodes of a simulation. Nodes are noted as they are found, and a stack
holds those whose silent edges are still to be followed. In every graph the search ends, after one
round for each node it finds, and in whatever order it is given its seeds it finds the same.
-/

namespace MaximalMunch

namespace OrderedSet

theorem eq_of_mem_iff {first second : OrderedSet Nat}
    (same : ∀ element, element ∈ first ↔ element ∈ second) : first = second :=
  eq_of_elements (first.ascending.eq_of_mem_iff second.ascending same)

theorem size_insert {set : OrderedSet Nat} {element : Nat} (fresh : element ∉ set) :
    (set.insert element).size = set.size + 1 := by
  have nodup : ∀ other : OrderedSet Nat, other.elements.Nodup :=
    fun other => other.ascending.imp Nat.ne_of_lt
  have new : element ∉ set.elements := fresh
  have listed : (set.insert element).elements.Perm (element :: set.elements) := by
    refine (List.perm_ext_iff_of_nodup (nodup _) (List.nodup_cons.mpr ⟨new, nodup set⟩)).mpr ?_
    intro other
    exact mem_insertElement.trans List.mem_cons.symm
  exact listed.length_eq

end OrderedSet

/-- The nodes found so far and, on the stack, those whose edges are still to be followed. -/
structure Search where
  found : OrderedSet Nat := ∅
  stack : List Nat := []

namespace Search

def note (search : Search) (id : Nat) : Search :=
  if id ∈ search.found then search else ⟨search.found.insert id, id :: search.stack⟩

def noteAll (search : Search) (ids : List Nat) : Search := ids.foldl note search

/-- Each round takes the node on top of the stack and notes where its silent edges lead. -/
inductive Ends (graph : Graph) : Search → Nat → OrderedSet Nat → Prop
  | done (found : OrderedSet Nat) : Ends graph ⟨found, []⟩ 0 found
  | round {found final : OrderedSet Nat} {id rounds : Nat} {stack : List Nat}
      (later : Ends graph (noteAll ⟨found, stack⟩ (graph.epsilonTargets id)) rounds final) :
      Ends graph ⟨found, id :: stack⟩ (rounds + 1) final

variable {graph : Graph} {search : Search} {found final : OrderedSet Nat}
  {id target rounds : Nat} {ids seeds stack : List Nat}

theorem noteAll_cons : search.noteAll (id :: ids) = (search.note id).noteAll ids := rfl

@[simp]
theorem mem_found_note : target ∈ (search.note id).found ↔ target ∈ search.found ∨ target = id := by
  rw [note]
  split
  case isTrue old => exact (or_iff_left_of_imp fun same => same ▸ old).symm
  case isFalse => exact OrderedSet.mem_insert.trans or_comm

@[simp]
theorem mem_found_noteAll :
    target ∈ (search.noteAll ids).found ↔ target ∈ search.found ∨ target ∈ ids := by
  induction ids generalizing search with
  | nil => simp [noteAll]
  | cons id ids ih => rw [noteAll_cons, ih, mem_found_note, List.mem_cons, or_assoc]

theorem mem_stack_noteAll : target ∈ (search.noteAll ids).stack ↔
    target ∈ search.stack ∨ target ∈ ids ∧ target ∉ search.found := by
  induction ids generalizing search with
  | nil => simp [noteAll]
  | cons id ids ih =>
      rw [noteAll_cons, ih, mem_found_note, note]
      by_cases old : id ∈ search.found <;> by_cases same : target = id <;> simp [old, same]

theorem size_noteAll (search : Search) (ids : List Nat) :
    (search.noteAll ids).found.size + search.stack.length =
      search.found.size + (search.noteAll ids).stack.length := by
  induction ids generalizing search with
  | nil => rfl
  | cons id ids ih =>
      have noted : (search.note id).found.size + search.stack.length =
          search.found.size + (search.note id).stack.length := by
        rw [note]
        split
        case isTrue => rfl
        case isFalse fresh =>
          rw [OrderedSet.size_insert fresh, List.length_cons, Nat.add_right_comm, Nat.add_assoc]
      have later := ih (search.note id)
      rw [noteAll_cons]
      omega

def silentTargets (graph : Graph) : Finset Nat :=
  (Finset.range graph.size).biUnion fun id => (graph.epsilonTargets id).toFinset

theorem mem_silentTargets (edge : target ∈ graph.epsilonTargets id) :
    target ∈ silentTargets graph := by
  have silent : graph.Edge id none target := edge
  exact Finset.mem_biUnion.mpr
    ⟨id, Finset.mem_range.mpr silent.inside, List.mem_toFinset.mpr edge⟩

/-- The rounds there can still be: the stack, and what silent edges lead to and is not found. -/
def ahead (graph : Graph) (search : Search) : Nat :=
  ((silentTargets graph).filter (· ∉ search.found)).card + search.stack.length

theorem ahead_note (silent : id ∈ silentTargets graph) :
    (search.note id).ahead graph = search.ahead graph := by
  rw [note]
  split
  case isTrue => rfl
  case isFalse fresh =>
    have unfound : id ∈ (silentTargets graph).filter (· ∉ search.found) :=
      Finset.mem_filter.mpr ⟨silent, fresh⟩
    have fewer : (silentTargets graph).filter (· ∉ search.found.insert id) =
        ((silentTargets graph).filter (· ∉ search.found)).erase id := by
      ext other
      simp only [Finset.mem_filter, Finset.mem_erase, OrderedSet.mem_insert, not_or]
      exact and_left_comm
    have positive : 0 < ((silentTargets graph).filter (· ∉ search.found)).card :=
      Finset.card_pos.mpr ⟨id, unfound⟩
    simp only [ahead, fewer, Finset.card_erase_of_mem unfound, List.length_cons]
    omega

theorem ahead_noteAll (silent : ∀ id ∈ ids, id ∈ silentTargets graph) :
    (search.noteAll ids).ahead graph = search.ahead graph := by
  induction ids generalizing search with
  | nil => rfl
  | cons id ids ih =>
      rw [noteAll_cons, ih fun other member => silent other (List.mem_cons_of_mem _ member)]
      exact ahead_note (silent id List.mem_cons_self)

theorem ahead_round : (noteAll ⟨found, stack⟩ (graph.epsilonTargets id)).ahead graph <
    ahead graph ⟨found, id :: stack⟩ := by
  rw [ahead_noteAll fun _ edge => mem_silentTargets edge]
  simp [ahead]

theorem exists_ends (graph : Graph) (search : Search) :
    ∃ rounds final, search.Ends graph rounds final := by
  induction bound : search.ahead graph using Nat.strong_induction_on generalizing search with
  | _ bound ih =>
      obtain ⟨found, stack⟩ := search
      cases stack with
      | nil => exact ⟨0, found, .done found⟩
      | cons id stack =>
          obtain ⟨rounds, final, ends⟩ := ih _ (bound ▸ ahead_round) _ rfl
          exact ⟨rounds + 1, final, .round ends⟩

/-- Each round takes one node off the stack, so each node found costs one round. -/
theorem Ends.rounds_add (ends : search.Ends graph rounds final) :
    rounds + search.found.size = final.size + search.stack.length := by
  induction ends with
  | done found => exact Nat.add_comm _ _
  | @round found final id rounds stack later ih =>
      have balance := size_noteAll ⟨found, stack⟩ (graph.epsilonTargets id)
      simp only [List.length_cons] at ih balance ⊢
      omega

structure Follows (graph : Graph) (seeds : List Nat) (search : Search) : Prop where
  started : ∀ seed ∈ seeds, seed ∈ search.found
  reached : ∀ id ∈ search.found, ∃ seed ∈ seeds, graph.Path seed [] id
  listed : ∀ id ∈ search.stack, id ∈ search.found
  followed : ∀ id ∈ search.found, id ∉ search.stack →
    ∀ target, graph.Edge id none target → target ∈ search.found

theorem Follows.start : Follows graph seeds (noteAll {} seeds) := by
  have empty : ∀ id, id ∉ ({} : Search).found := fun _ => List.not_mem_nil
  have found : ∀ id, id ∈ (noteAll {} seeds).found ↔ id ∈ seeds := by
    intro id
    simp [empty]
  have waiting : ∀ id, id ∈ (noteAll {} seeds).stack ↔ id ∈ seeds := by
    intro id
    simp [mem_stack_noteAll, empty]
  constructor
  case started => exact fun seed member => (found seed).mpr member
  case reached => exact fun id member => ⟨id, (found id).mp member, .here id⟩
  case listed => exact fun id member => (found id).mpr ((waiting id).mp member)
  case followed => exact fun id member left => absurd ((waiting id).mpr ((found id).mp member)) left

theorem Follows.round (follows : Follows graph seeds ⟨found, id :: stack⟩) :
    Follows graph seeds (noteAll ⟨found, stack⟩ (graph.epsilonTargets id)) := by
  have here : id ∈ found := follows.listed id List.mem_cons_self
  constructor
  case started =>
    intro seed member
    exact mem_found_noteAll.mpr (.inl (follows.started seed member))
  case reached =>
    intro next member
    obtain old | edge := mem_found_noteAll.mp member
    · exact follows.reached next old
    · obtain ⟨seed, start, path⟩ := follows.reached id here
      have silent : graph.Edge id none next := edge
      exact ⟨seed, start, path.trans (.edge silent)⟩
  case listed =>
    intro next member
    apply mem_found_noteAll.mpr
    obtain waiting | ⟨edge, -⟩ := mem_stack_noteAll.mp member
    · exact .inl (follows.listed next (List.mem_cons_of_mem _ waiting))
    · exact .inr edge
  case followed =>
    intro next member left target edge
    apply mem_found_noteAll.mpr
    by_cases same : next = id
    · subst same
      exact .inr edge
    · have noted : next ∈ found := by
        by_contra fresh
        have edge := (mem_found_noteAll.mp member).resolve_left fresh
        exact left (mem_stack_noteAll.mpr (.inr ⟨edge, fresh⟩))
      have waited : next ∉ id :: stack := by
        intro waiting
        have below := (List.mem_cons.mp waiting).resolve_left same
        exact left (mem_stack_noteAll.mpr (.inl below))
      exact .inl (follows.followed next noted waited target edge)

theorem Ends.follows (ends : search.Ends graph rounds final)
    (follows : Follows graph seeds search) : Follows graph seeds ⟨final, []⟩ := by
  induction ends with
  | done => exact follows
  | round _ ih => exact ih follows.round

theorem Follows.mem_iff (follows : Follows graph seeds ⟨found, []⟩) :
    target ∈ found ↔ ∃ seed ∈ seeds, graph.Path seed [] target := by
  constructor
  · exact follows.reached target
  · rintro ⟨seed, start, path⟩
    have settled : graph.Settled found [] := fun source member target edge =>
      .inl (follows.followed source member List.not_mem_nil target edge)
    exact path.mem_of_settled rfl settled (follows.started seed start)

end Search

namespace Graph

variable {graph : Graph} {seeds : List Nat} {rounds : Nat} {found : OrderedSet Nat}

/-- The search from `seeds` ends after so many rounds, and `found` is what it has found. -/
def Closes (graph : Graph) (seeds : List Nat) (rounds : Nat) (found : OrderedSet Nat) : Prop :=
  (Search.noteAll {} seeds).Ends graph rounds found

theorem Closes.eq_closure (closes : graph.Closes seeds rounds found) :
    found = graph.closure seeds := by
  apply OrderedSet.eq_of_mem_iff
  intro target
  rw [(Search.Ends.follows closes .start).mem_iff, mem_closure]

theorem closes_iff :
    graph.Closes seeds rounds found ↔ found = graph.closure seeds ∧ rounds = found.size := by
  have counted : ∀ {rounds found}, graph.Closes seeds rounds found → rounds = found.size := by
    intro rounds found closes
    have total := closes.rounds_add
    have started := Search.size_noteAll {} seeds
    simp only [List.length_nil] at started
    have none : (∅ : OrderedSet Nat).size = 0 := rfl
    omega
  constructor
  · exact fun closes => ⟨closes.eq_closure, counted closes⟩
  · rintro ⟨rfl, rfl⟩
    obtain ⟨rounds, found, closes⟩ := Search.exists_ends graph (Search.noteAll {} seeds)
    have same := Closes.eq_closure closes
    subst same
    exact counted closes ▸ closes

theorem closure_perm {other : List Nat} (perm : other.Perm seeds) :
    graph.closure other = graph.closure seeds := by
  apply OrderedSet.eq_of_mem_iff
  intro target
  simp only [mem_closure, perm.mem_iff]

end Graph

namespace Simulation

variable {graph : Graph} {before simulation last : Simulation} {word : List Char}

/-- Each character is looked up at the active nodes, listed in any order. -/
inductive Reads (graph : Graph) : Simulation → List Char → Simulation → Prop
  | done (simulation : Simulation) : Reads graph simulation [] simulation
  | char {simulation last : Simulation} {char : Char} {word : List Char} {order : List Nat}
      {rounds : Nat} {active : OrderedSet Nat} (listed : order.Perm simulation.active.elements)
      (closes : graph.Closes (order.filterMap fun id => graph.target? id char) rounds active)
      (later : Reads graph { simulation with active } word last) :
      Reads graph simulation (char :: word) last

theorem reads_iff : Reads graph simulation word last ↔ last = simulation.run graph word := by
  constructor
  · intro reads
    induction reads with
    | done => rfl
    | @char simulation last char word order rounds active listed closes later ih =>
        have next : ({ simulation with active } : Simulation) = simulation.step graph char := by
          rw [closes.eq_closure, Graph.closure_perm (listed.filterMap _)]
          rfl
        rw [ih, next]
        rfl
  · rintro rfl
    induction word generalizing simulation with
    | nil => exact .done simulation
    | cons char word ih =>
        have later : Reads graph (simulation.step graph char) word
            ((simulation.step graph char).run graph word) := ih
        exact .char (.refl _) (Graph.closes_iff.mpr ⟨rfl, rfl⟩) later

/-- A word is read from the start, whatever was active before. -/
def Restarts (graph : Graph) (before : Simulation) (word : List Char) (last : Simulation) : Prop :=
  ∃ rounds active, graph.Closes [before.fragment.entry] rounds active ∧
    Reads graph { before with active } word last

theorem restarts_iff :
    Restarts graph before word last ↔ last = (before.reset graph).run graph word := by
  have start : ∀ active, active = graph.closure [before.fragment.entry] →
      ({ before with active } : Simulation) = before.reset graph := by
    rintro active rfl
    rfl
  constructor
  · rintro ⟨rounds, active, closes, reads⟩
    rw [← start active closes.eq_closure]
    exact reads_iff.mp reads
  · rintro rfl
    exact ⟨_, _, Graph.closes_iff.mpr ⟨rfl, rfl⟩, reads_iff.mpr rfl⟩

theorem isAccepting_iff_path : ((before.reset graph).run graph word).isAccepting ↔
    graph.Path before.fragment.entry word before.fragment.accept := by
  rw [isAccepting, decide_eq_true_iff, fragment_run]
  exact mem_run_start before.fragment

theorem isDead_iff_no_path : ((before.reset graph).run graph word).isDead ↔
    ∀ target, ¬ graph.Path before.fragment.entry word target := by
  rw [isDead, OrderedSet.isEmpty, List.isEmpty_iff, List.eq_nil_iff_forall_not_mem]
  exact forall_congr' fun target => not_congr (mem_run_start before.fragment)

/--
The nodes that are active after a word are those that paths from the entry lead to by spelling the
word, in any graph that edits make. What was active before, and the order in which the active nodes
are looked up, have no say in this; each search ends; and giving up on a dead simulation does not
change the answer.
-/
theorem active_iff_path (definitions : DefinitionTable) (edits : List Graph.Edit)
    (before : Simulation) (word : List Char) :
    let graph := Graph.run { definitions := definitions } edits
    let last := (before.reset graph).run graph word
    (∀ source label target,
      graph.Edge source label target ↔ Graph.Draws edits source label target) ∧
    (∀ source, ¬ graph.contains source → ∀ label target, ¬ graph.Edge source label target) ∧
    (∀ seeds rounds found, graph.Closes seeds rounds found ↔
      found = graph.closure seeds ∧ rounds = found.size) ∧
    (∀ other, Restarts graph before word other ↔ other = last) ∧
    (∀ target, target ∈ last.active ↔ graph.Path before.fragment.entry word target) ∧
    (last.isAccepting ↔ before.fragment.accept ∈ last.active) ∧
    (last.isDead ↔ ∀ target, target ∉ last.active) ∧
    (last.isDead → ∀ more other, Reads graph last more other → other.isDead) ∧
    before.fragment.accepts graph word = last.isAccepting := by
  intro graph last
  have reached : ∀ target, target ∈ last.active ↔ graph.Path before.fragment.entry word target :=
    fun target => mem_run_start before.fragment
  refine ⟨?edges, ?outside, ?closes, ?restarts, reached, ?accepting, ?dead, ?stays, ?answer⟩
  case edges => exact fun source label target => Graph.edge_run_iff
  case outside =>
    intro source outside label target edge
    exact outside (decide_eq_true edge.inside)
  case closes => exact fun seeds rounds found => Graph.closes_iff
  case restarts => exact fun other => restarts_iff
  case accepting => exact isAccepting_iff_path.trans (reached _).symm
  case dead =>
    exact isDead_iff_no_path.trans (forall_congr' fun target => not_congr (reached target).symm)
  case stays =>
    intro dead more other reads
    rw [reads_iff.mp reads]
    exact isDead_run graph dead more
  case answer => exact Fragment.accepts_eq_isAccepting_run graph before.fragment word

theorem active_iff_path_unissued :
    let graph := Graph.run {} [.node, .epsilon 0 0, .transition 0 'a' 7, .epsilon 7 0]
    let before : Simulation := ⟨⟨0, 7⟩, ∅⟩
    7 ∈ ((before.reset graph).run graph ['a']).active ∧
      ((before.reset graph).run graph ['a']).isAccepting ∧
        ∀ label target, ¬ graph.Edge 7 label target := by
  intro graph before
  have reads : graph.Edge 0 (some 'a') 7 := rfl
  obtain ⟨-, outside, -, -, active, accepting, -⟩ := active_iff_path {}
    [.node, .epsilon 0 0, .transition 0 'a' 7, .epsilon 7 0] before ['a']
  have member := (active 7).mpr (.step reads (.here 7))
  exact ⟨member, accepting.mpr member, outside 7 (by decide)⟩

end Simulation

end MaximalMunch
