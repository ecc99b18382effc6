import MaximalMunch.Proofs.FragmentLanguage
import MaximalMunch.Proofs.PositionalReferences

/-!
Patterns laid out straight from their text. A slice of the text is cut into choices, a choice is
gone over from one item to the next, and a group is laid out from the slice between its
parentheses. Every access to the text and to the graph is checked, and every item is noted where
it starts.
-/

namespace MaximalMunch

namespace Positional

/-- Where an item starts: a place in a slice, which has its own place in the whole text. -/
structure Start where
  base : Nat
  slice : List Char
  place : Nat
  deriving DecidableEq, Repr

def Start.position (start : Start) : Nat := start.base + start.place

structure Work where
  graph : Graph
  starts : List Start := []
  deriving DecidableEq, Repr

/-- A fault of the text ends the run, and leaves the work as it stands. -/
abbrev Lay := ExceptT (Nat × FaultKind) (StateT Work (Except Stumble))

def note (start : Start) : Lay Unit :=
  modify fun work => { work with starts := start :: work.starts }

def addEnds : Lay Fragment :=
  modifyGet fun work => (work.graph.addEnds.2, { work with graph := work.graph.addEnds.1 })

def addEdge (source : Nat) (add : Graph → Graph) : Lay Unit := do
  let work ← get
  if work.graph.contains source then set { work with graph := add work.graph }
  else throwThe Stumble (.noNode source)

def link (source target : Nat) : Lay Unit :=
  addEdge source fun graph => graph.addEpsilon source target

def symbol (char : Char) : Lay Fragment := do
  let ends ← addEnds
  addEdge ends.entry fun graph => graph.addTransition ends.entry char ends.accept
  return ends

def nothing : Lay Fragment := do
  let ends ← addEnds
  link ends.entry ends.accept
  return ends

def star (inner : Fragment) : Lay Fragment := do
  let ends ← addEnds
  link ends.entry inner.entry
  link ends.entry ends.accept
  link inner.accept inner.entry
  link inner.accept ends.accept
  return ends

/-- Puts a star around what ends at a place, if one stands right behind it. -/
def starred (text : List Char) (inner : Fragment) (stop : Nat) : Lay (Fragment × Nat) := do
  if text[stop + 1]? = some '*' then return (← star inner, stop + 1) else return (inner, stop)

/-- A slice that is shorter than its text, so that a call on it comes to its end. -/
def portion (text : List Char) (start stop : Nat) :
    Except Stumble {part : List Char // part.length < text.length} := do
  let part ← slice text start stop
  if shorter : part.length < text.length then return ⟨part, shorter⟩
  else throw (.endless start)

mutual

/-- `base` is the place of the text in the whole text; only positions of faults depend on it. -/
def choices (text : List Char) (base : Nat) : Lay Fragment := do
  let ranges ← splitChoices text
  if ranges.length = 1 then sequence text base
  else
    let ends ← addEnds
    alternatives text base ends ranges
    return ends
termination_by (text.length, 3, 0)

def alternatives (text : List Char) (base : Nat) (ends : Fragment) :
    List (Nat × Nat) → Lay Unit
  | [] => return
  | (start, stop) :: later => do
    let part ← portion text start stop
    let inner ← choices part (base + start)
    link ends.entry inner.entry
    link inner.accept ends.accept
    alternatives text base ends later
termination_by ranges => (text.length, 2, ranges.length)
decreasing_by
  · exact Prod.Lex.left _ _ part.2
  · exact Prod.Lex.right _ (Prod.Lex.right _ (Nat.lt_succ_self _))

def sequence (text : List Char) (base : Nat) : Lay Fragment := do
  let ends ← addEnds
  let last ← items text base 0 ends.entry
  link last ends.accept
  return ends
termination_by (text.length, 2, 0)

def items (text : List Char) (base place last : Nat) : Lay Nat := do
  if place < text.length then
    let (inner, stop) ← atom text base place
    let (part, stop) ← starred text inner stop
    link last part.entry
    let next ← ahead place (stop + 1)
    items text base next part.accept
  else return last
termination_by (text.length, 1, text.length - place)
decreasing_by
  · exact Prod.Lex.right _ (Prod.Lex.left _ _ Nat.one_pos)
  · exact Prod.Lex.right _ (Prod.Lex.right _ (Nat.sub_lt_sub_left ‹_› next.2))

/-- Lays out the atom at a place, and tells where its last character is. -/
def atom (text : List Char) (base place : Nat) : Lay (Fragment × Nat) := do
  note ⟨base, text, place⟩
  match ← charAt text place with
  | '\\' =>
    match text[place + 1]? with
    | none => throw (base + place, .danglingEscape)
    | some char => return (← symbol (Glyph.unescape char), place + 1)
  | '(' =>
    match ← findClosing .round text place with
    | none => throw (base + place, .unclosedGroup)
    | some close =>
      let inside ← portion text (place + 1) close
      return (← choices inside (base + place + 1), close)
  | ')' => throw (base + place, .unmatchedParen)
  | '$' => return (← nothing, place)
  | char => return (← symbol char, place)
termination_by (text.length, 0, 0)
decreasing_by exact Prod.Lex.left _ _ inside.2

end

structure Compiled where
  graph : Graph
  result : Except PatternError Fragment
  starts : List Start

def compile (graph : Graph) (text : String) : Except Stumble Compiled :=
  match (substitute graph.definitions text).run with
  | .error fault => .ok ⟨graph, .error fault, []⟩
  | .ok (.error stumble) => .error stumble
  | .ok (.ok normalized) => do
    let (laid, work) ← (choices normalized.toList 0).run.run ⟨graph, []⟩
    let result := laid.mapError fun fault => .malformed normalized fault.1 fault.2
    return ⟨work.graph, result, work.starts⟩

/-- The run comes to an end, be it with a fault of the text. -/
def Runs {α : Type} (run : Lay α) (work : Work) (outcome : Except (Nat × FaultKind) α)
    (later : Work) : Prop :=
  run.run.run work = .ok (outcome, later)

namespace Runs

variable {α β : Type} {first : Lay α} {next : α → Lay β} {work middle later : Work} {value : α}
  {outcome : Except (Nat × FaultKind) β} {fault : Nat × FaultKind}

theorem pure (value : α) (work : Work) : Runs (pure value) work (.ok value) work := rfl

theorem throw (fault : Nat × FaultKind) (work : Work) :
    Runs (throw fault : Lay α) work (.error fault) work := rfl

theorem bind (runs : Runs first work (.ok value) middle)
    (onward : Runs (next value) middle outcome later) :
    Runs (first >>= next) work outcome later := by
  unfold Runs at runs onward ⊢
  rw [ExceptT.run_bind, StateT.run_bind, runs]
  exact onward

theorem stop (runs : Runs first work (.error fault) later) :
    Runs (first >>= next) work (.error fault) later := by
  unfold Runs at runs ⊢
  rw [ExceptT.run_bind, StateT.run_bind, runs]
  rfl

theorem access {checked : Except Stumble α} (found : checked = .ok value)
    (onward : Runs (next value) work outcome later) :
    Runs (liftM checked >>= next) work outcome later := by
  have runs : Runs (liftM checked) work (.ok value) work := by
    rw [found]
    rfl
  exact runs.bind onward

end Runs

variable {work : Work} {source : Nat}

theorem runs_note (start : Start) (work : Work) :
    Runs (note start) work (.ok ()) { work with starts := start :: work.starts } := rfl

theorem runs_addEnds (work : Work) :
    Runs addEnds work (.ok work.graph.addEnds.2) { work with graph := work.graph.addEnds.1 } := rfl

theorem runs_addEdge (issued : source < work.graph.size) (add : Graph → Graph) :
    Runs (addEdge source add) work (.ok ()) { work with graph := add work.graph } := by
  have contained : work.graph.contains source = true := decide_eq_true issued
  have found : Runs (get : Lay Work) work (.ok work) work := rfl
  apply found.bind
  rw [if_pos contained]
  rfl

theorem runs_link (issued : source < work.graph.size) (target : Nat) :
    Runs (link source target) work (.ok ())
      { work with graph := work.graph.addEpsilon source target } :=
  runs_addEdge issued _

theorem entry_lt_addEnds (graph : Graph) : graph.addEnds.2.entry < graph.addEnds.1.size := by
  simp

theorem runs_symbol (char : Char) (work : Work) :
    Runs (symbol char) work (.ok (work.graph.addPattern (.symbol char)).2)
      { work with graph := (work.graph.addPattern (.symbol char)).1 } := by
  apply (runs_addEnds work).bind
  exact (runs_addEdge (entry_lt_addEnds work.graph) _).bind (.pure _ _)

theorem runs_nothing (work : Work) :
    Runs nothing work (.ok (work.graph.addPattern .nothing).2)
      { work with graph := (work.graph.addPattern .nothing).1 } := by
  apply (runs_addEnds work).bind
  exact (runs_link (entry_lt_addEnds work.graph) _).bind (.pure _ _)

theorem accept_lt_addPattern (graph : Graph) (pattern : Pattern) :
    (graph.addPattern pattern).2.accept < (graph.addPattern pattern).1.size :=
  (Graph.addPattern_lays graph pattern).accept.2

theorem size_le_addPattern (graph : Graph) (pattern : Pattern) :
    graph.size ≤ (graph.addPattern pattern).1.size :=
  (Graph.addPattern_lays graph pattern).grows.size_le

theorem runs_star {graph : Graph} {pattern : Pattern}
    (laid : work.graph = (graph.addPattern pattern).1) :
    Runs (star (graph.addPattern pattern).2) work (.ok (graph.addPattern (.star pattern)).2)
      { work with graph := (graph.addPattern (.star pattern)).1 } := by
  rcases work with ⟨middle, starts⟩
  cases laid
  have entry := entry_lt_addEnds (graph.addPattern pattern).1
  have accept := accept_lt_addPattern graph pattern
  have issued : (graph.addPattern pattern).2.accept <
      (graph.addPattern pattern).1.addEnds.1.size := by
    simp
    omega
  apply (runs_addEnds _).bind
  apply (runs_link entry _).bind
  apply (runs_link (by simp) _).bind
  apply (runs_link (by simpa using issued) _).bind
  apply (runs_link (by simpa using issued) _).bind
  exact .pure _ _

theorem runs_starred {graph : Graph} {pattern : Pattern} {text : List Char} {stop : Nat}
    (behind : text[stop + 1]? = some '*') (laid : work.graph = (graph.addPattern pattern).1) :
    Runs (starred text (graph.addPattern pattern).2 stop) work
      (.ok ((graph.addPattern (.star pattern)).2, stop + 1))
      { work with graph := (graph.addPattern (.star pattern)).1 } := by
  rw [starred, if_pos behind]
  exact (runs_star laid).bind (.pure _ _)

theorem runs_unstarred {text : List Char} {stop : Nat} (behind : text[stop + 1]? ≠ some '*')
    (inner : Fragment) (work : Work) :
    Runs (starred text inner stop) work (.ok (inner, stop)) work := by
  rw [starred, if_neg behind]
  exact .pure _ _

theorem portion_eq {text : List Char} {start stop : Nat} {part : List Char}
    (found : slice text start stop = .ok part) (shorter : part.length < text.length) :
    portion text start stop = .ok ⟨part, shorter⟩ := by
  rw [portion, found]
  exact dif_pos shorter

end Positional

end MaximalMunch
