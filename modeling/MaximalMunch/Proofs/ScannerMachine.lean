import MaximalMunch.Session.Run
import Mathlib.Logic.Relation

/-!
The session with all its registers, one access after another. Where a session makes a whole cycle,
the machine takes many steps: it reads a character, runs one action, or looks up the rule that has
won. Every place in the input or in a list of rules is checked before it is used, and an access
that fails stops the machine with a misstep.
-/

namespace MaximalMunch

/-- An access that fails. -/
inductive Misstep
  | noCharacter (position : Nat)
  | noRule (index : Nat)
  | noSlice (start stop : Nat)
  | negativeLength (start stop : Nat)
  deriving DecidableEq, Repr

def characterAt (input : List Char) (position : Nat) : Except Misstep Char :=
  match input[position]? with
  | some char => .ok char
  | none => .error (.noCharacter position)

def ruleAt (rules : List Rule) (index : Nat) : Except Misstep Rule :=
  match rules[index]? with
  | some rule => .ok rule
  | none => .error (.noRule index)

def sliceOf (input : List Char) (start stop : Nat) : Except Misstep (List Char) :=
  if start ≤ stop ∧ stop ≤ input.length then .ok (input.extract start stop)
  else .error (.noSlice start stop)

def lengthOf (start stop : Nat) : Except Misstep Nat :=
  if start ≤ stop then .ok (stop - start) else .error (.negativeLength start stop)

structure Winner where
  before : String
  rules : List Rule
  index : Nat
  unit : Option String
  left : List Action
  deriving DecidableEq, Repr

/-- The best match so far is kept as the place of its rule and its end. -/
inductive Phase
  | ready
  | scanning (best : Option (Nat × Nat))
  | scanned (best : Option (Nat × Nat))
  | acting (winner : Winner)
  deriving DecidableEq, Repr

structure Machine where
  phase : Phase := .ready
  state : String
  rules : List Rule
  simulations : List Simulation
  start : Nat := 0
  scan : Nat := 0
  lastAccept : Nat := 0
  line : Nat := 1
  visited : List String := []
  errors : Array LexicalError := #[]
  stats : Stats := {}
  tokens : Array Token := #[]
  deriving DecidableEq, Repr

namespace Machine

def enter (bundle : Bundle) (machine : Machine) (state : String) : Machine :=
  { machine with
    state := state
    rules := bundle.rules state
    simulations := (bundle.rules state).map fun rule =>
      Simulation.start bundle.graph rule.fragment }

def begin (bundle : Bundle) : Machine :=
  enter bundle { state := bundle.startState, rules := [], simulations := [] } bundle.startState

def reset (graph : Graph) (machine : Machine) : Machine :=
  { machine with simulations := machine.simulations.map (Simulation.reset graph) }

def startScan (graph : Graph) (machine : Machine) : Machine :=
  { machine.reset graph with
    phase := .scanning none
    scan := machine.start
    lastAccept := machine.start }

/-- Dead simulations are passed over. -/
def consume (graph : Graph) (char : Char) (simulation : Simulation) : Simulation :=
  if simulation.isDead then simulation else simulation.step graph char

/-- The place of the first simulation that is alive and accepts. -/
def firstAccepting? (simulations : List Simulation) : Option Nat :=
  simulations.findIdx? fun simulation => !simulation.isDead && simulation.isAccepting

def endScan (machine : Machine) (best : Option (Nat × Nat)) : Machine :=
  { machine with
    phase := .scanned best
    lastAccept := (best.map Prod.snd).getD machine.lastAccept }

def feed (graph : Graph) (machine : Machine) (char : Char) : Machine :=
  { machine with
    scan := machine.scan + 1
    simulations := machine.simulations.map (consume graph char) }

def look (machine : Machine) (best : Option (Nat × Nat)) : Machine :=
  let best := ((firstAccepting? machine.simulations).map fun index => (index, machine.scan)).or best
  if machine.simulations.all Simulation.isDead then machine.endScan best
  else { machine with phase := .scanning best }

def read (graph : Graph) (input : List Char) (machine : Machine) (best : Option (Nat × Nat)) :
    Except Misstep Machine :=
  if machine.scan < input.length then
    (fun char => (machine.feed graph char).look best) <$> characterAt input machine.scan
  else .ok (machine.endScan best)

def past (machine : Machine) (char : Char) : Machine :=
  { machine with
    phase := .ready
    start := machine.start + 1
    visited := []
    errors := machine.errors.push ⟨machine.start, machine.line, char⟩
    stats := { machine.stats with skipped := machine.stats.skipped + 1 } }

def recover (input : List Char) (machine : Machine) : Except Misstep Machine :=
  machine.past <$> characterAt input machine.start

def won (machine : Machine) (index stop : Nat) (rule : Rule) : Machine :=
  { machine with
    phase := .acting ⟨machine.state, machine.rules, index, rule.unit, rule.actions⟩
    scan := stop
    lastAccept := stop }

def win (machine : Machine) (index stop : Nat) : Except Misstep Machine :=
  machine.won index stop <$> ruleAt machine.rules index

def back (graph : Graph) (machine : Machine) (stop : Nat) (retained : List Char) : Machine :=
  { machine.reset graph with
    simulations := (machine.reset graph).simulations.map fun simulation =>
      simulation.run graph retained
    scan := stop
    lastAccept := stop }

/-- Keeps at most `count` characters; the simulations run again over those that are kept. -/
def goBack (graph : Graph) (input : List Char) (machine : Machine) (count : Nat) :
    Except Misstep Machine :=
  let stop := min (machine.start + count) machine.lastAccept
  machine.back graph stop <$> sliceOf input machine.start stop

def act (bundle : Bundle) (input : List Char) (machine : Machine) (winner : Winner) :
    Action → Except Misstep Machine
  | .switchState target => .ok { machine.enter bundle target with phase := .acting winner }
  | .goBack count => { machine with phase := .acting winner }.goBack bundle.graph input count
  | .suppress => .ok { machine with phase := .acting { winner with unit := none } }
  | .incrementLine => .ok { machine with phase := .acting winner, line := machine.line + 1 }

def behind (machine : Machine) (unit : Option String) (span : List Char) (length : Nat) :
    Machine :=
  let stats := { machine.stats with matched := machine.stats.matched + length }
  let machine := { machine with phase := .ready, start := machine.lastAccept }
  match unit with
  | some tag =>
    { machine with
      stats := { stats with tokens := stats.tokens + 1 }
      tokens := machine.tokens.push ⟨tag, machine.line, String.ofList span⟩ }
  | none => { machine with stats := { stats with suppressed := stats.suppressed + 1 } }

def emit (input : List Char) (machine : Machine) (unit : Option String) :
    Except Misstep Machine := do
  let span ← sliceOf input machine.start machine.lastAccept
  let length ← lengthOf machine.start machine.lastAccept
  return machine.behind unit span length

/-- An empty match must lead to a state that is new at this position. -/
def conclude (input : List Char) (machine : Machine) (winner : Winner) :
    Except Misstep Machine :=
  if machine.lastAccept = machine.start then
    let visited := if machine.visited.isEmpty then [winner.before] else machine.visited
    if machine.state ∈ visited then { machine with visited := visited }.recover input
    else { machine with visited := machine.state :: visited }.emit input winner.unit
  else { machine with visited := [] }.emit input winner.unit

def step (bundle : Bundle) (input : List Char) (machine : Machine) :
    Except Misstep (Option Machine) :=
  match machine.phase with
  | .ready =>
    if machine.start < input.length then .ok (some (machine.startScan bundle.graph)) else .ok none
  | .scanning best => some <$> machine.read bundle.graph input best
  | .scanned none => some <$> machine.recover input
  | .scanned (some (index, stop)) => some <$> machine.win index stop
  | .acting winner =>
    match winner.left with
    | [] => some <$> machine.conclude input winner
    | action :: left => some <$> machine.act bundle input { winner with left := left } action

def Steps (bundle : Bundle) (input : List Char) : Machine → Machine → Prop :=
  Relation.ReflTransGen fun machine next => machine.step bundle input = .ok (some next)

end Machine

end MaximalMunch
