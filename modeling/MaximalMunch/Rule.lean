import MaximalMunch.Action
import MaximalMunch.Graph.Fragment

/-!
Rules of a lexer, grouped by the lexer state they belong to. Among equally long matches the
earlier rule of a state wins, so the order in which rules were added is kept.
-/

namespace MaximalMunch

def unitOfText (text : String) : Option String := if text = noUnit then none else some text

structure Rule where
  /-- The tag of the emitted tokens; without one, matches emit nothing. -/
  unit : Option String
  fragment : Fragment
  actions : List Action
  deriving DecidableEq, Repr

structure StateTable where
  states : OrderedMap String (List Rule) := ∅
  deriving DecidableEq, Repr

namespace StateTable

def rules? (table : StateTable) (state : String) : Option (List Rule) := table.states.get? state

def contains (table : StateTable) (state : String) : Bool := table.states.contains state

def names (table : StateTable) : List String := table.states.keys

def declare (table : StateTable) (state : String) : StateTable :=
  ⟨table.states.insert state ((table.rules? state).getD [])⟩

def push (table : StateTable) (state : String) (rule : Rule) : StateTable :=
  ⟨table.states.insert state ((table.rules? state).getD [] ++ [rule])⟩

/-- Every rule with its state: states in ascending order, the rules of each in their own. -/
def pairs (table : StateTable) : List (String × Rule) :=
  table.states.entries.flatMap fun (state, rules) => rules.map fun rule => (state, rule)

def ruleCount (table : StateTable) : Nat := table.pairs.length

end StateTable

end MaximalMunch
