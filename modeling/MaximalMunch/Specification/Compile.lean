import MaximalMunch.Error
import MaximalMunch.Specification.Reader

/-!
Compiling a specification: definitions are resolved, then the patterns of all rules are laid out
in one graph in the order they were written, and the rules are grouped by their states.
-/

namespace MaximalMunch

def occursIn (part : List Char) : List Char → Bool
  | [] => part.isEmpty
  | char :: rest => part.isPrefixOf (char :: rest) || occursIn part rest

namespace Specification

def lineOf? (specification : Specification) (name : String) : Option Nat :=
  specification.definitionLines.lookup name

def faultLine (specification : Specification) (fault : PatternError) : Nat :=
  let culprit :=
    match fault with
    | .cyclicDefinition name => some name
    | .undefinedReference name =>
      let reference := '\x7b' :: name.toList ++ ['\x7d']
      specification.definitions.nameWhere? fun text => occursIn reference text.toList
    | .malformed pattern _ _ =>
      specification.definitions.nameWhere? fun text => text = pattern
  (culprit.bind specification.lineOf?).getD 1

def resolvedDefinitions (specification : Specification) :
    Except SpecificationError DefinitionTable :=
  specification.definitions.resolve.mapError fun fault =>
    ⟨specification.faultLine fault, .badPattern fault⟩

end Specification

/-- The graph with the patterns of all rules, and each rule with the state it belongs to. -/
def Graph.layRules (graph : Graph) :
    List RuleSpec → Except SpecificationError (Graph × List (String × Rule))
  | [] => .ok (graph, [])
  | rule :: rest =>
    match graph.compile rule.pattern with
    | (_, .error fault) => .error ⟨rule.line, .badPattern fault⟩
    | (graph, .ok fragment) => do
      let (graph, later) ← graph.layRules rest
      return (graph, (rule.state, ⟨unitOfText rule.unit, fragment, rule.actions⟩) :: later)

namespace Specification

def layOut (specification : Specification) :
    Except SpecificationError (Graph × List (String × Rule)) := do
  let definitions ← specification.resolvedDefinitions
  Graph.layRules { definitions := definitions } specification.rules

/-- Declared states come into the table even if they have no rules. -/
def stateTable (states : List String) (rules : List (String × Rule)) : StateTable :=
  rules.foldl (fun table rule => table.push rule.1 rule.2) (states.foldl StateTable.declare {})

def compile (specification : Specification) : Except LexerError Bundle := do
  let (graph, rules) ← specification.layOut.mapError .specification
  let states := stateTable specification.states rules
  (Bundle.validate ⟨specification.startState, states, graph⟩).mapError .bundle

end Specification

def generate (source : String) : Except LexerError Bundle := do
  let specification ← (Specification.ofText source).mapError .specification
  specification.compile

end MaximalMunch
