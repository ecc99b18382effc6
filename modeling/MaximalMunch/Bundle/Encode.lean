import MaximalMunch.Bundle.Basic
import MaximalMunch.Json.Literal

/-!
The JSON text that a bundle is stored as.
-/

namespace MaximalMunch

open Json.Literal

def Action.encode : Action → List Char
  | .switchState target => object [("SwitchState", string target.toList)]
  | .goBack count => object [("GoBack", natural count)]
  | .suppress => string "Suppress".toList
  | .incrementLine => string "IncrementLine".toList

def Fragment.encode (fragment : Fragment) : List Char :=
  object [("entry", natural fragment.entry), ("accept", natural fragment.accept)]

def Rule.encode (rule : Rule) : List Char :=
  let unit :=
    match rule.unit with
    | some unit => string unit.toList
    | none => "null".toList
  object [("lexical_unit", unit), ("pattern", rule.fragment.encode),
    ("actions", array (rule.actions.map Action.encode))]

def StateTable.encode (table : StateTable) : List Char :=
  object [("states", object (table.states.entries.map fun (state, rules) =>
    (state, array (rules.map Rule.encode))))]

def Node.encode (node : Node) : List Char :=
  object [("epsilon", array (node.epsilon.elements.map natural)),
    ("transitions", object (node.transitions.entries.map fun (char, target) =>
      (String.singleton char, natural target)))]

def DefinitionTable.encode (table : DefinitionTable) : List Char :=
  object [("entries", array (table.entries.map fun (name, pattern) =>
    array [string name.toList, string pattern.toList]))]

def Graph.encode (graph : Graph) : List Char :=
  object [("states", array (graph.nodes.toList.map Node.encode)),
    ("definitions", graph.definitions.encode)]

def Bundle.encode (bundle : Bundle) : String :=
  String.ofList (object [("start_state", string bundle.startState.toList),
    ("states", bundle.states.encode), ("graph", bundle.graph.encode)])

end MaximalMunch
