import MaximalMunch.Error
import MaximalMunch.Json.Value

/-!
Reading bundles from JSON. A record is an object with its fields in any order, among others that
are ignored, or an array of exactly its fields in their order.
-/

namespace MaximalMunch

namespace Json

def natural? (limit : Nat) : Json → Option Nat
  | .number (some value) => if value < limit then some value else none
  | _ => none

def text? : Json → Option String
  | .text content => content
  | _ => none

def list? {α : Type} (read : Json → Option α) : Json → Option (List α)
  | .array items => items.mapM read
  | _ => none

def fields? : Json → Option (List (String × Json))
  | .object fields => fields.mapM fun (name, value) => name.map fun name => (name, value)
  | _ => none

def pair? : Json → Option (String × String)
  | .array [first, second] => do
    let first ← first.text?
    let second ← second.text?
    return (first, second)
  | _ => none

def null? : Json → Option Unit
  | .null => some ()
  | _ => none

/-- What an object gives to each of the names; none of them may be given twice. -/
def namedFields? (names : List String) (json : Json) : Option (List (Option Json)) := do
  let fields ← json.fields?
  if names.all fun name => (fields.map Prod.fst).count name ≤ 1 then
    return names.map fun name => fields.lookup name
  else none

/-- The fields of a record under the given names; only an object can leave one out. -/
def record? (names : List String) : Json → Option (List (Option Json))
  | .array items => if items.length = names.length then some (items.map some) else none
  | json => json.namedFields? names

end Json

def nodeLimit : Nat := 0x100000000

def Action.ofJson? : Json → Option Action
  | .text (some name) =>
    if name = "Suppress" then some .suppress
    else if name = "IncrementLine" then some .incrementLine
    else none
  | .object [(some name, value)] =>
    if name = "Suppress" then value.null?.map fun _ => .suppress
    else if name = "IncrementLine" then value.null?.map fun _ => .incrementLine
    else if name = "GoBack" then (value.natural? countLimit).map .goBack
    else if name = "SwitchState" then value.text?.map .switchState
    else none
  | _ => none

def Fragment.ofJson? (json : Json) : Option Fragment := do
  let [some entry, some accept] ← json.record? ["entry", "accept"] | none
  return ⟨← entry.natural? nodeLimit, ← accept.natural? nodeLimit⟩

/-- A field that is left out counts as none. -/
def unitOfJson? : Option Json → Option (Option String)
  | none | some .null => some none
  | some json => json.text?.map some

def Rule.ofJson? (json : Json) : Option Rule := do
  let [unit, some fragment, some actions] ← json.record? ["lexical_unit", "pattern", "actions"]
    | none
  return ⟨← unitOfJson? unit, ← Fragment.ofJson? fragment, ← actions.list? Action.ofJson?⟩

def StateTable.ofJson? (json : Json) : Option StateTable := do
  let [some states] ← json.record? ["states"] | none
  let entries ← (← states.fields?).mapM fun (state, rules) => do
    let rules ← rules.list? Rule.ofJson?
    return (state, rules)
  return ⟨OrderedMap.ofList entries⟩

def transition? (name : String) (target : Json) : Option (Char × Nat) :=
  match name.toList with
  | [char] => (target.natural? nodeLimit).map fun target => (char, target)
  | _ => none

def Node.ofJson? (json : Json) : Option Node := do
  let [some epsilon, some transitions] ← json.record? ["epsilon", "transitions"] | none
  let targets ← epsilon.list? (Json.natural? nodeLimit)
  let entries ← (← transitions.fields?).mapM fun (name, target) => transition? name target
  return ⟨OrderedSet.ofList targets, OrderedMap.ofList entries⟩

def DefinitionTable.ofJson? (json : Json) : Option DefinitionTable := do
  let [some entries] ← json.record? ["entries"] | none
  return ⟨← entries.list? Json.pair?⟩

def Graph.ofJson? (json : Json) : Option Graph := do
  let [some nodes, some definitions] ← json.record? ["states", "definitions"] | none
  return ⟨(← nodes.list? Node.ofJson?).toArray, ← DefinitionTable.ofJson? definitions⟩

def Bundle.ofJson? (json : Json) : Option Bundle := do
  let [some startState, some states, some graph] ← json.record? ["start_state", "states", "graph"]
    | none
  return ⟨← startState.text?, ← StateTable.ofJson? states, ← Graph.ofJson? graph⟩

def Bundle.decode? (bytes : ByteArray) : Option Bundle :=
  (Json.read (decodeUtf8 bytes)).bind Bundle.ofJson?

def Bundle.load (bytes : ByteArray) : Except LexerError Bundle :=
  match Bundle.decode? bytes with
  | none => .error (.json none)
  | some bundle => bundle.validate.mapError .bundle

end MaximalMunch
