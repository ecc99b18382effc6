import MaximalMunch.Bundle.Decode
import MaximalMunch.Bundle.Encode
import MaximalMunch.Proofs.OrderedLists
import MaximalMunch.Proofs.OrderedMaps
import MaximalMunch.Proofs.WrittenJson
import Mathlib.Data.List.Forall2
import Mathlib.Data.List.Nodup

/-!
Bundles are stored without loss. The stored text of a bundle is the text of a JSON value, and the
bundle is read from that value again, if its numbers are in range. What was read is in range.
-/

namespace MaximalMunch

def Action.Fits : Action → Prop
  | .goBack count => count < countLimit
  | _ => True

structure Fragment.Fits (fragment : Fragment) : Prop where
  entry : fragment.entry < nodeLimit
  accept : fragment.accept < nodeLimit

structure Rule.Fits (rule : Rule) : Prop where
  fragment : rule.fragment.Fits
  actions : ∀ action ∈ rule.actions, action.Fits

structure Node.Fits (node : Node) : Prop where
  epsilon : ∀ target ∈ node.epsilon.elements, target < nodeLimit
  transitions : ∀ entry ∈ node.transitions.entries, entry.2 < nodeLimit

/-- Every number of a node is below 2^32 and every count below 2^64. -/
structure Bundle.Fits (bundle : Bundle) : Prop where
  rules : ∀ entry ∈ bundle.states.states.entries, ∀ rule ∈ entry.2, rule.Fits
  nodes : ∀ node ∈ bundle.graph.nodes.toList, node.Fits

section Decidable

instance (action : Action) : Decidable action.Fits :=
  match action with
  | .goBack count => inferInstanceAs (Decidable (count < countLimit))
  | .switchState _ | .suppress | .incrementLine => .isTrue trivial

instance (fragment : Fragment) : Decidable fragment.Fits :=
  decidable_of_iff (fragment.entry < nodeLimit ∧ fragment.accept < nodeLimit)
    ⟨fun both => ⟨both.1, both.2⟩, fun fits => ⟨fits.entry, fits.accept⟩⟩

instance (rule : Rule) : Decidable rule.Fits :=
  decidable_of_iff (rule.fragment.Fits ∧ ∀ action ∈ rule.actions, action.Fits)
    ⟨fun both => ⟨both.1, both.2⟩, fun fits => ⟨fits.fragment, fits.actions⟩⟩

instance (node : Node) : Decidable node.Fits :=
  decidable_of_iff ((∀ target ∈ node.epsilon.elements, target < nodeLimit) ∧
      ∀ entry ∈ node.transitions.entries, entry.2 < nodeLimit)
    ⟨fun both => ⟨both.1, both.2⟩, fun fits => ⟨fits.epsilon, fits.transitions⟩⟩

instance (bundle : Bundle) : Decidable bundle.Fits :=
  decidable_of_iff ((∀ entry ∈ bundle.states.states.entries, ∀ rule ∈ entry.2, rule.Fits) ∧
      ∀ node ∈ bundle.graph.nodes.toList, node.Fits)
    ⟨fun both => ⟨both.1, both.2⟩, fun fits => ⟨fits.rules, fits.nodes⟩⟩

end Decidable

open Json

def Action.toJson : Action → Json
  | .switchState target => record [("SwitchState", string target)]
  | .goBack count => record [("GoBack", natural count)]
  | .suppress => string "Suppress"
  | .incrementLine => string "IncrementLine"

def Fragment.toJson (fragment : Fragment) : Json :=
  record [("entry", natural fragment.entry), ("accept", natural fragment.accept)]

def unitToJson : Option String → Json
  | some unit => string unit
  | none => .null

def Rule.toJson (rule : Rule) : Json :=
  record [("lexical_unit", unitToJson rule.unit), ("pattern", rule.fragment.toJson),
    ("actions", list Action.toJson rule.actions)]

def StateTable.toJson (table : StateTable) : Json :=
  record [("states", record (table.states.entries.map fun (state, rules) =>
    (state, list Rule.toJson rules)))]

def Node.toJson (node : Node) : Json :=
  record [("epsilon", list natural node.epsilon.elements),
    ("transitions", record (node.transitions.entries.map fun (char, target) =>
      (String.singleton char, natural target)))]

def DefinitionTable.toJson (table : DefinitionTable) : Json :=
  record [("entries", list (fun (name, pattern) => list string [name, pattern])
    table.entries)]

def Graph.toJson (graph : Graph) : Json :=
  record [("states", list Node.toJson graph.nodes.toList),
    ("definitions", graph.definitions.toJson)]

def Bundle.toJson (bundle : Bundle) : Json :=
  record [("start_state", string bundle.startState), ("states", bundle.states.toJson),
    ("graph", bundle.graph.toJson)]

theorem Action.written (action : Action) : Written action.toJson action.encode := by
  cases action with
  | switchState target => exact written_fields [("SwitchState", _, _)] (written_string target)
  | goBack count => exact written_fields [("GoBack", _, _)] (written_natural count)
  | suppress => exact written_string "Suppress"
  | incrementLine => exact written_string "IncrementLine"

theorem Fragment.written (fragment : Fragment) : Written fragment.toJson fragment.encode :=
  written_fields [("entry", _, _), ("accept", _, _)]
    ⟨written_natural fragment.entry, written_natural fragment.accept⟩

theorem Rule.written (rule : Rule) : Written rule.toJson rule.encode := by
  have actions : Written (list Action.toJson rule.actions)
      (Literal.array (rule.actions.map Action.encode)) :=
    written_list fun action _ => action.written
  rw [toJson, encode]
  cases rule.unit with
  | none =>
      exact written_fields [("lexical_unit", _, _), ("pattern", _, _), ("actions", _, _)]
        ⟨written_null, rule.fragment.written, actions⟩
  | some unit =>
      exact written_fields [("lexical_unit", _, _), ("pattern", _, _), ("actions", _, _)]
        ⟨written_string unit, rule.fragment.written, actions⟩

theorem StateTable.written (table : StateTable) : Written table.toJson table.encode := by
  have states : Written
      (record (table.states.entries.map fun entry => (entry.1, list Rule.toJson entry.2)))
      (Literal.object (table.states.entries.map fun entry =>
        (entry.1, Literal.array (entry.2.map Rule.encode)))) :=
    written_record fun entry _ => written_list fun rule _ => rule.written
  exact written_fields [("states", _, _)] states

theorem Node.written (node : Node) : Written node.toJson node.encode := by
  have epsilon : Written (list natural node.epsilon.elements)
      (Literal.array (node.epsilon.elements.map Literal.natural)) :=
    written_list fun target _ => written_natural target
  have transitions : Written
      (record (node.transitions.entries.map fun entry =>
        (String.singleton entry.1, natural entry.2)))
      (Literal.object (node.transitions.entries.map fun entry =>
        (String.singleton entry.1, Literal.natural entry.2))) :=
    written_record fun entry _ => written_natural entry.2
  exact written_fields [("epsilon", _, _), ("transitions", _, _)] ⟨epsilon, transitions⟩

theorem written_pair (entry : String × String) :
    Written (list string [entry.1, entry.2])
      (Literal.array [Literal.string entry.1.toList, Literal.string entry.2.toList]) := by
  have contents : ∀ content ∈ [entry.1, entry.2],
      Written (string content) (Literal.string content.toList) :=
    fun content _ => written_string content
  exact written_list contents

theorem DefinitionTable.written (table : DefinitionTable) : Written table.toJson table.encode := by
  have entries : Written
      (list (fun entry => list string [entry.1, entry.2]) table.entries)
      (Literal.array (table.entries.map fun entry =>
        Literal.array [Literal.string entry.1.toList, Literal.string entry.2.toList])) :=
    written_list fun entry _ => written_pair entry
  exact written_fields [("entries", _, _)] entries

theorem Graph.written (graph : Graph) : Written graph.toJson graph.encode := by
  have nodes : Written (list Node.toJson graph.nodes.toList)
      (Literal.array (graph.nodes.toList.map Node.encode)) :=
    written_list fun node _ => node.written
  exact written_fields [("states", _, _), ("definitions", _, _)] ⟨nodes, graph.definitions.written⟩

theorem Bundle.written (bundle : Bundle) : Written bundle.toJson bundle.encode.toList := by
  rw [encode, String.toList_ofList]
  exact written_fields [("start_state", _, _), ("states", _, _), ("graph", _, _)]
    ⟨written_string bundle.startState, bundle.states.written, bundle.graph.written⟩

section Reading

variable {α β : Type}

theorem mapM_eq_some_iff {read : α → Option β} {inputs : List α} {outputs : List β} :
    inputs.mapM read = some outputs ↔
      List.Forall₂ (fun input output => read input = some output) inputs outputs := by
  induction inputs generalizing outputs with
  | nil => simp [List.forall₂_nil_left_iff, eq_comm]
  | cons input inputs ih =>
      rw [List.mapM_cons, List.forall₂_cons_left_iff]
      simp only [Option.bind_eq_bind, Option.bind_eq_some_iff, Option.pure_def, Option.some.injEq,
        ih]
      constructor
      · rintro ⟨first, readFirst, others, readOthers, rfl⟩
        exact ⟨first, others, readFirst, readOthers, rfl⟩
      · rintro ⟨first, others, readFirst, readOthers, rfl⟩
        exact ⟨first, readFirst, others, readOthers, rfl⟩

theorem mapM_map_eq_some {write : α → β} {read : β → Option α} {items : List α}
    (returns : ∀ item ∈ items, read (write item) = some item) :
    (items.map write).mapM read = some items :=
  mapM_eq_some_iff.mpr (List.forall₂_map_left_iff.mpr (List.forall₂_same.mpr returns))

theorem exists_of_mapM_eq_some {read : α → Option β} {inputs : List α} {outputs : List β}
    (mapped : inputs.mapM read = some outputs) {output : β} (member : output ∈ outputs) :
    ∃ input ∈ inputs, read input = some output := by
  obtain ⟨place, inside, rfl⟩ := List.mem_iff_getElem.mp member
  have related := mapM_eq_some_iff.mp mapped
  have same : inputs.length = outputs.length := related.length_eq
  exact ⟨inputs[place], List.getElem_mem _, related.get (same ▸ inside) inside⟩

end Reading

theorem natural?_natural {limit value : Nat} (small : value < limit) :
    (natural value).natural? limit = some value := by
  rw [natural, natural?, if_pos small]

@[simp]
theorem fields?_record (fields : List (String × Json)) : (record fields).fields? = some fields :=
  mapM_map_eq_some fun _ _ => rfl

theorem record?_record (fields : List (String × Json)) (distinct : (fields.map Prod.fst).Nodup) :
    (record fields).record? (fields.map Prod.fst) =
      some (fields.map fun field => some field.2) := by
  have once : (fields.map Prod.fst).all
      (fun name => decide ((fields.map Prod.fst).count name ≤ 1)) = true := by
    simp only [List.all_eq_true, decide_eq_true_eq]
    exact fun name _ => List.nodup_iff_count_le_one.mp distinct name
  have values : (fields.map Prod.fst).map (fun name => fields.lookup name) =
      fields.map fun field => some field.2 := by
    rw [List.map_map]
    exact List.map_congr_left fun field member => lookup_of_nodup distinct member
  have named : (record fields).namedFields? (fields.map Prod.fst) =
      some (fields.map fun field => some field.2) := by
    rw [namedFields?, fields?_record]
    simp only [Option.bind_eq_bind, Option.bind_some]
    rw [if_pos once, values]
    rfl
  exact named

theorem Action.ofJson?_toJson {action : Action} (fits : action.Fits) :
    ofJson? action.toJson = some action := by
  cases action with
  | switchState target => rfl
  | goBack count =>
      have count : (natural count).natural? countLimit = some count := natural?_natural fits
      exact congrArg (Option.map Action.goBack) count
  | suppress => rfl
  | incrementLine => rfl

theorem Fragment.ofJson?_toJson {fragment : Fragment} (fits : fragment.Fits) :
    ofJson? fragment.toJson = some fragment := by
  have fields : fragment.toJson.record? ["entry", "accept"] =
      some [some (natural fragment.entry), some (natural fragment.accept)] :=
    record?_record _ (show ["entry", "accept"].Nodup by decide)
  rw [ofJson?, fields]
  simp [natural?_natural fits.entry, natural?_natural fits.accept]

theorem list?_list {α : Type} {write : α → Json} {read : Json → Option α} {items : List α}
    (returns : ∀ item ∈ items, read (write item) = some item) :
    (list write items).list? read = some items :=
  mapM_map_eq_some returns

@[simp]
theorem unitOfJson?_unitToJson (unit : Option String) :
    unitOfJson? (some (unitToJson unit)) = some unit := by
  cases unit <;> rfl

theorem Rule.ofJson?_toJson {rule : Rule} (fits : rule.Fits) :
    ofJson? rule.toJson = some rule := by
  have fields : rule.toJson.record? ["lexical_unit", "pattern", "actions"] =
      some [some (unitToJson rule.unit), some rule.fragment.toJson,
        some (list Action.toJson rule.actions)] :=
    record?_record _ (show ["lexical_unit", "pattern", "actions"].Nodup by decide)
  have actions : (list Action.toJson rule.actions).list? Action.ofJson? = some rule.actions :=
    list?_list fun action member => Action.ofJson?_toJson (fits.actions action member)
  rw [ofJson?, fields]
  simp [Fragment.ofJson?_toJson fits.fragment, actions]

theorem StateTable.ofJson?_toJson {table : StateTable}
    (fits : ∀ entry ∈ table.states.entries, ∀ rule ∈ entry.2, rule.Fits) :
    ofJson? table.toJson = some table := by
  have fields : table.toJson.record? ["states"] =
      some [some (record (table.states.entries.map fun entry =>
        (entry.1, list Rule.toJson entry.2)))] :=
    record?_record _ (show ["states"].Nodup by decide)
  have entries : (table.states.entries.map fun entry => (entry.1, list Rule.toJson entry.2)).mapM
      (fun entry => (entry.2.list? Rule.ofJson?).bind fun rules => pure (entry.1, rules)) =
        some table.states.entries := by
    apply mapM_map_eq_some
    intro entry member
    have rules : (list Rule.toJson entry.2).list? Rule.ofJson? = some entry.2 :=
      list?_list fun rule listed => Rule.ofJson?_toJson (fits entry member rule listed)
    simp [rules]
  rw [ofJson?, fields]
  simp only [Option.bind_eq_bind, Option.bind_some, fields?_record]
  rw [entries, Option.bind_some, OrderedMap.ofList_entries]
  rfl

theorem transition?_singleton {target : Nat} (char : Char) (small : target < nodeLimit) :
    transition? (String.singleton char) (natural target) = some (char, target) := by
  rw [transition?, String.toList_singleton]
  simp [natural?_natural small]

theorem Node.ofJson?_toJson {node : Node} (fits : node.Fits) : ofJson? node.toJson = some node := by
  have fields : node.toJson.record? ["epsilon", "transitions"] =
      some [some (list natural node.epsilon.elements),
        some (record (node.transitions.entries.map fun entry =>
          (String.singleton entry.1, natural entry.2)))] :=
    record?_record _ (show ["epsilon", "transitions"].Nodup by decide)
  have targets : (list natural node.epsilon.elements).list? (natural? nodeLimit) =
      some node.epsilon.elements :=
    list?_list fun target member => natural?_natural (fits.epsilon target member)
  have entries : (node.transitions.entries.map fun entry =>
      (String.singleton entry.1, natural entry.2)).mapM
        (fun entry => transition? entry.1 entry.2) = some node.transitions.entries :=
    mapM_map_eq_some fun entry member =>
      transition?_singleton entry.1 (fits.transitions entry member)
  rw [ofJson?, fields]
  simp only [Option.bind_eq_bind, Option.bind_some, targets, fields?_record]
  rw [entries, Option.bind_some, OrderedSet.ofList_elements, OrderedMap.ofList_entries]
  rfl

@[simp]
theorem DefinitionTable.ofJson?_toJson (table : DefinitionTable) :
    ofJson? table.toJson = some table := by
  have fields : table.toJson.record? ["entries"] =
      some [some (list (fun entry => list string [entry.1, entry.2]) table.entries)] :=
    record?_record _ (show ["entries"].Nodup by decide)
  have entries : (list (fun entry => list string [entry.1, entry.2]) table.entries).list? pair? =
      some table.entries :=
    list?_list fun _ _ => rfl
  rw [ofJson?, fields]
  simp [entries]

theorem Graph.ofJson?_toJson {graph : Graph} (fits : ∀ node ∈ graph.nodes.toList, node.Fits) :
    ofJson? graph.toJson = some graph := by
  have fields : graph.toJson.record? ["states", "definitions"] =
      some [some (list Node.toJson graph.nodes.toList), some graph.definitions.toJson] :=
    record?_record _ (show ["states", "definitions"].Nodup by decide)
  have nodes : (list Node.toJson graph.nodes.toList).list? Node.ofJson? =
      some graph.nodes.toList :=
    list?_list fun node member => Node.ofJson?_toJson (fits node member)
  rw [ofJson?, fields]
  simp [nodes]

theorem Bundle.ofJson?_toJson {bundle : Bundle} (fits : bundle.Fits) :
    ofJson? bundle.toJson = some bundle := by
  have fields : bundle.toJson.record? ["start_state", "states", "graph"] =
      some [some (string bundle.startState), some bundle.states.toJson,
        some bundle.graph.toJson] :=
    record?_record _ (show ["start_state", "states", "graph"].Nodup by decide)
  have start : (string bundle.startState).text? = some bundle.startState := rfl
  rw [ofJson?, fields]
  simp [start, StateTable.ofJson?_toJson fits.rules, Graph.ofJson?_toJson fits.nodes]

theorem Bundle.decode?_of_fits {bundle : Bundle} (fits : bundle.Fits) :
    decode? bundle.encode.toUTF8 = some bundle := by
  calc decode? bundle.encode.toUTF8
      = (Json.read (bundle.encode.toList.map some)).bind ofJson? := by
        rw [decode?, decodeUtf8_toUTF8]
    _ = ofJson? bundle.toJson := by rw [read_of_written bundle.written, Option.bind_some]
    _ = some bundle := ofJson?_toJson fits

theorem lt_of_natural? {limit value : Nat} {json : Json} (read : json.natural? limit = some value) :
    value < limit := by
  unfold natural? at read
  split at read
  · rw [Option.ite_none_right_eq_some] at read
    obtain ⟨small, same⟩ := read
    exact Option.some.inj same ▸ small
  · cases read

theorem exists_of_list? {α : Type} {read : Json → Option α} {json : Json} {items : List α}
    (listed : json.list? read = some items) {item : α} (member : item ∈ items) :
    ∃ part, read part = some item := by
  unfold list? at listed
  split at listed
  · obtain ⟨part, -, found⟩ := exists_of_mapM_eq_some listed member
    exact ⟨part, found⟩
  · cases listed

theorem Action.fits_of_ofJson? {json : Json} {action : Action} (read : ofJson? json = some action) :
    action.Fits := by
  cases action with
  | goBack count =>
      unfold ofJson? at read
      split at read
      · grind
      · rename_i name value
        have counted : value.natural? countLimit = some count := by grind [Option.map_eq_some_iff]
        exact lt_of_natural? counted
      · cases read
  | switchState target => trivial
  | suppress => trivial
  | incrementLine => trivial

theorem Fragment.fits_of_ofJson? {json : Json} {fragment : Fragment}
    (read : ofJson? json = some fragment) : fragment.Fits := by
  obtain ⟨fields, -, read⟩ := Option.bind_eq_some_iff.mp read
  split at read
  · simp only [Option.bind_eq_bind, Option.bind_eq_some_iff, Option.pure_def, Option.some.injEq]
      at read
    obtain ⟨entry, entryRead, accept, acceptRead, rfl⟩ := read
    exact ⟨lt_of_natural? entryRead, lt_of_natural? acceptRead⟩
  · cases read

theorem Rule.fits_of_ofJson? {json : Json} {rule : Rule} (read : ofJson? json = some rule) :
    rule.Fits := by
  obtain ⟨fields, -, read⟩ := Option.bind_eq_some_iff.mp read
  split at read
  · simp only [Option.bind_eq_bind, Option.bind_eq_some_iff, Option.pure_def, Option.some.injEq]
      at read
    obtain ⟨unit, -, fragment, fragmentRead, actions, actionsRead, rfl⟩ := read
    refine ⟨Fragment.fits_of_ofJson? fragmentRead, fun action member => ?_⟩
    obtain ⟨part, partRead⟩ := exists_of_list? actionsRead member
    exact Action.fits_of_ofJson? partRead
  · cases read

theorem StateTable.fits_of_ofJson? {json : Json} {table : StateTable}
    (read : ofJson? json = some table) :
    ∀ entry ∈ table.states.entries, ∀ rule ∈ entry.2, rule.Fits := by
  obtain ⟨fields, -, read⟩ := Option.bind_eq_some_iff.mp read
  split at read
  · simp only [Option.bind_eq_bind, Option.bind_eq_some_iff, Option.pure_def, Option.some.injEq]
      at read
    obtain ⟨states, -, entries, entriesRead, rfl⟩ := read
    intro entry member rule listed
    obtain ⟨field, -, fieldRead⟩ :=
      exists_of_mapM_eq_some entriesRead (OrderedMap.mem_entries_ofList member)
    simp only [Option.bind_eq_some_iff, Option.some.injEq] at fieldRead
    obtain ⟨rules, rulesRead, rfl⟩ := fieldRead
    obtain ⟨part, partRead⟩ := exists_of_list? rulesRead listed
    exact Rule.fits_of_ofJson? partRead
  · cases read

theorem lt_of_transition? {name : String} {json : Json} {entry : Char × Nat}
    (read : transition? name json = some entry) : entry.2 < nodeLimit := by
  unfold transition? at read
  split at read
  · obtain ⟨target, targetRead, rfl⟩ := Option.map_eq_some_iff.mp read
    exact lt_of_natural? targetRead
  · cases read

theorem Node.fits_of_ofJson? {json : Json} {node : Node} (read : ofJson? json = some node) :
    node.Fits := by
  obtain ⟨fields, -, read⟩ := Option.bind_eq_some_iff.mp read
  split at read
  · simp only [Option.bind_eq_bind, Option.bind_eq_some_iff, Option.pure_def, Option.some.injEq]
      at read
    obtain ⟨targets, targetsRead, transitions, -, entries, entriesRead, rfl⟩ := read
    constructor
    · intro target member
      obtain ⟨part, partRead⟩ := exists_of_list? targetsRead (OrderedSet.mem_ofList member)
      exact lt_of_natural? partRead
    · intro entry member
      obtain ⟨field, -, fieldRead⟩ :=
        exists_of_mapM_eq_some entriesRead (OrderedMap.mem_entries_ofList member)
      exact lt_of_transition? fieldRead
  · cases read

theorem Graph.fits_of_ofJson? {json : Json} {graph : Graph} (read : ofJson? json = some graph) :
    ∀ node ∈ graph.nodes.toList, node.Fits := by
  obtain ⟨fields, -, read⟩ := Option.bind_eq_some_iff.mp read
  split at read
  · simp only [Option.bind_eq_bind, Option.bind_eq_some_iff, Option.pure_def, Option.some.injEq]
      at read
    obtain ⟨nodes, nodesRead, definitions, -, rfl⟩ := read
    intro node member
    obtain ⟨part, partRead⟩ := exists_of_list? nodesRead member
    exact Node.fits_of_ofJson? partRead
  · cases read

theorem Bundle.fits_of_ofJson? {json : Json} {bundle : Bundle} (read : ofJson? json = some bundle) :
    bundle.Fits := by
  obtain ⟨fields, -, read⟩ := Option.bind_eq_some_iff.mp read
  split at read
  · simp only [Option.bind_eq_bind, Option.bind_eq_some_iff, Option.pure_def, Option.some.injEq]
      at read
    obtain ⟨start, -, states, statesRead, graph, graphRead, rfl⟩ := read
    exact ⟨StateTable.fits_of_ofJson? statesRead, Graph.fits_of_ofJson? graphRead⟩
  · cases read

theorem Bundle.fits_of_decode? {bytes : ByteArray} {bundle : Bundle}
    (decoded : decode? bytes = some bundle) : bundle.Fits := by
  obtain ⟨json, -, read⟩ := Option.bind_eq_some_iff.mp decoded
  exact fits_of_ofJson? read

end MaximalMunch
