import MaximalMunch.Definitions.Reference
import MaximalMunch.Definitions.Table

/-!
Resolving a table of regular definitions replaces every reference inside its bodies, so that
afterwards one pass over a pattern expands it completely.
-/

namespace MaximalMunch

namespace DefinitionTable

def body (table : DefinitionTable) (name : String) : Except PatternError String :=
  match table.get? name with
  | some pattern => .ok pattern
  | none => .error (.undefinedReference name)

/-- Expands the references of `text` once, by the bodies as they stand in the table. -/
def substitute (table : DefinitionTable) (text : String) : Except PatternError String :=
  expandReferences table.body text

def unvisited (table : DefinitionTable) (path : List String) : Nat :=
  (table.names.filter (· ∉ path)).length

theorem unvisited_cons_lt {table : DefinitionTable} {path : List String} {name : String}
    (declared : name ∈ table.names) (fresh : name ∉ path) :
    table.unvisited (name :: path) < table.unvisited path := by
  unfold unvisited
  have split : table.names.filter (· ∉ name :: path) =
      (table.names.filter (· ∉ path)).filter (· ≠ name) := by
    rw [List.filter_filter]
    congr 1
    funext other
    by_cases same : other = name <;> simp [same]
  rw [split]
  refine List.length_filter_lt_length_iff_exists.mpr ⟨name, ?_, by simp⟩
  exact List.mem_filter.mpr ⟨declared, by simpa using fresh⟩

/--
The complete expansion of a definition that is referred to along `path`. The state holds the
expansions that are finished.
-/
def resolveName (table : DefinitionTable) (path : List String) (name : String) :
    StateT DefinitionTable (Except PatternError) String := do
  match (← get).get? name with
  | some expanded => return expanded
  | none =>
    match found : table.get? name with
    | none => throw (.undefinedReference name)
    | some text =>
      if onPath : name ∈ path then throw (.cyclicDefinition name)
      else
        have := unvisited_cons_lt (mem_names_of_get? found) onPath
        let expanded ← expandReferences (fun inner => table.resolveName (name :: path) inner) text
        modify fun finished => finished.declare name expanded
        return expanded
termination_by table.unvisited path

def resolve (table : DefinitionTable) : Except PatternError DefinitionTable := do
  let entries ← StateT.run' (table.entries.mapM fun entry => do
    let expanded ← table.resolveName [] entry.1
    return (entry.1, expanded)) {}
  return ofList entries

end DefinitionTable

end MaximalMunch
