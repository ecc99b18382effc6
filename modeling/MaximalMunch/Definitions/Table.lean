/-!
The table of regular definitions: named pattern texts in the order they were declared.
-/

namespace MaximalMunch

structure DefinitionTable where
  entries : List (String × String) := []
  deriving DecidableEq, Repr

namespace DefinitionTable

def names (table : DefinitionTable) : List String := table.entries.map Prod.fst

def size (table : DefinitionTable) : Nat := table.entries.length

def get? (table : DefinitionTable) (name : String) : Option String := table.entries.lookup name

def nameWhere? (table : DefinitionTable) (test : String → Bool) : Option String :=
  (table.entries.find? fun entry => test entry.2).map Prod.fst

def replaceOrAppend (name pattern : String) : List (String × String) → List (String × String)
  | [] => [(name, pattern)]
  | entry :: rest =>
    if entry.1 = name then (name, pattern) :: rest else entry :: replaceOrAppend name pattern rest

/-- A name declared again takes the new pattern and keeps its first place. -/
def declare (table : DefinitionTable) (name pattern : String) : DefinitionTable :=
  ⟨replaceOrAppend name pattern table.entries⟩

def ofList (entries : List (String × String)) : DefinitionTable :=
  entries.foldl (fun table entry => table.declare entry.1 entry.2) {}

theorem mem_names_of_get? {table : DefinitionTable} {name pattern : String}
    (found : table.get? name = some pattern) : name ∈ table.names := by
  obtain ⟨before, after, split, -⟩ := List.lookup_eq_some_iff.mp found
  simp [names, split]

end DefinitionTable

end MaximalMunch
