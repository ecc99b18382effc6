import MaximalMunch.Proofs.DefinitionExpansion
import MaximalMunch.Proofs.References
import Mathlib

/-!
When a table of definitions can be resolved, and what stands in the way of it otherwise: a
reference without end, a name that is not declared, or a definition that refers to itself, be it
through others.
-/

namespace MaximalMunch

namespace Expands

variable {table : DefinitionTable} {name : String} {pieces : List Piece} {text : List Char}
  {position : Nat}

theorem not_unclosed (expands : Expands table pieces text) : .unclosed position ∉ pieces := by
  induction expands with
  | nil => exact List.not_mem_nil
  | kept later ih => simpa using ih
  | reference declared expanded later _ ih => simpa using ih

/-- An expansion is longer than those it is made of. -/
theorem exists_stands (expands : Expands table pieces text) (member : .reference name ∈ pieces) :
    ∃ inner, table.Stands name inner ∧ inner.toList.length < text.length := by
  induction expands with
  | nil => exact absurd member List.not_mem_nil
  | @kept glyph pieces text later ih =>
      have further : .reference name ∈ pieces := by simpa using member
      rcases ih further with ⟨inner, stands, shorter⟩
      refine ⟨inner, stands, ?_⟩
      rw [List.length_append]
      omega
  | @reference other body pieces inner text declared expanded later _ ih =>
      rcases List.mem_cons.mp member with same | further
      · cases same
        refine ⟨String.ofList inner, ⟨body, declared, ?_⟩, ?_⟩
        · rw [String.toList_ofList]
          exact expanded
        · rw [String.toList_ofList, List.length_append, List.length_append, List.length_cons]
          omega
      · rcases ih further with ⟨inner, stands, shorter⟩
        refine ⟨inner, stands, ?_⟩
        rw [List.length_append]
        omega

end Expands

namespace DefinitionTable

variable {table resolved finished other : DefinitionTable} {name inner raw expanded : String}
  {fault : PatternError}

/-- The definition of `name` has a reference to `inner`. -/
def RefersTo (table : DefinitionTable) (name inner : String) : Prop :=
  ∃ body, table.get? name = some body ∧ Mentions body.toList inner

theorem RefersTo.declared (refers : table.RefersTo name inner) : name ∈ table.names := by
  rcases refers with ⟨body, found, -⟩
  exact mem_names_of_get? found

/-- Nothing stands in the way of resolving the table. -/
structure Resolvable (table : DefinitionTable) : Prop where
  closed : ∀ name body, table.get? name = some body → ClosedReferences body.toList
  declared : ∀ name inner, table.RefersTo name inner → inner ∈ table.names
  acyclic : ∀ name, ¬ Relation.TransGen table.RefersTo name name

/-- What an error in resolving says of the table. -/
def Blames (table : DefinitionTable) : PatternError → Prop
  | .cyclicDefinition name => name ∈ table.names ∧ Relation.TransGen table.RefersTo name name
  | .undefinedReference name => name ∉ table.names ∧ ∃ referrer, table.RefersTo referrer name
  | .malformed raw position kind => kind = .unclosedReference ∧
      (∃ name, table.get? name = some raw) ∧ Reached raw.toList position ∧
        Unended raw.toList position

theorem Blames.not_resolvable (blames : table.Blames fault) : ¬ table.Resolvable := by
  intro resolvable
  cases fault with
  | cyclicDefinition name => exact resolvable.acyclic name blames.2
  | undefinedReference name =>
      rcases blames with ⟨undeclared, referrer, refers⟩
      exact undeclared (resolvable.declared referrer name refers)
  | malformed raw position kind =>
      rcases blames with ⟨-, ⟨name, found⟩, reached, unended⟩
      rcases resolvable.closed name raw found position reached unended.opens with ⟨last, matched⟩
      exact unended.never last matched

/-- Expanding a definition along a path asks for the names it refers to, along a longer path. -/
inductive Calls (table : DefinitionTable) : List String × String → List String × String → Prop
  | inner {path : List String} {name inner : String} (fresh : name ∉ path)
      (refers : table.RefersTo name inner) : Calls table (name :: path, inner) (path, name)

theorem wellFounded_calls (table : DefinitionTable) : WellFounded table.Calls := by
  have measured := (measure fun call : List String × String => table.unvisited call.1).wf
  refine Subrelation.wf ?_ measured
  intro inner outer calls
  cases calls with
  | inner fresh refers => exact unvisited_cons_lt refers.declared fresh

theorem expandReferences_run_eq_error
    {body : String → StateT DefinitionTable (Except PatternError) String}
    (failed : (expandReferences body raw).run finished = .error fault) :
    (∃ name state, Mentions raw.toList name ∧ (body name).run state = .error fault) ∨
      ∃ position, Reached raw.toList position ∧ Unended raw.toList position ∧
        fault = .malformed raw position .unclosedReference := by
  unfold expandReferences at failed
  rcases bind_run_eq_error failed with mapped | ⟨parts, last, -, failed⟩
  · rcases exists_of_mapM_run_error mapped with ⟨piece, member, state, fails⟩
    cases piece with
    | kept glyph => cases fails
    | reference name =>
        left
        rcases bind_run_eq_error fails with fails | ⟨inner, last, -, fails⟩
        · exact ⟨name, state, Piece.reference_mem_ofText.mp member, fails⟩
        · cases fails
    | unclosed position =>
        right
        rcases Piece.unclosed_mem_ofText.mp member with ⟨reached, unended⟩
        cases fails
        exact ⟨position, reached, unended, rfl⟩
  · cases failed

theorem blames_of_resolveName {path : List String} {name : String} {finished : DefinitionTable}
    {fault : PatternError}
    (chain : ∀ earlier ∈ path, Relation.TransGen table.RefersTo earlier name)
    (known : name ∈ table.names ∨ ∃ referrer, table.RefersTo referrer name)
    (failed : (table.resolveName path name).run finished = .error fault) : table.Blames fault := by
  -- The path holds the names through which the current one was come to.
  rcases resolveName_run_eq_error failed with
    ⟨missing, rfl⟩ | ⟨body, found, ⟨onPath, rfl⟩ | ⟨fresh, fails⟩⟩
  · have undeclared : name ∉ table.names := by
      intro member
      rcases mem_names_iff.mp member with ⟨body, found⟩
      rw [missing] at found
      cases found
    exact ⟨undeclared, known.resolve_left undeclared⟩
  · exact ⟨mem_names_of_get? found, chain name onPath⟩
  · have _ := unvisited_cons_lt (mem_names_of_get? found) fresh
    rcases expandReferences_run_eq_error fails with
      ⟨inner, state, mentions, fails⟩ | ⟨position, reached, unended, rfl⟩
    · have refers : table.RefersTo name inner := ⟨body, found, mentions⟩
      -- The name joins the path, and all of the path now leads to the inner name.
      refine blames_of_resolveName ?_ (.inr ⟨name, refers⟩) fails
      intro earlier member
      rcases List.mem_cons.mp member with rfl | member
      · exact .single refers
      · exact (chain earlier member).tail refers
    · exact ⟨rfl, ⟨name, found⟩, reached, unended⟩
termination_by table.unvisited path

theorem blames_of_resolve (failed : table.resolve = .error fault) : table.Blames fault := by
  rcases resolve_eq_error failed with ⟨name, declared, state, fails⟩
  refine blames_of_resolveName ?_ (.inl declared) fails
  intro earlier onPath
  exact absurd onPath List.not_mem_nil

theorem Stands.unique {second : String} (stands : table.Stands name expanded)
    (also : table.Stands name second) : expanded = second := by
  rcases stands with ⟨body, found, full⟩
  rcases also with ⟨same, alsoFound, alsoFull⟩
  rw [found] at alsoFound
  cases alsoFound
  exact String.toList_inj.mp (full.unique alsoFull)

theorem Stands.of_refersTo (stands : table.Stands name expanded)
    (refers : table.RefersTo name inner) :
    ∃ full, table.Stands inner full ∧ full.toList.length < expanded.toList.length := by
  rcases stands with ⟨body, found, expands⟩
  rcases refers with ⟨same, alsoFound, mentions⟩
  rw [found] at alsoFound
  cases alsoFound
  exact expands.exists_stands (Piece.reference_mem_ofText.mpr mentions)

theorem Stands.of_transGen (stands : table.Stands name expanded)
    (chain : Relation.TransGen table.RefersTo name inner) :
    ∃ full, table.Stands inner full ∧ full.toList.length < expanded.toList.length := by
  induction chain with
  | single refers => exact stands.of_refersTo refers
  | tail earlier refers ih =>
      rcases ih with ⟨middle, middleStands, longer⟩
      rcases middleStands.of_refersTo refers with ⟨full, fullStands, shorter⟩
      exact ⟨full, fullStands, Nat.lt_trans shorter longer⟩

theorem resolvable_of_stands
    (stands : ∀ name ∈ table.names, ∃ expanded, table.Stands name expanded) :
    table.Resolvable := by
  constructor
  · intro name body found
    rcases stands name (mem_names_of_get? found) with ⟨expanded, same, alsoFound, expands⟩
    rw [found] at alsoFound
    cases alsoFound
    exact Piece.closedReferences_iff.mpr fun position => expands.not_unclosed
  · intro name inner refers
    rcases stands name refers.declared with ⟨expanded, full⟩
    rcases full.of_refersTo refers with ⟨text, ⟨body, found, -⟩, -⟩
    exact mem_names_of_get? found
  · -- On a cycle an expansion would be shorter than itself.
    intro name cycle
    rcases Relation.TransGen.head'_iff.mp cycle with ⟨next, refers, -⟩
    rcases stands name refers.declared with ⟨expanded, full⟩
    rcases full.of_transGen cycle with ⟨again, alsoFull, shorter⟩
    rw [full.unique alsoFull] at shorter
    exact Nat.lt_irrefl _ shorter

theorem stands_of_resolve (resolves : table.resolve = .ok resolved) :
    ∀ name ∈ table.names, ∃ expanded, table.Stands name expanded := by
  intro name member
  rcases List.mem_map.mp member with ⟨source, listed, rfl⟩
  rcases resolve_eq_ok resolves with ⟨entries, -, each⟩
  rcases exists_of_forall₂_left each listed with ⟨entry, -, -, stands⟩
  exact ⟨entry.2, stands⟩

theorem exists_resolve_iff : (∃ resolved, table.resolve = .ok resolved) ↔ table.Resolvable := by
  constructor
  · intro succeeds
    rcases succeeds with ⟨resolved, resolves⟩
    exact resolvable_of_stands (stands_of_resolve resolves)
  · intro resolvable
    cases result : table.resolve with
    | ok resolved => exact ⟨resolved, rfl⟩
    | error fault => exact absurd resolvable (blames_of_resolve result).not_resolvable

theorem refersTo_congr (same : ∀ name, other.get? name = table.get? name) :
    other.RefersTo = table.RefersTo := by
  funext name inner
  unfold RefersTo
  rw [same]

theorem Resolvable.congr (resolvable : table.Resolvable)
    (same : ∀ name, other.get? name = table.get? name) : other.Resolvable := by
  constructor
  · intro name body found
    rw [same] at found
    exact resolvable.closed name body found
  · intro name inner refers
    rw [refersTo_congr same] at refers
    have declared := resolvable.declared name inner refers
    rw [mem_names_iff] at declared ⊢
    rw [same]
    exact declared
  · rw [refersTo_congr same]
    exact resolvable.acyclic

theorem resolvable_congr (same : ∀ name, other.get? name = table.get? name) :
    other.Resolvable ↔ table.Resolvable := by
  constructor
  · intro resolvable
    exact resolvable.congr fun name => (same name).symm
  · intro resolvable
    exact resolvable.congr same

/--
Resolving ends, succeeds if and only if nothing stands in the way, and otherwise blames something
that does. The bindings decide, in whatever order they were declared.
-/
theorem resolve_decides (table : DefinitionTable) :
    WellFounded table.Calls ∧
      ((∃ resolved, table.resolve = .ok resolved) ↔ table.Resolvable) ∧
      (∀ fault, table.resolve = .error fault → table.Blames fault) ∧
      ∀ other : DefinitionTable, (∀ name, other.get? name = table.get? name) →
        ((∃ resolved, other.resolve = .ok resolved) ↔
          ∃ resolved, table.resolve = .ok resolved) := by
  refine ⟨table.wellFounded_calls, exists_resolve_iff, fun fault => blames_of_resolve, ?_⟩
  intro other same
  rw [exists_resolve_iff, exists_resolve_iff, resolvable_congr same]

def ring : DefinitionTable := ofList [("Pair", "\x7bLeaf\x7d\x7bLeaf\x7d"), ("Leaf", "a"),
  ("Ring", "\x7bPair\x7d\x7bArc\x7d"), ("Arc", "\x7bLeaf\x7d\x7bRing\x7d")]

theorem resolve_decides_ring :
    ring.resolve = .error (.cyclicDefinition "Ring") ∧
      "Ring" ∈ ring.names ∧ Relation.TransGen ring.RefersTo "Ring" "Ring" := by
  have failed : ring.resolve = .error (.cyclicDefinition "Ring") := by cbv
  exact ⟨failed, (resolve_decides ring).2.2.1 _ failed⟩

end DefinitionTable

end MaximalMunch
