import MaximalMunch.Definitions.Resolution
import MaximalMunch.Proofs.DeclaredTables
import Mathlib.Data.List.Forall2

/-!
The full expansion of a pattern text by a table of definitions: every reference is replaced by
the full expansion of its body in parentheses. Resolving the table first and expanding once
afterwards comes to the same.
-/

namespace MaximalMunch

/-- The pieces of a text, and of all bodies they refer to, with no reference left. -/
inductive Expands (table : DefinitionTable) : List Piece → List Char → Prop
  | nil : Expands table [] []
  | kept {glyph : Glyph} {pieces : List Piece} {text : List Char}
      (later : Expands table pieces text) :
      Expands table (.kept glyph :: pieces) (glyph.chars ++ text)
  | reference {name body : String} {pieces : List Piece} {inner text : List Char}
      (declared : table.get? name = some body)
      (expanded : Expands table (Piece.ofText body) inner) (later : Expands table pieces text) :
      Expands table (.reference name :: pieces) ('(' :: inner ++ [')'] ++ text)

namespace Expands

variable {table : DefinitionTable} {pieces : List Piece} {text other : List Char}

theorem unique (first : Expands table pieces text) (second : Expands table pieces other) :
    text = other := by
  induction first generalizing other with
  | nil =>
      cases second with
      | nil => rfl
  | kept later ih =>
      cases second with
      | kept otherLater => rw [ih otherLater]
  | reference declared expanded later ihBody ih =>
      cases second with
      | reference otherDeclared otherExpanded otherLater =>
          rw [declared] at otherDeclared
          cases otherDeclared
          rw [ihBody otherExpanded, ih otherLater]

end Expands

theorem forall₂_of_mapM {α β ε : Type} {f : α → Except ε β} {inputs : List α}
    {outputs : List β} (mapped : inputs.mapM f = .ok outputs) :
    List.Forall₂ (fun input output => f input = .ok output) inputs outputs := by
  induction inputs generalizing outputs with
  | nil =>
      cases mapped
      exact .nil
  | cons input inputs ih =>
      rw [List.mapM_cons] at mapped
      cases first : f input with
      | error fault =>
          rw [first] at mapped
          cases mapped
      | ok output =>
          rw [first] at mapped
          cases rest : inputs.mapM f with
          | error fault =>
              rw [rest] at mapped
              cases mapped
          | ok others =>
              rw [rest] at mapped
              cases mapped
              exact .cons first (ih rest)

theorem getElem?_of_forall₂ {α β : Type} {related : α → β → Prop} {inputs : List α}
    {outputs : List β} (relate : List.Forall₂ related inputs outputs) {index : Nat} {input : α}
    (listed : inputs[index]? = some input) :
    ∃ output, outputs[index]? = some output ∧ related input output := by
  induction relate generalizing index with
  | nil => cases listed
  | @cons head result inputs outputs relates later ih =>
      cases index with
      | zero =>
          cases listed
          exact ⟨result, rfl, relates⟩
      | succ index => exact ih listed

theorem exists_of_forall₂_left {α β : Type} {related : α → β → Prop} {inputs : List α}
    {outputs : List β} {input : α} (relate : List.Forall₂ related inputs outputs)
    (member : input ∈ inputs) : ∃ output ∈ outputs, related input output := by
  rcases List.mem_iff_getElem?.mp member with ⟨index, listed⟩
  rcases getElem?_of_forall₂ relate listed with ⟨output, found, relates⟩
  exact ⟨output, List.mem_of_getElem? found, relates⟩

theorem exists_of_forall₂_right {α β : Type} {related : α → β → Prop} {inputs : List α}
    {outputs : List β} {output : β} (relate : List.Forall₂ related inputs outputs)
    (member : output ∈ outputs) : ∃ input ∈ inputs, related input output :=
  exists_of_forall₂_left relate.flip member

section Runs

variable {σ ε α β : Type} {first : StateT σ (Except ε) α} {next : α → StateT σ (Except ε) β}
  {before after : σ} {output : β} {fault : ε}

theorem bind_run_eq_ok (done : (first >>= next).run before = .ok (output, after)) :
    ∃ value middle, first.run before = .ok (value, middle) ∧
      (next value).run middle = .ok (output, after) := by
  rw [StateT.run_bind] at done
  cases taken : first.run before with
  | error fault =>
      rw [taken] at done
      cases done
  | ok result =>
      rw [taken] at done
      exact ⟨result.1, result.2, rfl, done⟩

theorem bind_run_eq_error (failed : (first >>= next).run before = .error fault) :
    first.run before = .error fault ∨
      ∃ value middle, first.run before = .ok (value, middle) ∧
        (next value).run middle = .error fault := by
  rw [StateT.run_bind] at failed
  cases taken : first.run before with
  | error other =>
      rw [taken] at failed
      cases failed
      exact .inl rfl
  | ok result =>
      rw [taken] at failed
      exact .inr ⟨result.1, result.2, rfl, failed⟩

end Runs

theorem forall₂_of_mapM_run {σ ε α β : Type} {f : α → StateT σ (Except ε) β}
    {invariant : σ → Prop} {related : α → β → Prop} {inputs : List α} {outputs : List β}
    {before after : σ}
    (each : ∀ input ∈ inputs, ∀ before output after, invariant before →
      (f input).run before = .ok (output, after) → related input output ∧ invariant after)
    (holds : invariant before) (mapped : (inputs.mapM f).run before = .ok (outputs, after)) :
    List.Forall₂ related inputs outputs ∧ invariant after := by
  induction inputs generalizing before outputs with
  | nil =>
      cases mapped
      exact ⟨.nil, holds⟩
  | cons input inputs ih =>
      rw [List.mapM_cons] at mapped
      rcases bind_run_eq_ok mapped with ⟨output, middle, first, mapped⟩
      rcases bind_run_eq_ok mapped with ⟨others, last, rest, mapped⟩
      cases mapped
      rcases each input List.mem_cons_self before output middle holds first with ⟨relates, kept⟩
      have later := fun input member => each input (List.mem_cons_of_mem _ member)
      rcases ih later kept rest with ⟨relate, kept⟩
      exact ⟨.cons relates relate, kept⟩

theorem exists_of_mapM_run_error {σ ε α β : Type} {f : α → StateT σ (Except ε) β}
    {inputs : List α} {before : σ} {fault : ε}
    (failed : (inputs.mapM f).run before = .error fault) :
    ∃ input ∈ inputs, ∃ state, (f input).run state = .error fault := by
  induction inputs generalizing before with
  | nil => cases failed
  | cons input inputs ih =>
      rw [List.mapM_cons] at failed
      rcases bind_run_eq_error failed with first | ⟨output, middle, -, failed⟩
      · exact ⟨input, List.mem_cons_self, before, first⟩
      rcases bind_run_eq_error failed with rest | ⟨others, last, -, failed⟩
      · rcases ih rest with ⟨culprit, member, state, fails⟩
        exact ⟨culprit, List.mem_cons_of_mem _ member, state, fails⟩
      · cases failed

namespace DefinitionTable

variable {table resolved finished after : DefinitionTable} {path : List String}
  {name raw expanded : String} {fault : PatternError}

/-- `expanded` is the full expansion of the definition `name`. -/
def Stands (table : DefinitionTable) (name expanded : String) : Prop :=
  ∃ body, table.get? name = some body ∧ Expands table (Piece.ofText body) expanded.toList

def Fills (table : DefinitionTable) : Piece → List Char → Prop
  | .kept glyph, part => part = glyph.chars
  | .reference name, part =>
      ∃ inner, table.Stands name inner ∧ part = '(' :: inner.toList ++ [')']
  | .unclosed _, _ => False

theorem expands_of_fills {pieces : List Piece} {parts : List (List Char)}
    (fills : List.Forall₂ table.Fills pieces parts) : Expands table pieces parts.flatten := by
  induction fills with
  | nil => exact .nil
  | @cons piece part pieces parts fills later ih =>
      rw [List.flatten_cons]
      cases piece with
      | kept glyph =>
          rw [show part = glyph.chars from fills]
          exact .kept ih
      | reference name =>
          rcases fills with ⟨inner, ⟨body, declared, full⟩, rfl⟩
          exact .reference declared full ih
      | unclosed position => exact absurd fills id

theorem expands_of_expandReferences {body : String → Except PatternError String}
    (stands : ∀ name inner, body name = .ok inner → table.Stands name inner)
    (done : expandReferences body raw = .ok expanded) :
    Expands table (Piece.ofText raw) expanded.toList := by
  unfold expandReferences at done
  cases mapped : (Piece.ofText raw).mapM (Piece.expand body raw) with
  | error fault =>
      rw [mapped] at done
      cases done
  | ok parts =>
      rw [mapped] at done
      cases done
      rw [String.toList_ofList]
      refine expands_of_fills ((forall₂_of_mapM mapped).imp ?_)
      intro piece part expands
      cases piece with
      | kept glyph =>
          cases expands
          rfl
      | unclosed position => cases expands
      | reference name =>
          cases found : body name with
          | error fault => simp [Piece.expand, found, bind, Except.bind] at expands
          | ok inner =>
              simp only [Piece.expand, found, bind, Except.bind, pure, Except.pure,
                Except.ok.injEq] at expands
              exact ⟨inner, stands name inner found, expands.symm⟩

/-- All that has been finished is right. -/
def Agrees (table finished : DefinitionTable) : Prop :=
  ∀ name expanded, finished.get? name = some expanded → table.Stands name expanded

theorem agrees_empty (table : DefinitionTable) : table.Agrees {} := by
  intro name expanded found
  cases found

theorem Agrees.declare (agrees : table.Agrees finished) (stands : table.Stands name expanded) :
    table.Agrees (finished.declare name expanded) := by
  intro other text found
  rw [get?_declare] at found
  split at found
  case isTrue same =>
    cases found
    rw [same]
    exact stands
  case isFalse => exact agrees other text found

theorem agrees_ofList {entries : List (String × String)}
    (stands : ∀ entry ∈ entries, table.Stands entry.1 entry.2) : table.Agrees (ofList entries) := by
  induction entries using List.reverseRecOn with
  | nil => exact table.agrees_empty
  | append_singleton entries entry ih =>
      have earlier := fun other member => stands other (List.mem_append_left _ member)
      have last := stands entry (List.mem_append_right _ List.mem_cons_self)
      rw [ofList_concat]
      exact (ih earlier).declare last

theorem expands_of_expandReferences_run
    {body : String → StateT DefinitionTable (Except PatternError) String}
    (each : ∀ name finished inner after, table.Agrees finished →
      (body name).run finished = .ok (inner, after) →
      table.Stands name inner ∧ table.Agrees after)
    (agrees : table.Agrees finished)
    (done : (expandReferences body raw).run finished = .ok (expanded, after)) :
    Expands table (Piece.ofText raw) expanded.toList ∧ table.Agrees after := by
  unfold expandReferences at done
  rcases bind_run_eq_ok done with ⟨parts, last, mapped, done⟩
  cases done
  rw [String.toList_ofList]
  refine (forall₂_of_mapM_run ?_ agrees mapped).imp_left expands_of_fills
  intro piece member finished part after agrees expands
  cases piece with
  | kept glyph =>
      cases expands
      exact ⟨rfl, agrees⟩
  | unclosed position => cases expands
  | reference name =>
      rcases bind_run_eq_ok expands with ⟨inner, last, found, expands⟩
      cases expands
      rcases each name finished inner after agrees found with ⟨stands, kept⟩
      exact ⟨⟨inner, stands, rfl⟩, kept⟩

theorem resolveName_run_eq_ok
    (done : (table.resolveName path name).run finished = .ok (expanded, after)) :
    (finished.get? name = some expanded ∧ after = finished) ∨
      ∃ body last, table.get? name = some body ∧ name ∉ path ∧
        (expandReferences (table.resolveName (name :: path)) body).run finished =
          .ok (expanded, last) ∧ after = last.declare name expanded := by
  rw [resolveName, StateT.run_bind, StateT.run_get, pure_bind] at done
  dsimp only at done
  split at done
  case h_1 known =>
    cases done
    exact .inl ⟨known, rfl⟩
  case h_2 unknown =>
    split at done
    case h_1 => cases done
    case h_2 body found =>
      split at done
      case isTrue => cases done
      case isFalse fresh =>
        rcases bind_run_eq_ok done with ⟨value, last, expands, done⟩
        cases done
        exact .inr ⟨body, last, found, fresh, expands, rfl⟩

theorem resolveName_run_eq_error
    (failed : (table.resolveName path name).run finished = .error fault) :
    (table.get? name = none ∧ fault = .undefinedReference name) ∨
      ∃ body, table.get? name = some body ∧
        (name ∈ path ∧ fault = .cyclicDefinition name ∨
          name ∉ path ∧ (expandReferences (table.resolveName (name :: path)) body).run finished =
            .error fault) := by
  rw [resolveName, StateT.run_bind, StateT.run_get, pure_bind] at failed
  dsimp only at failed
  split at failed
  case h_1 => cases failed
  case h_2 unknown =>
    split at failed
    case h_1 missing =>
      cases failed
      exact .inl ⟨missing, rfl⟩
    case h_2 body found =>
      refine .inr ⟨body, found, ?_⟩
      split at failed
      case isTrue onPath =>
        cases failed
        exact .inl ⟨onPath, rfl⟩
      case isFalse fresh =>
        rcases bind_run_eq_error failed with fails | ⟨value, last, -, failed⟩
        · exact .inr ⟨fresh, fails⟩
        · cases failed

theorem stands_of_resolveName {path : List String} {name expanded : String}
    {finished after : DefinitionTable} (agrees : table.Agrees finished)
    (done : (table.resolveName path name).run finished = .ok (expanded, after)) :
    table.Stands name expanded ∧ table.Agrees after := by
  rcases resolveName_run_eq_ok done with
    ⟨known, rfl⟩ | ⟨body, last, found, fresh, expands, rfl⟩
  · exact ⟨agrees name expanded known, agrees⟩
  · have _ := unvisited_cons_lt (mem_names_of_get? found) fresh
    rcases expands_of_expandReferences_run (fun _ _ _ _ => stands_of_resolveName) agrees expands
      with ⟨full, kept⟩
    have stands : table.Stands name expanded := ⟨body, found, full⟩
    exact ⟨stands, kept.declare stands⟩
termination_by table.unvisited path

/-- Resolving takes the names one by one, and declares the expansions in the same order. -/
theorem resolve_eq_ok (resolves : table.resolve = .ok resolved) :
    ∃ entries, resolved = ofList entries ∧ List.Forall₂ (fun source entry =>
      entry.1 = source.1 ∧ table.Stands source.1 entry.2) table.entries entries := by
  unfold resolve at resolves
  cases ran : StateT.run (table.entries.mapM fun entry => do
      let expanded ← table.resolveName [] entry.1
      return (entry.1, expanded)) {} with
  | error fault =>
      rw [StateT.run'_eq, ran] at resolves
      cases resolves
  | ok result =>
      rw [StateT.run'_eq, ran] at resolves
      cases resolves
      refine ⟨result.1, rfl, (forall₂_of_mapM_run ?_ table.agrees_empty ran).1⟩
      intro source member finished entry after agrees taken
      rcases bind_run_eq_ok taken with ⟨expanded, last, named, taken⟩
      cases taken
      rcases stands_of_resolveName agrees named with ⟨stands, kept⟩
      exact ⟨⟨rfl, stands⟩, kept⟩

theorem resolve_eq_error (failed : table.resolve = .error fault) :
    ∃ name ∈ table.names, ∃ finished, (table.resolveName [] name).run finished = .error fault := by
  unfold resolve at failed
  cases ran : StateT.run (table.entries.mapM fun entry => do
      let expanded ← table.resolveName [] entry.1
      return (entry.1, expanded)) {} with
  | ok result =>
      rw [StateT.run'_eq, ran] at failed
      cases failed
  | error first =>
      rw [StateT.run'_eq, ran] at failed
      cases failed
      rcases exists_of_mapM_run_error ran with ⟨entry, member, finished, fails⟩
      rcases bind_run_eq_error fails with fails | ⟨expanded, last, -, fails⟩
      · exact ⟨entry.1, List.mem_map_of_mem member, finished, fails⟩
      · cases fails

/-- A resolved table binds each name to the full expansion of its definition. -/
theorem agrees_of_resolve (resolves : table.resolve = .ok resolved) : table.Agrees resolved := by
  rcases resolve_eq_ok resolves with ⟨entries, rfl, each⟩
  apply agrees_ofList
  intro entry member
  rcases exists_of_forall₂_right each member with ⟨source, -, same, stands⟩
  rw [same]
  exact stands

theorem expands_of_substitute {text expanded : String} (resolves : table.resolve = .ok resolved)
    (substituted : resolved.substitute text = .ok expanded) :
    Expands table (Piece.ofText text) expanded.toList := by
  refine expands_of_expandReferences (fun name inner bound => ?_) substituted
  cases found : resolved.get? name with
  | none => simp [body, found] at bound
  | some pattern =>
      have same : pattern = inner := by simpa [body, found] using bound
      rw [← same]
      exact agrees_of_resolve resolves name pattern found

end DefinitionTable

end MaximalMunch
