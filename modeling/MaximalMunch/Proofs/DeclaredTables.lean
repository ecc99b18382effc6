import MaximalMunch.Definitions.Table
import MaximalMunch.Proofs.OrderedMaps
import Mathlib.Data.List.Induction
import Mathlib.Data.List.Nodup

/-!
Tables of definitions after a declaration, and after a list of them. The names of a declared table
are distinct, so that such a table is its own list of declarations.
-/

namespace MaximalMunch

namespace DefinitionTable

variable {table : DefinitionTable} {name pattern other : String} {entry : String × String}
  {entries : List (String × String)}

theorem mem_names_iff : name ∈ table.names ↔ ∃ pattern, table.get? name = some pattern := by
  constructor
  · intro member
    cases found : table.get? name with
    | some pattern => exact ⟨pattern, rfl⟩
    | none =>
        rcases List.mem_map.mp member with ⟨entry, listed, rfl⟩
        have differs := List.lookup_eq_none_iff.mp found entry listed
        simp at differs
  · intro declared
    rcases declared with ⟨pattern, found⟩
    exact mem_names_of_get? found

theorem get?_of_mem (distinct : table.names.Nodup) (member : entry ∈ table.entries) :
    table.get? entry.1 = some entry.2 :=
  lookup_of_nodup distinct member

theorem entries_eq_filterMap (distinct : table.names.Nodup) :
    table.entries = table.names.filterMap fun name => (table.get? name).map (name, ·) := by
  rw [names, List.filterMap_map]
  calc table.entries
      = table.entries.filterMap some := List.filterMap_some.symm
    _ = _ := by
      apply List.filterMap_congr
      intro entry member
      rw [Function.comp_apply, get?_of_mem distinct member]
      rfl

theorem eq_of_get? {also : DefinitionTable} (distinct : table.names.Nodup)
    (names : also.names = table.names) (same : ∀ name, also.get? name = table.get? name) :
    also = table := by
  have entries : also.entries = table.entries := by
    rw [entries_eq_filterMap distinct, entries_eq_filterMap (names ▸ distinct), names]
    simp only [same]
  cases table
  cases also
  exact congrArg DefinitionTable.mk entries

theorem lookup_replaceOrAppend (name pattern other : String) (entries : List (String × String)) :
    (replaceOrAppend name pattern entries).lookup other =
      if other = name then some pattern else entries.lookup other := by
  induction entries with
  | nil => rw [replaceOrAppend, lookup_cons_eq_ite]
  | cons head rest ih =>
      rw [replaceOrAppend]
      split
      case isTrue taken =>
        rw [lookup_cons_eq_ite, lookup_cons_eq_ite, taken]
        split <;> rfl
      case isFalse free =>
        rw [lookup_cons_eq_ite, lookup_cons_eq_ite, ih]
        by_cases same : other = head.1
        · rw [if_pos same, if_pos same, if_neg fun also => free (same.symm.trans also)]
        · rw [if_neg same, if_neg same]

@[simp]
theorem get?_declare (table : DefinitionTable) (name pattern other : String) :
    (table.declare name pattern).get? other =
      if other = name then some pattern else table.get? other :=
  lookup_replaceOrAppend name pattern other table.entries

theorem map_fst_replaceOrAppend (name pattern : String) (entries : List (String × String)) :
    (replaceOrAppend name pattern entries).map Prod.fst =
      if name ∈ entries.map Prod.fst then entries.map Prod.fst
      else entries.map Prod.fst ++ [name] := by
  induction entries with
  | nil => rfl
  | cons head rest ih =>
      rw [replaceOrAppend]
      split
      case isTrue taken => simp [taken]
      case isFalse free =>
        rw [List.map_cons, List.map_cons, ih]
        by_cases later : name ∈ rest.map Prod.fst
        · rw [if_pos later, if_pos (List.mem_cons_of_mem _ later)]
        · have fresh : name ∉ head.1 :: rest.map Prod.fst := by
            rw [List.mem_cons, not_or]
            exact ⟨fun same => free same.symm, later⟩
          rw [if_neg later, if_neg fresh, List.cons_append]

theorem names_declare (table : DefinitionTable) (name pattern : String) :
    (table.declare name pattern).names =
      if name ∈ table.names then table.names else table.names ++ [name] :=
  map_fst_replaceOrAppend name pattern table.entries

theorem replaceOrAppend_of_fresh (fresh : name ∉ entries.map Prod.fst) :
    replaceOrAppend name pattern entries = entries ++ [(name, pattern)] := by
  induction entries with
  | nil => rfl
  | cons head rest ih =>
      rw [List.map_cons, List.mem_cons, not_or] at fresh
      rw [replaceOrAppend, if_neg fun same => fresh.1 same.symm, ih fresh.2, List.cons_append]

theorem ofList_concat (entries : List (String × String)) (entry : String × String) :
    ofList (entries ++ [entry]) = (ofList entries).declare entry.1 entry.2 := by
  rw [ofList, List.foldl_append]
  rfl

@[simp]
theorem mem_names_ofList : name ∈ (ofList entries).names ↔ name ∈ entries.map Prod.fst := by
  induction entries using List.reverseRecOn with
  | nil => rfl
  | append_singleton entries entry ih =>
      rw [ofList_concat, names_declare, List.map_append, List.mem_append, ← ih]
      split
      case isTrue declared =>
        rw [List.map_singleton, List.mem_singleton]
        constructor
        · exact .inl
        · intro either
          rcases either with member | rfl
          · exact member
          · exact declared
      case isFalse => rw [List.mem_append, List.map_singleton]

theorem nodup_names_ofList (entries : List (String × String)) : (ofList entries).names.Nodup := by
  induction entries using List.reverseRecOn with
  | nil => exact List.nodup_nil
  | append_singleton entries entry ih =>
      rw [ofList_concat, names_declare]
      split
      case isTrue => exact ih
      case isFalse fresh =>
        rw [← List.concat_eq_append]
        exact ih.concat fresh

theorem names_ofList (entries : List (String × String)) :
    (ofList entries).names = (entries.map Prod.fst).eraseDups := by
  induction entries using List.reverseRecOn with
  | nil => rfl
  | append_singleton entries entry ih =>
      rw [ofList_concat, names_declare, List.map_append, List.eraseDups_append, ← ih]
      by_cases declared : entry.1 ∈ entries.map Prod.fst
      · rw [if_pos (mem_names_ofList.mpr declared)]
        simp [List.removeAll, declared]
      · rw [if_neg fun member => declared (mem_names_ofList.mp member)]
        simp [List.removeAll, declared, List.eraseDups_cons]

theorem get?_ofList (entries : List (String × String)) (name : String) :
    (ofList entries).get? name = entries.reverse.lookup name := by
  induction entries using List.reverseRecOn with
  | nil => rfl
  | append_singleton entries entry ih =>
      rw [ofList_concat, get?_declare, ih, List.reverse_append, List.reverse_singleton,
        List.singleton_append, lookup_cons_eq_ite]

theorem ofList_of_nodup (distinct : (entries.map Prod.fst).Nodup) :
    ofList entries = ⟨entries⟩ := by
  induction entries using List.reverseRecOn with
  | nil => rfl
  | append_singleton entries entry ih =>
      rw [List.map_append, List.map_singleton, List.nodup_append] at distinct
      have fresh : entry.1 ∉ entries.map Prod.fst := by
        intro member
        exact distinct.2.2 _ member _ (List.mem_singleton.mpr rfl) rfl
      rw [ofList_concat, ih distinct.1, declare, replaceOrAppend_of_fresh fresh]

end DefinitionTable

end MaximalMunch
