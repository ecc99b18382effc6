import MaximalMunch.Ordered.Map

/-!
Looking up keys in a list of entries, and in an ordered map after one of them was bound.
-/

namespace MaximalMunch

variable {α β : Type} [DecidableEq α]

theorem lookup_cons_eq_ite (key other : α) (value : β) (rest : List (α × β)) :
    ((key, value) :: rest).lookup other =
      if other = key then some value else rest.lookup other := by
  by_cases same : other = key
  · simp [same]
  · have different : (other == key) = false := beq_false_of_ne same
    simp [List.lookup_cons, different, same]

theorem lookup_of_nodup {entries : List (α × β)} {entry : α × β}
    (distinct : (entries.map Prod.fst).Nodup) (member : entry ∈ entries) :
    entries.lookup entry.1 = some entry.2 := by
  induction entries with
  | nil => cases member
  | cons head rest ih =>
      obtain ⟨fresh, later⟩ := List.nodup_cons.mp distinct
      rw [lookup_cons_eq_ite]
      obtain rfl | behind := List.mem_cons.mp member
      · rw [if_pos rfl]
      · have other : entry.1 ≠ head.1 := by
          intro same
          exact fresh (same ▸ List.mem_map_of_mem behind)
        rw [if_neg other]
        exact ih later behind

variable [LT α]

@[simp]
theorem OrderedMap.get?_empty (key : α) : (∅ : OrderedMap α β).get? key = none := rfl

@[simp]
theorem OrderedMap.mem_keys {map : OrderedMap α β} {key : α} :
    key ∈ map.keys ↔ map.contains key = true := by
  rw [keys, contains, get?, List.mem_map, List.lookup_isSome_iff]
  constructor
  · rintro ⟨entry, member, rfl⟩
    exact ⟨entry, member, beq_self_eq_true entry.1⟩
  · rintro ⟨entry, member, same⟩
    exact ⟨entry, member, (eq_of_beq same).symm⟩

variable [DecidableLT α] [LE α] [Std.IsLinearOrder α] [Std.LawfulOrderLT α]

theorem lookup_insertEntry (key other : α) (value : β) (entries : List (α × β)) :
    (insertEntry key value entries).lookup other =
      if other = key then some value else entries.lookup other := by
  induction entries with
  | nil => simp [insertEntry, lookup_cons_eq_ite]
  | cons head rest ih =>
      rcases head with ⟨k, v⟩
      rw [insertEntry]
      split
      case isTrue => rw [lookup_cons_eq_ite]
      case isFalse notBefore =>
        split
        case isTrue after =>
          have different : k ≠ key := fun same => Std.lt_irrefl (same ▸ after)
          rw [lookup_cons_eq_ite, lookup_cons_eq_ite, ih]
          by_cases here : other = k
          · simp [here, different]
          · simp [here]
        case isFalse notAfter =>
          have same : key = k := by
            rcases Std.lt_trichotomy key k with before | equal | after
            · exact absurd before notBefore
            · exact equal
            · exact absurd after notAfter
          subst same
          rw [lookup_cons_eq_ite, lookup_cons_eq_ite]
          by_cases here : other = key <;> simp [here]

omit [DecidableLT α] [Std.IsLinearOrder α] in
theorem OrderedMap.get?_eq_some_iff {map : OrderedMap α β} {key : α} {value : β} :
    map.get? key = some value ↔ (key, value) ∈ map.entries := by
  constructor
  · intro bound
    obtain ⟨before, after, split, -⟩ := List.lookup_eq_some_iff.mp bound
    rw [split]
    exact List.mem_append_right before List.mem_cons_self
  · intro member
    have distinct : (map.entries.map Prod.fst).Nodup := by
      rw [List.Nodup, List.pairwise_map]
      exact map.ascending.imp fun {first later} before => Std.ne_of_lt before
    exact lookup_of_nodup distinct member

@[simp]
theorem OrderedMap.get?_insert (map : OrderedMap α β) (key other : α) (value : β) :
    (map.insert key value).get? other = if other = key then some value else map.get? other :=
  lookup_insertEntry key other value map.entries

@[simp]
theorem OrderedMap.contains_insert (map : OrderedMap α β) (key other : α) (value : β) :
    (map.insert key value).contains other = true ↔ other = key ∨ map.contains other = true := by
  rw [contains, get?_insert]
  by_cases same : other = key
  · simp [same]
  · simp [same, contains]

end MaximalMunch
