import MaximalMunch.Ordered.Map
import MaximalMunch.Ordered.Set
import Mathlib.Data.List.Induction

/-!
Making ordered maps and sets from lists. What is listed in order is put in at the end, so that a
map is made again of its entries and a set of its elements.
-/

namespace MaximalMunch

variable {α β : Type} [LT α]

theorem OrderedMap.eq_of_entries {first second : OrderedMap α β}
    (same : first.entries = second.entries) : first = second := by
  cases first
  cases second
  cases same
  rfl

theorem OrderedSet.eq_of_elements {first second : OrderedSet α}
    (same : first.elements = second.elements) : first = second := by
  cases first
  cases second
  cases same
  rfl

variable [DecidableLT α] [LE α] [Std.IsLinearOrder α] [Std.LawfulOrderLT α]

theorem insertEntry_of_last {key : α} {value : β} {entries : List (α × β)}
    (last : ∀ entry ∈ entries, entry.1 < key) :
    insertEntry key value entries = entries ++ [(key, value)] := by
  induction entries with
  | nil => rfl
  | cons head rest ih =>
      have before : head.1 < key := last head List.mem_cons_self
      have notAfter : ¬ key < head.1 := fun after => Std.lt_irrefl (Std.lt_trans before after)
      rw [insertEntry, if_neg notAfter, if_pos before,
        ih fun entry member => last entry (List.mem_cons_of_mem _ member), List.cons_append]

theorem insertElement_of_last {element : α} {elements : List α}
    (last : ∀ other ∈ elements, other < element) :
    insertElement element elements = elements ++ [element] := by
  induction elements with
  | nil => rfl
  | cons head rest ih =>
      have before : head < element := last head List.mem_cons_self
      have notAfter : ¬ element < head := fun after => Std.lt_irrefl (Std.lt_trans before after)
      rw [insertElement, if_neg notAfter, if_pos before,
        ih fun other member => last other (List.mem_cons_of_mem _ member), List.cons_append]

namespace OrderedMap

theorem ofList_concat (entries : List (α × β)) (entry : α × β) :
    ofList (entries ++ [entry]) = (ofList entries).insert entry.1 entry.2 := by
  rw [ofList, List.foldl_append]
  rfl

theorem entries_ofList {entries : List (α × β)} (ascending : AscendingKeys entries) :
    (ofList entries).entries = entries := by
  induction entries using List.reverseRecOn with
  | nil => rfl
  | append_singleton entries entry ih =>
      obtain ⟨earlier, -, last⟩ := List.pairwise_append.mp ascending
      calc (ofList (entries ++ [entry])).entries
          = insertEntry entry.1 entry.2 (ofList entries).entries := by rw [ofList_concat]; rfl
        _ = insertEntry entry.1 entry.2 entries := by rw [ih earlier]
        _ = entries ++ [entry] := insertEntry_of_last fun other member =>
          last other member entry List.mem_cons_self

@[simp]
theorem ofList_entries (map : OrderedMap α β) : ofList map.entries = map :=
  eq_of_entries (entries_ofList map.ascending)

theorem mem_entries_ofList {entries : List (α × β)} {entry : α × β}
    (member : entry ∈ (ofList entries).entries) : entry ∈ entries := by
  induction entries using List.reverseRecOn with
  | nil => exact member
  | append_singleton entries other ih =>
      rw [ofList_concat] at member
      apply List.mem_append.mpr
      obtain rfl | earlier := mem_insertEntry member
      · exact .inr List.mem_cons_self
      · exact .inl (ih earlier)

end OrderedMap

namespace OrderedSet

theorem ofList_concat (elements : List α) (element : α) :
    ofList (elements ++ [element]) = (ofList elements).insert element := by
  rw [ofList, List.foldl_append]
  rfl

theorem elements_ofList {elements : List α} (ascending : Ascending elements) :
    (ofList elements).elements = elements := by
  induction elements using List.reverseRecOn with
  | nil => rfl
  | append_singleton elements element ih =>
      obtain ⟨earlier, -, last⟩ := List.pairwise_append.mp ascending
      calc (ofList (elements ++ [element])).elements
          = insertElement element (ofList elements).elements := by rw [ofList_concat]; rfl
        _ = insertElement element elements := by rw [ih earlier]
        _ = elements ++ [element] := insertElement_of_last fun other member =>
          last other member element List.mem_cons_self

@[simp]
theorem ofList_elements (set : OrderedSet α) : ofList set.elements = set :=
  eq_of_elements (elements_ofList set.ascending)

theorem mem_ofList {elements : List α} {element : α} (member : element ∈ ofList elements) :
    element ∈ elements := by
  induction elements using List.reverseRecOn with
  | nil => exact member
  | append_singleton elements other ih =>
      rw [ofList_concat, mem_insert] at member
      apply List.mem_append.mpr
      obtain rfl | earlier := member
      · exact .inr List.mem_cons_self
      · exact .inl (ih earlier)

end OrderedSet

end MaximalMunch
