/-!
Finite maps kept as lists with strictly ascending keys. The order is part of the
type, so two maps with the same entries are equal.
-/

namespace MaximalMunch

/-- Puts `value` at its place among ascending keys; an equal key gives up its value. -/
def insertEntry {α β : Type} [LT α] [DecidableLT α] (key : α) (value : β) :
    List (α × β) → List (α × β)
  | [] => [(key, value)]
  | (k, v) :: rest =>
    if key < k then (key, value) :: (k, v) :: rest
    else if k < key then (k, v) :: insertEntry key value rest
    else (key, value) :: rest

section Order

variable {α β : Type} [LT α] [DecidableLT α]

def AscendingKeys (entries : List (α × β)) : Prop :=
  entries.Pairwise fun a b => a.1 < b.1

theorem mem_insertEntry {key : α} {value : β} {entry : α × β} {entries : List (α × β)}
    (member : entry ∈ insertEntry key value entries) :
    entry = (key, value) ∨ entry ∈ entries := by
  induction entries with
  | nil => simpa [insertEntry] using member
  | cons head rest ih =>
    obtain ⟨k, v⟩ := head
    rw [insertEntry] at member
    split at member
    · simpa using member
    · split at member
      · grind
      · grind

variable [LE α] [Std.IsLinearOrder α] [Std.LawfulOrderLT α]

theorem insertEntry_ascending (key : α) (value : β) {entries : List (α × β)}
    (ascending : AscendingKeys entries) : AscendingKeys (insertEntry key value entries) := by
  induction entries with
  | nil => simp [insertEntry, AscendingKeys]
  | cons head rest ih =>
    obtain ⟨k, v⟩ := head
    have later : ∀ entry ∈ rest, k < entry.1 := (List.pairwise_cons.mp ascending).1
    have tail : AscendingKeys rest := (List.pairwise_cons.mp ascending).2
    rw [insertEntry]
    split
    case isTrue before =>
      refine List.pairwise_cons.mpr ⟨fun entry member => ?_, ascending⟩
      rcases List.mem_cons.mp member with rfl | member
      · exact before
      · exact Std.lt_trans before (later entry member)
    case isFalse notBefore =>
      split
      case isTrue after =>
        refine List.pairwise_cons.mpr ⟨fun entry member => ?_, ih tail⟩
        rcases mem_insertEntry member with rfl | member
        · exact after
        · exact later entry member
      case isFalse notAfter =>
        have same : key = k := by
          rcases Std.lt_trichotomy key k with h | h | h
          · exact absurd h notBefore
          · exact h
          · exact absurd h notAfter
        subst same
        exact List.pairwise_cons.mpr ⟨later, tail⟩

end Order

structure OrderedMap (α β : Type) [LT α] where
  entries : List (α × β)
  ascending : AscendingKeys entries
  deriving DecidableEq, Repr

namespace OrderedMap

variable {α β : Type} [LT α]

def empty : OrderedMap α β := ⟨[], List.Pairwise.nil⟩

instance : Inhabited (OrderedMap α β) := ⟨empty⟩

instance : EmptyCollection (OrderedMap α β) := ⟨empty⟩

def size (map : OrderedMap α β) : Nat := map.entries.length

def keys (map : OrderedMap α β) : List α := map.entries.map Prod.fst

def get? [DecidableEq α] (map : OrderedMap α β) (key : α) : Option β := map.entries.lookup key

def contains [DecidableEq α] (map : OrderedMap α β) (key : α) : Bool := (map.get? key).isSome

variable [DecidableLT α] [LE α] [Std.IsLinearOrder α] [Std.LawfulOrderLT α]

def insert (map : OrderedMap α β) (key : α) (value : β) : OrderedMap α β :=
  ⟨insertEntry key value map.entries, insertEntry_ascending key value map.ascending⟩

/-- Entries are put in from left to right, so the last of equal keys stays. -/
def ofList (entries : List (α × β)) : OrderedMap α β :=
  entries.foldl (fun map entry => map.insert entry.1 entry.2) empty

end OrderedMap

end MaximalMunch
