/-!
Finite sets kept as strictly ascending lists. Listing a set gives its elements in
order, and sets with the same elements are equal.
-/

namespace MaximalMunch

/-- Puts `element` at its place in an ascending list that may already hold it. -/
def insertElement {α : Type} [LT α] [DecidableLT α] (element : α) : List α → List α
  | [] => [element]
  | head :: rest =>
    if element < head then element :: head :: rest
    else if head < element then head :: insertElement element rest
    else head :: rest

section Order

variable {α : Type} [LT α] [DecidableLT α]

def Ascending (elements : List α) : Prop := elements.Pairwise (· < ·)

theorem mem_of_mem_insertElement {element other : α} {elements : List α}
    (member : other ∈ insertElement element elements) :
    other = element ∨ other ∈ elements := by
  induction elements with
  | nil => simpa [insertElement] using member
  | cons head rest ih =>
    rw [insertElement] at member
    split at member
    · simpa using member
    · split at member
      · grind
      · exact .inr member

variable [LE α] [Std.IsLinearOrder α] [Std.LawfulOrderLT α]

theorem insertElement_ascending (element : α) {elements : List α}
    (ascending : Ascending elements) : Ascending (insertElement element elements) := by
  induction elements with
  | nil => simp [insertElement, Ascending]
  | cons head rest ih =>
    have later : ∀ other ∈ rest, head < other := (List.pairwise_cons.mp ascending).1
    have tail : Ascending rest := (List.pairwise_cons.mp ascending).2
    rw [insertElement]
    split
    case isTrue before =>
      refine List.pairwise_cons.mpr ⟨fun other member => ?_, ascending⟩
      rcases List.mem_cons.mp member with rfl | member
      · exact before
      · exact Std.lt_trans before (later other member)
    case isFalse =>
      split
      case isTrue after =>
        refine List.pairwise_cons.mpr ⟨fun other member => ?_, ih tail⟩
        rcases mem_of_mem_insertElement member with rfl | member
        · exact after
        · exact later other member
      case isFalse => exact ascending

theorem mem_insertElement {element other : α} {elements : List α} :
    other ∈ insertElement element elements ↔ other = element ∨ other ∈ elements := by
  refine ⟨mem_of_mem_insertElement, fun either => ?_⟩
  induction elements with
  | nil => simpa [insertElement] using either
  | cons head rest ih =>
    rw [insertElement]
    split
    · simpa using either
    case isFalse notBefore =>
      split
      · grind
      case isFalse notAfter =>
        have same : element = head := by
          rcases Std.lt_trichotomy element head with h | h | h
          · exact absurd h notBefore
          · exact h
          · exact absurd h notAfter
        grind

end Order

structure OrderedSet (α : Type) [LT α] where
  elements : List α
  ascending : Ascending elements
  deriving DecidableEq, Repr

namespace OrderedSet

variable {α : Type} [LT α]

def empty : OrderedSet α := ⟨[], List.Pairwise.nil⟩

instance : Inhabited (OrderedSet α) := ⟨empty⟩

instance : EmptyCollection (OrderedSet α) := ⟨empty⟩

instance : Membership α (OrderedSet α) := ⟨fun set element => element ∈ set.elements⟩

instance [DecidableEq α] (element : α) (set : OrderedSet α) : Decidable (element ∈ set) :=
  inferInstanceAs (Decidable (element ∈ set.elements))

def size (set : OrderedSet α) : Nat := set.elements.length

def isEmpty (set : OrderedSet α) : Bool := set.elements.isEmpty

variable [DecidableLT α] [LE α] [Std.IsLinearOrder α] [Std.LawfulOrderLT α]

def insert (set : OrderedSet α) (element : α) : OrderedSet α :=
  ⟨insertElement element set.elements, insertElement_ascending element set.ascending⟩

def ofList (elements : List α) : OrderedSet α := elements.foldl insert empty

@[simp]
theorem mem_insert {set : OrderedSet α} {element other : α} :
    other ∈ set.insert element ↔ other = element ∨ other ∈ set :=
  mem_insertElement

end OrderedSet

end MaximalMunch
