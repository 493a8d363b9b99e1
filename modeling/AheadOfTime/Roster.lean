import Std.Data.HashMap

/-!
# Rosters

A roster lists distinct items in the order in which they first appeared, and knows the position of
each.  Positions are handed out once and never change: adding an item leaves all others where they
are.
-/

set_option autoImplicit false

namespace AheadOfTime

/-- Distinct items in order of first appearance, with their positions. -/
structure Roster (α : Type) [BEq α] [LawfulBEq α] [Hashable α] where
  /-- The items, in order. -/
  items : Array α
  /-- The position of each item. -/
  positions : Std.HashMap α Nat
  /-- The positions are exactly those of the items. -/
  coherent : ∀ (a : α) (i : Nat), positions[a]? = some i ↔ items[i]? = some a

namespace Roster

variable {α : Type} [BEq α] [LawfulBEq α] [Hashable α]

/-- The roster without items. -/
def empty : Roster α where
  items := #[]
  positions := ∅
  coherent := by simp

instance : Inhabited (Roster α) := ⟨empty⟩

/-- The number of items. -/
def size (r : Roster α) : Nat :=
  r.items.size

/-- The items, in order. -/
def toList (r : Roster α) : List α :=
  r.items.toList

/-- The position of an item. -/
def position? (r : Roster α) (a : α) : Option Nat :=
  r.positions[a]?

/-- The item at a position. -/
def get? (r : Roster α) (i : Nat) : Option α :=
  r.items[i]?

/-- Whether an item is listed. -/
def contains (r : Roster α) (a : α) : Bool :=
  r.positions.contains a

/-- The listed object that is the same as an item. -/
def find? (r : Roster α) (a : α) : Option { b : α // b = a } :=
  match hi : r.positions[a]? with
  | none => none
  | some i =>
    match hb : r.items[i]? with
    | none => none
    | some b => some ⟨b, Option.some.inj (hb.symm.trans ((r.coherent a i).1 hi))⟩

/-- Positions and items agree again after a new item was put at the end of both. -/
theorem coherent_push (r : Roster α) (a : α) (h : r.positions[a]? = none) (b : α) (i : Nat) :
    (r.positions.insert a r.items.size)[b]? = some i ↔ (r.items.push a)[i]? = some b := by
  rw [Std.HashMap.getElem?_insert, Array.getElem?_push]
  have hb := r.coherent b i
  have ha := r.coherent a i
  by_cases hab : a = b
  · subst hab
    by_cases hi : i = r.items.size
    · simp [hi]
    · simp_all [eq_comm]
  · have : (a == b) = false := by simpa using hab
    by_cases hi : i = r.items.size
    · subst hi
      simp_all
    · simp_all

/-- Adds an item at the end, unless it is listed already. -/
def insert (r : Roster α) (a : α) : Roster α :=
  match h : r.positions[a]? with
  | some _ => r
  | none =>
    let next := r.items.size
    ⟨r.items.push a, r.positions.insert a next, r.coherent_push a h⟩

/-- Adds the items of a list, in order. -/
def insertAll (r : Roster α) (l : List α) : Roster α :=
  l.foldl insert r

/-- An empty roster lists nothing. -/
@[simp] theorem toList_empty : (empty : Roster α).toList = [] := rfl

/-- The position of an item is the place where it is listed. -/
theorem position?_eq_some_iff (r : Roster α) (a : α) (i : Nat) :
    r.position? a = some i ↔ r.get? i = some a :=
  r.coherent a i

/-- Exactly the listed items are found. -/
theorem isSome_find? (r : Roster α) (a : α) : (r.find? a).isSome = r.contains a := by
  rw [contains, Std.HashMap.contains_eq_isSome_getElem?, find?]
  split
  · next h => simp [h]
  · next i hi =>
    split
    · next hb =>
      rw [(r.coherent a i).1 hi] at hb
      cases hb
    · simp [hi]

/-- A roster contains exactly the items that it lists. -/
theorem contains_iff_mem (r : Roster α) (a : α) : r.contains a = true ↔ a ∈ r.toList := by
  rw [contains, Std.HashMap.contains_eq_isSome_getElem?, Option.isSome_iff_exists, toList,
    Array.mem_toList_iff, Array.mem_iff_getElem?]
  exact exists_congr fun i => r.coherent a i

end Roster

end AheadOfTime
