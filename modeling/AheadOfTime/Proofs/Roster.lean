import AheadOfTime.Roster
import Mathlib.Data.List.Induction
import Mathlib.Data.List.Nodup

/-!
# Rosters as lists

Adding items to a roster, seen through the list of its items.
-/

set_option autoImplicit false

namespace AheadOfTime

/-- A longer list has the same elements at the same positions. -/
theorem getElem?_of_isPrefix {α : Type} {l l' : List α} (h : l <+: l') {i : Nat} {a : α}
    (ha : l[i]? = some a) : l'[i]? = some a := by
  obtain ⟨rest, rfl⟩ := h
  rw [List.getElem?_append_left (List.getElem?_eq_some_iff.1 ha).1, ha]

namespace Roster

variable {α : Type} [BEq α] [LawfulBEq α] [Hashable α]

/-- What stands at a position is what the list of items has there. -/
theorem get?_eq_getElem? (r : Roster α) (i : Nat) : r.get? i = r.toList[i]? := by
  simp [get?, toList]

/-- The size of a roster is the number of its items. -/
theorem size_eq_length (r : Roster α) : r.size = r.toList.length := by
  simp [size, toList]

/-- A new item is listed last. -/
theorem toList_insert_of_not_mem (r : Roster α) (a : α) (h : a ∉ r.toList) :
    (r.insert a).toList = r.toList ++ [a] := by
  have hnone : r.positions[a]? = none := by
    rw [← r.contains_iff_mem, contains, Std.HashMap.contains_eq_isSome_getElem?] at h
    simpa using h
  unfold insert
  split
  · next i hi => simp [hnone] at hi
  · simp [toList]

/-- Nothing changes if an item is listed already. -/
theorem insert_of_mem (r : Roster α) (a : α) (h : a ∈ r.toList) : r.insert a = r := by
  rw [← r.contains_iff_mem, contains, Std.HashMap.contains_eq_isSome_getElem?] at h
  unfold insert
  split
  · rfl
  · next hnone => simp [hnone] at h

/-- An insertion lists one more item at most. -/
theorem size_insert_le (r : Roster α) (a : α) : (r.insert a).size ≤ r.size + 1 := by
  by_cases ha : a ∈ r.toList
  · rw [r.insert_of_mem a ha]
    omega
  · rw [size_eq_length, size_eq_length, r.toList_insert_of_not_mem a ha]
    simp

/-- After an insertion, the items are those listed before and the new one. -/
theorem mem_toList_insert (r : Roster α) (a b : α) :
    b ∈ (r.insert a).toList ↔ b ∈ r.toList ∨ b = a := by
  by_cases h : a ∈ r.toList
  · rw [r.insert_of_mem a h]
    constructor
    · exact .inl
    · rintro (hb | rfl)
      · exact hb
      · exact h
  · simp [r.toList_insert_of_not_mem a h]

/-- After several insertions, the items are those listed before and the new ones. -/
theorem mem_toList_insertAll (r : Roster α) (l : List α) (b : α) :
    b ∈ (r.insertAll l).toList ↔ b ∈ r.toList ∨ b ∈ l := by
  induction l generalizing r with
  | nil => simp [insertAll]
  | cons a l ih =>
    show b ∈ ((r.insert a).insertAll l).toList ↔ _
    rw [ih, mem_toList_insert, List.mem_cons, or_assoc]

/-- After lists of items were inserted, the items are those listed before and all of these. -/
theorem mem_toList_foldl_insertAll (r : Roster α) (ls : List (List α)) (b : α) :
    b ∈ (ls.foldl insertAll r).toList ↔ b ∈ r.toList ∨ ∃ l ∈ ls, b ∈ l := by
  induction ls generalizing r with
  | nil => simp
  | cons l ls ih =>
    rw [List.foldl_cons, ih, mem_toList_insertAll, or_assoc]
    simp

/-! ## Order -/

/-- New items without repetition are listed at the end, in their order. -/
theorem toList_insertAll_of_nodup {r : Roster α} {l : List α} (h : (r.toList ++ l).Nodup) :
    (r.insertAll l).toList = r.toList ++ l := by
  induction l generalizing r with
  | nil => exact (List.append_nil _).symm
  | cons a l ih =>
    have ha : a ∉ r.toList := by
      intro hmem
      exact (List.nodup_append.1 h).2.2 a hmem a List.mem_cons_self rfl
    have hinsert := r.toList_insert_of_not_mem a ha
    show ((r.insert a).insertAll l).toList = _
    rw [ih (by rwa [hinsert, List.append_assoc, List.singleton_append]), hinsert,
      List.append_assoc, List.singleton_append]

/-- Joined lists are inserted one after the other. -/
theorem insertAll_append (r : Roster α) (l k : List α) :
    r.insertAll (l ++ k) = (r.insertAll l).insertAll k :=
  List.foldl_append

/-- Of items that are added more than once the first counts. -/
theorem toList_insertAll_empty (l : List α) : (empty.insertAll l).toList = l.eraseDups := by
  induction l using List.reverseRecOn with
  | nil => rfl
  | append_singleton l a ih =>
    have hmem : a ∈ (empty.insertAll l).toList ↔ a ∈ l := by simp [mem_toList_insertAll]
    rw [insertAll_append, List.eraseDups_append, ← ih]
    show ((empty.insertAll l).insert a).toList = _
    by_cases ha : a ∈ l
    · rw [insert_of_mem _ a (hmem.2 ha)]
      simp [List.removeAll, ha]
    · rw [toList_insert_of_not_mem _ a (mt hmem.1 ha)]
      simp [List.removeAll, ha, List.eraseDups_cons]

/-- Each item is listed where it first occurs, and no second time. -/
theorem toList_foldl_insertAll (ls : List (List α)) :
    (ls.foldl insertAll empty).toList = ls.flatten.eraseDups := by
  have hflatten : ∀ r : Roster α, ls.foldl insertAll r = r.insertAll ls.flatten := by
    induction ls with
    | nil => exact fun _ => rfl
    | cons l ls ih =>
      intro r
      rw [List.foldl_cons, ih, List.flatten_cons, insertAll_append]
  rw [hflatten, toList_insertAll_empty]

/-! ## Positions -/

/-- The listed items are those that stand at some position. -/
theorem mem_toList_iff_get? (r : Roster α) (a : α) : a ∈ r.toList ↔ ∃ i, r.get? i = some a := by
  rw [List.mem_iff_getElem?]
  simp only [get?_eq_getElem?]

/-- Positions of items are below the size. -/
theorem lt_size_of_get? {r : Roster α} {i : Nat} {a : α} (hi : r.get? i = some a) : i < r.size := by
  rw [get?_eq_getElem?] at hi
  rw [size_eq_length]
  exact (List.getElem?_eq_some_iff.1 hi).1

/-- A listed item is found. -/
theorem exists_find?_of_mem (r : Roster α) {a : α} (h : a ∈ r.toList) : ∃ b, r.find? a = some b := by
  rw [← Option.isSome_iff_exists, r.isSome_find?, r.contains_iff_mem]
  exact h

/-- An item that is not listed is not found. -/
theorem find?_of_not_mem (r : Roster α) {a : α} (h : a ∉ r.toList) : r.find? a = none := by
  rw [← r.contains_iff_mem, ← r.isSome_find?, Bool.not_eq_true] at h
  exact Option.isSome_eq_false_iff.1 h |> Option.isNone_iff_eq_none.1

/-- An item that is not listed has no position. -/
theorem position?_of_not_mem (r : Roster α) {a : α} (h : a ∉ r.toList) : r.position? a = none := by
  refine Option.eq_none_iff_forall_ne_some.2 fun i hi => h ?_
  exact (r.mem_toList_iff_get? a).2 ⟨i, (r.position?_eq_some_iff a i).1 hi⟩

/-- An insertion keeps what is listed, in its order. -/
theorem prefix_insert (r : Roster α) (a : α) : r.toList <+: (r.insert a).toList := by
  by_cases h : a ∈ r.toList
  · simp [r.insert_of_mem a h]
  · rw [r.toList_insert_of_not_mem a h]
    exact List.prefix_append _ _

/-- Adding items does not change what is listed at a position. -/
theorem get?_of_prefix {r r' : Roster α} (h : r.toList <+: r'.toList) {i : Nat} {a : α}
    (ha : r.get? i = some a) : r'.get? i = some a := by
  rw [get?_eq_getElem?] at ha ⊢
  exact getElem?_of_isPrefix h ha

/-- What each item is built from is listed before it. -/
def Ordered (r : Roster α) (parts : α → List α) : Prop :=
  ∀ i a, r.get? i = some a → ∀ p ∈ parts a, ∃ j < i, r.get? j = some p

/-- Where nothing is listed, all parts come first. -/
theorem ordered_empty (parts : α → List α) : (empty : Roster α).Ordered parts := by
  intro i a ha
  rw [get?_eq_getElem?, toList_empty, List.getElem?_nil] at ha
  cases ha

/-- If parts come first, the parts of listed items are listed. -/
theorem Ordered.mem {r : Roster α} {parts : α → List α} (h : r.Ordered parts) {a : α}
    (ha : a ∈ r.toList) : ∀ p ∈ parts a, p ∈ r.toList := by
  intro p hp
  obtain ⟨i, hi⟩ := (r.mem_toList_iff_get? a).1 ha
  obtain ⟨j, -, hj⟩ := h i a hi p hp
  exact (r.mem_toList_iff_get? p).2 ⟨j, hj⟩

/-- Parts still come first after an item whose parts are listed. -/
theorem Ordered.insert {r : Roster α} {parts : α → List α} (h : r.Ordered parts) {a : α}
    (hparts : ∀ p ∈ parts a, p ∈ r.toList) : (r.insert a).Ordered parts := by
  by_cases ha : a ∈ r.toList
  · rwa [r.insert_of_mem a ha]
  · intro i b hb p hp
    have hlist := r.toList_insert_of_not_mem a ha
    rw [get?_eq_getElem?, hlist, List.getElem?_append] at hb
    split at hb
    · next hi =>
      rw [← get?_eq_getElem?] at hb
      obtain ⟨j, hj, hpj⟩ := h i b hb p hp
      exact ⟨j, hj, get?_of_prefix (r.prefix_insert a) hpj⟩
    · next hi =>
      -- the item is the one that was added
      have hb : b = a := by
        have := List.mem_of_getElem? hb
        simpa using this
      subst hb
      obtain ⟨j, hpj⟩ := (r.mem_toList_iff_get? p).1 (hparts p hp)
      have hj : j < r.toList.length := by
        rw [get?_eq_getElem?] at hpj
        exact (List.getElem?_eq_some_iff.1 hpj).1
      exact ⟨j, by omega, get?_of_prefix (r.prefix_insert b) hpj⟩

/-- The items of a roster are distinct. -/
theorem nodup_toList (r : Roster α) : r.toList.Nodup := by
  rw [List.nodup_iff_getElem?_ne_getElem?]
  intro i j hij hj heq
  have hget : ∀ k, r.items[k]? = r.toList[k]? := fun k => r.get?_eq_getElem? k
  have hsome : r.toList[j]? = some r.toList[j] := List.getElem?_eq_getElem hj
  have hi := (r.coherent r.toList[j] i).2 (by rw [hget, heq, hsome])
  have hj' := (r.coherent r.toList[j] j).2 (by rw [hget, hsome])
  rw [hi] at hj'
  cases hj'
  omega

end Roster

end AheadOfTime
