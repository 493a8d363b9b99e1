import AheadOfTime.Handle
import AheadOfTime.Proofs.Roster
import Mathlib.Data.List.Forall2

/-!
# Handles of listed items

The handle of an item has the position of the item for its number.  As long as there are no more
positions than numbers of thirty-two bits, a handle stands for one item.
-/

set_option autoImplicit false

namespace AheadOfTime

namespace Roster

variable {α : Type} [BEq α] [LawfulBEq α] [Hashable α]

/-- The handle of a listed item. -/
def handle? (r : Roster α) (kind : HandleKind) (a : α) : Option Handle :=
  (r.position? a).map (.ofNat kind)

/-- The handles of listed items. -/
def handles? (r : Roster α) (kind : HandleKind) (l : List α) : Option (List Handle) :=
  l.mapM (r.handle? kind)

/-- The item that a handle stands for. -/
def deref? (r : Roster α) (kind : HandleKind) (h : Handle) : Option α :=
  if h.kind = kind then r.get? h.index.toNat else none

variable {r r' : Roster α} {kind : HandleKind} {a b : α} {h : Handle} {l l' : List α}
  {hs : List Handle}

/-- The handle of an item has the number of its position. -/
theorem handle?_eq_some_iff :
    r.handle? kind a = some h ↔ ∃ i, r.get? i = some a ∧ .ofNat kind i = h := by
  rw [handle?, Option.map_eq_some_iff]
  simp only [position?_eq_some_iff]

/-- A handle of the right kind stands for the item at its number. -/
theorem deref?_eq_some_iff :
    r.deref? kind h = some a ↔ h.kind = kind ∧ r.get? h.index.toNat = some a := by
  unfold deref?
  split
  · next hkind => exact ⟨fun ha => ⟨hkind, ha⟩, And.right⟩
  · next hkind => exact ⟨nofun, fun ha => absurd ha.1 hkind⟩

/-- The handles of a list are the handles of its items, in order. -/
theorem handles?_eq_some_iff :
    r.handles? kind l = some hs ↔ List.Forall₂ (fun a h => r.handle? kind a = some h) l hs := by
  unfold handles?
  induction l generalizing hs with
  | nil => simp [eq_comm]
  | cons a l ih =>
    rw [List.mapM_cons, List.forall₂_cons_left_iff]
    simp only [Option.bind_eq_bind, Option.bind_eq_some_iff, Option.pure_def, Option.some.injEq, ih]
    constructor
    · rintro ⟨h, ha, hs, hl, rfl⟩
      exact ⟨h, hs, ha, hl, rfl⟩
    · rintro ⟨h, hs, ha, hl, rfl⟩
      exact ⟨h, ha, hs, hl, rfl⟩

/-- The handle of an item stands for that item and for no other one. -/
theorem handle?_iff_deref? (hr : r.size ≤ UInt32.size) :
    r.handle? kind a = some h ↔ r.deref? kind h = some a := by
  rw [handle?_eq_some_iff, deref?_eq_some_iff]
  constructor
  · rintro ⟨i, hi, rfl⟩
    have hlt : i < UInt32.size := Nat.lt_of_lt_of_le (lt_size_of_get? hi) hr
    have hindex : (Handle.ofNat kind i).index.toNat = i := Nat.mod_eq_of_lt hlt
    rw [hindex]
    exact ⟨rfl, hi⟩
  · rintro ⟨rfl, ha⟩
    refine ⟨h.index.toNat, ha, ?_⟩
    rw [Handle.ofNat, Nat.toUInt32_eq, UInt32.ofNat_toNat]

/-- Items with one handle are the same, as long as there are numbers for all. -/
theorem eq_of_handle? (hr : r.size ≤ UInt32.size) (ha : r.handle? kind a = some h)
    (hb : r.handle? kind b = some h) : a = b := by
  rw [handle?_iff_deref? hr] at ha hb
  rw [ha] at hb
  exact Option.some.inj hb

/-- Lists with the same handles are the same, as long as there are numbers for all. -/
theorem eq_of_handles? (hr : r.size ≤ UInt32.size) (hl : r.handles? kind l = some hs)
    (hl' : r.handles? kind l' = some hs) : l = l' := by
  rw [handles?_eq_some_iff] at hl hl'
  have hunique : Relator.LeftUnique fun a h => r.handle? kind a = some h :=
    fun _ _ _ ha hb => eq_of_handle? hr ha hb
  exact List.left_unique_forall₂' hunique hl hl'

/-- An item keeps its handle when more is listed. -/
theorem handle?_of_prefix (hext : r.toList <+: r'.toList) (ha : r.handle? kind a = some h) :
    r'.handle? kind a = some h := by
  obtain ⟨i, hi, rfl⟩ := handle?_eq_some_iff.1 ha
  exact handle?_eq_some_iff.2 ⟨i, get?_of_prefix hext hi, rfl⟩

/-- A list keeps its handles when more is listed. -/
theorem handles?_of_prefix (hext : r.toList <+: r'.toList) (hl : r.handles? kind l = some hs) :
    r'.handles? kind l = some hs := by
  rw [handles?_eq_some_iff] at hl ⊢
  exact hl.imp fun _ _ => handle?_of_prefix hext

/-- A handle stands for the same item when more is listed. -/
theorem deref?_of_prefix (hext : r.toList <+: r'.toList) (ha : r.deref? kind h = some a) :
    r'.deref? kind h = some a := by
  rw [deref?_eq_some_iff] at ha ⊢
  exact ⟨ha.1, get?_of_prefix hext ha.2⟩

/-- What a handle stands for is listed. -/
theorem mem_of_deref? (ha : r.deref? kind h = some a) : a ∈ r.toList :=
  (r.mem_toList_iff_get? a).2 ⟨_, (deref?_eq_some_iff.1 ha).2⟩

/-- A listed item has the handle of its position. -/
theorem handle?_of_mem (kind : HandleKind) (ha : a ∈ r.toList) :
    r.handle? kind a = some (.ofNat kind ((r.position? a).getD 0)) := by
  obtain ⟨i, hi⟩ := (r.mem_toList_iff_get? a).1 ha
  rw [handle?, (r.position?_eq_some_iff a i).2 hi]
  rfl

/-- Every position gives a handle. -/
theorem exists_deref? (kind : HandleKind) (hr : r.size ≤ UInt32.size) {i : Nat} (hi : i < r.size) :
    ∃ a, r.deref? kind (.ofNat kind i) = some a := by
  rw [size_eq_length] at hi
  have hget : r.get? i = some r.toList[i] := by
    rw [get?_eq_getElem?, List.getElem?_eq_getElem hi]
  exact ⟨r.toList[i], (handle?_iff_deref? hr).1 (handle?_eq_some_iff.2 ⟨i, hget, rfl⟩)⟩

/-- Listed items have handles. -/
theorem exists_handles? (kind : HandleKind) (hl : ∀ a ∈ l, a ∈ r.toList) :
    ∃ hs, r.handles? kind l = some hs := by
  simp only [handles?_eq_some_iff]
  induction l with
  | nil => exact ⟨[], .nil⟩
  | cons a l ih =>
    obtain ⟨ha, hl⟩ := List.forall_mem_cons.1 hl
    obtain ⟨hs, hl⟩ := ih hl
    exact ⟨_ :: hs, .cons (handle?_of_mem kind ha) hl⟩

/-- Handles are the same exactly if their items are, as long as there are numbers for all. -/
theorem handle?_eq_iff (hr : r.size ≤ UInt32.size) {g : Handle} (ha : r.handle? kind a = some g)
    (hb : r.handle? kind b = some h) : g = h ↔ a = b := by
  constructor
  · rintro rfl
    exact eq_of_handle? hr ha hb
  · rintro rfl
    rw [ha] at hb
    exact Option.some.inj hb

/-- A function of handles that is one of their items can be applied to either. -/
theorem map_eq_of_handles? {β : Type} {f : Handle → β} {g : α → β}
    (hfg : ∀ a h, r.handle? kind a = some h → f h = g a) (hl : r.handles? kind l = some hs) :
    hs.map f = l.map g := by
  rw [handles?_eq_some_iff] at hl
  induction hl with
  | nil => rfl
  | cons ha _ ih => rw [List.map_cons, List.map_cons, hfg _ _ ha, ih]

/-- Each of the handles of a list is that of one of its items. -/
theorem exists_of_mem_handles? (hl : r.handles? kind l = some hs) (hh : h ∈ hs) :
    ∃ a ∈ l, r.handle? kind a = some h := by
  rw [handles?_eq_some_iff] at hl
  induction hl with
  | nil => cases hh
  | cons ha _ ih =>
    rcases List.mem_cons.1 hh with rfl | hh
    · exact ⟨_, List.mem_cons_self, ha⟩
    · obtain ⟨a, hmem, ha⟩ := ih hh
      exact ⟨a, List.mem_cons_of_mem _ hmem, ha⟩

/-- What an item is built from has smaller handles. -/
theorem Ordered.handles_lt {parts : α → List α} (hr : r.size ≤ UInt32.size) (hordered : r.Ordered parts)
    (ha : r.deref? kind h = some a) (hparts : r.handles? kind (parts a) = some hs) :
    ∀ g ∈ hs, g.kind = kind ∧ g.index < h.index := by
  intro g hg
  obtain ⟨p, hp, hgp⟩ := exists_of_mem_handles? hparts hg
  rw [handle?_iff_deref? hr, deref?_eq_some_iff] at hgp
  rw [deref?_eq_some_iff] at ha
  refine ⟨hgp.1, UInt32.lt_iff_toNat_lt.2 ?_⟩
  obtain ⟨j, hj, hpj⟩ := hordered _ a ha.2 p hp
  -- an item has one position only
  have hat := (r.position?_eq_some_iff _ _).2 hgp.2
  rw [(r.position?_eq_some_iff _ _).2 hpj] at hat
  cases hat
  exact hj

end Roster

end AheadOfTime
