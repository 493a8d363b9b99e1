import AheadOfTime.Proofs.Program.Hierarchy
import AheadOfTime.Proofs.Roster
import Mathlib.Logic.Relation

/-!
# Inherited interfaces

A type lists interfaces, and those list further ones.  `Program.closeInterfaces` goes through them with
a stack, and looks at no interface twice.  Whatever it finds is inherited, and if it is given enough
steps, then it finds all that is: each type on the way puts what it lists on the stack once, so as many
steps are enough as there are entries in these lists.
-/

set_option autoImplicit false

namespace AheadOfTime.Program

open Relation (TransGen ReflTransGen)

variable (P : Program)

/-- A type lists an interface. -/
def Lists (t i : Ty) : Prop :=
  i ∈ (P.interfacesOf t).value

/-- A type has an interface among those that it lists and those that they inherit. -/
def Inherits : Ty → Ty → Prop :=
  TransGen P.Lists

/-- The interfaces that some types list, one list after the other. -/
def listedBy (ts : List Ty) : List Ty :=
  ts.flatMap fun t => (P.interfacesOf t).value

/-- Going through the interfaces that a type inherits comes to an end after `n` steps at most. -/
def ClosesWithin (n : Nat) (t : Ty) : Prop :=
  ∃ all : List Ty, (∀ i, P.Inherits t i → i ∈ all) ∧ (P.listedBy (t :: all)).length ≤ n

/-- The interfaces that an instantiation lists are those declared, with its arguments put in. -/
theorem value_interfacesOf_of_decl? {t : Ty} {d : TypeDecl} (h : t.decl? = some d) :
    (P.interfacesOf t).value =
      ((P.record d).interfaces.getD []).map (Ty.subst { ofType := t.args }) := by
  unfold interfacesOf
  rw [h]
  simp

/-! ## Going through the stack -/

/-- An interface that came up before is passed over; another one is added, and those that it lists
come next. -/
theorem value_closeInterfaces_cons (n : Nat) (i : Ty) (rest : List Ty) (seen : Roster Ty) :
    (P.closeInterfaces (n + 1) (i :: rest) seen).value =
      if i ∈ seen.toList then (P.closeInterfaces n rest seen).value
      else (P.closeInterfaces n ((P.interfacesOf i).value ++ rest) (seen.insert i)).value := by
  rw [closeInterfaces]
  by_cases hi : i ∈ seen.toList
  · rw [if_pos hi, if_pos ((seen.contains_iff_mem i).2 hi)]
  · rw [if_neg hi, if_neg fun h => hi ((seen.contains_iff_mem i).1 h), Recorded.value_bind]

/-- What is found was seen before, or is reached from the stack. -/
theorem exists_of_mem_closeInterfaces {n : Nat} {stack : List Ty} {seen : Roster Ty} {i : Ty}
    (hi : i ∈ (P.closeInterfaces n stack seen).value.toList) :
    i ∈ seen.toList ∨ ∃ j ∈ stack, ReflTransGen P.Lists j i := by
  induction n generalizing stack seen with
  | zero => exact .inl hi
  | succ n ih =>
    cases stack with
    | nil => exact .inl hi
    | cons j rest =>
      rw [value_closeInterfaces_cons] at hi
      split at hi
      · rcases ih hi with hseen | ⟨k, hk, hreach⟩
        · exact .inl hseen
        · exact .inr ⟨k, List.mem_cons_of_mem _ hk, hreach⟩
      · rcases ih hi with hseen | ⟨k, hk, hreach⟩
        · rcases (seen.mem_toList_insert j i).1 hseen with hseen | rfl
          · exact .inl hseen
          · exact .inr ⟨i, List.mem_cons_self, .refl⟩
        · rcases List.mem_append.1 hk with hk | hk
          · exact .inr ⟨j, List.mem_cons_self, .head hk hreach⟩
          · exact .inr ⟨k, List.mem_cons_of_mem _ hk, hreach⟩

/-- Looking at one of some types leaves the lists of the others. -/
theorem length_listedBy_erase {ts : List Ty} {t : Ty} (ht : t ∈ ts) :
    (P.listedBy ts).length = (P.interfacesOf t).value.length + (P.listedBy (ts.erase t)).length := by
  rw [← List.length_append]
  exact ((List.perm_cons_erase ht).flatMap_right _).length_eq

/-- With enough steps, everything on the stack is found, and what is found lists nothing that is not
found.  Between two steps, that an interface which was seen lists something that was not means that it
is still on the stack; and the types that are still to be seen list no more than there are steps. -/
theorem closeInterfaces_closed {t : Ty} {n : Nat} {stack unseen : List Ty} {seen : Roster Ty}
    (hstack : ∀ i ∈ stack, P.Inherits t i)
    (hunseen : ∀ i, P.Inherits t i → i ∈ seen.toList ∨ i ∈ unseen)
    (hlisted : ∀ i ∈ seen.toList, ∀ j, P.Lists i j → j ∈ seen.toList ∨ j ∈ stack)
    (hsteps : stack.length + (P.listedBy unseen).length ≤ n) :
    (∀ i, i ∈ seen.toList ∨ i ∈ stack → i ∈ (P.closeInterfaces n stack seen).value.toList) ∧
    ∀ i ∈ (P.closeInterfaces n stack seen).value.toList, ∀ j, P.Lists i j →
      j ∈ (P.closeInterfaces n stack seen).value.toList := by
  induction n generalizing stack unseen seen with
  | zero =>
    obtain rfl : stack = [] := List.length_eq_zero_iff.1 (by omega)
    simp only [List.not_mem_nil, or_false] at hlisted ⊢
    exact ⟨fun _ hi => hi, hlisted⟩
  | succ n ih =>
    cases stack with
    | nil =>
      simp only [List.not_mem_nil, or_false] at hlisted ⊢
      exact ⟨fun _ hi => hi, hlisted⟩
    | cons i rest =>
      have hrest : ∀ j ∈ rest, P.Inherits t j := fun j hj => hstack j (List.mem_cons_of_mem _ hj)
      have hi := hstack i List.mem_cons_self
      rw [List.length_cons] at hsteps
      rw [value_closeInterfaces_cons]
      split
      · next hseen =>
        -- nothing is left to do about `i`
        have hdrop : ∀ {j}, j ∈ seen.toList ∨ j ∈ i :: rest → j ∈ seen.toList ∨ j ∈ rest := by
          rintro j (hj | hj)
          · exact .inl hj
          · rcases List.mem_cons.1 hj with rfl | hj
            · exact .inl hseen
            · exact .inr hj
        obtain ⟨hfound, hclosed⟩ := ih hrest hunseen
          (fun j hj k hk => hdrop (hlisted j hj k hk)) (by omega)
        exact ⟨fun j hj => hfound j (hdrop hj), hclosed⟩
      · next hseen =>
        have hmem := (hunseen i hi).resolve_left hseen
        have hlength := P.length_listedBy_erase hmem
        have hmove : ∀ {j}, j ∈ seen.toList ∨ j ∈ i :: rest →
            j ∈ (seen.insert i).toList ∨ j ∈ (P.interfacesOf i).value ++ rest := by
          rintro j (hj | hj)
          · exact .inl ((seen.mem_toList_insert i j).2 (.inl hj))
          · rcases List.mem_cons.1 hj with rfl | hj
            · exact .inl ((seen.mem_toList_insert j j).2 (.inr rfl))
            · exact .inr (List.mem_append_right _ hj)
        have hstack' : ∀ j ∈ (P.interfacesOf i).value ++ rest, P.Inherits t j :=
          List.forall_mem_append.2 ⟨fun j hj => hi.tail hj, hrest⟩
        have hunseen' : ∀ j, P.Inherits t j → j ∈ (seen.insert i).toList ∨ j ∈ unseen.erase i := by
          intro j hj
          rw [seen.mem_toList_insert]
          by_cases hji : j = i
          · exact .inl (.inr hji)
          · rcases hunseen j hj with hj | hj
            · exact .inl (.inl hj)
            · exact .inr ((List.mem_erase_of_ne hji).2 hj)
        have hlisted' : ∀ j ∈ (seen.insert i).toList, ∀ k, P.Lists j k →
            k ∈ (seen.insert i).toList ∨ k ∈ (P.interfacesOf i).value ++ rest := by
          intro j hj k hk
          rcases (seen.mem_toList_insert i j).1 hj with hj | rfl
          · exact hmove (hlisted j hj k hk)
          · exact .inr (List.mem_append_left _ hk)
        obtain ⟨hfound, hclosed⟩ := ih hstack' hunseen' hlisted' (by
          rw [List.length_append]
          omega)
        exact ⟨fun j hj => hfound j (hmove hj), hclosed⟩

/-! ## Closures -/

variable {P} {t i : Ty}

/-- The interfaces of a type are found by going on from those that it lists. -/
theorem value_interfaceClosure (t : Ty) : (P.interfaceClosure t).value =
    (P.closeInterfaces P.walkLimit (P.interfacesOf t).value .empty).value.toList := by
  simp only [interfaceClosure, Recorded.value_bind, Recorded.value_pure]

/-- What is found among the interfaces of a type is inherited. -/
theorem inherits_of_mem_interfaceClosure (hi : i ∈ (P.interfaceClosure t).value) :
    P.Inherits t i := by
  rw [value_interfaceClosure] at hi
  rcases P.exists_of_mem_closeInterfaces hi with hi | ⟨j, hj, hreach⟩
  · cases hi
  · exact TransGen.head' hj hreach

/-- Within enough steps exactly the inherited interfaces are found. -/
theorem ClosesWithin.mem_interfaceClosure (h : P.ClosesWithin P.walkLimit t) :
    i ∈ (P.interfaceClosure t).value ↔ P.Inherits t i := by
  refine ⟨inherits_of_mem_interfaceClosure, fun hi => ?_⟩
  obtain ⟨all, hall, hsteps⟩ := h
  rw [listedBy, List.flatMap_cons, List.length_append] at hsteps
  have hunseen : ∀ j, P.Inherits t j → j ∈ Roster.empty.toList ∨ j ∈ all :=
    fun j hj => .inr (hall j hj)
  obtain ⟨hfound, hclosed⟩ := P.closeInterfaces_closed (fun j hj => .single hj) hunseen
    (List.forall_mem_nil _) hsteps
  rw [value_interfaceClosure]
  induction hi with
  | single hj => exact hfound _ (.inr hj)
  | tail _ hk ih => exact hclosed _ ih _ hk

/-- The interfaces of a type are those found along its chain. -/
theorem mem_allInterfaces : i ∈ (P.allInterfaces t).value ↔
    ∃ u ∈ P.chain P.walkLimit t, i ∈ (P.interfaceClosure u).value := by
  simp only [allInterfaces, Recorded.value_bind, Recorded.value_pure, value_collectUp,
    Roster.mem_toList_foldl_insertAll, List.mem_map]
  constructor
  · rintro (hi | ⟨_, ⟨u, hu, rfl⟩, hi⟩)
    · cases hi
    · exact ⟨u, hu, hi⟩
  · rintro ⟨u, hu, hi⟩
    exact .inr ⟨_, ⟨u, hu, rfl⟩, hi⟩

end AheadOfTime.Program
