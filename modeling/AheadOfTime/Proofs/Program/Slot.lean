import AheadOfTime.Proofs.Program.WellFormed
import Mathlib.Logic.Relation

/-!
# Slots

A search for the slot of a declared virtual method stays among declared virtual methods in a
well-formed program.  A method at which the search ends is its own slot, and it is listed among the
slots of every type that its owner is a base type of.

A search is cut off after so many steps, and then answers with the method that it is at.  It has come
to an end only if that method introduces a slot: this is what `Program.HasSlot` says.
-/

set_option autoImplicit false

namespace AheadOfTime

open Relation (TransGen ReflTransGen)

namespace Program

/-! ## The search for a slot -/

/-- What a method overrides is said by an explicit override of a class, or else is the nearest
virtual method with the same name and signature on the base types of its owner. -/
theorem outcome_overridden? (P : Program) (m : Method) :
    outcome (P.overridden? m) = outcome (P.overridesOf m.owner) >>= fun overrides =>
      match overrides.find? fun o => o.body == m && !o.decl.owner.isInterface with
      | some o => .ok (some o.decl.definition)
      | none => .ok ((P.baseType m.owner).value.bind fun base =>
          (P.chain P.walkLimit base).findSome? fun current =>
            (P.methods current).find? fun c => c.isVirtual && c.sameNameAndSignature m) := by
  unfold overridden?
  rw [outcome_bind]
  congr 1
  funext overrides
  cases overrides.find? fun o => o.body == m && !o.decl.owner.isInterface with
  | some o => rfl
  | none =>
    simp only [outcome_bind, outcome_liftM, ok_bind]
    cases (P.baseType m.owner).value with
    | none => rfl
    | some base => simp

/-- A method overrides what an explicit override says, or else a virtual method of a base type with the
same name and signature. -/
theorem exists_of_overridden? {P : Program} {m next : Method}
    (h : outcome (P.overridden? m) = .ok (some next)) :
    (∃ overrides, outcome (P.overridesOf m.owner) = .ok overrides ∧ ∃ o ∈ overrides,
      o.body = m ∧ o.decl.owner.isInterface = false ∧ next = o.decl.definition) ∨
    ∃ base, (P.baseType m.owner).value = some base ∧ next.owner ∈ P.chain P.walkLimit base ∧
      next ∈ P.methods next.owner ∧ next.isVirtual = true ∧ next.sameNameAndSignature m = true := by
  rw [outcome_overridden?] at h
  obtain ⟨overrides, hoverrides, h⟩ := bind_eq_ok.1 h
  split at h
  · next o ho =>
    cases h
    have hfound := List.find?_some ho
    rw [Bool.and_eq_true, beq_iff_eq, Bool.not_eq_true'] at hfound
    exact .inl ⟨overrides, hoverrides, o, List.mem_of_find?_eq_some ho, hfound.1, hfound.2, rfl⟩
  · rw [Except.ok.injEq] at h
    obtain ⟨base, hbase, h⟩ := Option.bind_eq_some_iff.1 h
    obtain ⟨current, hcurrent, h⟩ := List.exists_of_findSome?_eq_some h
    have hmem := List.mem_of_find?_eq_some h
    obtain ⟨-, rfl, -⟩ := P.mem_methods.1 hmem
    have hfound := List.find?_some h
    rw [Bool.and_eq_true] at hfound
    exact .inr ⟨base, hbase, hcurrent, hmem, hfound⟩

/-- Without explicit overrides, a method overrides the one with the same name and signature on the
base type. -/
theorem overridden?_of_base {P : Program} {m s : Method} (hlimit : 0 < P.walkLimit)
    (hoverrides : outcome (P.overridesOf m.owner) = .ok [])
    (hbase : (P.baseType m.owner).value = some s.owner)
    (hs : ((P.methods s.owner).find? fun c => c.isVirtual && c.sameNameAndSignature m) = some s) :
    outcome (P.overridden? m) = .ok (some s) := by
  obtain ⟨n, hn⟩ := Nat.exists_eq_succ_of_ne_zero (Nat.pos_iff_ne_zero.1 hlimit)
  rw [outcome_overridden?, hoverrides, ok_bind, hbase, hn]
  simp [chain, hs]

/-- The search for the slot of a method ends at the method: it overrides nothing. -/
def IntroducesSlot (P : Program) (m : Method) : Prop :=
  m.isVirtual = false ∨ m.isNewSlot = true ∨ outcome (P.overridden? m) = .ok none

/-- The search for a slot stops at a method that introduces one, and goes on from others to what
they override. -/
theorem outcome_slotFrom_succ (P : Program) (n : Nat) (m : Method) :
    outcome (P.slotFrom (n + 1) m) =
      if !m.isVirtual || m.isNewSlot then .ok m
      else outcome (P.overridden? m) >>= fun next =>
        match next with
        | some next => outcome (P.slotFrom n next)
        | none => .ok m := by
  rw [slotFrom_succ, outcome_ite, outcome_bind]
  congr 2
  funext next
  cases next <;> rfl

/-- The search for the slot of a method that introduces one finds the method, after any number of
steps. -/
theorem IntroducesSlot.slotFrom {P : Program} {m : Method} (h : P.IntroducesSlot m) (n : Nat) :
    outcome (P.slotFrom n m) = .ok m := by
  cases n with
  | zero => rfl
  | succ n =>
    rw [outcome_slotFrom_succ]
    rcases h with hv | hnew | hnone
    · simp [hv]
    · simp [hnew]
    · simp [hnone]

/-- The search for a slot goes on at what a method overrides. -/
theorem slotFrom_of_overridden? {P : Program} {m next : Method} {n : Nat}
    (hm : m.isVirtual = true) (hnew : m.isNewSlot = false)
    (hnext : outcome (P.overridden? m) = .ok (some next)) :
    outcome (P.slotFrom (n + 1) m) = outcome (P.slotFrom n next) := by
  rw [outcome_slotFrom_succ, hm, hnew, hnext]
  rfl

/-- The slot of a method is where the search from its definition stops, with the arguments of the
method. -/
theorem outcome_slotOf (P : Program) (m : Method) :
    outcome (P.slotOf m) = outcome (P.slotFrom P.walkLimit m.definition) >>= fun slot =>
      .ok (slot.withArgs m.args) := by
  unfold slotOf
  rw [outcome_bind]
  simp only [outcome_liftM, value_needMethod]

/-- The slot of a method is that of the method without arguments, with the same arguments. -/
theorem outcome_slotOf_definition (P : Program) (m : Method) :
    outcome (P.slotOf m) = outcome (P.slotOf m.definition) >>= fun slot =>
      .ok (slot.withArgs m.args) := by
  rw [outcome_slotOf, outcome_slotOf P m.definition, bind_assoc]
  rfl

/-- A method without arguments that introduces its slot is its own slot. -/
theorem IntroducesSlot.slotOf {P : Program} {m : Method} (h : P.IntroducesSlot m)
    (hargs : m.args = []) : outcome (P.slotOf m) = .ok m := by
  rw [outcome_slotOf, Method.definition_of_args_eq_nil hargs, h.slotFrom, ok_bind, Method.withArgs,
    hargs]
  rfl

/-- A method that overrides one which introduces its slot occupies that slot. -/
theorem IntroducesSlot.slotOf_overriding {P : Program} {m next : Method}
    (h : P.IntroducesSlot next) (hm : m.isVirtual = true) (hnew : m.isNewSlot = false)
    (hargs : m.args = []) (hnext : outcome (P.overridden? m) = .ok (some next))
    (hlimit : 0 < P.walkLimit) : outcome (P.slotOf m) = .ok next := by
  obtain ⟨n, hn⟩ := Nat.exists_eq_succ_of_ne_zero (Nat.pos_iff_ne_zero.1 hlimit)
  rw [outcome_slotOf, Method.definition_of_args_eq_nil hargs, hn, outcome_slotFrom_succ, hnext, hm,
    hnew, ok_bind, hargs]
  simp only [Bool.not_true, Bool.or_self, Bool.false_eq_true, if_false, h.slotFrom, ok_bind]
  rfl

/-- The search for the slot of a method comes to an end before it is cut off, at a method that
introduces a slot. -/
structure HasSlot (P : Program) (m slot : Method) : Prop where
  found : outcome (P.slotOf m) = .ok slot
  introduces : P.IntroducesSlot slot

/-- A method without arguments that introduces a slot has it. -/
theorem IntroducesSlot.hasSlot {P : Program} {m : Method} (h : P.IntroducesSlot m)
    (hargs : m.args = []) : P.HasSlot m m :=
  ⟨h.slotOf hargs, h⟩

/-! ## Searches that come to an end -/

section Search

variable {P : Program} {m next : Method} {n k : Nat}

/-- The search for a slot goes on from one method to another. -/
structure GoesOn (P : Program) (m next : Method) : Prop where
  virtual : m.isVirtual = true
  newSlot : m.isNewSlot = false
  next : outcome (P.overridden? m) = .ok (some next)

/-- Where the search goes on, it is not at an end. -/
theorem GoesOn.not_introducesSlot (h : P.GoesOn m next) : ¬ P.IntroducesSlot m := by
  rintro (hv | hnew | hnone)
  · cases hv.symm.trans h.virtual
  · cases hnew.symm.trans h.newSlot
  · cases hnone.symm.trans h.next

/-- After at most `n` steps the search for the slot of a method is at an end: at a method that
introduced it, or because of overrides that cannot be settled. -/
def SearchEndsIn (P : Program) (n : Nat) (m : Method) : Prop :=
  (∃ e, outcome (P.slotFrom n m) = .error e) ∨
    ∃ s, outcome (P.slotFrom n m) = .ok s ∧ P.IntroducesSlot s

/-- The search for the slot of a method comes to an end. -/
def SearchEnds (P : Program) (m : Method) : Prop :=
  ∃ n, P.SearchEndsIn n m

/-- A search is at an end, fails or goes on. -/
theorem introducesSlot_or_goesOn (P : Program) (m : Method) :
    P.IntroducesSlot m ∨ (∃ e, ∀ n, outcome (P.slotFrom (n + 1) m) = .error e) ∨
      ∃ next, P.GoesOn m next := by
  by_cases hv : m.isVirtual = true
  · by_cases hnew : m.isNewSlot = true
    · exact .inl (.inr (.inl hnew))
    · have hnew : m.isNewSlot = false := by simpa using hnew
      rcases hnext : outcome (P.overridden? m) with e | _ | next
      · refine .inr (.inl ⟨e, fun n => ?_⟩)
        rw [outcome_slotFrom_succ, hv, hnew, hnext]
        rfl
      · exact .inl (.inr (.inr hnext))
      · exact .inr (.inr ⟨next, hv, hnew, hnext⟩)
  · exact .inl (.inl (by simpa using hv))

/-- The first step of a search that goes on leads to the next method. -/
theorem GoesOn.slotFrom (h : P.GoesOn m next) (n : Nat) :
    outcome (P.slotFrom (n + 1) m) = outcome (P.slotFrom n next) :=
  slotFrom_of_overridden? h.virtual h.newSlot h.next

/-- A search that goes on ends one step after the search from the next method. -/
theorem GoesOn.searchEndsIn_succ (h : P.GoesOn m next) :
    P.SearchEndsIn (n + 1) m ↔ P.SearchEndsIn n next := by
  unfold SearchEndsIn
  rw [h.slotFrom]

/-- Further steps do not change what a search came to. -/
theorem SearchEndsIn.slotFrom_eq (h : P.SearchEndsIn n m) (hle : n ≤ k) :
    outcome (P.slotFrom k m) = outcome (P.slotFrom n m) := by
  induction n generalizing m k with
  | zero =>
    rcases h with ⟨e, he⟩ | ⟨s, hs, hintro⟩
    · cases he
    · cases hs
      exact hintro.slotFrom k
  | succ n ih =>
    obtain ⟨k, rfl⟩ : ∃ j, k = j + 1 := ⟨k - 1, by omega⟩
    rcases P.introducesSlot_or_goesOn m with hintro | ⟨e, herror⟩ | ⟨next, hnext⟩
    · rw [hintro.slotFrom, hintro.slotFrom]
    · rw [herror, herror]
    · rw [hnext.slotFrom, hnext.slotFrom]
      exact ih (hnext.searchEndsIn_succ.1 h) (by omega)

/-- A search comes to an end if it cannot go on forever. -/
theorem searchEnds_iff_acc : P.SearchEnds m ↔ Acc (fun next m => P.GoesOn m next) m := by
  constructor
  · rintro ⟨n, h⟩
    induction n generalizing m with
    | zero =>
      rcases h with ⟨e, he⟩ | ⟨s, hs, hintro⟩
      · cases he
      · cases hs
        exact ⟨m, fun next hnext => absurd hintro hnext.not_introducesSlot⟩
    | succ n ih => exact ⟨m, fun next hnext => ih (hnext.searchEndsIn_succ.1 h)⟩
  · intro h
    induction h with
    | intro m _ ih =>
      rcases P.introducesSlot_or_goesOn m with hintro | ⟨e, herror⟩ | ⟨next, hnext⟩
      · exact ⟨0, .inr ⟨m, rfl, hintro⟩⟩
      · exact ⟨1, .inl ⟨e, herror 0⟩⟩
      · obtain ⟨n, hn⟩ := ih next hnext
        exact ⟨n + 1, hnext.searchEndsIn_succ.2 hn⟩

/-- A search that comes to an end does so from every method on its way. -/
theorem SearchEnds.of_reach (h : P.SearchEnds m) (hreach : ReflTransGen P.GoesOn m next) :
    P.SearchEnds next := by
  induction hreach with
  | refl => exact h
  | tail _ hstep ih => exact searchEnds_iff_acc.2 ((searchEnds_iff_acc.1 ih).inv hstep)

/-- A method that overrides itself, by way of other methods or not, is searched for forever. -/
theorem not_searchEnds_of_circle (h : TransGen P.GoesOn m m) : ¬ P.SearchEnds m := by
  rw [searchEnds_iff_acc]
  intro hacc
  induction hacc with
  | intro m _ ih =>
    obtain ⟨next, hnext, hback⟩ := TransGen.head'_iff.1 h
    exact ih next hnext (.tail' hback hnext)

end Search

/-! ## Declared virtual methods -/

/-- A method without arguments that is declared and virtual. -/
structure IsVirtualDefinition (P : Program) (m : Method) : Prop where
  virtual : m.isVirtual = true
  declared : P.Declares m
  noArgs : m.args = []

/-- A method without arguments is its own definition. -/
theorem IsVirtualDefinition.definition_eq {P : Program} {m : Method}
    (hm : P.IsVirtualDefinition m) : m.definition = m :=
  Method.definition_of_args_eq_nil hm.noArgs

/-- What a method overrides is a declared virtual method again. -/
theorem WellFormed.overridden {P : Program} (hP : P.WellFormed) {m next : Method}
    (h : outcome (P.overridden? m) = .ok (some next)) : P.IsVirtualDefinition next := by
  rcases exists_of_overridden? h with ⟨overrides, hoverrides, o, ho, -, -, rfl⟩ |
      ⟨base, -, -, hmem, hv, -⟩
  · obtain ⟨hv, hd⟩ := hP.override hoverrides ho
    exact ⟨hv, hd, rfl⟩
  · obtain ⟨hd, -, hargs⟩ := P.mem_methods.1 hmem
    exact ⟨hv, hd, hargs⟩

/-- The search for a slot stays among declared virtual methods. -/
theorem WellFormed.slotFrom {P : Program} (hP : P.WellFormed) {n : Nat} {m s : Method}
    (hm : P.IsVirtualDefinition m) (h : outcome (P.slotFrom n m) = .ok s) :
    P.IsVirtualDefinition s := by
  induction n generalizing m with
  | zero =>
    cases h
    exact hm
  | succ n ih =>
    rw [outcome_slotFrom_succ] at h
    split at h
    · cases h
      exact hm
    · obtain ⟨next, hnext, h⟩ := bind_eq_ok.1 h
      cases next with
      | some next => exact ih (hP.overridden hnext) h
      | none =>
        cases h
        exact hm

/-- The slot of a method without arguments is a declared virtual method. -/
theorem WellFormed.slotOf {P : Program} (hP : P.WellFormed) {m s : Method}
    (hm : P.IsVirtualDefinition m) (h : outcome (P.slotOf m) = .ok s) :
    P.IsVirtualDefinition s := by
  rw [outcome_slotOf, hm.definition_eq] at h
  obtain ⟨slot, hslot, h⟩ := bind_eq_ok.1 h
  rw [hm.noArgs] at h
  cases h
  exact hP.slotFrom hm hslot

/-- A method that introduces its slot is among the slots of the types below its owner, unless it is
generic. -/
theorem mem_slotsOf {P : Program} {t : Ty} {slots : List Method} {s : Method}
    (h : outcome (P.slotsOf t) = .ok slots) (hs : P.IsVirtualDefinition s)
    (hintro : P.IntroducesSlot s) (harity : s.decl.signature.arity = 0)
    (howner : s.owner ∈ P.chain P.walkLimit t) : s ∈ slots := by
  unfold slotsOf at h
  simp only [outcome_bind, outcome_liftM, ok_bind, outcome_mapM, value_baseChain, value_methodsOf,
    outcome_filterM, outcome_pure] at h
  obtain ⟨perType, hperType, h⟩ := bind_eq_ok.1 h
  cases h
  obtain ⟨own, hown, hfilter⟩ := (mapM_eq_ok hperType).1 s.owner (List.mem_reverse.2 howner)
  refine List.mem_flatten.2 ⟨own, hown, (filterM_eq_ok hfilter s).2 ⟨?_, ?_⟩⟩
  · exact P.mem_methods.2 ⟨hs.declared, rfl, hs.noArgs⟩
  · have hgeneric : s.isGenericDefinition = false := by simp [Method.isGenericDefinition, harity]
    simp [hs.virtual, hgeneric, hintro.slotOf hs.noArgs]

end Program

end AheadOfTime
