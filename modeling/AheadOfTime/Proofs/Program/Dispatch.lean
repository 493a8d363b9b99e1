import AheadOfTime.Proofs.Program.Slot

/-!
# Dispatch

What a virtual method leads to on a type depends only on the slot that it occupies and on its own
arguments, and what an interface method leads to does not depend on which of the methods with the
same canonical form it is.  The only exception is a method that nothing fills or implements: then
the answer is the method that was asked about.
-/

set_option autoImplicit false

namespace AheadOfTime

namespace Program

variable (P : Program)

/-! ## Class methods -/

/-- Dispatch on a class looks up the slot of the called method and asks the type and its base types
in turn for what fills it. -/
theorem outcome_classTarget {m : Method} (hm : m.isVirtual = true) (t : Ty) :
    outcome (P.classTarget m t) = outcome (P.slotOf m.definition) >>= fun slot =>
      firstAnswer (fun u => outcome (P.slotFiller? slot u)) (P.chain P.walkLimit t) >>= fun found =>
        match found with
        | some found => .ok (found.withArgs m.args)
        | none => .ok m := by
  unfold classTarget
  simp only [hm, Bool.not_true, Bool.false_eq_true, if_false, outcome_bind, outcome_findUp]
  congr 1
  funext slot
  congr 1
  funext found
  cases found with
  | some found => simp
  | none => rfl

/-- A call of a method that is not of an interface is dispatched by its slot. -/
theorem outcome_resolve_of_class {m : Method} (hm : m.owner.isInterface = false) (t : Ty) :
    outcome (P.resolve m t) = outcome (P.classTarget m t) := by
  unfold resolve
  rw [if_neg (by simp [hm])]

/-- What fills a slot depends only on the declaration of the method that introduced it. -/
theorem slotFiller?_congr {s s' : Method} (h : s.decl = s'.decl) (t : Ty) :
    P.slotFiller? s t = P.slotFiller? s' t := by
  unfold slotFiller? Method.name
  rw [h]

variable {P}

/-- On its owner, the slot that a method introduces is filled. -/
theorem IntroducesSlot.slotFiller?_owner {s : Method} (hintro : P.IntroducesSlot s)
    (hs : P.IsVirtualDefinition s) : outcome (P.slotFiller? s s.owner) ≠ .ok none := by
  intro h
  unfold slotFiller? at h
  simp only [outcome_bind, outcome_findM?] at h
  obtain ⟨overrides, -, h⟩ := bind_eq_ok.1 h
  obtain ⟨explicit, -, h⟩ := bind_eq_ok.1 h
  cases explicit with
  | some o => cases h
  | none =>
    simp only [outcome_bind, outcome_liftM, value_methodsOf, ok_bind, outcome_findM?] at h
    have hself : s ∈ P.methods s.owner := P.mem_methods.2 ⟨hs.declared, rfl, hs.noArgs⟩
    have hfalse := findM?_eq_none h s hself
    simp [hs.virtual, hintro.slotOf hs.noArgs] at hfalse

/-- A type that overrides only interface methods explicitly fills a slot by one of its own methods,
if at all. -/
theorem outcome_slotFiller?_of_interface {s : Method} {t : Ty} {overrides : List Override}
    (hoverrides : outcome (P.overridesOf t) = .ok overrides)
    (hinterface : ∀ o ∈ overrides, o.decl.owner.isInterface = true) :
    outcome (P.slotFiller? s t) = (P.methods t).findM? fun m =>
      if !m.isVirtual || m.name != s.name then .ok false
      else outcome (P.slotOf m) >>= fun slot => .ok (slot.decl == s.decl) := by
  have hexplicit : (overrides.findM? fun o => outcome
      (if o.decl.owner.isInterface then pure false
      else do
        let other ← P.slotOf o.decl.definition
        pure (other.decl == s.decl))) = .ok none := by
    refine findM?_of_forall_eq_false fun o ho => ?_
    rw [if_pos (hinterface o ho)]
    rfl
  unfold slotFiller?
  simp only [outcome_bind, outcome_findM?, hoverrides, ok_bind, hexplicit, outcome_liftM,
    value_methodsOf]
  congr 1
  funext m
  split
  · rfl
  · rw [outcome_bind]
    rfl

/-- Without explicit overrides, the only method of a type fills the slot that it occupies. -/
theorem slotFiller?_of_methods {s m : Method} {t : Ty}
    (hoverrides : outcome (P.overridesOf t) = .ok []) (hmethods : P.methods t = [m])
    (hm : m.isVirtual = true) (hname : m.name = s.name) (hs : outcome (P.slotOf m) = .ok s) :
    outcome (P.slotFiller? s t) = .ok (some m) := by
  simp [slotFiller?, hoverrides, hmethods, hm, hname, hs, List.findM?]
  rfl

/-- A type that declares no methods and no overrides fills no slot. -/
theorem slotFiller?_of_record {s : Method} {t : Ty}
    (h : ∀ d, t.decl? = some d →
      (P.record d).methods = [] ∧ (P.record d).overrides.settled = .ok []) :
    outcome (P.slotFiller? s t) = .ok none := by
  have hnothing : outcome (P.overridesOf t) = .ok [] ∧ P.methods t = [] := by
    cases hd : t.decl? with
    | none => simp [overridesOf, methods, hd]
    | some d =>
      obtain ⟨hmethods, hoverrides⟩ := h d hd
      simp [overridesOf, methods, hd, hmethods, hoverrides, instantiateOverrides]
  simp [slotFiller?, hnothing, List.findM?]
  rfl

/-- If a type fills the slot of a method itself, that is what the method leads to. -/
theorem classTarget_of_slotFiller? {m s found : Method} {t : Ty} (hlimit : 0 < P.walkLimit)
    (hm : m.isVirtual = true) (hs : outcome (P.slotOf m.definition) = .ok s)
    (hfound : outcome (P.slotFiller? s t) = .ok (some found)) :
    outcome (P.classTarget m t) = .ok (found.withArgs m.args) := by
  obtain ⟨n, hn⟩ := Nat.exists_eq_succ_of_ne_zero (Nat.pos_iff_ne_zero.1 hlimit)
  rw [P.outcome_classTarget hm, hs, ok_bind, hn]
  simp [chain, firstAnswer, hfound]

/-- If nothing on the way up fills the slot of a method, the method leads to itself. -/
theorem classTarget_of_unfilled {m s : Method} {t : Ty} (hm : m.isVirtual = true)
    (hs : outcome (P.slotOf m.definition) = .ok s)
    (hnone : ∀ u ∈ P.chain P.walkLimit t, outcome (P.slotFiller? s u) = .ok none) :
    outcome (P.classTarget m t) = .ok m := by
  rw [P.outcome_classTarget hm, hs, ok_bind, firstAnswer_of_forall_eq_none hnone, ok_bind]

/-- Two methods with the same arguments that occupy the same slot lead to the same method on a type
where the slot is filled. -/
theorem classTarget_eq_of_slot {m m' s s' : Method} {t : Ty} (hm : m.isVirtual = true)
    (hm' : m'.isVirtual = true) (hs : outcome (P.slotOf m.definition) = .ok s)
    (hs' : outcome (P.slotOf m'.definition) = .ok s') (hdecl : s.decl = s'.decl)
    (hargs : m.args = m'.args)
    (hfilled : ∃ u ∈ P.chain P.walkLimit t, outcome (P.slotFiller? s u) ≠ .ok none) :
    outcome (P.classTarget m t) = outcome (P.classTarget m' t) := by
  rw [P.outcome_classTarget hm, P.outcome_classTarget hm', hs, hs', ok_bind, ok_bind]
  simp only [P.slotFiller?_congr hdecl]
  cases hfound : firstAnswer (fun u => outcome (P.slotFiller? s' u)) (P.chain P.walkLimit t) with
  | error e => rfl
  | ok found =>
    cases found with
    | some found => simp [hargs]
    | none =>
      obtain ⟨u, hu, hne⟩ := hfilled
      rw [P.slotFiller?_congr hdecl] at hne
      exact absurd (firstAnswer_eq_none hfound u hu) hne

/-! ## Interface methods -/

variable (P)

/-- A type implements an interface method by an explicit override, or else by a method with the same
name and signature, if it lists the interface. -/
theorem outcome_implementation? (m : Method) (t : Ty) :
    outcome (P.implementation? m t) = outcome (P.overridesOf t) >>= fun overrides =>
      match overrides.find? fun o => o.decl.definition.canonical == m.canonical with
      | some o => .ok (some o.body)
      | none =>
        match (P.interfaceClosure t).value.find? fun i => i.canonical == m.owner.canonical with
        | none => .ok none
        | some listed => .ok ((P.methods t).find? fun c =>
            c.isVirtual && c.sameNameAndSignature ⟨m.decl, listed, []⟩) := by
  unfold implementation?
  rw [outcome_bind]
  congr 1
  funext overrides
  simp only [outcome_bind, outcome_liftM, ok_bind, Recorded.value_findM?,
    Method.value_sameUpToCanon]
  cases overrides.find? fun o => o.decl.definition.canonical == m.canonical with
  | some o => rfl
  | none =>
    simp only [outcome_bind, outcome_liftM, ok_bind, Recorded.value_findM?, Ty.value_sameUpToCanon]
    cases (P.interfaceClosure t).value.find? fun i => i.canonical == m.owner.canonical with
    | none => rfl
    | some listed => simp

/-- What implements an interface method does not depend on which of the methods with the same
canonical form it is. -/
theorem implementation?_congr {m m' : Method} (h : m.canonical = m'.canonical) (t : Ty) :
    outcome (P.implementation? m t) = outcome (P.implementation? m' t) := by
  have hdecl : m.canonical.decl = m'.canonical.decl := congrArg Method.decl h
  have howner : m.canonical.owner = m'.canonical.owner := congrArg Method.owner h
  have hdecl' : m.decl = m'.decl := hdecl
  have howner' : m.owner.canonical = m'.owner.canonical := howner
  rw [outcome_implementation?, outcome_implementation?, h, howner', hdecl']

/-- Dispatch of an interface method asks the type and its base types in turn for an implementation,
which is then dispatched by its slot. -/
theorem outcome_interfaceTarget? (m : Method) (t : Ty) :
    outcome (P.interfaceTarget? m t) =
      firstAnswer (fun u => outcome (P.implementation? m.definition u))
        (P.chain P.walkLimit t) >>= fun found =>
        match found with
        | some found => some <$> outcome (P.classTarget (found.withArgs m.args) t)
        | none => .ok (if m.isAbstract then none else some m) := by
  unfold interfaceTarget?
  rw [outcome_bind, outcome_findUp]
  congr 1
  funext found
  cases found with
  | some found => simp
  | none => rfl

/-- A call of an interface method that nothing implements stays as it is. -/
theorem outcome_resolve_of_interface {m : Method} (hm : m.owner.isInterface = true) (t : Ty) :
    outcome (P.resolve m t) = outcome (P.interfaceTarget? m t) >>= fun target =>
      .ok (target.getD m) := by
  unfold resolve
  rw [if_pos hm, outcome_bind]
  rfl

/-- Two interface methods that agree up to the canonical form of their owners lead to the same
implementation on a type; if it has none, each leads to itself. -/
theorem resolve_congr_of_interface {m m' target : Method} {t : Ty}
    (hm : m.owner.isInterface = true) (hm' : m'.owner.isInterface = true)
    (hargs : m.args = m'.args) (hdef : m.definition.canonical = m'.definition.canonical)
    (h : outcome (P.resolve m t) = .ok target) :
    outcome (P.resolve m' t) = .ok target ∨ target = m ∧ outcome (P.resolve m' t) = .ok m' := by
  rw [P.outcome_resolve_of_interface hm, P.outcome_interfaceTarget?, hargs] at h
  simp only [P.implementation?_congr hdef] at h
  rw [P.outcome_resolve_of_interface hm', P.outcome_interfaceTarget?]
  cases hfound : firstAnswer (fun u => outcome (P.implementation? m'.definition u))
      (P.chain P.walkLimit t) with
  | error e =>
    rw [hfound] at h
    cases h
  | ok found =>
    rw [hfound, ok_bind] at h
    rw [ok_bind]
    cases found with
    | some found =>
      refine .inl ?_
      dsimp only at h ⊢
      cases hclass : outcome (P.classTarget (found.withArgs m'.args) t) with
      | error e =>
        rw [hclass] at h
        cases h
      | ok body =>
        rw [hclass] at h
        cases h
        rfl
    | none =>
      refine .inr ⟨?_, ?_⟩
      · cases hcode : m.isAbstract <;> simp [hcode] at h <;> exact h.symm
      · cases hcode : m'.isAbstract <;> simp

end Program

end AheadOfTime
