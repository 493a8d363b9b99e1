import AheadOfTime.Proofs.Sealing

/-!
# What the declarations seal

The declarations seal a type without looking at objects, and an array by the type of its elements.
If nothing extends a type that is sealed, a value type or an array, no other type can be cast to one
that the declarations seal.  So whoever looks at the objects that exist finds nothing that speaks
against it: what the declarations seal, the existing objects seal too, as far as there are any.
-/

set_option autoImplicit false

namespace AheadOfTime

/-- If every item fails a test, none passes it. -/
theorem anyM_ok_false {α : Type} {p : α → Except Diagnostic Bool} {l : List α}
    (h : ∀ a ∈ l, p a = .ok false) : l.anyM p = .ok false := by
  induction l with
  | nil => rfl
  | cons a l ih =>
    rw [List.anyM, h a List.mem_cons_self, ok_bind]
    exact ih fun a' ha' => h a' (List.mem_cons_of_mem _ ha')

/-- Neither a sealed type nor a value type nor an array. -/
def Ty.IsExtensible (t : Ty) : Prop :=
  t.isDeclaredSealed = false ∧ t.isValueType = false ∧ t.isArray = false

/-- An array is sealed by its elements, and everything else by its own declaration, unless that is
an interface. -/
theorem Sealing.declaresType_iff {t : Ty} (ht : t.isArray = false) : declaresType t = true ↔
    t.decl?.isSome = true ∧ t.isInterface = false ∧
      (t.isDeclaredSealed = true ∨ t.isValueType = true) := by
  cases t with
  | array e r => cases ht
  | _ => simp [declaresType, and_assoc]

/-- What is sealed by its declaration is not extensible. -/
theorem Sealing.not_isExtensible {t : Ty} (h : declaresType t = true) : ¬ t.IsExtensible := by
  rintro ⟨hsealed, hvalue, harray⟩
  obtain ⟨-, -, hflags⟩ := (declaresType_iff harray).1 h
  simp [hsealed, hvalue] at hflags

/-- What is sealed by its declaration is no interface. -/
theorem Sealing.isInterface_of_declaresType {t : Ty} (h : declaresType t = true) :
    t.isInterface = false := by
  cases harray : t.isArray with
  | false => exact ((declaresType_iff harray).1 h).2.1
  | true =>
    cases t with
    | array e r => rfl
    | _ => cases harray

namespace Program

variable (P : Program) (D : Ty → Prop)

/-- Some types, which with every array include the type of its elements, have no sealed type, value
type or array among the types that they extend. -/
structure ExtendsExtensible : Prop where
  element : ∀ {e : Ty} {r : Option Nat}, D (.array e r) → D e
  base : ∀ {t : Ty}, D t → ∀ b ∈ P.properBases t, b.IsExtensible

/-- A type that extends one with a given canonical form has such a type on its chain. -/
theorem exists_mem_chain_of_derivesUpToCanon {t target : Ty} (htarget : target.isInterface = false)
    (h : (P.derivesUpToCanon t target).value = true) :
    ∃ u ∈ P.chain P.walkLimit t, u.canonical = target.canonical := by
  unfold derivesUpToCanon at h
  simp only [Recorded.value_bind, Ty.value_canonicalForm, Ty.isInterface_canonical, htarget,
    Bool.false_eq_true, if_false, value_findUp, Recorded.value_pure] at h
  rw [List.findSome?_isSome_iff] at h
  obtain ⟨u, hu, hfound⟩ := h
  refine ⟨u, hu, ?_⟩
  by_contra hne
  simp [hne] at hfound

variable {P D}

/-- A type that the declarations seal is extended by none of the types. -/
theorem ExtendsExtensible.eq_of_mem_chain (hP : P.ExtendsExtensible D) {c t : Ty} (hc : D c)
    (hsealed : Sealing.declaresType t = true) (h : t ∈ P.chain P.walkLimit c) : c = t := by
  by_contra hne
  have hbase := P.mem_properBases_of_mem_chain h (Ne.symm hne)
  exact Sealing.not_isExtensible hsealed (hP.base hc t hbase)

/-- Only the type itself can be cast to a type that the declarations seal. -/
theorem ExtendsExtensible.eq_of_declaresType_of_canCast (hP : P.ExtendsExtensible D) {c t : Ty}
    (hc : D c) (hsealed : Sealing.declaresType t = true) (hcast : (P.canCast c t).value = true) :
    c = t := by
  have hclass := Sealing.isInterface_of_declaresType hsealed
  -- arrays are cast by their elements, so the induction is on how arrays are nested
  induction t generalizing c with
  | array e r ih =>
    by_cases hdirect : (P.extendsOrImplements c (.array e r)).value = true
    · rcases (P.value_extendsOrImplements hclass).1 hdirect with heq | hchain
      · exact heq
      · exact hP.eq_of_mem_chain hc hsealed hchain
    · unfold canCast at hcast
      rw [Recorded.value_bind, if_neg hdirect] at hcast
      cases c with
      | array e' r' =>
        dsimp only at hcast
        split at hcast
        · next hrank =>
          rw [Bool.and_eq_true, decide_eq_true_iff] at hrank
          have he : Sealing.declaresType e = true := hsealed
          rw [ih (hP.element hc) he hcast (Sealing.isInterface_of_declaresType he), hrank.1]
        · cases hcast
      | _ => cases hcast
  | _ =>
    rcases P.mem_chain_of_canCast hcast hclass (by rintro ⟨-, ⟨⟩⟩) with heq | hchain
    · exact heq
    · exact hP.eq_of_mem_chain hc hsealed hchain

end Program

namespace Constructed

variable {P : Program} {D : Ty → Prop} {types : List Ty}

/-- Types that are compared as the same are both arrays or both not, and have the same flags. -/
theorem isArray_flags_of_key_eq {b t : Ty} (h : (key b).value = (key t).value) :
    b.isArray = t.isArray ∧ b.flags = t.flags := by
  have hkey : ∀ u : Ty, u.isArray = (key u).value.isArray ∧ u.flags = (key u).value.flags := by
    intro u
    rw [value_key]
    split <;> simp
  constructor
  · rw [(hkey b).1, (hkey t).1, h]
  · rw [(hkey b).2, (hkey t).2, h]

/-- Whether a type may be extended is the same for all that are compared as it is. -/
theorem isExtensible_of_key_eq {b t : Ty} (h : (key b).value = (key t).value)
    (hb : b.IsExtensible) : t.IsExtensible := by
  obtain ⟨harray, hflags⟩ := isArray_flags_of_key_eq h
  unfold Ty.IsExtensible Ty.isDeclaredSealed Ty.isValueType at hb ⊢
  rw [← hflags, ← harray]
  exact hb

/-- A type that the declarations seal is sealed by the objects that exist, if there are any that are
compared as it is. -/
theorem sealsType_of_declaresType (hP : P.ExtendsExtensible D) (htypes : ∀ c ∈ types, D c) {t : Ty}
    (hkey : (key t).value ∈ (ofTypes P types).value.keys.toList) (hconcrete : t.isAbstract = false)
    (hsealed : Sealing.declaresType t = true) :
    ((ofTypes P types).value.sealsType t).value = true := by
  refine value_sealsType.2
    ⟨Sealing.isInterface_of_declaresType hsealed, hconcrete, hkey, fun hunsealed => ?_⟩
  rcases mem_unsealed_ofTypes.1 hunsealed with ⟨c, hc, b, hb, hbkey⟩ | ⟨-, harray, s, hs, -, hne, hcast⟩
  · -- a base type that is compared as `t` would be sealed as well
    exact Sealing.not_isExtensible hsealed
      (isExtensible_of_key_eq hbkey (hP.base (htypes c hc) b hb))
  · have ht : (key t).value = t := by
      rw [value_key] at harray ⊢
      split
      · rfl
      · next hnot =>
        rw [if_neg hnot, Ty.isArray_canonical] at harray
        exact absurd harray hnot
    rw [ht] at hne hcast
    exact hne (hP.eq_of_declaresType_of_canCast (htypes s hs) hsealed hcast)

/-- A method of a class that the declarations seal is overridden on no object. -/
theorem isOverridden_of_declaresType (hP : P.ExtendsExtensible D) (htypes : ∀ c ∈ types, D c)
    {m : Method} (hclass : m.owner.isArray = false)
    (hsealed : Sealing.declaresType m.owner = true) :
    outcome ((ofTypes P types).value.isOverridden P m) = .ok false := by
  unfold isOverridden
  simp only [outcome_bind, outcome_liftM, ok_bind, outcome_anyM, types_ofTypes]
  refine anyM_ok_false fun c hc => ?_
  by_cases hkey : (key c).value = (key m.owner).value
  · simp [hkey]
  · have hderives : (P.derivesUpToCanon c m.owner).value = false := by
      rw [Bool.eq_false_iff]
      intro h
      obtain ⟨u, hu, hcanonical⟩ :=
        P.exists_mem_chain_of_derivesUpToCanon (Sealing.isInterface_of_declaresType hsealed) h
      have hukey : (key u).value = (key m.owner).value := by
        have huarray : u.isArray = false := by
          rw [← Ty.isArray_canonical, hcanonical, Ty.isArray_canonical, hclass]
        simp [value_key, huarray, hclass, hcanonical]
      by_cases hself : u = c
      · exact hkey (hself ▸ hukey)
      · have hbase := P.mem_properBases_of_mem_chain hu hself
        exact Sealing.not_isExtensible hsealed
          (isExtensible_of_key_eq hukey (hP.base (htypes c hc) u hbase))
    simp [hkey, hderives]

/-- A method that the declarations seal is sealed by the objects that exist, if there are any that
are compared as its owner is. -/
theorem sealsMethod_of_declared (hP : P.ExtendsExtensible D) (htypes : ∀ c ∈ types, D c)
    {m : Method} (hkey : (key m.owner).value ∈ (ofTypes P types).value.keys.toList)
    (hsealed : m.isFinal = true ∨ Sealing.declaresType m.owner = true) :
    ((ofTypes P types).value.sealsMethod P m).value = true := by
  refine value_sealsMethod.2 ⟨hkey, ?_⟩
  rcases hsealed with hfinal | hsealed
  · exact .inl hfinal
  · cases habstract : m.owner.isAbstract with
    | false => exact .inr (.inl (sealsType_of_declaresType hP htypes hkey habstract hsealed))
    | true =>
      -- an abstract type is never sealed itself, but its methods are if nothing overrides them
      have hclass : m.owner.isArray = false := by
        cases howner : m.owner with
        | array e r =>
          rw [howner] at habstract
          cases habstract
        | _ => rfl
      exact .inr (.inr (isOverridden_of_declaresType hP htypes hclass hsealed))

/-- What the declarations seal, the objects that exist seal too: methods if objects exist that are
compared as the owner is, and types of which objects exist. -/
theorem seals_of_declared (hP : P.ExtendsExtensible D) (htypes : ∀ c ∈ types, D c) :
    (∀ m, ((ofTypes P types).value.contains m.owner).value = true →
      (Sealing.declared.sealsMethod P m).value = true →
      ((Sealing.constructed (ofTypes P types).value).sealsMethod P m).value = true) ∧
    ∀ t ∈ types, t.isAbstract = false → (Sealing.declared.sealsType t).value = true →
      ((Sealing.constructed (ofTypes P types).value).sealsType t).value = true := by
  constructor
  · intro m hcontains hsealed
    exact sealsMethod_of_declared hP htypes ((Roster.contains_iff_mem _ _).1 hcontains)
      (Bool.or_eq_true_iff.1 hsealed)
  · intro t ht hconcrete hsealed
    exact sealsType_of_declaresType hP htypes (mem_keys_ofTypes.2 ⟨t, ht, rfl⟩) hconcrete hsealed

end Constructed

namespace Accounts

/-- Escrow accounts, and tables of them. -/
def escrows : List Ty :=
  [.decl escrow, .array (.decl escrow) none, .array (.array (.decl escrow) none) none]

/-- Escrow accounts and tables of them extend only what may be extended. -/
theorem extendsExtensible_escrows : program.ExtendsExtensible (· ∈ escrows) where
  element := by
    intro e r he
    simp only [escrows, List.mem_cons, List.not_mem_nil, or_false] at he ⊢
    rcases he with he | he | he <;> cases he <;> simp
  base := by
    have hclass : program.properBases (.decl escrow) = [.decl account, .object] := rfl
    have harray : ∀ e r, program.properBases (.array e r) = [.ofWellKnown .array, .object] :=
      fun e r => rfl
    have hextensible : (Ty.decl account).IsExtensible ∧ Ty.object.IsExtensible ∧
        (Ty.ofWellKnown .array).IsExtensible := ⟨⟨rfl, rfl, rfl⟩, ⟨rfl, rfl, rfl⟩, rfl, rfl, rfl⟩
    intro t ht b hb
    simp only [escrows, List.mem_cons, List.not_mem_nil, or_false] at ht
    rcases ht with rfl | rfl | rfl <;> simp only [hclass, harray] at hb <;> grind

/-- Escrow accounts are sealed, and so are tables of them and their review: by the declarations, and
therefore also where such accounts and tables exist. -/
theorem seals_of_declared_escrows :
    program.ExtendsExtensible (· ∈ escrows) ∧
      ((Constructed.ofTypes program escrows).value.contains review.method.owner).value = true ∧
      (Sealing.declared.sealsMethod program review.method).value = true ∧
      ((knowing escrows).sealsMethod program review.method).value = true ∧
      ∀ t ∈ escrows, t.isAbstract = false ∧ (Sealing.declared.sealsType t).value = true ∧
        ((knowing escrows).sealsType t).value = true := by
  obtain ⟨hmethods, htypes⟩ :=
    Constructed.seals_of_declared extendsExtensible_escrows fun _ hc => hc
  have hcontains : ((Constructed.ofTypes program escrows).value.contains
      review.method.owner).value = true :=
    (Roster.contains_iff_mem _ _).2 (Constructed.mem_keys_ofTypes.2 ⟨_, List.mem_cons_self, rfl⟩)
  refine ⟨extendsExtensible_escrows, hcontains, rfl, hmethods _ hcontains rfl, fun t ht => ?_⟩
  have hdeclared : t.isAbstract = false ∧ (Sealing.declared.sealsType t).value = true := by
    simp only [escrows, List.mem_cons, List.not_mem_nil, or_false] at ht
    rcases ht with rfl | rfl | rfl <;> exact ⟨rfl, rfl⟩
  exact ⟨hdeclared.1, hdeclared.2, htypes t ht hdeclared.1 hdeclared.2⟩

end Accounts

end AheadOfTime
