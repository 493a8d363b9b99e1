import AheadOfTime.Proofs.Ty.Alphabet

/-!
# Types that are instantiated

A generic declaration is applied to all of its arguments at once, or it stands alone.  Types that
are put together in this way are saturated, and neither substitution nor passing to the canonical
form leads out of them.

A saturated type is instantiated if it mentions no parameters and is not a generic declaration that
stands alone: then its declaration has as many arguments as it has parameters.  What a declaration
says about the types that it extends becomes an instantiated type once the arguments of an
instantiated type are filled in, provided that it names no parameters but its own and does not leave
out the arguments of another declaration.
-/

set_option autoImplicit false

namespace AheadOfTime

/-! ## Parameters in scope -/

/-- The alphabet with the parameters of a declaration that has `n` of them. -/
def Alphabet.scope (n : Nat) : Alphabet where
  decl _ := True
  applies _ _ := True
  rank _ := True
  param k i := k = .type ∧ i < n
  canon := True
  applies_of_none _ _ _ := trivial
  applies_of_arity _ _ := trivial

namespace Ty

/-- To be made without parameters in scope is to have no parameters. -/
theorem over_scope_zero_iff {t : Ty} : t.Over (.scope 0) ↔ t.hasParams = false := by
  induction t with
  | app f a ihf iha =>
    rw [hasParams, Bool.or_eq_false_iff, ← ihf, ← iha]
    exact and_iff_right trivial
  | array e r ih => exact (and_iff_right trivial).trans ih
  | pointer t ih => exact ih
  | byRef t ih => exact ih
  | param k i => exact iff_of_false (fun h => Nat.not_lt_zero i h.2) Bool.noConfusion
  | _ => exact iff_of_true trivial rfl

/-- Arguments of a type without parameters have none. -/
theorem hasParams_of_mem_args {t a : Ty} (ht : t.hasParams = false) (ha : a ∈ t.args) :
    a.hasParams = false :=
  over_scope_zero_iff.1 ((over_scope_zero_iff.2 ht).args a ha)

/-- The canonical form of a type without parameters has none. -/
theorem hasParams_canonical {t : Ty} (ht : t.hasParams = false) : t.canonical.hasParams = false :=
  over_scope_zero_iff.1 ((over_scope_zero_iff.2 ht).canonical trivial)

/-- Filling in arguments for all parameters in scope leaves none. -/
theorem Over.hasParams_subst {t : Ty} {args : List Ty} (ht : t.Over (.scope args.length))
    (hargs : ∀ a ∈ args, a.hasParams = false) :
    (t.subst { ofType := args }).hasParams = false := by
  rw [← over_scope_zero_iff]
  refine subst_withParams (A := .scope 0) ht ?_
  rintro k i ⟨rfl, hi⟩
  have harg : (Bindings.args { ofType := args } .type).getD i (.param .type i) = args[i] := by
    simp [Bindings.args, hi]
  rw [harg]
  exact over_scope_zero_iff.2 (hargs _ (List.getElem_mem hi))

/-! ## Saturated types -/

/-- Every declaration stands alone or with as many arguments as it has parameters; the type itself
is followed by `n` arguments. -/
def SaturatedWith : Nat → Ty → Prop
  | n, .decl d => n = 0 ∨ n = d.arity
  | n, .app f a => f.SaturatedWith (n + 1) ∧ a.SaturatedWith 0
  | n, .array e _ => n = 0 ∧ e.SaturatedWith 0
  | n, .pointer t => n = 0 ∧ t.SaturatedWith 0
  | n, .byRef t => n = 0 ∧ t.SaturatedWith 0
  | n, .param _ _ => n = 0
  | n, .canon => n = 0

/-- Every declaration stands alone or with as many arguments as it has parameters. -/
abbrev Saturated (t : Ty) : Prop := t.SaturatedWith 0

namespace SaturatedWith

variable {t : Ty} {n : Nat}

/-- The arguments of a saturated type are saturated. -/
theorem args (ht : t.SaturatedWith n) : ∀ a ∈ t.args, a.Saturated := by
  induction t generalizing n with
  | app f a ihf _ =>
    intro b hb
    rw [args_app, List.mem_append, List.mem_singleton] at hb
    rcases hb with hb | rfl
    · exact ihf ht.1 b hb
    · exact ht.2
  | _ =>
    intro b hb
    cases hb

/-- A saturated type has all arguments of its declaration, those that follow it included, or
none. -/
theorem length_args {d : TypeDecl} (ht : t.SaturatedWith n) (hd : t.decl? = some d) :
    t.args.length + n = d.arity ∨ t.args = [] ∧ n = 0 := by
  induction t generalizing n with
  | decl e =>
    cases hd
    rcases ht with rfl | rfl
    · exact .inr ⟨rfl, rfl⟩
    · exact .inl (Nat.zero_add _)
  | app f a ihf _ =>
    rw [args_app, List.length_append, List.length_singleton]
    rcases ihf ht.1 hd with hlength | ⟨-, hn⟩
    · exact .inl (by omega)
    · omega
  | _ => cases hd

/-- A definition without arguments is saturated. -/
theorem definition (ht : t.SaturatedWith n) : t.definition.Saturated := by
  induction t generalizing n with
  | decl d => exact .inl rfl
  | app f a ihf _ => exact ihf ht.1
  | array e r => exact ⟨rfl, ht.2⟩
  | pointer t => exact ⟨rfl, ht.2⟩
  | byRef t => exact ⟨rfl, ht.2⟩
  | _ => exact rfl

/-- Substituting saturated arguments keeps a type saturated. -/
theorem subst {σ : Bindings} (ht : t.SaturatedWith n) (hσ : ∀ k, ∀ a ∈ σ.args k, a.Saturated) :
    (t.subst σ).SaturatedWith n := by
  induction t generalizing n with
  | app f a ihf iha =>
    rw [subst_app]
    exact ⟨ihf ht.1, iha ht.2⟩
  | array e r ih =>
    rw [subst_array]
    exact ⟨ht.1, ih ht.2⟩
  | pointer t ih =>
    rw [subst_pointer]
    exact ⟨ht.1, ih ht.2⟩
  | byRef t ih =>
    rw [subst_byRef]
    exact ⟨ht.1, ih ht.2⟩
  | param k i =>
    obtain rfl : n = 0 := ht
    rw [subst_param, List.getD_eq_getElem?_getD]
    cases harg : (σ.args k)[i]? with
    | none => exact rfl
    | some a => exact hσ k a (List.mem_of_getElem? harg)
  | _ => exact ht

/-- A type that is followed by arguments stays saturated when it is applied to them. -/
theorem foldl_app {l : List Ty} (ht : t.SaturatedWith (n + l.length)) (hl : ∀ a ∈ l, a.Saturated) :
    (l.foldl app t).SaturatedWith n := by
  induction l generalizing t with
  | nil => exact ht
  | cons a l ih =>
    refine ih ⟨?_, hl a List.mem_cons_self⟩ fun b hb => hl b (List.mem_cons_of_mem _ hb)
    rwa [List.length_cons, ← Nat.add_assoc] at ht

/-- A declaration with all of its arguments is saturated if these are. -/
theorem named {d : TypeDecl} {args : List Ty} (hlength : args.length = d.arity)
    (hargs : ∀ a ∈ args, a.Saturated) : (Ty.named d args).Saturated :=
  foldl_app (.inr ((Nat.zero_add _).trans hlength)) hargs

/-- Substitution in the owner of a method keeps it saturated. -/
theorem substOwner {σ : Bindings} (ht : t.Saturated) (hσ : ∀ k, ∀ a ∈ σ.args k, a.Saturated) :
    (Method.substOwner σ t).Saturated := by
  unfold Method.substOwner
  split
  · split
    · next hlength =>
      rw [Bool.and_eq_true, beq_iff_eq] at hlength
      exact named hlength.2.symm (hσ .type)
    · exact ht
  · exact ht.subst hσ

/-- In the place of an argument, a saturated canonical form stays saturated. -/
theorem canonicalArg (ht : t.canonical.Saturated) : t.canonicalArg.Saturated := by
  unfold Ty.canonicalArg
  split
  · exact rfl
  · exact ht

/-- Canonical forms of saturated types are saturated. -/
theorem canonical (ht : t.SaturatedWith n) : t.canonical.SaturatedWith n := by
  induction t generalizing n with
  | app f a ihf iha => exact ⟨ihf ht.1, (iha ht.2).canonicalArg⟩
  | array e r ih => exact ⟨ht.1, (ih ht.2).canonicalArg⟩
  | pointer t ih => exact ⟨ht.1, ih ht.2⟩
  | byRef t ih => exact ⟨ht.1, ih ht.2⟩
  | _ => exact ht

end SaturatedWith

/-! ## Instantiated types -/

/-- A saturated type is instantiated if it mentions no parameters and its declaration has all of its
arguments. -/
theorem SaturatedWith.isOpen_eq_false_iff {t : Ty} (ht : t.Saturated) : t.isOpen = false ↔
    t.hasParams = false ∧ ∀ d, t.decl? = some d → t.args.length = d.arity := by
  constructor
  · intro hopen
    obtain ⟨hparams, halone⟩ := Bool.or_eq_false_iff.1 hopen
    refine ⟨hparams, fun d hd => ?_⟩
    rcases ht.length_args hd with hlength | ⟨hargs, -⟩
    · exact hlength
    · have htd : t = .decl d := by rw [← named_of_decl? hd, hargs, named_nil]
      subst htd
      have harity : ¬ d.arity > 0 := of_decide_eq_false halone
      rw [hargs, List.length_nil]
      omega
  · rintro ⟨hparams, hlength⟩
    refine Bool.or_eq_false_iff.2 ⟨hparams, ?_⟩
    cases t with
    | decl d =>
      have harity : 0 = d.arity := hlength d rfl
      exact decide_eq_false (by omega)
    | _ => rfl

/-- The canonical form of an instantiated type is instantiated. -/
theorem SaturatedWith.isOpen_canonical {t : Ty} (ht : t.Saturated) (hopen : t.isOpen = false) :
    t.canonical.isOpen = false := by
  obtain ⟨hparams, hlength⟩ := ht.isOpen_eq_false_iff.1 hopen
  refine ht.canonical.isOpen_eq_false_iff.2 ⟨hasParams_canonical hparams, fun d hd => ?_⟩
  rw [args_canonical, List.length_map]
  exact hlength d (by rwa [decl?_canonical] at hd)

/-- A type that a declaration with `n` parameters can extend: another declaration with all of its
arguments, in which no other parameters occur. -/
structure AppliedWithin (n : Nat) (t : Ty) : Prop where
  saturated : t.Saturated
  inScope : t.Over (.scope n)
  applied : ∃ d, t.decl? = some d ∧ t.args.length = d.arity

/-- Well-known types can be extended by declarations with any number of parameters. -/
theorem AppliedWithin.ofWellKnown (w : WellKnown) (n : Nat) : (Ty.ofWellKnown w).AppliedWithin n :=
  ⟨.inl rfl, trivial, w.decl, rfl, rfl⟩

/-- Seen from an instantiation, such a type is instantiated. -/
theorem AppliedWithin.isOpen_subst {t : Ty} {args : List Ty} (ht : t.AppliedWithin args.length)
    (hargs : ∀ a ∈ args, a.Saturated ∧ a.hasParams = false) :
    (t.subst { ofType := args }).isOpen = false := by
  obtain ⟨d, hd, hlength⟩ := ht.applied
  have hsaturated : (t.subst { ofType := args }).Saturated := by
    refine ht.saturated.subst fun k a ha => ?_
    cases k with
    | type => exact (hargs a ha).1
    | method => cases ha
  refine hsaturated.isOpen_eq_false_iff.2 ⟨?_, fun e he => ?_⟩
  · exact ht.inScope.hasParams_subst fun a ha => (hargs a ha).2
  · rw [decl?_subst _ hd] at he
    cases he
    rw [args_subst _ hd, List.length_map, hlength]

end Ty

end AheadOfTime
