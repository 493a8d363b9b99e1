import AheadOfTime.Proofs.Ty.Canon

/-!
# Types over an alphabet

An alphabet says what types may be made of: which declarations, ranks and parameters, whether the
placeholder, and what may be applied to a further argument.  Taking types apart, filling in arguments
and passing to the canonical form do not lead out of the types over an alphabet.

Several properties of types are of this kind: being put together from given declarations, not
mentioning the placeholder, being made of finitely many parts.
-/

set_option autoImplicit false

namespace AheadOfTime

/-- What types may be made of.  Whether something may be applied depends on its declaration, if it
has one, and on the number of arguments that it has already. -/
structure Alphabet where
  decl : TypeDecl → Prop
  applies : Option TypeDecl → Nat → Prop
  rank : Option Nat → Prop
  param : ParamKind → Nat → Prop
  canon : Prop
  /-- If more than declarations may be applied, then everything may. -/
  applies_of_none : ∀ {n : Nat}, applies none n → ∀ o k, applies o k
  /-- A declaration may be applied to as many arguments as it has parameters. -/
  applies_of_arity : ∀ {d : TypeDecl} {k : Nat}, decl d → k < d.arity → applies (some d) k

/-- The same alphabet with other parameters. -/
def Alphabet.withParams (A : Alphabet) (p : ParamKind → Nat → Prop) : Alphabet :=
  { A with param := p }

namespace Ty

/-- A type made of what an alphabet has. -/
def Over (A : Alphabet) : Ty → Prop
  | .decl d => A.decl d
  | .app f a => A.applies f.decl? f.args.length ∧ f.Over A ∧ a.Over A
  | .array e r => A.rank r ∧ e.Over A
  | .pointer t => t.Over A
  | .byRef t => t.Over A
  | .param k i => A.param k i
  | .canon => A.canon

/-- Substitution in a declared or instantiated type goes into each argument. -/
theorem args_subst {t : Ty} {d : TypeDecl} (σ : Bindings) (h : t.decl? = some d) :
    (t.subst σ).args = t.args.map (subst σ) := by
  induction t with
  | app f a ihf _ =>
    rw [subst_app, args_app, args_app, ihf h, List.map_append]
    rfl
  | decl _ => rfl
  | _ => cases h

namespace Over

variable {A : Alphabet} {t : Ty}

/-- Arguments are made of what the type is made of. -/
theorem args (ht : t.Over A) : ∀ a ∈ t.args, a.Over A := by
  induction t with
  | app f a ihf _ =>
    intro b hb
    rw [args_app, List.mem_append, List.mem_singleton] at hb
    rcases hb with hb | rfl
    · exact ihf ht.2.1 b hb
    · exact ht.2.2
  | _ =>
    intro b hb
    cases hb

/-- The declaration of a type is in the alphabet. -/
theorem decl {d : TypeDecl} (ht : t.Over A) (hd : t.decl? = some d) : A.decl d := by
  induction t with
  | decl e =>
    cases hd
    exact ht
  | app f a ihf _ => exact ihf ht.2.1 hd
  | _ => cases hd

/-- The definition of a type is made of what the type is made of. -/
theorem definition (ht : t.Over A) : t.definition.Over A := by
  induction t with
  | app f a ihf _ => exact ihf ht.2.1
  | _ => exact ht

/-- A declaration in the alphabet may be applied to as many arguments as it has parameters. -/
theorem named {d : TypeDecl} (hd : A.decl d) {args : List Ty} (hlength : args.length = d.arity)
    (hargs : ∀ a ∈ args, a.Over A) : (Ty.named d args).Over A := by
  suffices ∀ (l : List Ty) (t : Ty), t.decl? = some d → t.args.length + l.length = d.arity →
      t.Over A → (∀ a ∈ l, a.Over A) → (l.foldl app t).Over A from
    this args (.decl d) rfl ((Nat.zero_add _).trans hlength) hd hargs
  intro l
  induction l with
  | nil => exact fun t _ _ ht _ => ht
  | cons a l ih =>
    intro t htd hlen ht hl
    rw [List.length_cons] at hlen
    have hroom : t.args.length < d.arity := by omega
    apply ih (app t a) htd
    · rw [args_app, List.length_append, List.length_singleton]
      omega
    · refine ⟨?_, ht, hl a List.mem_cons_self⟩
      rw [htd]
      exact A.applies_of_arity hd hroom
    · exact fun b hb => hl b (List.mem_cons_of_mem _ hb)

/-- Filling in arguments changes which parameters may stand in a type. -/
theorem subst_withParams {σ : Bindings} {p q : ParamKind → Nat → Prop}
    (ht : t.Over (A.withParams p))
    (hσ : ∀ k i, p k i → ((σ.args k).getD i (.param k i)).Over (A.withParams q)) :
    (t.subst σ).Over (A.withParams q) := by
  induction t with
  | decl d => exact ht
  | app f a ihf iha =>
    obtain ⟨hhead, hf, ha⟩ := ht
    rw [subst_app]
    refine ⟨?_, ihf hf, iha ha⟩
    cases hd : f.decl? with
    | none =>
      rw [hd] at hhead
      exact A.applies_of_none hhead _ _
    | some d => rwa [decl?_subst σ hd, args_subst σ hd, List.length_map, ← hd]
  | array e r ih =>
    rw [subst_array]
    exact ⟨ht.1, ih ht.2⟩
  | pointer t ih =>
    rw [subst_pointer]
    exact ih ht
  | byRef t ih =>
    rw [subst_byRef]
    exact ih ht
  | param k i => exact hσ k i ht
  | canon => exact ht

/-- Substitution stays over an alphabet if the arguments are over it. -/
theorem subst {σ : Bindings} (ht : t.Over A) (hσ : ∀ k, ∀ a ∈ σ.args k, a.Over A) :
    (t.subst σ).Over A := by
  refine subst_withParams (p := A.param) (q := A.param) ht fun k i hi => ?_
  rw [List.getD_eq_getElem?_getD]
  cases harg : (σ.args k)[i]? with
  | none => exact hi
  | some a => exact hσ k a (List.mem_of_getElem? harg)

/-- Substitution in the owner of a method stays over an alphabet if the arguments are over it. -/
theorem substOwner {σ : Bindings} (ht : t.Over A) (hσ : ∀ k, ∀ a ∈ σ.args k, a.Over A) :
    (Method.substOwner σ t).Over A := by
  unfold Method.substOwner
  split
  · next d =>
    split
    · next hlength =>
      rw [Bool.and_eq_true, beq_iff_eq] at hlength
      exact named ht hlength.2.symm (hσ .type)
    · exact ht
  · exact ht.subst hσ

/-- In the place of an argument, a canonical form stays over an alphabet that has the
placeholder. -/
theorem canonicalArg (hcanon : A.canon) (ht : t.canonical.Over A) : t.canonicalArg.Over A := by
  unfold Ty.canonicalArg
  split
  · exact hcanon
  · exact ht

/-- Canonical forms stay over an alphabet that has the placeholder. -/
theorem canonical (hcanon : A.canon) (ht : t.Over A) : t.canonical.Over A := by
  induction t with
  | app f a ihf iha =>
    obtain ⟨hhead, hf, ha⟩ := ht
    rw [canonical_app]
    refine ⟨?_, ihf hf, (iha ha).canonicalArg hcanon⟩
    rwa [decl?_canonical, args_canonical, List.length_map]
  | array e r ih =>
    rw [canonical_array]
    exact ⟨ht.1, (ih ht.2).canonicalArg hcanon⟩
  | pointer t ih => exact ih ht
  | byRef t ih => exact ih ht
  | _ => exact ht

end Over

end Ty

/-- The alphabet of types that are put together as they should be, from given declarations. -/
def Alphabet.formed (D : TypeDecl → Prop) : Alphabet where
  decl := D
  applies o _ := o.isSome = true
  rank r := r ≠ some 0
  param _ _ := True
  canon := True
  applies_of_none h := absurd h Bool.false_ne_true
  applies_of_arity _ _ := rfl

/-- To be formed from declarations is to be made of the alphabet of these. -/
theorem Ty.over_formed_iff {D : TypeDecl → Prop} {t : Ty} :
    t.Over (.formed D) ↔ t.FormedFrom D := by
  induction t with
  | app f a ihf iha => exact and_congr_right' (and_congr ihf iha)
  | array e r ih => exact and_congr_right' ih
  | pointer t ih => exact ih
  | byRef t ih => exact ih
  | _ => exact Iff.rfl

/-- The alphabet without the placeholder. -/
def Alphabet.exact : Alphabet where
  decl _ := True
  applies _ _ := True
  rank _ := True
  param _ _ := True
  canon := False
  applies_of_none _ _ _ := trivial
  applies_of_arity _ _ := trivial

/-- To be made without the placeholder is not to mention it. -/
theorem Ty.over_exact_iff {t : Ty} : t.Over .exact ↔ t.hasCanon = false := by
  induction t with
  | app f a ihf iha =>
    rw [hasCanon, Bool.or_eq_false_iff, ← ihf, ← iha]
    exact and_iff_right trivial
  | array e r ih => exact (and_iff_right trivial).trans ih
  | pointer t ih => exact ih
  | byRef t ih => exact ih
  | canon => exact iff_of_false id Bool.noConfusion
  | _ => exact iff_of_true trivial rfl

end AheadOfTime
