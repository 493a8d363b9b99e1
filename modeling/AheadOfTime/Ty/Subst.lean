import AheadOfTime.Ty.Basic

/-!
# Substitution

Generic parameters are replaced by the arguments that stand at their index.  A parameter without an
argument stays as it is.
-/

set_option autoImplicit false

namespace AheadOfTime

/-- The arguments for the parameters of types and of methods. -/
structure Bindings where
  /-- The arguments for the parameters of a type. -/
  ofType : List Ty := []
  /-- The arguments for the parameters of a method. -/
  ofMethod : List Ty := []
deriving DecidableEq, Repr

/-- The arguments for one kind of parameter. -/
def Bindings.args (σ : Bindings) : ParamKind → List Ty
  | .type => σ.ofType
  | .method => σ.ofMethod

namespace Ty

/-- Replaces the generic parameters of a type.  Parts without parameters are kept as they are. -/
def subst (σ : Bindings) (t : Ty) : Ty :=
  if t.hasParams then
    match t with
    | .decl d => .decl d
    | .app f a => .app (f.subst σ) (a.subst σ)
    | .array e r => .array (e.subst σ) r
    | .pointer t => .pointer (t.subst σ)
    | .byRef t => .byRef (t.subst σ)
    | .param k i => (σ.args k).getD i (.param k i)
    | .canon => .canon
  else t

/-- Nothing changes where there is no parameter. -/
theorem subst_of_not_hasParams (σ : Bindings) {t : Ty} (h : t.hasParams = false) :
    t.subst σ = t := by
  unfold subst
  exact if_neg (by simp [h])

/-- A declaration has nothing to substitute. -/
@[simp] theorem subst_decl (σ : Bindings) (d : TypeDecl) : (decl d).subst σ = .decl d := rfl

/-- Substitution in an applied type goes into the generic type and into the argument. -/
@[simp] theorem subst_app (σ : Bindings) (f a : Ty) :
    (app f a).subst σ = .app (f.subst σ) (a.subst σ) := by
  rw [subst]
  split
  · rfl
  · next h =>
    rw [hasParams, Bool.not_eq_true, Bool.or_eq_false_iff] at h
    rw [subst_of_not_hasParams σ h.1, subst_of_not_hasParams σ h.2]

/-- Substitution in an array goes into the elements and keeps the rank. -/
@[simp] theorem subst_array (σ : Bindings) (e : Ty) (r : Option Nat) :
    (array e r).subst σ = .array (e.subst σ) r := by
  rw [subst]
  split
  · rfl
  · next h => rw [subst_of_not_hasParams σ (Bool.not_eq_true _ ▸ h)]

/-- Substitution in a pointer goes into what it points to. -/
@[simp] theorem subst_pointer (σ : Bindings) (t : Ty) :
    (pointer t).subst σ = .pointer (t.subst σ) := by
  rw [subst]
  split
  · rfl
  · next h => rw [subst_of_not_hasParams σ (Bool.not_eq_true _ ▸ h)]

/-- Substitution in a reference goes into what it refers to. -/
@[simp] theorem subst_byRef (σ : Bindings) (t : Ty) :
    (byRef t).subst σ = .byRef (t.subst σ) := by
  rw [subst]
  split
  · rfl
  · next h => rw [subst_of_not_hasParams σ (Bool.not_eq_true _ ▸ h)]

/-- A parameter is replaced by the argument in its place, and stays if there is none. -/
@[simp] theorem subst_param (σ : Bindings) (k : ParamKind) (i : Nat) :
    (param k i).subst σ = (σ.args k).getD i (.param k i) := rfl

/-- The placeholder has nothing to substitute. -/
@[simp] theorem subst_canon (σ : Bindings) : canon.subst σ = .canon := rfl

end Ty

end AheadOfTime
