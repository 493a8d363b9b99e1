import AheadOfTime.Field
import AheadOfTime.Proofs.Ty.Alphabet
import Mathlib.Data.Set.Finite.List
import Mathlib.Order.Filter.AtTopBot.Finite
import Mathlib.Order.Interval.Finset.Nat

/-!
# Finitely many types

A bound says which declarations may be used and how large numbers may be: the numbers of arguments,
of dimensions and of parameters.  Every type that is put together as it should be is within all large
enough bounds, and so are finitely many of them at once.  Within a bound there are infinitely many
types, as they may be nested; but there are only finitely many of a given depth.
-/

set_option autoImplicit false

namespace AheadOfTime

open Filter

/-- The declarations that may be used, and how large numbers may be. -/
abbrev Bound := Finset TypeDecl × Finset MethodDecl × Finset Field × ℕ

namespace Bound

def types (B : Bound) : Finset TypeDecl := B.1

def methods (B : Bound) : Finset MethodDecl := B.2.1

def fields (B : Bound) : Finset Field := B.2.2.1

def size (B : Bound) : ℕ := B.2.2.2

/-- Every type declaration may be used if the bound is large enough. -/
theorem eventually_mem_types (d : TypeDecl) : ∀ᶠ B : Bound in atTop, d ∈ B.types := by
  filter_upwards [eventually_ge_atTop (({d}, ∅, ∅, 0) : Bound)] with B hB
  exact hB.1 (Finset.mem_singleton_self d)

/-- Every method declaration may be used if the bound is large enough. -/
theorem eventually_mem_methods (d : MethodDecl) : ∀ᶠ B : Bound in atTop, d ∈ B.methods := by
  filter_upwards [eventually_ge_atTop ((∅, {d}, ∅, 0) : Bound)] with B hB
  exact hB.2.1 (Finset.mem_singleton_self d)

/-- Every field may be used if the bound is large enough. -/
theorem eventually_mem_fields (f : Field) : ∀ᶠ B : Bound in atTop, f ∈ B.fields := by
  filter_upwards [eventually_ge_atTop ((∅, ∅, {f}, 0) : Bound)] with B hB
  exact hB.2.2.1 (Finset.mem_singleton_self f)

/-- Every number is allowed if the bound is large enough. -/
theorem eventually_le_size (n : ℕ) : ∀ᶠ B : Bound in atTop, n ≤ B.size := by
  filter_upwards [eventually_ge_atTop ((∅, ∅, ∅, n) : Bound)] with B hB
  exact hB.2.2.2

end Bound

/-- The alphabet of what is within a bound. -/
def Alphabet.within (B : Bound) : Alphabet where
  decl d := d ∈ B.types ∧ d.arity ≤ B.size
  applies o n := o.isSome = true ∧ n < B.size
  rank r := r.getD 0 ≤ B.size
  param _ i := i ≤ B.size
  canon := True
  applies_of_none h := absurd h.1 Bool.false_ne_true
  applies_of_arity hd hn := ⟨rfl, hn.trans_le hd.2⟩

/-- Every declaration is in the alphabet of a bound that is large enough. -/
theorem Alphabet.eventually_decl (d : TypeDecl) : ∀ᶠ B in atTop, (within B).decl d :=
  (Bound.eventually_mem_types d).and (Bound.eventually_le_size d.arity)

namespace Ty

/-- A type that is put together as it should be is within all large enough bounds. -/
theorem FormedFrom.eventually_over {D : TypeDecl → Prop} {t : Ty} (ht : t.FormedFrom D) :
    ∀ᶠ B in atTop, t.Over (.within B) := by
  induction t with
  | decl d => exact Alphabet.eventually_decl d
  | app f a ihf iha =>
    filter_upwards [ihf ht.2.1, iha ht.2.2, Bound.eventually_le_size (f.args.length + 1)]
      with B hf ha hlength
    exact ⟨⟨ht.1, hlength⟩, hf, ha⟩
  | array e r ih =>
    filter_upwards [ih ht.2, Bound.eventually_le_size (r.getD 0)] with B he hr
    exact ⟨hr, he⟩
  | pointer t ih => exact ih ht
  | byRef t ih => exact ih ht
  | param k i => exact Bound.eventually_le_size i
  | canon => exact Eventually.of_forall fun _ => trivial

/-- Arguments are nested less deep than the type. -/
theorem depth_lt_of_mem_args {t a : Ty} (ha : a ∈ t.args) : a.depth < t.depth := by
  induction t with
  | app f b ihf _ =>
    rw [args_app, List.mem_append, List.mem_singleton] at ha
    rw [depth]
    rcases ha with ha | rfl
    · have := ihf ha
      omega
    · omega
  | _ => cases ha

variable {B : Bound}

/-- Types within a bound have no more arguments than its size. -/
theorem Over.length_args_le {t : Ty} (ht : t.Over (.within B)) : t.args.length ≤ B.size := by
  cases t with
  | app f a =>
    rw [args_app, List.length_append, List.length_singleton]
    exact ht.1.2
  | _ => exact Nat.zero_le _

/-- The types within a bound that are nested less deep than a given number. -/
def withinDepth (B : Bound) (n : ℕ) : Set Ty :=
  { t | t.Over (.within B) ∧ t.depth < n }

/-- There are finitely many lists of bounded length over a finite set of types. -/
theorem finite_lists {s : Set Ty} (hs : s.Finite) (n : ℕ) :
    { l : List Ty | l.length ≤ n ∧ ∀ a ∈ l, a ∈ s }.Finite := by
  have : Finite s := hs
  refine ((List.finite_length_le s n).image (List.map Subtype.val)).subset ?_
  rintro l ⟨hlength, hl⟩
  lift l to List s using hl
  exact ⟨l, by simpa using hlength, rfl⟩

/-- Every type is a declaration with arguments, or has one part, or has no parts at all; and its
parts are less deep. -/
theorem withinDepth_succ_subset (B : Bound) (n : ℕ) : withinDepth B (n + 1) ⊆
    (fun p : TypeDecl × List Ty => named p.1 p.2) '' (↑B.types ×ˢ
        { l | l.length ≤ B.size ∧ ∀ a ∈ l, a ∈ withinDepth B n }) ∪
      (fun p : Ty × Option ℕ => array p.1 p.2) '' (withinDepth B n ×ˢ
        { r | r.getD 0 ≤ B.size }) ∪
      pointer '' withinDepth B n ∪ byRef '' withinDepth B n ∪
      (fun p : ParamKind × ℕ => param p.1 p.2) '' (Set.univ ×ˢ Set.Iic B.size) ∪ {canon} := by
  rintro t ⟨ht, hdepth⟩
  cases hd : t.decl? with
  | some d =>
    refine .inl (.inl (.inl (.inl (.inl ⟨(d, t.args), ⟨(ht.decl hd).1, ht.length_args_le, ?_⟩,
      named_of_decl? hd⟩))))
    intro a ha
    have := depth_lt_of_mem_args ha
    exact ⟨ht.args a ha, by omega⟩
  | none =>
    have hpart : ∀ {e : Ty}, e.Over (.within B) → e.depth + 1 < n + 1 → e ∈ withinDepth B n :=
      fun he hn => ⟨he, by omega⟩
    cases t with
    | decl d => cases hd
    | app f a =>
      have hsome : f.decl?.isSome = true := ht.1.1
      rw [show f.decl? = none from hd] at hsome
      cases hsome
    | array e r => exact .inl (.inl (.inl (.inl (.inr ⟨(e, r), ⟨hpart ht.2 hdepth, ht.1⟩, rfl⟩))))
    | pointer e => exact .inl (.inl (.inl (.inr ⟨e, hpart ht hdepth, rfl⟩)))
    | byRef e => exact .inl (.inl (.inr ⟨e, hpart ht hdepth, rfl⟩))
    | param k i => exact .inl (.inr ⟨(k, i), ⟨trivial, ht⟩, rfl⟩)
    | canon => exact .inr rfl

/-- There are finitely many types within a bound that are nested to some depth. -/
theorem finite_withinDepth (B : Bound) (n : ℕ) : (withinDepth B n).Finite := by
  induction n with
  | zero =>
    refine Set.finite_empty.subset ?_
    rintro t ⟨-, ht⟩
    exact absurd ht (Nat.not_lt_zero _)
  | succ n ih =>
    have hranks : { r : Option ℕ | r.getD 0 ≤ B.size }.Finite := by
      refine ((Set.finite_singleton none).union ((Set.finite_Iic B.size).image some)).subset ?_
      rintro (_ | k) hk
      · exact .inl rfl
      · exact .inr ⟨k, hk, rfl⟩
    have hkinds : (Set.univ : Set ParamKind).Finite := by
      refine (Set.toFinite {.type, .method}).subset ?_
      rintro (_ | _) - <;> simp
    refine Set.Finite.subset ?_ (withinDepth_succ_subset B n)
    refine ((((Set.Finite.union ?_ ?_).union ?_).union ?_).union ?_).union ?_
    · exact (B.types.finite_toSet.prod (finite_lists ih B.size)).image _
    · exact (ih.prod hranks).image _
    · exact ih.image _
    · exact ih.image _
    · exact (hkinds.prod (Set.finite_Iic B.size)).image _
    · exact Set.finite_singleton _

end Ty

namespace Method

/-- The methods within a bound. -/
def Within (B : Bound) (m : Method) : Prop :=
  m.decl ∈ B.methods ∧ m.args.length ≤ B.size

/-- Every method is within a bound that is large enough. -/
theorem eventually_within (m : Method) : ∀ᶠ B in atTop, m.Within B :=
  (Bound.eventually_mem_methods m.decl).and (Bound.eventually_le_size m.args.length)

/-- The depth that is collected is larger than that of every argument, and no less than at the
start. -/
theorem le_foldl_depth (l : List Ty) (n : ℕ) :
    n ≤ l.foldl (fun n t => max n (t.depth + 1)) n ∧
      ∀ a ∈ l, a.depth < l.foldl (fun n t => max n (t.depth + 1)) n := by
  induction l generalizing n with
  | nil => simp
  | cons t l ih =>
    obtain ⟨hle, hlt⟩ := ih (max n (t.depth + 1))
    rw [List.foldl_cons, List.forall_mem_cons]
    exact ⟨by omega, by omega, hlt⟩

/-- A method is nested at least as deep as its owner. -/
theorem depth_owner_le (m : Method) : m.owner.depth ≤ m.depth :=
  (le_foldl_depth m.args m.owner.depth).1

/-- A method is nested deeper than its arguments. -/
theorem depth_lt_of_mem_args {m : Method} {a : Ty} (ha : a ∈ m.args) : a.depth < m.depth :=
  (le_foldl_depth m.args m.owner.depth).2 a ha

/-- Within a bound there are finitely many methods of a given depth. -/
theorem finite_withinDepth (B : Bound) (n : ℕ) : { m : Method | m.Within B ∧
    m.owner.Over (.within B) ∧ (∀ a ∈ m.args, a.Over (.within B)) ∧ m.depth < n }.Finite := by
  have htypes := Ty.finite_withinDepth B n
  refine ((B.methods.finite_toSet.prod (htypes.prod (Ty.finite_lists htypes B.size))).image
    fun p : MethodDecl × Ty × List Ty => ⟨p.1, p.2.1, p.2.2⟩).subset ?_
  rintro m ⟨hm, howner, hargs, hdepth⟩
  refine ⟨(m.decl, m.owner, m.args), ⟨hm.1, ⟨howner, ?_⟩, hm.2, fun a ha => ⟨hargs a ha, ?_⟩⟩, rfl⟩
  · exact m.depth_owner_le.trans_lt hdepth
  · exact (depth_lt_of_mem_args ha).trans hdepth

end Method

end AheadOfTime
