import AheadOfTime.Proofs.Tracked

/-!
# Canonical forms under substitution

Methods with the same canonical form run on the same code.  The body of that code refers to other
methods by operands, in which generic parameters stand for the arguments of the method that runs.
One would want that the code which an operand leads to is the same for all methods that share the
body.  What decides this are the parameters that an operand exposes: a parameter in the place of a
generic argument or an array element is replaced by the placeholder with all other reference types,
but one behind a pointer or a reference to a location is not.
-/

set_option autoImplicit false

namespace AheadOfTime

namespace Ty

/-! ## Declarations -/

/-- Substitution does not change what a type is declared as. -/
theorem decl?_subst {t : Ty} {d : TypeDecl} (σ : Bindings) (h : t.decl? = some d) :
    (t.subst σ).decl? = some d := by
  induction t with
  | decl e => exact h
  | app f a ihf _ =>
    rw [Ty.subst_app]
    exact ihf h
  | array _ _ _ => cases h
  | pointer _ _ => cases h
  | byRef _ _ => cases h
  | param _ _ => cases h
  | canon => cases h

/-- The flags of a type are those of its declaration. -/
theorem flags_of_decl? {t : Ty} {d : TypeDecl} (h : t.decl? = some d) : t.flags = d.flags := by
  induction t with
  | decl e =>
    cases h
    rfl
  | app f a ihf _ => exact ihf h
  | array _ _ _ => cases h
  | pointer _ _ => cases h
  | byRef _ _ => cases h
  | param _ _ => cases h
  | canon => cases h

/-- A declared type is a reference unless it is declared as a value type. -/
theorem isReference_of_decl? {t : Ty} {d : TypeDecl} (h : t.decl? = some d) :
    t.isReference = !d.flags.valueType := by
  induction t with
  | decl e =>
    cases h
    rfl
  | app f a ihf _ => exact ihf h
  | array _ _ _ => cases h
  | pointer _ _ => cases h
  | byRef _ _ => cases h
  | param _ _ => cases h
  | canon => cases h

/-- A type that is put together as it should be, from declarations with a given property: only
declared types are applied to arguments, and an array has at least one dimension. -/
def FormedFrom (D : TypeDecl → Prop) : Ty → Prop
  | .decl d => D d
  | .app f a => f.decl?.isSome ∧ f.FormedFrom D ∧ a.FormedFrom D
  | .array e r => r ≠ some 0 ∧ e.FormedFrom D
  | .pointer t => t.FormedFrom D
  | .byRef t => t.FormedFrom D
  | .param _ _ => True
  | .canon => True

/-! ## Canonical forms -/

/-- A type is a reference exactly if its canonical form is. -/
@[simp] theorem isReference_canonical (t : Ty) : t.canonical.isReference = t.isReference := by
  induction t with
  | app f a ihf _ =>
    simp only [canonical, isReference]
    exact ihf
  | _ => rfl

/-- A canonical form has the flags of the type. -/
@[simp] theorem flags_canonical (t : Ty) : t.canonical.flags = t.flags := by
  induction t with
  | app f a ihf _ => exact ihf
  | _ => rfl

/-- The canonical form of an interface is an interface, and of nothing else. -/
@[simp] theorem isInterface_canonical (t : Ty) : t.canonical.isInterface = t.isInterface := by
  simp [isInterface]

/-- A canonical form is declared as the type is. -/
@[simp] theorem decl?_canonical (t : Ty) : t.canonical.decl? = t.decl? := by
  induction t with
  | app f a ihf _ => exact ihf
  | _ => rfl

/-- The canonical form of an array is an array, and of nothing else. -/
@[simp] theorem isArray_canonical (t : Ty) : t.canonical.isArray = t.isArray := by
  cases t <;> rfl

/-- The canonical form of a type is its own canonical form. -/
@[simp] theorem canonical_canonical (t : Ty) : t.canonical.canonical = t.canonical := by
  induction t with
  | app f a ihf iha =>
    simp only [canonical]
    rw [ihf]
    by_cases ha : a.isReference = true
    · simp [ha, isReference]
    · simp [ha, iha]
  | array e r ihe =>
    simp only [canonical]
    by_cases he : e.isReference = true
    · simp [he, isReference]
    · simp [he, ihe]
  | pointer t ih => simp [canonical, ih]
  | byRef t ih => simp [canonical, ih]
  | _ => rfl

/-- Canonical forms in the place of an argument are their own. -/
theorem canonicalArg_canonicalArg (t : Ty) : t.canonicalArg.canonicalArg = t.canonicalArg := by
  unfold canonicalArg
  split
  · rfl
  · next h => rw [isReference_canonical, if_neg h, canonical_canonical]

/-- A type in whose canonical form nothing is replaced is its own canonical form. -/
theorem canonical_eq_self {t : Ty} (h : t.canonical.hasCanon = false) : t.canonical = t := by
  induction t with
  | app f a ihf iha =>
    simp only [canonical, hasCanon, Bool.or_eq_false_iff] at h
    cases ha : a.isReference with
    | true => simp [ha, hasCanon] at h
    | false =>
      simp only [ha, Bool.false_eq_true, if_false] at h
      simp [canonical, ha, ihf h.1, iha h.2]
  | array e r ih =>
    simp only [canonical, hasCanon] at h
    cases he : e.isReference with
    | true => simp [he, hasCanon] at h
    | false =>
      simp only [he, Bool.false_eq_true, if_false] at h
      simp [canonical, he, ih h]
  | pointer t ih => rw [canonical, ih h]
  | byRef t ih => rw [canonical, ih h]
  | _ => rfl

/-- If the placeholder does not occur in the canonical form of an argument, the argument is in
canonical form. -/
theorem canonicalArg_eq_self {t : Ty} (h : t.canonicalArg.hasCanon = false) :
    t.canonicalArg = t := by
  unfold canonicalArg at h ⊢
  split at h
  · cases h
  · next hvalue => rw [if_neg hvalue, canonical_eq_self h]

/-- The canonical form of an applied type applies that of the generic type to that of the
argument. -/
theorem canonical_app (f a : Ty) : (app f a).canonical = .app f.canonical a.canonicalArg := rfl

/-- The canonical form of an array is the array of the canonical elements. -/
theorem canonical_array (e : Ty) (r : Option Nat) :
    (array e r).canonical = .array e.canonicalArg r := rfl

/-- The arguments of a canonical form are the canonical arguments. -/
theorem args_canonical (t : Ty) : t.canonical.args = t.args.map canonicalArg := by
  induction t with
  | app f a ihf _ => rw [canonical_app, args_app, args_app, ihf, List.map_append]; rfl
  | _ => rfl

/-- The canonical form of a type with several arguments has each of them in canonical form. -/
theorem canonical_foldl_app (args : List Ty) (t : Ty) :
    (args.foldl app t).canonical = (args.map canonicalArg).foldl app t.canonical := by
  induction args generalizing t with
  | nil => rfl
  | cons a args ih => exact ih (app t a)

/-- The canonical form of an instantiation has the same declaration and canonical arguments. -/
theorem canonical_named (d : TypeDecl) (args : List Ty) :
    (named d args).canonical = named d (args.map canonicalArg) :=
  canonical_foldl_app args (.decl d)

/-- Types with the same canonical form have it in the place of an argument too, but reference types
are all the same there. -/
theorem canonicalArg_eq_iff {a b : Ty} : a.canonicalArg = b.canonicalArg ↔
    a.isReference = true ∧ b.isReference = true ∨ a.canonical = b.canonical := by
  have hcanon : ∀ {t : Ty}, t.canonical = .canon → t.isReference = true := by
    intro t ht
    rw [← isReference_canonical, ht]
    rfl
  have hsame : a.canonical = b.canonical → a.isReference = b.isReference := by
    intro h
    rw [← isReference_canonical a, h, isReference_canonical]
  unfold canonicalArg
  by_cases ha : a.isReference = true
  · by_cases hb : b.isReference = true
    · simp [ha, hb]
    · have hne : canon ≠ b.canonical := fun h => hb (hcanon h.symm)
      have hne' : a.canonical ≠ b.canonical := fun h => hb (hsame h ▸ ha)
      simp [ha, hb, hne, hne']
  · by_cases hb : b.isReference = true
    · have hne : a.canonical ≠ canon := fun h => ha (hcanon h)
      have hne' : a.canonical ≠ b.canonical := fun h => ha ((hsame h).trans hb)
      simp [ha, hb, hne, hne']
    · simp [ha, hb]

/-! ## What a substitution exposes -/

/-- The parameters of a type that its canonical form does not hide. -/
def exposed : Ty → List (ParamKind × Nat)
  | .decl _ => []
  | .app f a => f.exposed ++ if a.isReference || a.isParam then [] else a.exposed
  | .array e _ => if e.isReference || e.isParam then [] else e.exposed
  | .pointer t => t.exposed
  | .byRef t => t.exposed
  | .param k i => [(k, i)]
  | .canon => []

/-- The parameters that are not hidden in the place of a generic argument. -/
def exposedArg (t : Ty) : List (ParamKind × Nat) :=
  if t.isReference || t.isParam then [] else t.exposed

end Ty

namespace Bindings

/-- Arguments that differ only in reference types. -/
def Shares (σ τ : Bindings) : Prop :=
  ∀ k, (σ.args k).map Ty.canonicalArg = (τ.args k).map Ty.canonicalArg

/-- Two substitutions give a parameter the same canonical form. -/
def AgreeAt (σ τ : Bindings) (p : ParamKind × Nat) : Prop :=
  ((Ty.param p.1 p.2).subst σ).canonical = ((Ty.param p.1 p.2).subst τ).canonical

/-- Arguments that differ only in reference types agree on every parameter in the place of an
argument. -/
theorem Shares.canonicalArg_param {σ τ : Bindings} (h : σ.Shares τ) (k : ParamKind) (i : Nat) :
    ((Ty.param k i).subst σ).canonicalArg = ((Ty.param k i).subst τ).canonicalArg := by
  have hget : ∀ l : List Ty, (l.getD i (.param k i)).canonicalArg =
      (l.map Ty.canonicalArg).getD i (Ty.param k i).canonicalArg := by
    intro l
    simp only [List.getD_eq_getElem?_getD, List.getElem?_map]
    cases l[i]? <;> rfl
  rw [Ty.subst_param, Ty.subst_param, hget, hget, h k]

end Bindings

namespace Ty

variable {D : TypeDecl → Prop} {σ τ : Bindings}

/-- Filling in arguments does not turn a value into a reference, unless the type is a parameter. -/
theorem FormedFrom.isReference_subst {t : Ty} (ht : t.FormedFrom D) (hparam : t.isParam = false)
    (σ : Bindings) : (t.subst σ).isReference = t.isReference := by
  cases t with
  | app f a =>
    obtain ⟨hf, -, -⟩ := ht
    obtain ⟨d, hd⟩ := Option.isSome_iff_exists.1 hf
    rw [subst_app]
    show (f.subst σ).isReference = f.isReference
    rw [isReference_of_decl? hd, isReference_of_decl? (decl?_subst σ hd)]
  | array e r => rw [subst_array]; rfl
  | pointer t => rw [subst_pointer]; rfl
  | byRef t => rw [subst_byRef]; rfl
  | param k i => cases hparam
  | decl d => rfl
  | canon => rfl

/-- In the place of an argument, what counts is what is exposed there. -/
theorem FormedFrom.canonicalArg_subst_eq_iff {t : Ty} (ht : t.FormedFrom D) (h : σ.Shares τ)
    (hcanonical : (t.subst σ).canonical = (t.subst τ).canonical ↔ ∀ p ∈ t.exposed, σ.AgreeAt τ p) :
    (t.subst σ).canonicalArg = (t.subst τ).canonicalArg ↔ ∀ p ∈ t.exposedArg, σ.AgreeAt τ p := by
  cases hparam : t.isParam with
  | true =>
    cases t with
    | param k i =>
      have hnone : (param k i).exposedArg = [] := rfl
      simp only [h.canonicalArg_param k i, hnone, List.not_mem_nil, false_imp_iff, implies_true]
    | _ => cases hparam
  | false =>
    have hσ := ht.isReference_subst hparam σ
    have hτ := ht.isReference_subst hparam τ
    rw [canonicalArg_eq_iff, hσ, hτ, hcanonical, exposedArg, hparam]
    cases t.isReference <;> simp

/-- Two substitutions by arguments that differ only in reference types lead to the same canonical
form exactly if they agree on what the type exposes. -/
theorem FormedFrom.canonical_subst_eq_iff {t : Ty} (ht : t.FormedFrom D) (h : σ.Shares τ) :
    (t.subst σ).canonical = (t.subst τ).canonical ↔ ∀ p ∈ t.exposed, σ.AgreeAt τ p := by
  induction t with
  | decl d => simp [exposed]
  | app f a ihf iha =>
    obtain ⟨-, hf, ha⟩ := ht
    have harg := ha.canonicalArg_subst_eq_iff h (iha ha)
    rw [exposedArg] at harg
    rw [subst_app, subst_app, canonical_app, canonical_app, app.injEq, ihf hf, harg, exposed]
    simp only [List.mem_append, or_imp, forall_and]
  | array e r ihe =>
    have harg := ht.2.canonicalArg_subst_eq_iff h (ihe ht.2)
    rw [exposedArg] at harg
    rw [subst_array, subst_array, canonical_array, canonical_array, array.injEq, harg, exposed]
    simp only [and_true]
  | pointer t ih =>
    rw [subst_pointer, subst_pointer, canonical, canonical, pointer.injEq, ih ht, exposed]
  | byRef t ih =>
    rw [subst_byRef, subst_byRef, canonical, canonical, byRef.injEq, ih ht, exposed]
  | param k i => simp [exposed, Bindings.AgreeAt]
  | canon => simp [exposed]

/-- Filling in arguments does not change the canonical form of an argument if it mentions no
parameter. -/
theorem FormedFrom.canonicalArg_subst {t : Ty} (ht : t.FormedFrom D) (σ : Bindings)
    (hclosed : t.canonicalArg.hasParams = false)
    (hcanonical : t.canonical.hasParams = false → (t.subst σ).canonical = t.canonical) :
    (t.subst σ).canonicalArg = t.canonicalArg := by
  have hparam : t.isParam = false := by
    cases t with
    | param k i => cases hclosed
    | _ => rfl
  unfold canonicalArg at hclosed ⊢
  rw [ht.isReference_subst hparam]
  split
  · rfl
  · next hvalue =>
    rw [if_neg hvalue] at hclosed
    exact hcanonical hclosed

/-- Filling in arguments does not change a canonical form that mentions no parameter. -/
theorem FormedFrom.canonical_subst {t : Ty} (ht : t.FormedFrom D) (σ : Bindings)
    (hclosed : t.canonical.hasParams = false) : (t.subst σ).canonical = t.canonical := by
  induction t with
  | decl d => rfl
  | app f a ihf iha =>
    obtain ⟨-, hf, ha⟩ := ht
    rw [canonical_app, hasParams, Bool.or_eq_false_iff] at hclosed
    rw [subst_app, canonical_app, canonical_app, ihf hf hclosed.1,
      ha.canonicalArg_subst σ hclosed.2 (iha ha)]
  | array e r ihe =>
    rw [subst_array, canonical_array, canonical_array,
      ht.2.canonicalArg_subst σ hclosed (ihe ht.2)]
  | pointer t ih => rw [subst_pointer, canonical, canonical, ih ht hclosed]
  | byRef t ih => rw [subst_byRef, canonical, canonical, ih ht hclosed]
  | param k i => cases hclosed
  | canon => rfl

end Ty

/-! ## Methods that share code -/

namespace Method

/-- A method whose owner and arguments are put together as they should be. -/
def FormedFrom (D : TypeDecl → Prop) (m : Method) : Prop :=
  m.owner.decl?.isSome ∧ m.owner.FormedFrom D ∧ ∀ a ∈ m.args, a.FormedFrom D

/-- The parameters of a method operand that its canonical form does not hide. -/
def exposed (m : Method) : List (ParamKind × Nat) :=
  m.owner.exposed ++ m.args.flatMap Ty.exposedArg

/-- The canonical form of a method is its own canonical form. -/
@[simp] theorem canonical_canonical (m : Method) : m.canonical.canonical = m.canonical := by
  simp [canonical, Ty.canonicalArg_canonicalArg]

/-- A method in whose canonical form nothing is replaced is its own canonical form. -/
theorem canonical_eq_self {m : Method} (h : m.canonical.hasCanon = false) : m.canonical = m := by
  obtain ⟨howner, hargs⟩ := Bool.or_eq_false_iff.1 h
  have hargs' : m.args.map Ty.canonicalArg = m.args := by
    rw [canonical, List.any_map, List.any_eq_false] at hargs
    rw [List.map_congr_left fun a ha => Ty.canonicalArg_eq_self (Bool.eq_false_iff.2 (hargs a ha))]
    exact List.map_id' m.args
  rw [canonical, Ty.canonical_eq_self howner, hargs']

/-- Methods with one canonical form have arguments that differ only in reference types. -/
theorem shares_bindings {a b : Method} (h : a.canonical = b.canonical) :
    a.bindings.Shares b.bindings := by
  have howner : a.owner.canonical = b.owner.canonical := congrArg Method.owner h
  have hargs : a.args.map Ty.canonicalArg = b.args.map Ty.canonicalArg := congrArg Method.args h
  intro k
  cases k with
  | type =>
    show a.owner.args.map Ty.canonicalArg = b.owner.args.map Ty.canonicalArg
    rw [← Ty.args_canonical, howner, Ty.args_canonical]
  | method => exact hargs

/-- The owner of a method is put together the same way, also where it takes the arguments as they
are. -/
theorem canonical_substOwner_eq_iff {t : Ty} {D : TypeDecl → Prop} {σ τ : Bindings}
    (ht : t.FormedFrom D) (h : σ.Shares τ) :
    (substOwner σ t).canonical = (substOwner τ t).canonical ↔
      ∀ p ∈ t.exposed, σ.AgreeAt τ p := by
  cases t with
  | decl d =>
    have hmap : σ.ofType.map Ty.canonicalArg = τ.ofType.map Ty.canonicalArg := h .type
    have hlength : σ.ofType.length = τ.ofType.length := by
      simpa using congrArg List.length hmap
    have heq : (substOwner σ (.decl d)).canonical = (substOwner τ (.decl d)).canonical := by
      simp only [substOwner, hlength]
      split
      · rw [Ty.canonical_named, Ty.canonical_named, hmap]
      · rfl
    simp [heq, Ty.exposed]
  | _ => exact ht.canonical_subst_eq_iff h

/-- The code that an operand leads to is the same for two methods that run on the same code exactly
if they fill in the same, up to reference types, for whatever the operand exposes. -/
theorem canonicalForm_subst_eq_iff {o a b : Method} (ho : o.FormedFrom fun _ => True)
    (h : a.canonicalForm.value = b.canonicalForm.value) :
    (o.subst a.bindings).canonicalForm.value = (o.subst b.bindings).canonicalForm.value ↔
      ∀ p ∈ o.exposed, a.bindings.AgreeAt b.bindings p := by
  rw [value_canonicalForm, value_canonicalForm] at h
  obtain ⟨-, howner, hargs⟩ := ho
  have hshares := shares_bindings h
  have hargs_iff : (o.args.map (Ty.subst a.bindings)).map Ty.canonicalArg =
      (o.args.map (Ty.subst b.bindings)).map Ty.canonicalArg ↔
        ∀ p ∈ o.args.flatMap Ty.exposedArg, a.bindings.AgreeAt b.bindings p := by
    rw [List.map_map, List.map_map, List.map_inj_left]
    constructor
    · intro heq p hp
      obtain ⟨t, ht, hp⟩ := List.mem_flatMap.1 hp
      have hform := hargs t ht
      exact (hform.canonicalArg_subst_eq_iff hshares
        (hform.canonical_subst_eq_iff hshares)).1 (heq t ht) p hp
    · intro hagree t ht
      have hform := hargs t ht
      exact (hform.canonicalArg_subst_eq_iff hshares (hform.canonical_subst_eq_iff hshares)).2
        fun p hp => hagree p (List.mem_flatMap.2 ⟨t, ht, hp⟩)
  rw [value_canonicalForm, value_canonicalForm]
  simp only [canonical, subst, Method.mk.injEq, true_and]
  rw [canonical_substOwner_eq_iff howner hshares, hargs_iff, exposed]
  simp only [List.mem_append, or_imp, forall_and]

end Method

/-! ### Tables

A table finds rows by a key.  Its code calls an index, either over the key and a pointer to the
number of a row, or over a pointer to the key. -/

namespace Indexing

def table : TypeDecl := { id := 19, space := "App", name := "Table`2", arity := 2 }

def index : TypeDecl := { id := 20, space := "App", name := "Index`2", arity := 2 }

def find : MethodDecl :=
  { id := 0, owner := table, name := "Find", signature := { result := .ofWellKnown .void } }

def probe : MethodDecl :=
  { id := 1, owner := index, name := "Probe",
    signature := { result := .ofWellKnown .void, arity := 1 } }

/-- Finding a row by a key of a given type, where rows have numbers. -/
def findBy (key : Ty) : Method :=
  ⟨find, .named table [key, .ofWellKnown .int32], []⟩

/-- A call that the body of `find` makes: the key is an argument, and the number is pointed to. -/
def probeNumber : Method :=
  ⟨probe, .named index [.param .type 0, .pointer (.param .type 1)], [.array (.param .type 0) none]⟩

/-- Another one: the key is pointed to. -/
def probeKey : Method :=
  ⟨probe, .named index [.pointer (.param .type 0), .param .type 1], [.param .type 0]⟩

/-- Finding rows by texts and by objects has one canonical form. -/
theorem canonicalForm_findBy :
    (findBy (.ofWellKnown .string)).canonicalForm.value =
      (findBy .object).canonicalForm.value := by
  simp only [Method.value_canonicalForm]
  rfl

/-- A call over the key itself has one canonical form for texts and for objects. -/
theorem canonicalForm_subst_probeNumber :
    (findBy (.ofWellKnown .string)).canonicalForm.value =
        (findBy .object).canonicalForm.value ∧
      (probeNumber.subst (findBy (.ofWellKnown .string)).bindings).canonicalForm.value =
        (probeNumber.subst (findBy .object).bindings).canonicalForm.value := by
  have hformed : probeNumber.FormedFrom fun _ => True := by
    simp [Method.FormedFrom, Ty.FormedFrom, probeNumber, Ty.named, Ty.decl?]
  have hexposed : probeNumber.exposed = [(.type, 1)] := rfl
  refine ⟨canonicalForm_findBy, ?_⟩
  refine (Method.canonicalForm_subst_eq_iff hformed canonicalForm_findBy).2 fun p hp => ?_
  rw [hexposed, List.mem_singleton] at hp
  rw [hp]
  rfl

/-- If the key is pointed to, the code that is called differs between keys that are strings and keys
that are any objects, though both run on the same code. -/
theorem exists_canonicalForm_subst_ne : ∃ o a b : Method,
    o.FormedFrom (fun _ => True) ∧ a.canonicalForm.value = b.canonicalForm.value ∧
      (o.subst a.bindings).canonicalForm.value ≠ (o.subst b.bindings).canonicalForm.value := by
  have hformed : probeKey.FormedFrom fun _ => True := by
    simp [Method.FormedFrom, Ty.FormedFrom, probeKey, Ty.named, Ty.decl?]
  refine ⟨probeKey, findBy (.ofWellKnown .string), findBy .object, hformed, canonicalForm_findBy, ?_⟩
  simp only [Method.value_canonicalForm]
  intro h
  have howner : (Ty.named index [.pointer (.ofWellKnown .string), .ofWellKnown .int32]).canonical =
      (Ty.named index [.pointer .object, .ofWellKnown .int32]).canonical :=
    congrArg Method.owner h
  simp [Ty.named, Ty.canonical, Ty.isReference, Ty.ofWellKnown, Ty.object, WellKnown.decl,
    WellKnown.name] at howner

end Indexing

end AheadOfTime
