import AheadOfTime.Proofs.Program.Coherent
import AheadOfTime.Proofs.Ty.Saturated

/-!
# What instantiated types lead to

Nothing checks what declarations extend and override: a type may extend a generic one without giving
it arguments, or override a generic method by one that is not.  In a program whose declarations fit
together, whatever is asked about instantiated types and methods is answered by instantiated ones:
what a type extends and implements, which slot a method occupies and which method a call leads to.

Methods are looked up as they were declared and get the arguments of the call afterwards.  So there
are two things to see: that their owners are instantiated, and that dispatch leads to methods with
as many parameters as the one that is called.
-/

set_option autoImplicit false

namespace AheadOfTime

/-! ## Methods -/

namespace Method

/-- The number of generic parameters. -/
abbrev arity (m : Method) : Nat := m.decl.signature.arity

/-- A method that is seen through saturated types. -/
def Saturated (m : Method) : Prop :=
  m.owner.Saturated ∧ ∀ a ∈ m.args, a.Saturated

/-- A method is instantiated if it has arguments for its parameters, and its owner and its arguments
are instantiated. -/
theorem isOpen_eq_false_iff {m : Method} : m.isOpen = false ↔
    m.isGenericDefinition = false ∧ m.owner.isOpen = false ∧ ∀ a ∈ m.args, a.hasParams = false := by
  simp [isOpen, and_assoc]

/-- Nothing is put into an owner that needs no further arguments. -/
theorem substOwner_of_not_isOpen (σ : Bindings) {t : Ty} (h : t.isOpen = false) :
    substOwner σ t = t := by
  obtain ⟨hparams, hdecl⟩ := Bool.or_eq_false_iff.1 h
  cases t with
  | decl d =>
    have harity : d.arity = 0 := by simpa using hdecl
    simp [substOwner, harity]
  | _ => exact Ty.subst_of_not_hasParams σ hparams

/-- Nothing is filled in if no further arguments are needed. -/
theorem subst_of_not_isOpen (σ : Bindings) {m : Method} (h : m.isOpen = false) :
    m.subst σ = m := by
  obtain ⟨-, howner, hargs⟩ := isOpen_eq_false_iff.1 h
  have hmap : m.args.map (Ty.subst σ) = m.args := by
    rw [List.map_congr_left fun a ha => Ty.subst_of_not_hasParams σ (hargs a ha), List.map_id']
  rw [subst, substOwner_of_not_isOpen σ howner, hmap]

/-- Filling in arguments does not change the canonical form of an owner if it needs none. -/
theorem canonical_substOwner {D : TypeDecl → Prop} (σ : Bindings) {t : Ty} (ht : t.FormedFrom D)
    (h : t.canonical.isOpen = false) : (substOwner σ t).canonical = t.canonical := by
  cases t with
  | decl d => rw [substOwner_of_not_isOpen (t := .decl d) σ h]
  | _ => exact ht.canonical_subst σ (Bool.or_eq_false_iff.1 h).1

/-- Filling in arguments does not change a canonical form that needs none. -/
theorem FormedFrom.canonical_subst {D : TypeDecl → Prop} {m : Method} (hm : m.FormedFrom D)
    (σ : Bindings) (h : m.canonical.isOpen = false) : (m.subst σ).canonical = m.canonical := by
  obtain ⟨-, hform, hargForms⟩ := hm
  obtain ⟨-, howner, hargs⟩ := isOpen_eq_false_iff.1 h
  have hmap : (m.args.map (Ty.subst σ)).map Ty.canonicalArg = m.args.map Ty.canonicalArg := by
    rw [List.map_map]
    refine List.map_congr_left fun a ha => (hargForms a ha).canonicalArg_subst σ ?_ ?_
    · exact hargs _ (List.mem_map_of_mem ha)
    · exact (hargForms a ha).canonical_subst σ
  simp only [canonical, subst, canonical_substOwner σ hform howner, hmap]

/-- A method has as many parameters as another one, and arguments for them if the other one has. -/
structure FilledLike (m' m : Method) : Prop where
  arity : m'.arity = m.arity
  filled : m.isGenericDefinition = false → m'.isGenericDefinition = false

namespace FilledLike

variable {m m' m'' : Method}

/-- A method has parameters and arguments like itself. -/
theorem refl (m : Method) : m.FilledLike m := ⟨rfl, id⟩

/-- What is filled like a second method is filled like all that the second is filled like. -/
theorem trans (h : m''.FilledLike m') (h' : m'.FilledLike m) : m''.FilledLike m :=
  ⟨h.arity.trans h'.arity, fun hm => h.filled (h'.filled hm)⟩

/-- With the arguments of a method that has as many parameters, a method is filled like that one. -/
theorem withArgs (h : m'.arity = m.arity) : (m'.withArgs m.args).FilledLike m := by
  unfold Method.withArgs
  split
  · next hkept =>
    refine ⟨h, fun hm => ?_⟩
    rw [Bool.or_eq_true] at hkept
    rcases hkept with hargs | hdone
    · have harity : m.arity = 0 := by simpa [isGenericDefinition, hargs] using hm
      simp [isGenericDefinition, h, harity]
    · simpa using hdone
  · next hfilled =>
    refine ⟨h, fun _ => ?_⟩
    rw [Bool.or_eq_true, not_or] at hfilled
    simp [isGenericDefinition, hfilled.1]

end FilledLike

/-- A method that an override of a declaration with `n` parameters can speak of.  A generic owner
without arguments takes those of the type that has the override. -/
structure AppliedWithin (n : Nat) (m : Method) : Prop where
  owner : m.owner.AppliedWithin n ∨ ∃ d : TypeDecl, m.owner = .decl d ∧ d.arity = n
  args : ∀ a ∈ m.args, a.Saturated ∧ a.Over (.scope n)

namespace AppliedWithin

variable {m : Method}

/-- A method that an override can speak of is seen through saturated types. -/
theorem saturated {n : Nat} (hm : m.AppliedWithin n) : m.Saturated := by
  refine ⟨?_, fun a ha => (hm.args a ha).1⟩
  rcases hm.owner with howner | ⟨d, howner, -⟩
  · exact howner.saturated
  · rw [howner]
    exact .inl rfl

/-- A declaration without parameters is as good as an instantiation. -/
theorem arity_eq_zero {d : TypeDecl} {n : Nat} (hm : m.AppliedWithin n) (hd : m.owner = .decl d)
    (hn : ¬ (d.arity > 0 ∧ d.arity = n)) : d.arity = 0 := by
  rcases hm.owner with howner | ⟨e, he, hlength⟩
  · obtain ⟨e, he, hlength⟩ := howner.applied
    rw [hd] at he hlength
    cases he
    exact hlength.symm
  · rw [hd] at he
    cases he
    omega

/-- Seen from an instantiation, the owner of such a method is instantiated. -/
theorem isOpen_substOwner {args : List Ty} (hm : m.AppliedWithin args.length)
    (hargs : ∀ a ∈ args, a.Saturated ∧ a.hasParams = false) :
    (substOwner { ofType := args } m.owner).isOpen = false := by
  cases howner : m.owner with
  | decl d =>
    rw [substOwner]
    by_cases hlength : d.arity > 0 ∧ d.arity = args.length
    · rw [if_pos (by simpa using hlength)]
      have hsaturated := Ty.SaturatedWith.named hlength.2.symm fun a ha => (hargs a ha).1
      refine hsaturated.isOpen_eq_false_iff.2 ⟨?_, fun e he => ?_⟩
      · exact Ty.over_scope_zero_iff.1 (.named trivial hlength.2.symm fun a ha =>
          Ty.over_scope_zero_iff.2 (hargs a ha).2)
      · rw [Ty.decl?_named] at he
        cases he
        rw [Ty.args_named, hlength.2]
    · rw [if_neg (by simpa using hlength)]
      simp [Ty.isOpen, Ty.hasParams, hm.arity_eq_zero howner hlength]
  | _ =>
    rcases hm.owner with happlied | ⟨d, hd, -⟩
    · rw [howner] at happlied
      exact happlied.isOpen_subst hargs
    · rw [howner] at hd
      cases hd

end AppliedWithin

end Method

/-! ## Declarations that fit together -/

/-- Types and methods that a declaration speaks of have all the arguments that they need, and no
parameters but those of the declaration.  A method stands for one with as many parameters, and class
constructors are not generic. -/
structure TypeRecord.Applied (r : TypeRecord) : Prop where
  base : ∀ b ∈ r.base.join, b.AppliedWithin r.decl.arity
  interfaces : ∀ i ∈ r.interfaces.getD [], i.AppliedWithin r.decl.arity
  overrides : ∀ o ∈ r.overrides.declared,
    o.decl.AppliedWithin r.decl.arity ∧ o.body.AppliedWithin r.decl.arity
  overrideArity : ∀ o ∈ r.overrides.declared, o.body.arity = o.decl.arity
  classConstructor : ∀ m ∈ r.methods, m.flags.classConstructor = true → m.signature.arity = 0

/-- A declaration with a base type and methods is an applied one if its base type is applied and
none of its methods is a class constructor. -/
theorem TypeRecord.applied_ofMethods {d : TypeDecl} {base : Option Ty} {methods : List MethodDecl}
    (hbase : ∀ b ∈ base, b.AppliedWithin d.arity)
    (hmethods : ∀ m ∈ methods, m.flags.classConstructor = false) :
    (TypeRecord.ofMethods d base methods).Applied where
  base b hb := hbase b hb
  interfaces := List.forall_mem_nil _
  overrides := List.forall_mem_nil _
  overrideArity := List.forall_mem_nil _
  classConstructor m hm hflag := by
    rw [hmethods m hm] at hflag
    cases hflag

namespace Program

/-- The declarations of a program fit together. -/
structure Applied (P : Program) : Prop where
  coherent : P.Coherent
  records : ∀ r ∈ P.types.toList, r.Applied

/-- In a program with given further types only these have to be looked at. -/
theorem applied_of_withTypes {P : Program} (types : List TypeRecord)
    (htypes : P.types = (withTypes types).types) (hP : P.Coherent)
    (hrecords : ∀ r ∈ types, r.Applied) : P.Applied := by
  refine ⟨hP, fun r hr => ?_⟩
  rw [htypes, mem_types_withTypes] at hr
  rcases hr with hr | hr
  · obtain ⟨w, -, rfl⟩ := List.mem_map.1 hr
    constructor
    · intro b hb
      obtain ⟨w', -, rfl⟩ := Option.map_eq_some_iff.1 hb
      exact .ofWellKnown w' _
    all_goals
      intro x hx
      cases hx
  · exact hrecords r hr

/-! ## Dispatch keeps the number of parameters -/

/-- Explicit overrides are by methods with as many parameters. -/
def KeepsArity (P : Program) : Prop :=
  ∀ r ∈ P.types.toList, ∀ o ∈ r.overrides.declared, o.body.arity = o.decl.arity

/-- Methods with the same signature have as many parameters. -/
theorem arity_eq_of_sameNameAndSignature {a b : Method} (ha : a.args = []) (hb : b.args = [])
    (h : a.sameNameAndSignature b = true) : a.arity = b.arity := by
  rw [Method.sameNameAndSignature, Bool.and_eq_true, beq_iff_eq, beq_iff_eq] at h
  have harity := congrArg Signature.arity h.2
  simpa [Method.signature, ha, hb, Signature.subst] using harity

namespace KeepsArity

variable {P : Program} (hP : P.KeepsArity) {m : Method} {t : Ty}
include hP

/-- The explicit overrides of a type are by methods with as many parameters. -/
theorem overridesOf (t : Ty) :
    Yields (fun overrides => ∀ o ∈ overrides, o.body.arity = o.decl.arity) (P.overridesOf t) := by
  intro overrides hoverrides o ho
  obtain ⟨d, -, o₀, ho₀, rfl⟩ := P.exists_declared_of_overridesOf hoverrides ho
  rcases record_mem_or_eq (P := P) d with hr | hr
  · exact hP _ hr o₀ ho₀
  · rw [hr] at ho₀
    cases ho₀

/-- What a method overrides has as many parameters. -/
theorem overridden? (hm : m.args = []) :
    Yields (fun next => ∀ m' ∈ next, m'.args = [] ∧ m'.arity = m.arity) (P.overridden? m) := by
  intro next hnext m' hm'
  cases hm'
  rcases exists_of_overridden? hnext with ⟨overrides, hoverrides, o, ho, rfl, -, rfl⟩ |
      ⟨base, -, -, hmem, -, hsame⟩
  · exact ⟨rfl, (hP.overridesOf _ _ hoverrides o ho).symm⟩
  · have hargs := (P.mem_methods.1 hmem).2.2
    exact ⟨hargs, arity_eq_of_sameNameAndSignature hargs hm hsame⟩

/-- Where a search for a slot stops, there is a method with as many parameters. -/
theorem slotFrom (n : Nat) (hm : m.args = []) :
    Yields (fun slot => slot.arity = m.arity) (P.slotFrom n m) := by
  induction n generalizing m with
  | zero => exact .pure rfl
  | succ n ih =>
    rw [Program.slotFrom_succ]
    refine .ite (.pure rfl) (.bind (hP.overridden? hm) fun next hnext => ?_)
    cases next with
    | none => exact .pure rfl
    | some next =>
      obtain ⟨hargs, harity⟩ := hnext next rfl
      intro slot hslot
      exact (ih hargs slot hslot).trans harity

/-- The slot of a method is filled like the method. -/
theorem slotOf (m : Method) : Yields (fun slot => slot.FilledLike m) (P.slotOf m) := by
  refine .bind (hP.slotFrom _ (m := m.definition) rfl) fun slot hslot => .lift ?_
  rw [value_needMethod]
  exact .withArgs hslot

/-- What fills a slot has as many parameters as the slot. -/
theorem slotFiller? (slot : Method) (t : Ty) :
    Yields (fun found => ∀ m ∈ found, m.arity = slot.arity) (P.slotFiller? slot t) := by
  -- two methods with the same slot have as many parameters as the method that introduced it
  have hfills : ∀ m : Method, outcome (P.slotOf m >>= fun other =>
      (pure (other.decl == slot.decl) : Attempt Bool)) = .ok true → m.arity = slot.arity := by
    intro m hm
    rw [outcome_bind] at hm
    obtain ⟨other, hother, hm⟩ := bind_eq_ok.1 hm
    rw [outcome_pure, Except.ok.injEq, beq_iff_eq] at hm
    rw [← (hP.slotOf m other hother).arity, Method.arity, hm]
  refine .bind (hP.overridesOf t) fun overrides hoverrides => ?_
  refine .bind (p := fun explicit => ∀ o ∈ explicit, o.body.arity = slot.arity)
    (.findM? fun o ho hfound => ?_) fun explicit hexplicit => ?_
  · rw [outcome_ite] at hfound
    split at hfound
    · cases hfound
    · exact (hoverrides o ho).trans (hfills o.decl.definition hfound)
  · cases explicit with
    | some o =>
      refine .pure fun m hm => ?_
      cases hm
      exact hexplicit o rfl
    | none =>
      refine .after fun methods => .findM? fun m hm hfound => ?_
      rw [outcome_ite] at hfound
      split at hfound
      · cases hfound
      · exact hfills m hfound

/-- What dispatch on a class leads to is filled like the called method. -/
theorem classTarget (m : Method) (t : Ty) :
    Yields (fun target => target.FilledLike m) (P.classTarget m t) := by
  refine .ite (.pure (.refl m)) (.bind (hP.slotOf m.definition) fun slot hslot => ?_)
  refine .bind (.findUp fun u _ => hP.slotFiller? slot u) fun found hfound => ?_
  cases found with
  | none => exact .pure (.refl m)
  | some found =>
    refine .lift ?_
    rw [value_needMethod]
    exact .withArgs ((hfound found rfl).trans hslot.arity)

/-- What implements an interface method has as many parameters. -/
theorem implementation? (m : Method) (t : Ty) :
    Yields (fun found => ∀ m' ∈ found, m'.arity = m.arity) (P.implementation? m t) := by
  intro found hfound m' hm'
  cases hm'
  rw [outcome_implementation?] at hfound
  obtain ⟨overrides, hoverrides, hfound⟩ := bind_eq_ok.1 hfound
  split at hfound
  · next o ho =>
    cases hfound
    have hsame := List.find?_some ho
    rw [beq_iff_eq] at hsame
    have hcanonical : o.decl.definition.canonical.decl = m.canonical.decl :=
      congrArg Method.decl hsame
    have hdecl : o.decl.decl = m.decl := hcanonical
    rw [hP.overridesOf _ _ hoverrides o (List.mem_of_find?_eq_some ho), Method.arity, hdecl]
  · split at hfound
    · cases hfound
    · next listed _ =>
      rw [Except.ok.injEq] at hfound
      have hargs := (P.mem_methods.1 (List.mem_of_find?_eq_some hfound)).2.2
      have hsame := List.find?_some hfound
      rw [Bool.and_eq_true] at hsame
      show m'.arity = Method.arity ⟨m.decl, listed, []⟩
      exact arity_eq_of_sameNameAndSignature hargs rfl hsame.2

/-- What an interface method leads to is filled like the method. -/
theorem interfaceTarget? (m : Method) (t : Ty) :
    Yields (fun target => ∀ m' ∈ target, m'.FilledLike m) (P.interfaceTarget? m t) := by
  refine .bind (.findUp fun u _ => hP.implementation? m.definition u) fun found hfound => ?_
  cases found with
  | some found =>
    refine .bind (p := fun body => body.FilledLike m) (.lift ?_) fun body hbody => ?_
    · rw [value_needMethod]
      exact .withArgs (hfound found rfl)
    · refine .map (hP.classTarget body t) fun target htarget m' hm' => ?_
      cases hm'
      exact htarget.trans hbody
  | none =>
    refine .pure fun m' hm' => ?_
    split at hm'
    · cases hm'
    · cases hm'
      exact .refl m

/-- A call leads to a method with as many parameters, and with arguments if the call has some. -/
theorem resolve (m : Method) (t : Ty) :
    Yields (fun target => target.FilledLike m) (P.resolve m t) := by
  refine .ite (.bind (hP.interfaceTarget? m t) fun target htarget => .pure ?_) (hP.classTarget m t)
  cases target with
  | some target => exact htarget target rfl
  | none => exact .refl m

end KeepsArity

end Program

/-! ## What may be spoken of -/

/-- Saturated types, and methods that are seen through them. -/
def Vocabulary.saturated : Vocabulary where
  type := Ty.Saturated
  method := Method.Saturated

namespace Program

/-- The instantiated types that a program has, and methods that are seen through such types.
Generic methods need not have their own arguments. -/
def instantiated (P : Program) : Vocabulary where
  type t := P.HasType t ∧ t.Saturated ∧ t.isOpen = false
  method m := P.HasMethod m ∧ m.Saturated ∧ m.owner.isOpen = false ∧
    ∀ a ∈ m.args, a.hasParams = false

/-- A saturated method of the program that needs no further arguments is an instantiated one. -/
theorem instantiated_of_isOpen {P : Program} {m : Method} (hm : P.HasMethod m)
    (hsaturated : m.Saturated) (hopen : m.isOpen = false) : P.instantiated.method m :=
  ⟨hm, hsaturated, (Method.isOpen_eq_false_iff.1 hopen).2⟩

/-- An instantiated method needs no further arguments if it has its own. -/
theorem isOpen_of_instantiated {P : Program} {m : Method} (hm : P.instantiated.method m)
    (hgeneric : m.isGenericDefinition = false) : m.isOpen = false :=
  Method.isOpen_eq_false_iff.2 ⟨hgeneric, hm.2.2⟩

namespace Applied

variable {P : Program} (hP : P.Applied)
include hP

/-- Where declarations fit together, explicit overrides are by methods with as many parameters. -/
theorem keepsArity : P.KeepsArity :=
  fun r hr => (hP.records r hr).overrideArity

/-- Declarations do not lead out of what is saturated. -/
theorem covers_saturated : Vocabulary.saturated.Covers P where
  typeArgs ht := ht.args
  subst ht hσ := ht.subst hσ
  owner hm := hm.1
  methodArgs hm := hm.2
  definition hm := ⟨hm.1, List.forall_mem_nil _⟩
  replaceArgs hm hm' := ⟨hm.1, hm'.2⟩
  methodSubst hm hσ := by
    refine ⟨hm.1.substOwner hσ, fun a ha => ?_⟩
    obtain ⟨b, hb, rfl⟩ := List.mem_map.1 ha
    exact (hm.2 b hb).subst hσ
  array := .inl rfl
  object := .inl rfl
  methods ht m hm := by
    obtain ⟨-, rfl, hargs⟩ := P.mem_methods.1 hm
    refine ⟨ht, ?_⟩
    rw [hargs]
    exact List.forall_mem_nil _
  base r hr b hb := ((hP.records r hr).base b hb).saturated
  interfaces r hr i hi := ((hP.records r hr).interfaces i hi).saturated
  overrides r hr o ho :=
    ⟨((hP.records r hr).overrides o ho).1.saturated, ((hP.records r hr).overrides o ho).2.saturated⟩

/-- An instantiated type has as many arguments as its declaration has parameters, and what the
program says about the declaration was said about no other one. -/
theorem record {t : Ty} {d : TypeDecl} (ht : P.instantiated.type t) (hd : t.decl? = some d) :
    (P.record d).Applied ∧ (P.record d).decl.arity = t.args.length ∧
      ∀ a ∈ t.args, a.Saturated ∧ a.hasParams = false := by
  obtain ⟨htype, hsaturated, hopen⟩ := ht
  obtain ⟨hparams, hlength⟩ := hsaturated.isOpen_eq_false_iff.1 hopen
  have hdecl : P.HasDecl d := (over_alphabet_iff.2 htype).decl hd
  obtain ⟨hplaced, hrecord⟩ := hP.coherent.record hdecl
  refine ⟨hP.records _ (mem_types_iff.2 ⟨d.id, hplaced⟩), ?_, fun a ha => ?_⟩
  · rw [hrecord, hlength d hd]
  · exact ⟨hsaturated.args a ha, Ty.hasParams_of_mem_args hparams ha⟩

/-- What an instantiated type extends is instantiated. -/
theorem isOpen_baseType {t b : Ty} (ht : P.instantiated.type t)
    (hb : (P.baseType t).value = some b) : b.isOpen = false := by
  cases hd : t.decl? with
  | none =>
    unfold Program.baseType at hb
    rw [hd] at hb
    cases t with
    | array e r =>
      cases hb
      rfl
    | canon =>
      cases hb
      rfl
    | _ => cases hb
  | some d =>
    obtain ⟨hrecord, hlength, hargs⟩ := hP.record ht hd
    rw [P.value_baseType_of_decl? hd] at hb
    obtain ⟨base, hbase, rfl⟩ := Option.map_eq_some_iff.1 hb
    exact (hlength ▸ hrecord.base base hbase).isOpen_subst hargs

/-- The interfaces that an instantiated type lists are instantiated. -/
theorem isOpen_interfacesOf {t : Ty} (ht : P.instantiated.type t) :
    ∀ i ∈ (P.interfacesOf t).value, i.isOpen = false := by
  intro i hi
  unfold Program.interfacesOf at hi
  split at hi
  · next d hd =>
    obtain ⟨hrecord, hlength, hargs⟩ := hP.record ht hd
    rw [Recorded.value_mapM] at hi
    obtain ⟨j, hj, rfl⟩ := List.mem_map.1 hi
    rw [Ty.value_instantiate]
    exact (hlength ▸ hrecord.interfaces j hj).isOpen_subst hargs
  · cases hi

/-- Explicit overrides of an instantiated type are of and by methods that are seen through
instantiated types. -/
theorem isOpen_overridesOf {t : Ty} (ht : P.instantiated.type t) {overrides : List Override}
    (hoverrides : outcome (P.overridesOf t) = .ok overrides) {o : Override} (ho : o ∈ overrides) :
    ∀ m, m = o.decl ∨ m = o.body →
      m.owner.isOpen = false ∧ ∀ a ∈ m.args, a.hasParams = false := by
  obtain ⟨d, hd, o₀, ho₀, rfl⟩ := P.exists_declared_of_overridesOf hoverrides ho
  obtain ⟨hrecord, hlength, hargs⟩ := hP.record ht hd
  have happlied := hrecord.overrides o₀ ho₀
  rw [hlength] at happlied
  -- both methods are declared ones with the arguments of the type filled in
  have hsubst : ∀ {m : Method}, m.AppliedWithin t.args.length →
      (m.subst { ofType := t.args }).owner.isOpen = false ∧
        ∀ a ∈ (m.subst { ofType := t.args }).args, a.hasParams = false := by
    intro m hm
    refine ⟨hm.isOpen_substOwner hargs, fun a ha => ?_⟩
    obtain ⟨b, hb, rfl⟩ := List.mem_map.1 ha
    exact (hm.args b hb).2.hasParams_subst fun a ha => (hargs a ha).2
  rintro m (rfl | rfl)
  · exact hsubst happlied.1
  · exact hsubst happlied.2

/-- What declarations say about instantiated types is about instantiated types. -/
theorem answers_instantiated : P.instantiated.Answers P where
  owner hm := ⟨hm.1.owner, hm.2.1.1, hm.2.2.1⟩
  definition hm := ⟨hP.coherent.covers.definition hm.1, hP.covers_saturated.definition hm.2.1,
    hm.2.2.1, List.forall_mem_nil _⟩
  replaceArgs hm hm' := ⟨hP.coherent.covers.replaceArgs hm.1 hm'.1,
    hP.covers_saturated.replaceArgs hm.2.1 hm'.2.1, hm.2.2.1, hm'.2.2.2⟩
  methods ht m hm := by
    refine ⟨hP.coherent.covers.methods ht.1 m hm, hP.covers_saturated.methods ht.2.1 m hm, ?_⟩
    obtain ⟨-, rfl, hargs⟩ := P.mem_methods.1 hm
    rw [hargs]
    exact ⟨ht.2.2, List.forall_mem_nil _⟩
  baseType ht hb := ⟨hP.coherent.covers.baseType ht.1 hb, hP.covers_saturated.baseType ht.2.1 hb,
    hP.isOpen_baseType ht hb⟩
  interfacesOf ht i hi := ⟨hP.coherent.covers.interfacesOf ht.1 i hi,
    hP.covers_saturated.interfacesOf ht.2.1 i hi, hP.isOpen_interfacesOf ht i hi⟩
  overridesOf ht overrides hoverrides o ho := by
    obtain ⟨hdecl, hbody⟩ := hP.coherent.covers.overridesOf ht.1 overrides hoverrides o ho
    obtain ⟨hdecl', hbody'⟩ := hP.covers_saturated.overridesOf ht.2.1 overrides hoverrides o ho
    have hopen := hP.isOpen_overridesOf ht hoverrides ho
    exact ⟨⟨hdecl, hdecl', hopen _ (.inl rfl)⟩, ⟨hbody, hbody', hopen _ (.inr rfl)⟩⟩

/-! ## Calls -/

/-- The class constructor of an instantiated type is instantiated. -/
theorem isOpen_classConstructor? {t : Ty} (ht : P.instantiated.type t) {m : Method}
    (hm : (P.classConstructor? t).value = some m) : m.isOpen = false := by
  have hinstantiated := hP.answers_instantiated.classConstructor? ht hm
  simp only [classConstructor?, Recorded.value_bind, value_methodsOf, Recorded.value_pure] at hm
  obtain ⟨⟨d, hd, hdecl⟩, howner, -⟩ := P.mem_methods.1 (List.mem_of_find?_eq_some hm)
  rw [howner] at hd
  have hflag : m.isClassConstructor = true := List.find?_some hm
  have harity : m.arity = 0 := (hP.record ht hd).1.classConstructor m.decl hdecl hflag
  exact isOpen_of_instantiated hinstantiated (by simp [Method.isGenericDefinition, harity])

omit hP in
/-- The slots of a type leave out generic methods. -/
theorem isGenericDefinition_slotsOf (t : Ty) :
    Yields (fun slots => ∀ m ∈ slots, m.isGenericDefinition = false) (P.slotsOf t) := by
  refine .after fun chain => .mapM_flatten fun current _ => .after fun methods => ?_
  intro slots hslots m hm
  rw [outcome_filterM] at hslots
  have hkept := ((filterM_eq_ok hslots m).1 hm).2
  by_contra hgeneric
  rw [if_pos (by simp [Bool.not_eq_false _ ▸ hgeneric])] at hkept
  cases hkept

variable {m : Method} (hm : P.instantiated.method m) (hgeneric : m.isGenericDefinition = false)
include hm hgeneric

/-- The slot of an instantiated method is an instantiated method. -/
theorem instantiated_slotOf :
    Yields (fun slot => P.instantiated.method slot ∧ slot.isGenericDefinition = false)
      (P.slotOf m) :=
  fun slot hslot => ⟨hP.answers_instantiated.slotOf hm slot hslot,
    (hP.keepsArity.slotOf m slot hslot).filled hgeneric⟩

/-- On an instantiated type, a call of an instantiated method leads to an instantiated one. -/
theorem isOpen_resolve {t : Ty} (ht : P.instantiated.type t) :
    Yields (fun target => target.isOpen = false) (P.resolve m t) :=
  fun target htarget => isOpen_of_instantiated
    (hP.answers_instantiated.resolve hm ht target htarget)
    ((hP.keepsArity.resolve m t target htarget).filled hgeneric)

/-- On an instantiated type, an instantiated interface method leads to an instantiated method, if to
any. -/
theorem isOpen_interfaceTarget? {t : Ty} (ht : P.instantiated.type t) :
    Yields (fun target => ∀ m' ∈ target, m'.isOpen = false) (P.interfaceTarget? m t) :=
  fun target htarget m' hm' => isOpen_of_instantiated
    (hP.answers_instantiated.interfaceTarget? hm ht target htarget m' hm')
    ((hP.keepsArity.interfaceTarget? m t target htarget m' hm').filled hgeneric)

end Applied

end Program

end AheadOfTime
