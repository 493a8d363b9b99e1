import AheadOfTime.Program.Casting
import AheadOfTime.Proofs.Program.Vocabulary

/-!
# What questions take note of

An answer does not depend on the catalog, but a question enters what it needs into it.  If neither
substitution nor declarations lead out of a vocabulary, then whatever is asked about what may be
spoken of needs only what may be spoken of.
-/

set_option autoImplicit false

namespace AheadOfTime

/-! ## Questions that note only certain entities -/

/-- Whatever a question takes note of has a given property. -/
def Notes {α : Type} (E : Entity → Prop) (q : Tracked α) : Prop :=
  ∃ items : List Entity, (∀ e ∈ items, E e) ∧ ∀ c, (q.run c).2 = Recorder.noteAll c items

/-- Whatever an attempt takes note of has a given property, also if there is no answer. -/
def Tries {α : Type} (E : Entity → Prop) (q : Attempt α) : Prop :=
  Notes E q.run

namespace Notes

variable {E : Entity → Prop} {α β : Type}

/-- A value that is only returned takes note of nothing. -/
theorem pure (a : α) : Notes E (Pure.pure a : Tracked α) :=
  ⟨[], List.forall_mem_nil _, fun _ => rfl⟩

/-- Two questions in a row take note of what each of them does. -/
theorem bind {q : Tracked α} {f : α → Tracked β} (hq : Notes E q) (hf : Notes E (f q.value)) :
    Notes E (q >>= f) := by
  obtain ⟨first, hfirst, hq⟩ := hq
  obtain ⟨second, hsecond, hf⟩ := hf
  refine ⟨first ++ second, List.forall_mem_append.2 ⟨hfirst, hsecond⟩, fun c => ?_⟩
  rw [Recorded.run_bind, Recorded.fst_run, hf, hq, Recorder.noteAll, Recorder.noteAll,
    Recorder.noteAll, List.foldl_append]

/-- A function of the answer takes note of nothing more. -/
theorem map (f : α → β) {q : Tracked α} (hq : Notes E q) : Notes E (f <$> q) :=
  bind hq (pure _)

/-- A case distinction takes note of what the case that applies does. -/
theorem ite {c : Prop} [Decidable c] {q q' : Tracked α} (hq : Notes E q) (hq' : Notes E q') :
    Notes E (if c then q else q') := by
  split
  · exact hq
  · exact hq'

/-- A question about each item of a list takes note of what the single ones do. -/
theorem mapM {f : α → Tracked β} {l : List α} (hf : ∀ a ∈ l, Notes E (f a)) :
    Notes E (l.mapM f) := by
  induction l with
  | nil => exact pure _
  | cons a l ih =>
    obtain ⟨ha, hl⟩ := List.forall_mem_cons.1 hf
    rw [List.mapM_cons]
    exact bind ha (bind (ih hl) (pure _))

/-- A search takes note of what the questions about the items do. -/
theorem findM? {p : α → Tracked Bool} {l : List α} (hp : ∀ a ∈ l, Notes E (p a)) :
    Notes E (l.findM? p) := by
  induction l with
  | nil => exact pure _
  | cons a l ih =>
    obtain ⟨ha, hl⟩ := List.forall_mem_cons.1 hp
    refine bind ha ?_
    cases (p a).value with
    | true => exact pure _
    | false => exact ih hl

/-- Asking whether some item is accepted takes note of what the questions about the items do. -/
theorem anyM {p : α → Tracked Bool} {l : List α} (hp : ∀ a ∈ l, Notes E (p a)) :
    Notes E (l.anyM p) := by
  induction l with
  | nil => exact pure _
  | cons a l ih =>
    obtain ⟨ha, hl⟩ := List.forall_mem_cons.1 hp
    refine bind ha ?_
    cases (p a).value with
    | true => exact pure _
    | false => exact ih hl

/-- An answer that comes from entering an entity takes note of this entity. -/
theorem yielding {a : α} {e : Entity} {enter : (c : Catalog) → { b : α // b = a } × Catalog}
    (h : ∀ c, (enter c).2 = c.add e) (he : E e) : Notes E (e.yielding enter h) :=
  ⟨[e], List.forall_mem_singleton.2 he, h⟩

/-- Needing a type takes note of the type. -/
theorem needType {t : Ty} (ht : E (.type t)) : Notes E (AheadOfTime.needType t) :=
  ite (pure t) (yielding _ ht)

/-- Needing a method takes note of the method. -/
theorem needMethod {m : Method} (hm : E (.method m)) : Notes E (AheadOfTime.needMethod m) :=
  ite (pure m) (yielding _ hm)

/-- Needing the overrides of a type takes note of them. -/
theorem needOverrides {d : TypeDecl} (hd : E (.overrides d)) :
    Notes E (AheadOfTime.needOverrides d) :=
  ⟨[_], List.forall_mem_singleton.2 hd, fun _ => rfl⟩

end Notes

namespace Tries

variable {E : Entity → Prop} {α β : Type}

/-- An attempt that only returns a value takes note of nothing. -/
theorem pure (a : α) : Tries E (Pure.pure a : Attempt α) := Notes.pure _

/-- A refusal takes note of nothing. -/
theorem refuse (f : Fault) : Tries E (AheadOfTime.refuse f : Attempt α) := Notes.pure _

/-- A question that cannot fail takes note of the same as an attempt. -/
theorem lift {q : Tracked α} (hq : Notes E q) : Tries E (liftM q : Attempt α) := hq.map _

/-- What comes next is asked only about what the first answer can be. -/
theorem bind {p : α → Prop} {q : Attempt α} {f : α → Attempt β} (hq : Tries E q)
    (hp : Yields p q) (hf : ∀ a, p a → Tries E (f a)) : Tries E (q >>= f) := by
  show Notes E (q >>= f).run
  rw [ExceptT.run_bind]
  refine Notes.bind hq ?_
  cases ha : q.run.value with
  | ok a => exact hf a (hp a ha)
  | error e => exact Notes.pure _

/-- Two attempts in a row take note of what each of them does, whatever the first answer is. -/
theorem andThen {q : Attempt α} {f : α → Attempt β} (hq : Tries E q) (hf : ∀ a, Tries E (f a)) :
    Tries E (q >>= f) :=
  bind (p := fun _ => True) hq (fun _ _ => trivial) fun a _ => hf a

/-- A function of the result takes note of nothing more. -/
theorem map (f : α → β) {q : Attempt α} (hq : Tries E q) : Tries E (f <$> q) := by
  rw [← bind_pure_comp]
  exact andThen hq fun _ => pure _

/-- A case distinction between attempts takes note of what the case that applies does. -/
theorem ite {c : Prop} [Decidable c] {q q' : Attempt α} (hq : Tries E q) (hq' : Tries E q') :
    Tries E (if c then q else q') := by
  split
  · exact hq
  · exact hq'

/-- Attempts along a list take note of what the single ones do. -/
theorem mapM {f : α → Attempt β} {l : List α} (hf : ∀ a ∈ l, Tries E (f a)) :
    Tries E (l.mapM f) := by
  induction l with
  | nil => exact pure _
  | cons a l ih =>
    obtain ⟨ha, hl⟩ := List.forall_mem_cons.1 hf
    rw [List.mapM_cons]
    exact andThen ha fun _ => andThen (ih hl) fun _ => pure _

/-- A search by attempts takes note of what the questions about the items do. -/
theorem findM? {p : α → Attempt Bool} {l : List α} (hp : ∀ a ∈ l, Tries E (p a)) :
    Tries E (l.findM? p) := by
  induction l with
  | nil => exact pure _
  | cons a l ih =>
    obtain ⟨ha, hl⟩ := List.forall_mem_cons.1 hp
    refine andThen ha fun b => ?_
    cases b with
    | true => exact pure _
    | false => exact ih hl

/-- A filter by attempts takes note of what the questions about the items do. -/
theorem filterM {p : α → Attempt Bool} {l : List α} (hp : ∀ a ∈ l, Tries E (p a)) :
    Tries E (l.filterM p) := by
  suffices ∀ acc, Tries E (l.filterAuxM p acc) from andThen (this []) fun _ => pure _
  induction l with
  | nil => exact fun acc => pure _
  | cons a l ih =>
    obtain ⟨ha, hl⟩ := List.forall_mem_cons.1 hp
    exact fun acc => andThen ha fun b => ih hl _

end Tries

/-! ## Questions within a vocabulary -/

namespace Vocabulary

/-- The entities that may be spoken of. -/
def HasEntity (V : Vocabulary) : Entity → Prop
  | .type t | .form t => V.type t
  | .method m | .methodForm m => V.method m
  | .overrides _ => True

variable {V : Vocabulary}

/-! ### Canonical forms -/

/-- To know the canonical form of a type, nothing but the type has to be spoken of. -/
theorem notes_canonicalForm {t : Ty} (ht : V.type t) : Notes V.HasEntity t.canonicalForm :=
  .yielding _ ht

/-- To compare two types up to canonical form, nothing but the two has to be spoken of. -/
theorem notes_typesSameUpToCanon {a b : Ty} (ha : V.type a) (hb : V.type b) :
    Notes V.HasEntity (a.sameUpToCanon b) :=
  .ite (.pure _) (.bind (notes_canonicalForm ha) (.bind (notes_canonicalForm hb) (.pure _)))

/-- To know the canonical form of a method, nothing but the method has to be spoken of. -/
theorem notes_methodCanonicalForm {m : Method} (hm : V.method m) :
    Notes V.HasEntity m.canonicalForm :=
  .yielding _ hm

/-- To know whether the code of a method is shared, nothing but the method has to be spoken of. -/
theorem notes_isShared {m : Method} (hm : V.method m) : Notes V.HasEntity m.isShared :=
  .bind (notes_methodCanonicalForm hm) (.pure _)

/-- To compare two methods up to canonical form, nothing but the two has to be spoken of. -/
theorem notes_methodsSameUpToCanon {m m' : Method} (hm : V.method m) (hm' : V.method m') :
    Notes V.HasEntity (m.sameUpToCanon m') := by
  refine .ite (.pure _) (.ite ?_ (.pure _))
  exact .bind (notes_methodCanonicalForm hm) (.bind (notes_methodCanonicalForm hm') (.pure _))

namespace Covers

variable {P : Program} (hV : V.Covers P) {t : Ty} (ht : V.type t) {m : Method}
include hV

/-! ### The hierarchy -/

/-- Instantiating a type that may be spoken of stays within the vocabulary. -/
theorem notes_instantiate {σ : Bindings} (ht : V.type t) (hσ : V.Binds σ) :
    Notes V.HasEntity (t.instantiate σ) :=
  .ite (.needType (hV.subst ht hσ)) (.pure _)

include ht

/-- The base of a type is asked for within the vocabulary. -/
theorem notes_baseType : Notes V.HasEntity (P.baseType t) := by
  unfold Program.baseType
  split
  · split
    · next base hbase =>
      exact .map _ (hV.notes_instantiate (hV.recordBase hbase) (hV.typeBindings ht))
    · exact .pure _
  · split <;> exact .pure _

/-- The methods of a type are asked for within the vocabulary. -/
theorem notes_methodsOf : Notes V.HasEntity (P.methodsOf t) := by
  unfold Program.methodsOf
  split
  · next d hd =>
    refine .mapM fun m hm => .needMethod (hV.methods ht _ ?_)
    exact P.mem_methods.2 ⟨⟨d, hd, hm⟩, rfl, rfl⟩
  · exact .pure _

/-- A method of a type is looked for by its name within the vocabulary. -/
theorem notes_findMethod? (name : String) : Notes V.HasEntity (P.findMethod? t name) :=
  .bind (hV.notes_methodsOf ht) (.pure _)

/-- The class constructor of a type is looked for within the vocabulary. -/
theorem notes_classConstructor? : Notes V.HasEntity (P.classConstructor? t) :=
  .bind (hV.notes_methodsOf ht) (.pure _)

/-- The interfaces that a type lists are asked for within the vocabulary. -/
theorem notes_interfacesOf : Notes V.HasEntity (P.interfacesOf t) := by
  unfold Program.interfacesOf
  split
  · exact .mapM fun i hi =>
      hV.notes_instantiate (hV.recordInterface hi) (hV.typeBindings ht)
  · exact .pure _

/-- A search up the bases stays within the vocabulary if what is asked of each type does. -/
theorem notes_findUp {β : Type} {visit : Ty → Tracked (Option β)}
    (hvisit : ∀ u, V.type u → Notes V.HasEntity (visit u)) :
    Notes V.HasEntity (P.findUp (m := Recorded Catalog) t visit) := by
  suffices ∀ n, Notes V.HasEntity (P.walkUp (m := Recorded Catalog) visit n t) from this _
  intro n
  induction n generalizing t with
  | zero => exact .pure _
  | succ n ih =>
    refine .bind (hV.notes_baseType ht) (.bind (hvisit t ht) ?_)
    split
    · exact .pure _
    · next base _ hbase => exact ih (hV.baseType ht hbase)
    · exact .pure _

/-- The same for a search up the bases by attempts. -/
theorem tries_findUp {β : Type} {visit : Ty → Attempt (Option β)}
    (hvisit : ∀ u, V.type u → Tries V.HasEntity (visit u)) :
    Tries V.HasEntity (P.findUp t visit) := by
  suffices ∀ n, Tries V.HasEntity (P.walkUp visit n t) from this _
  intro n
  induction n generalizing t with
  | zero => exact .pure _
  | succ n ih =>
    refine .bind (p := fun base => ∀ b ∈ base, V.type b) (.lift (hV.notes_baseType ht))
      (.lift fun b hb => hV.baseType ht hb) fun base hbase => .andThen (hvisit t ht) fun answer => ?_
    split
    · exact .pure _
    · exact ih (hbase _ rfl)
    · exact .pure _

/-- Collecting something from each base stays within the vocabulary if what is asked of each type
does. -/
theorem notes_collectUp {β : Type} {visit : Ty → Tracked β}
    (hvisit : ∀ u, V.type u → Notes V.HasEntity (visit u)) :
    Notes V.HasEntity (P.collectUp t visit) := by
  suffices ∀ n collected, Notes V.HasEntity (P.collectFrom visit n t collected) from .map _ (this _ _)
  intro n
  induction n generalizing t with
  | zero => exact fun _ => .pure _
  | succ n ih =>
    intro collected
    refine .bind (hV.notes_baseType ht) (.bind (hvisit t ht) ?_)
    split
    · next base hbase => exact ih (hV.baseType ht hbase) _
    · exact .pure _

/-- The chain of bases is walked within the vocabulary. -/
theorem notes_baseChain : Notes V.HasEntity (P.baseChain t) :=
  hV.notes_collectUp ht fun _ _ => .pure _

/-- The interfaces that a type reaches are collected within the vocabulary. -/
theorem notes_interfaceClosure : Notes V.HasEntity (P.interfaceClosure t) := by
  refine .bind (hV.notes_interfacesOf ht) (.bind ?_ (.pure _))
  suffices ∀ n stack seen, (∀ i ∈ stack, V.type i) →
      Notes V.HasEntity (P.closeInterfaces n stack seen) from this _ _ _ (hV.interfacesOf ht)
  intro n
  induction n with
  | zero => exact fun _ _ _ => .pure _
  | succ n ih =>
    intro stack seen hstack
    cases stack with
    | nil => exact .pure _
    | cons i rest =>
      obtain ⟨hi, hrest⟩ := List.forall_mem_cons.1 hstack
      refine .ite (ih _ _ hrest) (.bind (hV.notes_interfacesOf hi) (ih _ _ ?_))
      exact List.forall_mem_append.2 ⟨hV.interfacesOf hi, hrest⟩

/-- All interfaces of a type and of its bases are collected within the vocabulary. -/
theorem notes_allInterfaces : Notes V.HasEntity (P.allInterfaces t) :=
  .bind (hV.notes_collectUp ht fun _ hu => hV.notes_interfaceClosure hu) (.pure _)

/-! ### Casting -/

/-- Whether a type is below another one is asked within the vocabulary. -/
theorem notes_isSubclassOf (base : Ty) : Notes V.HasEntity (P.isSubclassOf t base) :=
  .bind (hV.notes_findUp ht fun _ _ => .pure _) (.pure _)

/-- Whether a type implements an interface is asked within the vocabulary. -/
theorem notes_implements (interface : Ty) : Notes V.HasEntity (P.implements t interface) :=
  .ite (.pure _) (.bind (hV.notes_allInterfaces ht) (.pure _))

/-- Whether a type extends or implements another one is asked within the vocabulary. -/
theorem notes_extendsOrImplements (target : Ty) :
    Notes V.HasEntity (P.extendsOrImplements t target) := by
  refine .ite (.pure _) (.bind (hV.notes_isSubclassOf ht target) ?_)
  exact .ite (.pure _) (.ite (hV.notes_implements ht target) (.pure _))

/-- Casting arrays looks at their elements. -/
theorem notes_canCast (helement : ∀ {e : Ty} {r : Option Nat}, V.type (.array e r) → V.type e)
    (target : Ty) : Notes V.HasEntity (P.canCast t target) := by
  induction t generalizing target with
  | array e r ih =>
    rw [Program.canCast.eq_def]
    refine .bind (hV.notes_extendsOrImplements ht target) (.ite (.pure _) ?_)
    cases target with
    | array f s => exact .ite (ih (helement ht) f) (.pure _)
    | _ => exact .pure _
  | _ =>
    rw [Program.canCast.eq_def]
    exact .bind (hV.notes_extendsOrImplements ht target) (.ite (.pure _) (.pure _))

/-- Whether a type derives from another one up to canonical form is asked within the vocabulary. -/
theorem notes_derivesUpToCanon {target : Ty} (htarget : V.type target) :
    Notes V.HasEntity (P.derivesUpToCanon t target) := by
  have hmatching : ∀ u, V.type u → Notes V.HasEntity (do
      let canonical ← u.canonicalForm
      pure (canonical == target.canonicalForm.value)) :=
    fun u hu => .bind (notes_canonicalForm hu) (.pure _)
  refine .bind (notes_canonicalForm htarget) (.ite ?_ ?_)
  · refine .bind (hV.notes_allInterfaces ht) (.anyM fun i hi => hmatching i ?_)
    exact hV.answers.allInterfaces ht i hi
  · exact .bind (hV.notes_findUp ht fun u hu => .bind (hmatching u hu) (.pure _)) (.pure _)

/-! ### Overrides and slots -/

omit ht

/-- Overrides are seen through arguments within the vocabulary. -/
theorem notes_instantiateOverrides {args : List Ty} (hargs : ∀ a ∈ args, V.type a)
    {l : List Override} (hl : ∀ o ∈ l, V.method o.decl ∧ V.method o.body) :
    Notes V.HasEntity (Program.instantiateOverrides args l) := by
  have hσ : V.Binds { ofType := args } := by
    intro k
    cases k with
    | type => exact hargs
    | method => exact List.forall_mem_nil _
  refine .ite (.pure _) (.mapM fun o ho => ?_)
  refine .bind (.needMethod (hV.methodSubst (hl o ho).1 hσ)) ?_
  exact .bind (.needMethod (hV.methodSubst (hl o ho).2 hσ)) (.pure _)

/-- The overrides of a type are settled within the vocabulary. -/
theorem tries_overridesOf (ht : V.type t) : Tries V.HasEntity (P.overridesOf t) := by
  unfold Program.overridesOf
  split
  · next d hd =>
    refine .andThen (.lift (.needOverrides trivial)) fun _ => ?_
    split
    · next settled hsettled =>
      refine .lift (hV.notes_instantiateOverrides (hV.typeArgs ht) fun o ho => ?_)
      exact hV.recordOverride ((P.record d).overrides.mem_declared_of_settled hsettled ho)
    · exact .refuse _
  · exact .pure _

/-- The overrides of one name are settled within the vocabulary. -/
theorem tries_overridesNamed (ht : V.type t) (isClosed : TypeDecl → Bool) (name : String) :
    Tries V.HasEntity (P.overridesNamed isClosed t name) := by
  unfold Program.overridesNamed
  split
  · next d hd =>
    dsimp only
    split
    · next settled hsettled =>
      refine .lift (hV.notes_instantiateOverrides (hV.typeArgs ht) fun o ho => ?_)
      exact hV.recordOverride ((P.record d).overrides.mem_declared_of_filter hsettled ho)
    · exact .refuse _
  · exact .pure _

/-- What a method overrides is looked for within the vocabulary. -/
theorem tries_overridden? (hm : V.method m) : Tries V.HasEntity (P.overridden? m) := by
  refine .andThen (hV.tries_overridesOf (hV.owner hm)) fun overrides => ?_
  split
  · exact .pure _
  · refine .bind (p := fun base => ∀ b ∈ base, V.type b) (.lift (hV.notes_baseType (hV.owner hm)))
      (.lift fun b hb => hV.baseType (hV.owner hm) hb) fun base hbase => ?_
    cases base with
    | none => exact .pure _
    | some base =>
      exact .lift (hV.notes_findUp (hbase base rfl) fun u hu => .bind (hV.notes_methodsOf hu) (.pure _))

/-- Any number of steps of the search for a slot is made within the vocabulary. -/
theorem tries_slotFrom (n : Nat) (hm : V.method m) : Tries V.HasEntity (P.slotFrom n m) := by
  induction n generalizing m with
  | zero => exact .pure _
  | succ n ih =>
    rw [Program.slotFrom_succ]
    refine .ite (.pure _) (.bind (hV.tries_overridden? hm) (hV.answers.overridden? hm)
      fun next hnext => ?_)
    cases next with
    | some next => exact ih (hnext next rfl)
    | none => exact .pure _

/-- The slot of a method is found within the vocabulary. -/
theorem tries_slotOf (hm : V.method m) : Tries V.HasEntity (P.slotOf m) := by
  refine .bind (hV.tries_slotFrom _ (hV.definition hm)) (hV.answers.slotFrom _ (hV.definition hm))
    fun slot hslot => .lift (.needMethod ?_)
  exact withArgs hslot (hV.replaceArgs hslot hm)

/-- The methods of a type that may be spoken of may be spoken of. -/
theorem yields_methodsOf (ht : V.type t) :
    Yields (fun methods => ∀ m ∈ methods, V.method m) (liftM (P.methodsOf t)) := by
  refine .lift ?_
  rw [Program.value_methodsOf]
  exact hV.methods ht

/-- The slots of a type are listed within the vocabulary. -/
theorem tries_slotsOf (ht : V.type t) : Tries V.HasEntity (P.slotsOf t) := by
  refine .bind (p := fun chain => ∀ u ∈ chain, V.type u) (.lift (hV.notes_baseChain ht))
    (.lift ?_) fun chain hchain => .andThen (.mapM fun u hu => ?_) fun _ => .pure _
  · rw [Program.value_baseChain]
    exact fun u hu => hV.answers.chain ht hu
  · have hu := hchain u (List.mem_reverse.1 hu)
    refine .bind (.lift (hV.notes_methodsOf hu)) (hV.yields_methodsOf hu) fun methods hmethods => ?_
    exact .filterM fun m hm =>
      .ite (.pure _) (.andThen (hV.tries_slotOf (hmethods m hm)) fun _ => .pure _)

/-! ### Dispatch -/

/-- What fills a slot on a type is looked for within the vocabulary. -/
theorem tries_slotFiller? (slot : Method) (ht : V.type t) :
    Tries V.HasEntity (P.slotFiller? slot t) := by
  have hfills : ∀ m, V.method m → Tries V.HasEntity (do
      let other ← P.slotOf m
      pure (other.decl == slot.decl)) :=
    fun m hm => .andThen (hV.tries_slotOf hm) fun _ => .pure _
  refine .bind (hV.tries_overridesOf ht) (hV.overridesOf ht) fun overrides hoverrides => ?_
  refine .andThen (.findM? fun o ho => ?_) fun explicit => ?_
  · exact .ite (.pure _) (hfills _ (hV.definition (hoverrides o ho).1))
  · cases explicit with
    | some o => exact .pure _
    | none =>
      refine .bind (.lift (hV.notes_methodsOf ht)) (hV.yields_methodsOf ht) fun methods hmethods => ?_
      exact .findM? fun m hm => .ite (.pure _) (hfills m (hmethods m hm))

/-- What a call of a class method leads to is looked for within the vocabulary. -/
theorem tries_classTarget (hm : V.method m) (ht : V.type t) :
    Tries V.HasEntity (P.classTarget m t) := by
  refine .ite (.pure _) (.andThen (hV.tries_slotOf (hV.definition hm)) fun slot => ?_)
  refine .bind (hV.tries_findUp ht fun u hu => hV.tries_slotFiller? slot hu)
    (.findUp fun u hu => hV.answers.slotFiller? (hV.answers.chain ht hu)) fun found hfound => ?_
  cases found with
  | some found =>
    have hfound := hfound found rfl
    exact .lift (.needMethod (withArgs hfound (hV.replaceArgs hfound hm)))
  | none => exact .pure _

variable (honOwner : ∀ {m : Method} {u : Ty}, V.method m → V.type u →
    u.canonical = m.owner.canonical → V.method ⟨m.decl, u, []⟩)
include honOwner

/-- The implementation of an interface method is looked for within the vocabulary. -/
theorem tries_implementation? (hm : V.method m) (ht : V.type t) :
    Tries V.HasEntity (P.implementation? m t) := by
  refine .bind (hV.tries_overridesOf ht) (hV.overridesOf ht) fun overrides hoverrides => ?_
  refine .andThen (.lift (.findM? fun o ho => ?_)) fun explicit => ?_
  · exact notes_methodsSameUpToCanon (hV.definition (hoverrides o ho).1) hm
  cases explicit with
  | some o => exact .pure _
  | none =>
    refine .bind (p := fun closure => ∀ i ∈ closure, V.type i)
      (.lift (hV.notes_interfaceClosure ht)) (.lift (hV.answers.interfaceClosure ht))
      fun closure hclosure => ?_
    refine .bind
      (p := fun listed => ∀ i ∈ listed, V.type i ∧ i.canonical = m.owner.canonical)
      (.lift (.findM? fun i hi => notes_typesSameUpToCanon (hclosure i hi) (hV.owner hm)))
      (.lift fun i hi => ?_) fun listed hlisted => ?_
    · rw [Recorded.value_findM?] at hi
      refine ⟨hclosure i (List.mem_of_find?_eq_some hi), ?_⟩
      have hsame := List.find?_some hi
      rwa [Ty.value_sameUpToCanon, beq_iff_eq] at hsame
    · cases listed with
      | none => exact .pure _
      | some listed =>
        obtain ⟨hlisted, hsame⟩ := hlisted listed rfl
        refine .andThen (.lift (.needMethod (honOwner hm hlisted hsame))) fun _ => ?_
        exact .andThen (.lift (hV.notes_methodsOf ht)) fun _ => .pure _

/-- What a call of an interface method leads to is looked for within the vocabulary. -/
theorem tries_interfaceTarget? (hm : V.method m) (ht : V.type t) :
    Tries V.HasEntity (P.interfaceTarget? m t) := by
  have hdefinition := hV.definition hm
  refine .bind (hV.tries_findUp ht fun u hu =>
      hV.tries_implementation? honOwner hdefinition hu)
    (.findUp fun u hu => hV.answers.implementation? (hV.answers.chain ht hu)) fun found hfound => ?_
  cases found with
  | some found =>
    have hfound := hfound found rfl
    have hbody := withArgs hfound (hV.replaceArgs hfound hm)
    refine .bind (p := V.method) (.lift (.needMethod hbody)) (.lift ?_) fun body hbody =>
      .map _ (hV.tries_classTarget hbody ht)
    rwa [value_needMethod]
  | none => exact .pure _

/-- Calls are resolved within the vocabulary. -/
theorem tries_resolve (hm : V.method m) (ht : V.type t) : Tries V.HasEntity (P.resolve m t) :=
  .ite (.andThen (hV.tries_interfaceTarget? honOwner hm ht) fun _ => .pure _)
    (hV.tries_classTarget hm ht)

end Covers

end Vocabulary

end AheadOfTime
