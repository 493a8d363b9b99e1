import AheadOfTime.Proofs.IndexSet
import AheadOfTime.Proofs.Program.Changes
import AheadOfTime.Proofs.World

/-!
# Closed overrides

The overrides of a type are closed once all of them have been asked for, and then no more can be
declared.  So whatever happens later, they are closed and stay what they are.  Nothing else closes
them: entering types, methods and canonical forms does not.
-/

set_option autoImplicit false

namespace AheadOfTime

/-! ## What closes overrides -/

namespace Catalog

/-- Entering a type closes no overrides. -/
@[simp] theorem closed_enterType (c : Catalog) (t : Ty) : (c.enterType t).2.closed = c.closed := by
  unfold enterType
  split <;> rfl

/-- Adding a type closes no overrides; the generic types that it applies are added along with it. -/
theorem closed_addType_addGeneric (t : Ty) :
    (∀ c : Catalog, (c.addType t).2.closed = c.closed) ∧
    ∀ c : Catalog, (c.addGeneric t).2.closed = c.closed := by
  -- of a type that is not listed yet the parts are entered, and then the type
  have hstep : ∀ {u : Ty}, (∀ c : Catalog, (c.addParts u).closed = c.closed) →
      ∀ c : Catalog, (c.addType u).2.closed = c.closed := by
    intro u hparts c
    by_cases hmem : u ∈ c.types.toList
    · rw [addType_of_mem hmem]
    · rw [addType_of_not_mem hmem, closed_enterType, hparts]
  induction t with
  | decl d => exact ⟨hstep fun _ => rfl, fun c => c.closed_enterType (.decl d)⟩
  | app f a ihf iha =>
    have hparts : ∀ c : Catalog, ((c.addGeneric f).2.addType a).2.closed = c.closed :=
      fun c => (iha.1 _).trans (ihf.2 c)
    refine ⟨hstep hparts, fun c => ?_⟩
    rw [addGeneric_app]
    exact hparts c
  | array e r ih => exact ⟨hstep ih.1, fun _ => rfl⟩
  | pointer u ih => exact ⟨hstep ih.1, fun _ => rfl⟩
  | byRef u ih => exact ⟨hstep ih.1, fun _ => rfl⟩
  | param k i => exact ⟨hstep fun _ => rfl, fun _ => rfl⟩
  | canon => exact ⟨hstep fun _ => rfl, fun _ => rfl⟩

/-- Adding a type closes no overrides. -/
@[simp] theorem closed_addType (c : Catalog) (t : Ty) : (c.addType t).2.closed = c.closed :=
  (closed_addType_addGeneric t).1 c

/-- Adding types closes no overrides. -/
@[simp] theorem closed_addTypes (c : Catalog) (ts : List Ty) :
    (c.addTypes ts).2.closed = c.closed := by
  induction ts generalizing c with
  | nil => rfl
  | cons t ts ih => rw [addTypes_cons, ih, closed_addType]

/-- Adding the canonical form of an argument closes no overrides if adding that of the type does
not. -/
theorem closed_addArgForm {t : Ty} (h : ∀ c : Catalog, (c.addForm t).2.closed = c.closed)
    (c : Catalog) : (c.addArgForm t (·.addForm t)).2.closed = c.closed := by
  unfold addArgForm
  split
  · exact c.closed_enterType .canon
  · exact h c

/-- Adding a canonical form closes no overrides; those of generic types are added along with it. -/
theorem closed_addForm_addGenericForm (t : Ty) :
    (∀ c : Catalog, (c.addForm t).2.closed = c.closed) ∧
    ∀ c : Catalog, (c.addGenericForm t).2.closed = c.closed := by
  have hstep : ∀ {u : Ty}, (∀ c : Catalog, (c.addFormParts u).closed = c.closed) →
      ∀ c : Catalog, (c.addForm u).2.closed = c.closed := by
    intro u hparts c
    cases hfind : c.forms.find? u with
    | some v => rw [addForm_of_some hfind]
    | none =>
      rw [addForm_of_none hfind]
      exact (closed_enterType _ _).trans (hparts c)
  induction t with
  | decl d => exact ⟨hstep fun _ => rfl, fun c => c.closed_enterType (.decl d)⟩
  | app f a ihf iha =>
    have hparts : ∀ c : Catalog,
        ((c.addGenericForm f).2.addArgForm a (·.addForm a)).2.closed = c.closed :=
      fun c => (closed_addArgForm iha.1 _).trans (ihf.2 c)
    exact ⟨hstep hparts, hparts⟩
  | array e r ih => exact ⟨hstep (closed_addArgForm ih.1), fun _ => rfl⟩
  | pointer u ih => exact ⟨hstep ih.1, fun _ => rfl⟩
  | byRef u ih => exact ⟨hstep ih.1, fun _ => rfl⟩
  | param k i => exact ⟨hstep fun _ => rfl, fun _ => rfl⟩
  | canon => exact ⟨hstep fun _ => rfl, fun _ => rfl⟩

/-- Entering a method closes no overrides. -/
@[simp] theorem closed_enterMethod (c : Catalog) (m : Method) :
    (c.enterMethod m).2.closed = c.closed := by
  by_cases hmem : m ∈ c.methods.toList
  · rw [enterMethod_of_mem hmem]
  · rw [enterMethod_of_not_mem hmem]
    simp

/-- Adding a method closes no overrides. -/
@[simp] theorem closed_addMethod (c : Catalog) (m : Method) :
    (c.addMethod m).2.closed = c.closed := by
  by_cases hmem : m ∈ c.methods.toList
  · obtain ⟨n, hn⟩ := c.methods.exists_find?_of_mem hmem
    rw [addMethod, hn]
  · rw [addMethod_of_not_mem hmem]
    simp

/-- Adding the canonical forms of arguments closes no overrides. -/
@[simp] theorem closed_addArgForms (c : Catalog) (ts : List Ty) :
    (c.addArgForms ts).2.closed = c.closed := by
  induction ts generalizing c with
  | nil => rfl
  | cons t ts ih => exact (ih _).trans (closed_addArgForm ((closed_addForm_addGenericForm t).1) c)

/-- Neither does entering the canonical form of a method. -/
theorem closed_addMethodForm (c : Catalog) (m : Method) :
    (c.addMethodForm m).2.closed = c.closed := by
  have hdefinition : (c.addDefinitionForm m).2.closed = c.closed := by
    cases hfind : c.methodForms.find? m.definition with
    | some n => rw [addDefinitionForm_of_some hfind]
    | none =>
      rw [addDefinitionForm_of_none hfind]
      exact (closed_addMethod _ _).trans ((closed_addForm_addGenericForm m.owner).1 c)
  cases hfind : c.methodForms.find? m with
  | some n => rw [addMethodForm_of_some hfind]
  | none =>
    rw [addMethodForm_of_none hfind]
    exact (closed_addMethod _ _).trans ((closed_addArgForms _ _).trans hdefinition)

/-- Closing the overrides of a type closes those and no others. -/
theorem isClosed_close (c : Catalog) (d e : TypeDecl) :
    (c.close d).isClosed e = (decide (d.id = e.id) || c.isClosed e) := by
  unfold close isClosed
  split
  · next hclosed =>
    by_cases hid : d.id = e.id
    · rw [← hid, hclosed, Bool.or_true]
    · rw [decide_eq_false hid, Bool.false_or]
  · exact c.closed.contains_insert d.id e.id

/-- What is closed stays closed whatever is entered. -/
theorem isClosed_add {c : Catalog} {d : TypeDecl} (h : c.isClosed d = true) (e : Entity) :
    (c.add e).isClosed d = true := by
  have hsame : ∀ {c' : Catalog}, c'.closed = c.closed → c'.isClosed d = true := by
    intro c' hclosed
    rw [isClosed, hclosed]
    exact h
  cases e with
  | type t => exact hsame (c.closed_addType t)
  | form t => exact hsame ((closed_addForm_addGenericForm t).1 c)
  | method m => exact hsame (c.closed_addMethod m)
  | methodForm m => exact hsame (c.closed_addMethodForm m)
  | overrides e =>
    show (c.close e).isClosed d = true
    rw [isClosed_close, h, Bool.or_true]

/-- Overrides that are closed stay closed, whatever is asked. -/
theorem isClosed_run {α : Type} (q : Tracked α) {c : Catalog} {d : TypeDecl}
    (h : c.isClosed d = true) : (q.run c).2.isClosed d = true := by
  obtain ⟨items, hrun⟩ := q.exists_snd_run
  rw [hrun]
  clear hrun
  induction items generalizing c with
  | nil => exact h
  | cons e items ih => exact ih (isClosed_add h e)

end Catalog

/-! ## What declarations leave as it is -/

namespace Program

variable {P P' : Program}

/-- A change of a record that leaves its overrides alone leaves those of all types alone. -/
theorem overrides_modifyRecord (P : Program) (d e : TypeDecl) {f : TypeRecord → TypeRecord}
    (hf : ∀ r, (f r).overrides = r.overrides) :
    ((P.modifyRecord d f).record e).overrides = (P.record e).overrides := by
  rcases P.record_modifyRecord d e f with he | ⟨-, he⟩
  · rw [he]
  · rw [he, hf]

/-- Defining a type leaves all overrides alone. -/
theorem overrides_define {space name : String} {flags : TypeFlags} {arity : Nat} {d : TypeDecl}
    (h : P.define space name flags arity = .ok (d, P')) (e : TypeDecl) :
    (P'.record e).overrides = (P.record e).overrides := by
  rcases record_define h e with he | ⟨hnone, he⟩
  · rw [he]
  · rw [he, hnone]

/-- Setting a base leaves all overrides alone. -/
theorem overrides_setBase {t : Ty} {base : Option Ty} (h : P.setBase t base = .ok P')
    (e : TypeDecl) : (P'.record e).overrides = (P.record e).overrides := by
  obtain ⟨d, -, rfl⟩ := setBase_eq_ok h
  exact P.overrides_modifyRecord d e fun _ => rfl

/-- Setting interfaces leaves all overrides alone. -/
theorem overrides_setInterfaces {t : Ty} {interfaces : List Ty}
    (h : P.setInterfaces t interfaces = .ok P') (e : TypeDecl) :
    (P'.record e).overrides = (P.record e).overrides := by
  obtain ⟨d, rfl⟩ := setInterfaces_eq_ok h
  exact P.overrides_modifyRecord d e fun _ => rfl

/-- Declaring a type leaves all overrides alone. -/
theorem overrides_declare {s : TypeSketch} {d : TypeDecl} (h : P.declare s = .ok (d, P'))
    (e : TypeDecl) : (P'.record e).overrides = (P.record e).overrides := by
  obtain ⟨⟨d, P₁⟩, hdefine, h⟩ := bind_eq_ok.1 h
  obtain ⟨P₂, hset, h⟩ := bind_eq_ok.1 h
  obtain ⟨P₃, hinterfaces, h⟩ := bind_eq_ok.1 h
  cases h
  rw [overrides_setInterfaces hinterfaces, overrides_setBase hset, overrides_define hdefine]

end Program

/-! ## Worlds -/

namespace World

variable {w w' : World} {t : Ty} {d : TypeDecl}

/-- Asking for all overrides closes them. -/
theorem isClosed_overridesOf (w : World) (hd : t.decl? = some d) :
    (w.attempt (w.program.overridesOf t)).2.catalog.isClosed d = true := by
  -- they are closed before anything else happens
  have hfirst : ∃ rest : Tracked (Except Diagnostic (List Override)),
      (w.program.overridesOf t).run = needOverrides d >>= fun _ => rest := by
    unfold Program.overridesOf
    rw [hd]
    exact ⟨_, rfl⟩
  obtain ⟨rest, hrest⟩ := hfirst
  have hclose : (w.catalog.close d).isClosed d = true := by
    rw [Catalog.isClosed_close, decide_eq_true rfl, Bool.true_or]
  have hrun : ((w.program.overridesOf t).run.run w.catalog).2.isClosed d = true := by
    rw [hrest]
    exact Catalog.isClosed_run rest hclose
  exact hrun

/-- A step keeps overrides closed, and then leaves them as they are. -/
theorem Step.closed (h : w.Step w') (hd : w.catalog.isClosed d = true) :
    w'.catalog.isClosed d = true ∧
      (w'.program.record d).overrides = (w.program.record d).overrides := by
  have hlisted : ∀ {c : Catalog}, c.closed = w.catalog.closed → c.isClosed d = true := by
    intro c hc
    rw [Catalog.isClosed, hc]
    exact hd
  cases h with
  | define hdefine =>
    obtain ⟨⟨e, P⟩, hP, hw⟩ := bind_eq_ok.1 hdefine
    cases hw
    exact ⟨hlisted (Catalog.closed_addType _ _), Program.overrides_define hP d⟩
  | declare _ _ hdeclare =>
    obtain ⟨⟨e, P⟩, hP, hw⟩ := bind_eq_ok.1 hdeclare
    cases hw
    exact ⟨hlisted (Catalog.closed_addType _ _), Program.overrides_declare hP d⟩
  | setBase _ _ hset =>
    obtain ⟨P, hP, hw⟩ := bind_eq_ok.1 hset
    cases hw
    exact ⟨hd, Program.overrides_setBase hP d⟩
  | setInterfaces _ _ hset =>
    obtain ⟨P, hP, hw⟩ := bind_eq_ok.1 hset
    cases hw
    exact ⟨hd, Program.overrides_setInterfaces hP d⟩
  | addMethod _ _ hadd =>
    obtain ⟨⟨m, P⟩, hP, hw⟩ := bind_eq_ok.1 hadd
    cases hw
    obtain ⟨e, -, -, rfl⟩ := Program.addMethod_eq_ok hP
    exact ⟨hlisted (Catalog.closed_addMethod _ _),
      w.program.overrides_modifyRecord e d
        (f := fun r => { r with methods := r.methods ++ [m] }) fun _ => rfl⟩
  | @addField _ _ _ _ f _ _ _ hadd =>
    obtain ⟨⟨g, P⟩, hP, hw⟩ := bind_eq_ok.1 hadd
    cases hw
    obtain ⟨e, rfl⟩ := Program.addField_eq_ok hP
    exact ⟨hd, w.program.overrides_modifyRecord e d
      (f := fun r => { r with fields := r.fields ++ [f] }) fun _ => rfl⟩
  | addOverride _ _ _ hadd =>
    obtain ⟨P, hP, hw⟩ := bind_eq_ok.1 hadd
    cases hw
    -- the override is declared on another type, since that one is not closed
    obtain ⟨e, hopen, -, rfl⟩ := Program.addOverride_eq_ok hP
    have hne : e.id ≠ d.id := by
      intro hid
      rw [Catalog.isClosed, hid] at hopen
      exact absurd (hopen.symm.trans hd) Bool.false_ne_true
    exact ⟨hd, congrArg TypeRecord.overrides (w.program.record_modifyRecord_of_ne hne _)⟩
  | setBody _ _ => exact ⟨hd, rfl⟩
  | ask _ => exact ⟨Catalog.isClosed_run _ hd, rfl⟩
  | typeNumber _ => exact ⟨hlisted (Catalog.closed_addType _ _), rfl⟩
  | methodNumber _ => exact ⟨hlisted (Catalog.closed_addMethod _ _), rfl⟩

/-- From then on overrides stay as they are. -/
theorem Steps.closed (h : w.Steps w') (hd : w.catalog.isClosed d = true) :
    w'.catalog.isClosed d = true ∧
      (w'.program.record d).overrides = (w.program.record d).overrides := by
  induction h with
  | refl => exact ⟨hd, rfl⟩
  | tail _ hstep ih =>
    obtain ⟨hclosed, hsame⟩ := hstep.closed ih.1
    exact ⟨hclosed, hsame.trans ih.2⟩

end World

end AheadOfTime
