import AheadOfTime.Proofs.Program.Changes
import AheadOfTime.Proofs.Program.Hierarchy
import AheadOfTime.Program.Dispatch

/-!
# Declarations that fit together

Explicit overrides are of virtual methods that the program declares; this is what
`Program.WellFormed` says.  Whoever builds up a program by declarations speaks only of what was
declared before, so every such program is well formed.
-/

set_option autoImplicit false

namespace AheadOfTime

/-! ## Substitution keeps declarations -/

/-- Putting arguments into an owner does not change its declaration. -/
theorem Method.decl?_substOwner {t : Ty} {d : TypeDecl} (σ : Bindings) (h : t.decl? = some d) :
    (Method.substOwner σ t).decl? = some d := by
  unfold Method.substOwner
  split
  · next e =>
    split
    · rw [Ty.decl?_named]
      exact h
    · exact h
  · exact Ty.decl?_subst σ h

/-! ## Substituting nothing -/

/-- Without bindings, a type stays as it is. -/
theorem Ty.subst_empty (t : Ty) : t.subst {} = t := by
  induction t with
  | app f a ihf iha => rw [subst_app, ihf, iha]
  | array e r ih => rw [subst_array, ih]
  | pointer t ih => rw [subst_pointer, ih]
  | byRef t ih => rw [subst_byRef, ih]
  | param k i => cases k <;> rfl
  | _ => rfl

/-- Without bindings, a method stays as it is. -/
theorem Method.subst_empty (m : Method) : m.subst {} = m := by
  have howner : Method.substOwner {} m.owner = m.owner := by
    unfold Method.substOwner
    split
    · split
      · next harity =>
        simp at harity
        omega
      · rfl
    · exact m.owner.subst_empty
  have hargs : m.args.map (Ty.subst {}) = m.args := by
    rw [funext Ty.subst_empty]
    exact List.map_id' m.args
  rw [Method.subst, howner, hargs]

/-! ## Methods as declared -/

/-- A method without arguments is its own definition. -/
theorem Method.definition_of_args_eq_nil {m : Method} (h : m.args = []) : m.definition = m := by
  cases m
  cases h
  rfl

namespace MethodDecl

variable (d : MethodDecl)

/-- A method without parameters and result. -/
def ofName (id : Nat) (owner : TypeDecl) (name : String) (flags : MethodFlags)
    (arity : Nat := 0) : MethodDecl :=
  { id, owner, name, signature := { result := .ofWellKnown .void, arity }, flags }

/-- A declared method is owned by the type that declares it. -/
@[simp] theorem owner_method : d.method.owner = .decl d.owner := rfl

/-- A declared method has no arguments. -/
@[simp] theorem args_method : d.method.args = [] := rfl

/-- A declared method has itself as its declaration. -/
@[simp] theorem decl_method : d.method.decl = d := rfl

/-- A declared method is its own definition. -/
@[simp] theorem definition_method : d.method.definition = d.method := rfl

/-- A declared method is its own typical form. -/
@[simp] theorem typical_method : d.method.typical = d.method := rfl

/-- A declared method is its own canonical form. -/
@[simp] theorem canonical_method : d.method.canonical = d.method := rfl

/-- Different declarations are different methods. -/
@[simp] theorem method_inj {d e : MethodDecl} : d.method = e.method ↔ d = e := by
  constructor
  · intro h
    exact congrArg Method.decl h
  · rintro rfl
    rfl

/-- Declarations with the same name and signature are methods with the same name and signature. -/
theorem sameNameAndSignature_method {d e : MethodDecl} (hname : d.name = e.name)
    (hsignature : d.signature = e.signature) :
    d.method.sameNameAndSignature e.method = true := by
  have hargs : (Ty.decl d.owner).args = (Ty.decl e.owner).args := rfl
  simp [Method.sameNameAndSignature, Method.name, Method.signature, hname, hsignature, hargs]

end MethodDecl

/-- Settling no overrides leaves none. -/
theorem Override.ok_nil_eq_settle : (.ok [] : Except Fault (List Override)) = settle [] := rfl

/-- No overrides. -/
def OverrideList.none : OverrideList := { sound := Override.ok_nil_eq_settle }

/-- A type with its base type and its methods. -/
def TypeRecord.ofMethods (d : TypeDecl) (base : Option Ty) (methods : List MethodDecl) :
    TypeRecord :=
  { decl := d, base := some base, interfaces := some [], methods, overrides := .none }

/-- A body that is set belongs to all methods of that typical form, and to no others. -/
@[simp] theorem Program.body?_setBody (P : Program) (m : Method) (body : Body) (m' : Method) :
    (P.setBody m body).body? m' = if m == m'.typical then some body else P.body? m' := by
  rw [body?, setBody, Std.HashMap.getElem?_insert]
  rfl

/-! ## Explicit overrides -/

/-- Settling adds no overrides but those that are to be settled. -/
theorem Override.mem_of_settleAfter {settled l l' : List Override}
    (h : settleAfter settled l = .ok l') : ∀ o ∈ l', o ∈ settled ∨ o ∈ l := by
  induction l generalizing settled with
  | nil =>
    cases h
    exact fun o ho => .inl ho
  | cons o rest ih =>
    rw [settleAfter] at h
    intro o' ho'
    split at h
    · rcases ih h o' ho' with hs | hr
      · rcases List.mem_append.1 hs with hs | hs
        · exact .inl hs
        · rw [List.mem_singleton.1 hs]
          exact .inr List.mem_cons_self
      · exact .inr (List.mem_cons_of_mem _ hr)
    · split at h
      · exact (ih h o' ho').imp_right fun hr => List.mem_cons_of_mem _ hr
      · cases h

/-- The overrides that are settled were declared. -/
theorem OverrideList.mem_declared_of_settled (l : OverrideList) {settled : List Override}
    (h : l.settled = .ok settled) {o : Override} (ho : o ∈ settled) : o ∈ l.declared := by
  have hsettle : Override.settle l.declared = .ok settled := l.sound.symm.trans h
  exact (Override.mem_of_settleAfter hsettle o ho).resolve_left List.not_mem_nil

/-- Whether some overrides are chosen before or after settling, they are among those declared. -/
theorem OverrideList.mem_declared_of_filter (l : OverrideList) {p : Override → Bool} {b : Bool}
    {settled : List Override} (h : (if b then l.settled.map (List.filter p)
      else Override.settle (l.declared.filter p)) = .ok settled) {o : Override} (ho : o ∈ settled) :
    o ∈ l.declared := by
  split at h
  · cases hall : l.settled with
    | error fault =>
      rw [hall] at h
      cases h
    | ok all =>
      rw [hall] at h
      cases h
      exact l.mem_declared_of_settled hall (List.mem_filter.1 ho).1
  · have hmem := Override.mem_of_settleAfter h o ho
    exact (List.mem_filter.1 (hmem.resolve_left List.not_mem_nil)).1

namespace Program

variable (P : Program)

/-- A method stays declared whatever is put in place of parameters. -/
theorem Declares.subst {P : Program} {m : Method} (h : P.Declares m) (σ : Bindings) :
    P.Declares (m.subst σ) := by
  obtain ⟨d, hd, hm⟩ := h
  exact ⟨d, Method.decl?_substOwner σ hd, hm⟩

/-- The definition of a declared method is declared. -/
theorem Declares.definition {P : Program} {m : Method} (h : P.Declares m) :
    P.Declares m.definition := h

/-- An override that a type has was declared for the type's declaration. -/
theorem exists_declared_of_overridesOf {t : Ty} {overrides : List Override}
    (h : outcome (P.overridesOf t) = .ok overrides) {o : Override} (ho : o ∈ overrides) :
    ∃ d, t.decl? = some d ∧ ∃ o₀ ∈ (P.record d).overrides.declared,
      o = ⟨o₀.decl.subst { ofType := t.args }, o₀.body.subst { ofType := t.args }⟩ := by
  unfold overridesOf at h
  cases hd : t.decl? with
  | none =>
    rw [hd] at h
    cases h
    cases ho
  | some d =>
    rw [hd] at h
    simp only [outcome_bind, outcome_liftM, ok_bind] at h
    cases hs : (P.record d).overrides.settled with
    | error fault =>
      rw [hs] at h
      cases h
    | ok settled =>
      rw [hs] at h
      have hdeclared : ∀ o ∈ settled, o ∈ (P.record d).overrides.declared :=
        fun o' => (P.record d).overrides.mem_declared_of_settled hs
      refine ⟨d, rfl, ?_⟩
      simp only [instantiateOverrides] at h
      split at h
      · next hargs =>
        cases h
        rw [List.isEmpty_iff.1 hargs]
        exact ⟨o, hdeclared o ho, by simp only [Method.subst_empty]⟩
      · simp only [outcome_liftM, Recorded.value_mapM, Override.needThrough, Recorded.value_bind,
          value_needMethod, Recorded.value_pure, Except.ok.injEq] at h
        rw [← h] at ho
        obtain ⟨o₀, ho₀, rfl⟩ := List.mem_map.1 ho
        exact ⟨o₀, hdeclared o₀ ho₀, rfl⟩

/-- Explicit overrides are of virtual methods that the program declares. -/
def WellFormed : Prop :=
  ∀ d, ∀ o ∈ (P.record d).overrides.declared, o.decl.isVirtual = true ∧ P.Declares o.decl

variable {P}

/-- The record of a declaration stands at its number, or else is empty. -/
theorem record_mem_zipIdx_or_eq (d : TypeDecl) :
    (P.record d, d.id) ∈ P.types.toList.zipIdx ∨ P.record d = { decl := d } := by
  unfold record
  cases hd : P.types[d.id]? with
  | none => exact .inr rfl
  | some r =>
    rw [List.mk_mem_zipIdx_iff_getElem?, Array.getElem?_toList]
    exact .inl hd

/-- What a program says about a declaration was said when the type was declared, or is nothing. -/
theorem record_mem_or_eq (d : TypeDecl) :
    P.record d ∈ P.types.toList ∨ P.record d = { decl := d } :=
  (record_mem_zipIdx_or_eq d).imp_left List.fst_mem_of_mem_zipIdx

/-- A program is well-formed if the overrides in the records of its types are. -/
theorem wellFormed_of_types
    (h : ∀ r ∈ P.types.toList, ∀ o ∈ r.overrides.declared,
      o.decl.isVirtual = true ∧ P.Declares o.decl) :
    P.WellFormed := by
  intro d o ho
  rcases record_mem_or_eq d with hd | hd
  · exact h _ hd o ho
  · rw [hd] at ho
    cases ho

/-- The explicit overrides of any type of a well-formed program are of virtual methods that it
declares. -/
theorem WellFormed.override (hP : P.WellFormed) {t : Ty} {overrides : List Override}
    (h : outcome (P.overridesOf t) = .ok overrides) {o : Override} (ho : o ∈ overrides) :
    o.decl.isVirtual = true ∧ P.Declares o.decl := by
  obtain ⟨d, -, o₀, ho₀, rfl⟩ := P.exists_declared_of_overridesOf h ho
  exact ⟨(hP d o₀ ho₀).1, (hP d o₀ ho₀).2.subst _⟩

/-! ## Programs that are built up by declarations -/

/-- The programs that declarations lead to.  Whoever declares an override speaks of a method that
was declared before. -/
inductive Built : Program → Prop
  | initial : Built .initial
  | define {P P' : Program} {space name : String} {flags : TypeFlags} {arity : Nat}
      {d : TypeDecl} : Built P → P.define space name flags arity = .ok (d, P') → Built P'
  | setBase {P P' : Program} {t : Ty} {base : Option Ty} :
      Built P → P.setBase t base = .ok P' → Built P'
  | setInterfaces {P P' : Program} {t : Ty} {interfaces : List Ty} :
      Built P → P.setInterfaces t interfaces = .ok P' → Built P'
  | addMethod {P P' : Program} {owner : Ty} {name : String} {signature : Signature}
      {flags : MethodFlags} {m : MethodDecl} :
      Built P → P.addMethod owner name signature flags = .ok (m, P') → Built P'
  | addField {P P' : Program} {owner : Ty} {name : String} {type : Ty} {flags : FieldFlags}
      {f : Field} : Built P → P.addField owner name type flags = .ok (f, P') → Built P'
  | addOverride {P P' : Program} {isClosed : TypeDecl → Bool} {owner : Ty} {decl body : Method} :
      Built P → P.Declares decl → P.addOverride isClosed owner decl body = .ok P' → Built P'
  | setBody {P : Program} {m : Method} {body : Body} : Built P → Built (P.setBody m body)

/-- A program stays well formed when methods are added, and overrides of declared virtual methods.
-/
theorem WellFormed.of_records {P P' : Program} (hP : P.WellFormed)
    (hmethods : ∀ d, ∀ m ∈ (P.record d).methods, m ∈ (P'.record d).methods)
    (hoverrides : ∀ d, ∀ o ∈ (P'.record d).overrides.declared,
      o ∈ (P.record d).overrides.declared ∨ o.decl.isVirtual = true ∧ P.Declares o.decl) :
    P'.WellFormed := by
  have hdeclares : ∀ m, P.Declares m → P'.Declares m := by
    rintro m ⟨d, hd, hm⟩
    exact ⟨d, hd, hmethods d _ hm⟩
  intro d o ho
  rcases hoverrides d o ho with ho | ⟨hv, hm⟩
  · exact ⟨(hP d o ho).1, hdeclares _ (hP d o ho).2⟩
  · exact ⟨hv, hdeclares _ hm⟩

/-- Changing records in other respects keeps a program well formed. -/
theorem WellFormed.modifyRecord {P : Program} (hP : P.WellFormed) (d : TypeDecl)
    {f : TypeRecord → TypeRecord} (hmethods : ∀ r, ∀ m ∈ r.methods, m ∈ (f r).methods)
    (hoverrides : ∀ r, ∀ o ∈ (f r).overrides.declared,
      o ∈ r.overrides.declared ∨ o.decl.isVirtual = true ∧ P.Declares o.decl) :
    (P.modifyRecord d f).WellFormed := by
  refine hP.of_records ?_ ?_
  · intro e m hm
    rcases P.record_modifyRecord d e f with h | ⟨-, h⟩
    · rwa [h]
    · rw [h]
      exact hmethods _ m hm
  · intro e o ho
    rcases P.record_modifyRecord d e f with h | ⟨-, h⟩
    · rw [h] at ho
      exact .inl ho
    · rw [h] at ho
      exact hoverrides _ o ho

/-- A newly declared type has no methods and no overrides. -/
theorem WellFormed.define {P P' : Program} (hP : P.WellFormed) {space name : String}
    {flags : TypeFlags} {arity : Nat} {d : TypeDecl}
    (h : P.define space name flags arity = .ok (d, P')) : P'.WellFormed := by
  refine hP.of_records ?_ ?_
  · intro e m hm
    rcases record_define h e with he | ⟨hnew, -⟩
    · rwa [he]
    · rw [hnew] at hm
      cases hm
  · intro e o ho
    rcases record_define h e with he | ⟨-, he⟩
    · rw [he] at ho
      exact .inl ho
    · rw [he] at ho
      cases ho

/-- Every program that is built up by declarations is well formed. -/
theorem Built.wellFormed {P : Program} (h : P.Built) : P.WellFormed := by
  induction h with
  | initial =>
    intro d o ho
    have hnone : (Program.initial.record d).overrides.declared = [] := by
      unfold record Program.initial
      simp only [List.getElem?_toArray, List.getElem?_map]
      cases WellKnown.all[d.id]? <;> rfl
    rw [hnone] at ho
    cases ho
  | define _ hdefine ih => exact ih.define hdefine
  | setBase _ hset ih =>
    obtain ⟨d, -, rfl⟩ := setBase_eq_ok hset
    exact ih.modifyRecord d (fun _ _ hm => hm) fun _ _ ho => .inl ho
  | setInterfaces _ hset ih =>
    obtain ⟨d, rfl⟩ := setInterfaces_eq_ok hset
    exact ih.modifyRecord d (fun _ _ hm => hm) fun _ _ ho => .inl ho
  | addMethod _ hadd ih =>
    obtain ⟨d, -, -, rfl⟩ := addMethod_eq_ok hadd
    exact ih.modifyRecord d (fun _ _ hm => List.mem_append_left _ hm) fun _ _ ho => .inl ho
  | addField _ hadd ih =>
    obtain ⟨d, rfl⟩ := addField_eq_ok hadd
    exact ih.modifyRecord d (fun _ _ hm => hm) fun _ _ ho => .inl ho
  | addOverride _ hdecl hadd ih =>
    obtain ⟨d, -, hvirtual, rfl⟩ := addOverride_eq_ok hadd
    refine ih.modifyRecord d (fun _ _ hm => hm) fun r o ho => ?_
    rcases List.mem_append.1 ho with ho | ho
    · exact .inl ho
    · rw [List.mem_singleton.1 ho]
      exact .inr ⟨hvirtual, hdecl⟩
  | setBody _ ih => exact ih

/-! ## Base types -/

/-- Base types are classes. -/
def HasClassBases (P : Program) : Prop :=
  ∀ t b, (P.baseType t).value = some b → b.isInterface = false

/-- What holds of the flags of every base type that the program gives, and of the well-known ones,
holds of the flags of all base types. -/
theorem flags_baseType_of_types {q : TypeFlags → Prop} (harray : q WellKnown.array.flags)
    (hobject : q WellKnown.object.flags)
    (h : ∀ r ∈ P.types.toList, ∀ b, r.base.join = some b → ∃ d, b.decl? = some d ∧ q d.flags)
    {t b : Ty} (hb : (P.baseType t).value = some b) : q b.flags := by
  cases hd : t.decl? with
  | none =>
    unfold baseType at hb
    rw [hd] at hb
    cases t with
    | array e r =>
      cases hb
      exact harray
    | canon =>
      cases hb
      exact hobject
    | _ => cases hb
  | some d =>
    rw [P.value_baseType_of_decl? hd] at hb
    obtain ⟨base, hbase, rfl⟩ := Option.map_eq_some_iff.1 hb
    have hdeclared : ∃ e, base.decl? = some e ∧ q e.flags := by
      rcases record_mem_or_eq d with hd | hd
      · exact h _ hd base hbase
      · rw [hd] at hbase
        cases hbase
    obtain ⟨e, he, hq⟩ := hdeclared
    rw [Ty.flags_of_decl? (Ty.decl?_subst _ he)]
    exact hq

/-- A type that is not an interface extends none. -/
theorem HasClassBases.isInterface_of_mem_chain (hP : P.HasClassBases) {n : Nat} {t u : Ty}
    (ht : t.isInterface = false) (hu : u ∈ P.chain n t) : u.isInterface = false := by
  induction n generalizing t with
  | zero => cases hu
  | succ n ih =>
    rw [chain] at hu
    rcases List.mem_cons.1 hu with rfl | hu
    · exact ht
    · cases hbase : (P.baseType t).value with
      | none =>
        rw [hbase] at hu
        cases hu
      | some base =>
        rw [hbase] at hu
        exact ih (hP t base hbase) hu

/-- Types that are declared sealed, and value types, are not extended. -/
def KeepsSealed (P : Program) : Prop :=
  ∀ t b, (P.baseType t).value = some b → b.isDeclaredSealed = false ∧ b.isValueType = false

/-- A type that may not be extended is only on its own chain. -/
theorem KeepsSealed.eq_of_mem_chain (hP : P.KeepsSealed) {n : Nat} {t u : Ty}
    (hu : u.isDeclaredSealed = true ∨ u.isValueType = true) (h : u ∈ P.chain n t) : u = t := by
  induction n generalizing t with
  | zero => cases h
  | succ n ih =>
    rw [chain] at h
    rcases List.mem_cons.1 h with h | h
    · exact h
    · cases hbase : (P.baseType t).value with
      | none =>
        rw [hbase] at h
        cases h
      | some b =>
        rw [hbase] at h
        obtain ⟨hsealed, hvalue⟩ := hP t b hbase
        rw [ih h, hsealed, hvalue] at hu
        simp at hu

/-- No declared type extends one of the same declaration. -/
def Acyclic (P : Program) : Prop :=
  ∀ t, t.decl?.isSome = true → ∀ u ∈ P.properBases t, u.decl? ≠ t.decl?

section Order

-- Every type extends one that was declared before.
variable (horder : ∀ p ∈ P.types.toList.zipIdx, ∀ b ∈ p.1.base.join, ∃ d ∈ b.decl?, d.id < p.2)
include horder

/-- If types extend only what was declared before, base types have smaller numbers. -/
theorem id_baseType_lt {t b : Ty} {d : TypeDecl} (hd : t.decl? = some d)
    (hb : (P.baseType t).value = some b) : ∃ e, b.decl? = some e ∧ e.id < d.id := by
  rw [P.value_baseType_of_decl? hd] at hb
  obtain ⟨base, hbase, rfl⟩ := Option.map_eq_some_iff.1 hb
  rcases record_mem_zipIdx_or_eq d with hmem | hnone
  · obtain ⟨e, he, hlt⟩ := horder _ hmem base hbase
    exact ⟨e, Ty.decl?_subst _ he, hlt⟩
  · rw [hnone] at hbase
    cases hbase

/-- If types extend only what was declared before, numbers do not grow along the chain. -/
theorem id_le_of_mem_chain {n : Nat} {t u : Ty} {d : TypeDecl} (hd : t.decl? = some d)
    (hu : u ∈ P.chain n t) : ∃ e, u.decl? = some e ∧ e.id ≤ d.id := by
  induction n generalizing t d with
  | zero => cases hu
  | succ n ih =>
    rw [chain] at hu
    rcases List.mem_cons.1 hu with rfl | hu
    · exact ⟨d, hd, Nat.le_refl _⟩
    · cases hbase : (P.baseType t).value with
      | none =>
        rw [hbase] at hu
        cases hu
      | some b =>
        rw [hbase] at hu
        obtain ⟨e, he, hlt⟩ := id_baseType_lt horder hd hbase
        obtain ⟨e', he', hle⟩ := ih he hu
        exact ⟨e', he', by omega⟩

/-- If types extend only what was declared before, nothing extends itself. -/
theorem acyclic_of_order : P.Acyclic := by
  intro t ht u hu hsame
  obtain ⟨d, hd⟩ := Option.isSome_iff_exists.1 ht
  obtain ⟨b, hbase, hu⟩ := P.mem_properBases.1 hu
  obtain ⟨e, he, hlt⟩ := id_baseType_lt horder hd hbase
  obtain ⟨e', he', hle⟩ := id_le_of_mem_chain horder he hu
  cases hd.symm.trans (hsame.symm.trans he')
  omega

end Order

/-! ## Programs with given types -/

/-- The program that declares the well-known types and then further ones. -/
def withTypes (records : List TypeRecord) : Program where
  types := initial.types ++ records.toArray
  names := initial.names.insertAll (records.map (·.decl.fullName))

/-- A program with given further types has these and the well-known ones. -/
theorem mem_types_withTypes {records : List TypeRecord} {r : TypeRecord} :
    r ∈ (withTypes records).types.toList ↔ r ∈ initial.types.toList ∨ r ∈ records := by
  simp [withTypes]

/-- A program with given further types has no bodies yet. -/
theorem body?_withTypes (records : List TypeRecord) (m : Method) :
    (withTypes records).body? m = none :=
  Std.HashMap.getElem?_empty

/-- Of a program with given further types only these have to be looked at to see that it is
well-formed. -/
theorem wellFormed_of_withTypes (records : List TypeRecord)
    (htypes : P.types = (withTypes records).types)
    (h : ∀ r ∈ records, ∀ o ∈ r.overrides.declared,
      o.decl.isVirtual = true ∧ P.Declares o.decl) : P.WellFormed := by
  have hnone : initial.types.toList.all (·.overrides.declared.isEmpty) = true := rfl
  refine wellFormed_of_types fun r hr o ho => ?_
  rw [htypes] at hr
  rcases mem_types_withTypes.1 hr with hr | hr
  · rw [List.isEmpty_iff.1 (List.all_eq_true.1 hnone r hr)] at ho
    cases ho
  · exact h r hr o ho

/-- What holds of the flags of every base type of the further types, and of the base types among the
well-known ones, holds of the flags of all base types. -/
theorem flags_baseType_of_withTypes {q : TypeFlags → Prop} (hplain : q {})
    (habstract : q { abstract := true }) (records : List TypeRecord)
    (htypes : P.types = (withTypes records).types)
    (h : ∀ r ∈ records, ∀ b, r.base.join = some b → ∃ d, b.decl? = some d ∧ q d.flags)
    {t b : Ty} (hb : (P.baseType t).value = some b) : q b.flags := by
  have hwellKnown : initial.types.toList.all (fun r => r.base.join.all fun b =>
      b.decl?.any fun d => d.flags = {} || d.flags = { abstract := true }) = true := rfl
  refine flags_baseType_of_types habstract hplain (fun r hr b hb => ?_) hb
  rw [htypes] at hr
  rcases mem_types_withTypes.1 hr with hr | hr
  · have hflags := List.all_eq_true.1 hwellKnown r hr
    rw [hb, Option.all_some, Option.any_eq_true] at hflags
    obtain ⟨d, hd, hflags⟩ := hflags
    rw [Bool.or_eq_true, decide_eq_true_iff, decide_eq_true_iff] at hflags
    refine ⟨d, hd, ?_⟩
    rcases hflags with hflags | hflags
    · exact hflags ▸ hplain
    · exact hflags ▸ habstract
  · exact h r hr b hb

/-- Of a program with given further types only these have to be looked at to see that base types are
classes. -/
theorem hasClassBases_of_withTypes (records : List TypeRecord)
    (htypes : P.types = (withTypes records).types)
    (h : ∀ r ∈ records, ∀ b, r.base.join = some b →
      ∃ d, b.decl? = some d ∧ d.flags.interface = false) : P.HasClassBases := fun _ _ hb =>
  flags_baseType_of_withTypes (q := fun flags => flags.interface = false) rfl rfl records htypes h hb

end Program

end AheadOfTime
