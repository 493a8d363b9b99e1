import AheadOfTime.Declaration
import AheadOfTime.Proofs.Catalog
import AheadOfTime.Proofs.Program.Grounded

/-!
# Programs that are built up step by step

Whoever adds a declaration to a program speaks of what the program declares already.  Then the
program stays grounded, every type keeps its number, and methods belong to the types that declare
them; and whatever could be spoken of before still can.
-/

set_option autoImplicit false

namespace AheadOfTime

/-! ## Growing programs -/

/-- A type that is formed from some declarations is formed from any that include them. -/
theorem Ty.FormedFrom.mono {D D' : TypeDecl → Prop} (h : ∀ d, D d → D' d) {t : Ty}
    (ht : t.FormedFrom D) : t.FormedFrom D' := by
  induction t with
  | decl d => exact h d ht
  | app f a ihf iha => exact ⟨ht.1, ihf ht.2.1, iha ht.2.2⟩
  | array e r ih => exact ⟨ht.1, ih ht.2⟩
  | pointer t ih => exact ih ht
  | byRef t ih => exact ih ht
  | param k i => trivial
  | canon => trivial

/-- What holds of an operand may be weakened. -/
theorem Operand.All.mono {α : Type} {p q : α → Prop} (h : ∀ a, p a → q a) {operand : Operand α}
    (ho : operand.All p) : operand.All q := by
  cases operand with
  | known a => exact h a ho
  | unknown symbol => trivial

namespace Program

/-- Whatever a program declares, another one declares too. -/
structure Extends (P P' : Program) : Prop where
  decl : ∀ {d : TypeDecl}, P.HasDecl d → P'.HasDecl d
  methods : ∀ {d : TypeDecl}, ∀ m ∈ (P.record d).methods, m ∈ (P'.record d).methods

namespace Extends

variable {P P' P'' : Program}

/-- Programs that grow in two steps grow. -/
theorem trans (h : P.Extends P') (h' : P'.Extends P'') : P.Extends P'' :=
  ⟨fun hd => h'.decl (h.decl hd), fun m hm => h'.methods m (h.methods m hm)⟩

variable (h : P.Extends P')
include h

/-- Types of a program are types of one that declares more. -/
theorem hasType {t : Ty} (ht : P.HasType t) : P'.HasType t := ht.mono fun _ => h.decl

/-- Methods of a program are methods of one that declares more. -/
theorem hasMethod {m : Method} (hm : P.HasMethod m) : P'.HasMethod m := by
  obtain ⟨⟨d, hd, hdecl⟩, howner, hargs⟩ := hm
  exact ⟨⟨d, hd, h.methods _ hdecl⟩, h.hasType howner, fun a ha => h.hasType (hargs a ha)⟩

/-- Signatures of a program are signatures of one that declares more. -/
theorem hasSignature {s : Signature} (hs : P.HasSignature s) : P'.HasSignature s :=
  ⟨h.hasType hs.1, fun p hp => h.hasType (hs.2 p hp)⟩

/-- What is recorded of a type stays meaningful if more is declared. -/
theorem hasRecord {r : TypeRecord} (hr : P.HasRecord r) : P'.HasRecord r where
  base b hb := h.hasType (hr.base b hb)
  interfaces i hi := h.hasType (hr.interfaces i hi)
  signatures m hm := h.hasSignature (hr.signatures m hm)
  overrides o ho := ⟨h.hasMethod (hr.overrides o ho).1, h.hasMethod (hr.overrides o ho).2⟩

/-- An instruction that speaks of what is declared does so if more is declared. -/
theorem within {i : Instruction} (hi : i.Within P) : i.Within P' := by
  have htype {operand : Operand Ty} (ho : operand.All P.HasType) : operand.All P'.HasType :=
    ho.mono fun _ => h.hasType
  have hmethod {operand : Operand Method} (ho : operand.All P.HasMethod) :
      operand.All P'.HasMethod := ho.mono fun _ => h.hasMethod
  have hfield {operand : Operand Field} (ho : operand.All fun f => P.HasDecl f.owner) :
      operand.All fun f => P'.HasDecl f.owner := ho.mono fun _ => h.decl
  cases i with
  | call m | newobj m | ldftn m | ldvirtftn m => exact hmethod hi
  | callvirt m receiver => exact ⟨hmethod hi.1, fun t ht => htype (hi.2 t ht)⟩
  | constrained t m => exact ⟨htype hi.1, hmethod hi.2⟩
  | newarr t | box t | unboxAny t | castclass t | isinst t => exact htype hi
  | ldfld f | ldflda f | stfld f | ldsfld f | ldsflda f | stsfld f => exact hfield hi
  | ldtoken token =>
    cases token with
    | type t => exact htype hi
    | method m => exact hmethod hi
    | field f => exact hfield hi
  | _ => trivial

end Extends

/-! ## Coherent programs -/

/-- The records of a program are those that stand at some number. -/
theorem mem_types_iff {P : Program} {r : TypeRecord} :
    r ∈ P.types.toList ↔ ∃ i : Nat, P.types[i]? = some r := by
  rw [Array.mem_toList_iff, Array.mem_iff_getElem?]

/-- What stands at some number is declared. -/
theorem hasDecl_of_getElem? {P : Program} {d : TypeDecl} {i : Nat}
    (h : P.types[i]?.map (·.decl) = some d) : P.HasDecl d := by
  obtain ⟨r, hr, hdecl⟩ := Option.map_eq_some_iff.1 h
  exact ⟨r, mem_types_iff.2 ⟨i, hr⟩, hdecl⟩

/-- What a type of a program is built from are types of the program. -/
theorem HasType.of_mem_parts {P : Program} {t p : Ty} (ht : P.HasType t) (hp : p ∈ t.parts) :
    P.HasType p := by
  cases t with
  | app f a =>
    rw [Ty.parts, ← Ty.args_app] at hp
    rcases List.mem_cons.1 hp with rfl | hp
    · exact over_alphabet_iff.1 (over_alphabet_iff.2 ht.2.1).definition
    · exact over_alphabet_iff.1 ((over_alphabet_iff.2 ht).args p hp)
  | array e r =>
    rw [List.mem_singleton.1 hp]
    exact ht.2
  | pointer u | byRef u =>
    rw [List.mem_singleton.1 hp]
    exact ht
  | _ => cases hp

/-- A program speaks only of what it declares, declarations stand at their numbers, and methods
belong to the types that declare them. -/
structure Coherent (P : Program) : Prop where
  grounded : P.Grounded
  placed : ∀ {i : Nat} {r : TypeRecord}, P.types[i]? = some r → r.decl.id = i
  declaring : ∀ {i : Nat} {r : TypeRecord}, P.types[i]? = some r → ∀ m ∈ r.methods, m.owner = r.decl

namespace Coherent

variable {P P' : Program}

/-- A declared type has its record at its number. -/
theorem record (hP : P.Coherent) {d : TypeDecl} (hd : P.HasDecl d) :
    P.types[d.id]? = some (P.record d) ∧ (P.record d).decl = d := by
  obtain ⟨r, hr, rfl⟩ := hd
  obtain ⟨i, hi⟩ := mem_types_iff.1 hr
  have hid := hP.placed hi
  have hrecord : P.record r.decl = r := by
    rw [Program.record, hid, hi]
    rfl
  rw [hrecord, hid]
  exact ⟨hi, rfl⟩

/-- Neither substitution nor declarations lead out of what a coherent program declares. -/
theorem covers (hP : P.Coherent) : (⟨P.HasType, P.HasMethod⟩ : Vocabulary).Covers P := by
  rw [← vocabulary_eq]
  exact hP.grounded.describes.covers

/-- A method of a coherent program is declared by the type that its declaration names. -/
theorem declaring_owner (hP : P.Coherent) {m : Method} (hm : P.HasMethod m) :
    m.owner.decl? = some m.decl.owner ∧ P.HasDecl m.decl.owner ∧
      m.decl ∈ (P.record m.decl.owner).methods := by
  obtain ⟨d, hd, hdecl⟩ := hm.declared
  have hhas : P.HasDecl d := (over_alphabet_iff.2 hm.owner).decl hd
  obtain ⟨hrecord, hplaced⟩ := hP.record hhas
  have howner : m.decl.owner = d := (hP.declaring hrecord _ hdecl).trans hplaced
  rw [howner]
  exact ⟨hd, hhas, hdecl⟩

/-- What a program has can be listed. -/
theorem listable (hP : P.Coherent) : (⟨P.HasType, P.HasMethod⟩ : Vocabulary).Listable := by
  constructor
  · trivial
  · exact fun ht => over_alphabet_iff.1 ((over_alphabet_iff.2 ht).canonical trivial)
  · exact fun ht => ht.1
  · exact fun ht _ hp => HasType.of_mem_parts ht hp
  · exact fun hm => (hP.declaring_owner hm).1
  · exact HasMethod.owner
  · exact HasMethod.args
  · intro m hm t ht
    have hsignature := hP.grounded.signature hm
    rcases List.mem_append.1 ht with ht | ht
    · exact hsignature.2 t ht
    · rw [List.mem_singleton.1 ht]
      exact hsignature.1
  · intro m hm
    obtain ⟨-, hhas, hdecl⟩ := hP.declaring_owner hm
    exact ⟨⟨m.decl.owner, rfl, hdecl⟩, hhas, List.forall_mem_nil _⟩
  · exact fun hm => ⟨hm.declared, hm.owner, List.forall_mem_nil _⟩
  · intro m hm
    rw [← vocabulary_eq] at hm ⊢
    exact Alphabet.canonical (E := P.Declares) trivial (fun _ => Declares.canonical) hm

/-- A program stays coherent when it grows by records and bodies that speak of what it declares. -/
theorem of_extends (hP : P.Coherent) (hext : P.Extends P')
    (hrecords : ∀ {i : Nat} {r : TypeRecord}, P'.types[i]? = some r →
      r.decl.id = i ∧ P'.HasRecord r ∧ ∀ m ∈ r.methods, m.owner = r.decl)
    (hbodies : ∀ m body, P'.body? m = some body → ∀ i ∈ body, i.Within P') : P'.Coherent := by
  refine ⟨⟨fun w => hext.decl (hP.grounded.wellKnown w), ?_, hbodies⟩, fun hr => (hrecords hr).1,
    fun hr => (hrecords hr).2.2⟩
  intro r hr
  obtain ⟨i, hi⟩ := mem_types_iff.1 hr
  exact (hrecords hi).2.1

/-- Every record of a coherent program is about what the program declares. -/
theorem hasRecord (hP : P.Coherent) {i : Nat} {r : TypeRecord} (hr : P.types[i]? = some r) :
    P.HasRecord r :=
  hP.grounded.records r (mem_types_iff.2 ⟨i, hr⟩)

/-- If more is declared and the bodies stay, then the bodies speak of what is declared. -/
theorem within_of_bodies (hP : P.Coherent) (hext : P.Extends P') (hbodies : P'.bodies = P.bodies) :
    ∀ m body, P'.body? m = some body → ∀ i ∈ body, i.Within P' := by
  intro m body hbody i hi
  rw [body?, hbodies] at hbody
  exact hext.within (hP.grounded.bodies m body hbody i hi)

/-- Let what is said about a declaration be changed, but not its methods, unless some are added. -/
theorem modify (hP : P.Coherent) {d : TypeDecl} {f : TypeRecord → TypeRecord}
    (htypes : P'.types = P.types.modify d.id f) (hbodies : P'.bodies = P.bodies)
    (hdecl : ∀ r, (f r).decl = r.decl) (hmethods : ∀ r, ∀ m ∈ r.methods, m ∈ (f r).methods)
    (hrecord : ∀ {r : TypeRecord}, P.types[d.id]? = some r → P.HasRecord r →
      P.HasRecord (f r) ∧ ∀ m ∈ (f r).methods, m ∈ r.methods ∨ m.owner = r.decl) :
    P'.Coherent ∧ P.Extends P' := by
  -- only the record of the declaration is another one, and it is about the same declaration
  have hget : ∀ i, P'.types[i]? = if d.id = i then P.types[i]?.map f else P.types[i]? := by
    intro i
    rw [htypes, Array.getElem?_modify]
  have hext : P.Extends P' := by
    constructor
    · rintro e ⟨r, hr, rfl⟩
      obtain ⟨i, hi⟩ := mem_types_iff.1 hr
      have hi' := hget i
      rw [hi] at hi'
      split at hi'
      · exact ⟨f r, mem_types_iff.2 ⟨i, hi'⟩, hdecl r⟩
      · exact ⟨r, mem_types_iff.2 ⟨i, hi'⟩, rfl⟩
    · intro e m hm
      unfold Program.record at hm ⊢
      rw [hget]
      split
      · cases hr : P.types[e.id]? with
        | none =>
          rw [hr] at hm
          cases hm
        | some r =>
          rw [hr] at hm
          exact hmethods r m hm
      · exact hm
  refine ⟨hP.of_extends hext ?_ (hP.within_of_bodies hext hbodies), hext⟩
  intro i r' hr'
  rw [hget] at hr'
  split at hr'
  · next hi =>
    obtain ⟨r, hr, rfl⟩ := Option.map_eq_some_iff.1 hr'
    rw [← hi] at hr
    obtain ⟨hhas, hnew⟩ := hrecord hr (hP.hasRecord hr)
    refine ⟨(congrArg TypeDecl.id (hdecl r)).trans ((hP.placed hr).trans hi), hext.hasRecord hhas,
      fun m hm => ?_⟩
    rw [hdecl]
    exact (hnew m hm).elim (hP.declaring hr m) id
  · exact ⟨hP.placed hr', hext.hasRecord (hP.hasRecord hr'), hP.declaring hr'⟩

end Coherent

/-! ## Declarations -/

/-- Whether declarations stand at their numbers can be read off. -/
theorem coherent_of_grounded {P : Program} (hP : P.Grounded)
    (hplaced : P.types.toList.zipIdx.all (fun p => p.1.decl.id == p.2) = true)
    (hdeclaring : P.types.toList.all (fun r => r.methods.all (·.owner == r.decl)) = true) :
    P.Coherent := by
  refine ⟨hP, ?_, ?_⟩
  · intro i r hr
    have hmem : (r, i) ∈ P.types.toList.zipIdx := by
      rw [List.mk_mem_zipIdx_iff_getElem?, Array.getElem?_toList]
      exact hr
    exact beq_iff_eq.1 (List.all_eq_true.1 hplaced _ hmem)
  · intro i r hr m hm
    have hmem := mem_types_iff.2 ⟨i, hr⟩
    exact beq_iff_eq.1 (List.all_eq_true.1 (List.all_eq_true.1 hdeclaring r hmem) m hm)

/-- The program of well-known types is coherent. -/
theorem coherent_initial : Program.initial.Coherent := by
  refine coherent_of_grounded (grounded_of_withTypes [] rfl (List.forall_mem_nil _) ?_) rfl rfl
  intro m body hbody
  rw [body?, initial, Std.HashMap.getElem?_empty] at hbody
  cases hbody

/-- Only a declaration that is not instantiated counts as declared. -/
theorem declared_eq_ok {t : Ty} {d : TypeDecl} (h : t.declared = .ok d) : t = .decl d := by
  unfold Ty.declared at h
  cases t with
  | decl e =>
    cases h
    rfl
  | _ => cases h

namespace Coherent

variable {P P' : Program} (hP : P.Coherent)
include hP

/-- A new declaration takes the next number, and nothing is said about it yet. -/
theorem push {d : TypeDecl} (htypes : P'.types = P.types.push { decl := d })
    (hbodies : P'.bodies = P.bodies) (hd : d.id = P.types.size) :
    P'.Coherent ∧ P.Extends P' ∧ P'.HasDecl d := by
  have hget : ∀ i, P'.types[i]? = if i = P.types.size then some { decl := d } else P.types[i]? := by
    intro i
    rw [htypes, Array.getElem?_push]
  have hext : P.Extends P' := by
    constructor
    · rintro e ⟨r, hr, rfl⟩
      refine ⟨r, ?_, rfl⟩
      rw [htypes]
      simpa using .inl (Array.mem_toList_iff.1 hr)
    · intro e m hm
      unfold Program.record at hm ⊢
      rw [hget]
      split
      · next he => simp [he] at hm
      · exact hm
  refine ⟨hP.of_extends hext ?_ (hP.within_of_bodies hext hbodies), hext, { decl := d },
    by simp [htypes], rfl⟩
  intro i r hr
  rw [hget] at hr
  split at hr
  · next hi =>
    cases hr
    refine ⟨hd.trans hi.symm, ?_, List.forall_mem_nil _⟩
    constructor <;> intro x hx <;> cases hx
  · exact ⟨hP.placed hr, hext.hasRecord (hP.hasRecord hr), hP.declaring hr⟩

/-- Defining a type keeps a program coherent, and the type is declared then. -/
theorem define {space name : String} {flags : TypeFlags} {arity : Nat} {d : TypeDecl}
    (h : P.define space name flags arity = .ok (d, P')) :
    P'.Coherent ∧ P.Extends P' ∧ P'.HasDecl d := by
  obtain ⟨hd, rfl⟩ := define_eq_ok h
  exact hP.push rfl rfl hd

/-- Setting the base of a type keeps a program coherent. -/
theorem setBase {t : Ty} {base : Option Ty} (hbase : ∀ b ∈ base, P.HasType b)
    (h : P.setBase t base = .ok P') : P'.Coherent ∧ P.Extends P' := by
  obtain ⟨d, -, rfl⟩ := setBase_eq_ok h
  refine hP.modify (f := fun r => { r with base := some base }) rfl rfl (fun _ => rfl)
    (fun _ _ hm => hm) fun _ hr => ?_
  exact ⟨{ hr with base := hbase }, fun _ hm => .inl hm⟩

/-- Setting the interfaces of a type keeps a program coherent. -/
theorem setInterfaces {t : Ty} {interfaces : List Ty} (hinterfaces : ∀ i ∈ interfaces, P.HasType i)
    (h : P.setInterfaces t interfaces = .ok P') : P'.Coherent ∧ P.Extends P' := by
  obtain ⟨d, rfl⟩ := setInterfaces_eq_ok h
  refine hP.modify (f := fun r => { r with interfaces := some interfaces }) rfl rfl (fun _ => rfl)
    (fun _ _ hm => hm) fun _ hr => ?_
  exact ⟨{ hr with interfaces := hinterfaces }, fun _ hm => .inl hm⟩

/-- Declaring a type with its base and interfaces keeps a program coherent. -/
theorem declare {s : TypeSketch} (hbase : ∀ b ∈ s.baseType, P.HasType b)
    (hinterfaces : ∀ i ∈ s.interfaces, P.HasType i) {d : TypeDecl}
    (h : P.declare s = .ok (d, P')) : P'.Coherent ∧ P.Extends P' ∧ P'.HasDecl d := by
  obtain ⟨⟨e, P₁⟩, hdefine, h⟩ := bind_eq_ok.1 h
  obtain ⟨P₂, hsetBase, h⟩ := bind_eq_ok.1 h
  obtain ⟨P₃, hsetInterfaces, h⟩ := bind_eq_ok.1 h
  cases h
  obtain ⟨hP₁, hext₁, hd⟩ := hP.define hdefine
  obtain ⟨hP₂, hext₂⟩ := hP₁.setBase (fun b hb => hext₁.hasType (hbase b hb)) hsetBase
  have hext := hext₁.trans hext₂
  obtain ⟨hP₃, hext₃⟩ :=
    hP₂.setInterfaces (fun i hi => hext.hasType (hinterfaces i hi)) hsetInterfaces
  exact ⟨hP₃, hext.trans hext₃, (hext₂.trans hext₃).decl hd⟩

/-- Adding a method keeps a program coherent, and the method is declared then. -/
theorem addMethod {owner : Ty} (howner : P.HasType owner) {name : String} {signature : Signature}
    (hsignature : P.HasSignature signature) {flags : MethodFlags} {m : MethodDecl}
    (h : P.addMethod owner name signature flags = .ok (m, P')) :
    P'.Coherent ∧ P.Extends P' ∧ P'.HasMethod m.method := by
  obtain ⟨d, hd, hm, hprogram⟩ := addMethod_eq_ok h
  rw [declared_eq_ok hd] at howner
  obtain ⟨hat, hplaced⟩ := hP.record howner
  have hmowner : m.owner = d := congrArg MethodDecl.owner hm
  have hmsignature : P.HasSignature m.signature := by
    rw [hm]
    exact hsignature
  have htypes : P'.types = P.types.modify d.id fun r => { r with methods := r.methods ++ [m] } :=
    congrArg Program.types hprogram
  have hbodies : P'.bodies = P.bodies := by rw [hprogram]; rfl
  obtain ⟨hcoherent, hext⟩ := hP.modify htypes hbodies
    (fun _ => rfl) (fun _ _ hn => List.mem_append_left _ hn) fun hr hhas => by
      cases hat.symm.trans hr
      refine ⟨{ hhas with signatures := ?_ }, fun n hn => ?_⟩
      · exact List.forall_mem_append.2 ⟨hhas.signatures, List.forall_mem_singleton.2 hmsignature⟩
      · refine (List.mem_append.1 hn).imp_right fun hn => ?_
        rw [List.mem_singleton.1 hn, hmowner, hplaced]
  refine ⟨hcoherent, hext, ⟨d, congrArg some hmowner, ?_⟩, ?_, List.forall_mem_nil _⟩
  · rw [Program.record, htypes, Array.getElem?_modify, if_pos rfl, hat]
    exact List.mem_append_right _ (List.mem_singleton_self _)
  · show P'.HasDecl m.owner
    rw [hmowner]
    exact hext.decl howner

/-- Adding a field keeps a program coherent. -/
theorem addField {owner : Ty} {name : String} {type : Ty} {flags : FieldFlags} {f : Field}
    (h : P.addField owner name type flags = .ok (f, P')) : P'.Coherent ∧ P.Extends P' := by
  obtain ⟨d, rfl⟩ := addField_eq_ok h
  refine hP.modify (f := fun r => { r with fields := r.fields ++ [f] }) rfl rfl (fun _ => rfl)
    (fun _ _ hm => hm) fun _ hr => ?_
  exact ⟨{ hr with }, fun _ hm => .inl hm⟩

/-- Adding an override keeps a program coherent. -/
theorem addOverride {isClosed : TypeDecl → Bool} {owner : Ty} {decl body : Method}
    (hdecl : P.HasMethod decl) (hbody : P.HasMethod body)
    (h : P.addOverride isClosed owner decl body = .ok P') : P'.Coherent ∧ P.Extends P' := by
  obtain ⟨d, -, -, rfl⟩ := addOverride_eq_ok h
  refine hP.modify (f := fun r => { r with overrides := r.overrides.push ⟨decl, body⟩ }) rfl rfl
    (fun _ => rfl) (fun _ _ hm => hm) fun _ hr => ?_
  refine ⟨{ hr with overrides := fun o ho => ?_ }, fun _ hm => .inl hm⟩
  rcases List.mem_append.1 ho with ho | ho
  · exact hr.overrides o ho
  · rw [List.mem_singleton.1 ho]
    exact ⟨hdecl, hbody⟩

/-- Giving a method a body that speaks of what is declared keeps a program coherent. -/
theorem setBody (m : Method) {body : Body} (hbody : ∀ i ∈ body, i.Within P) :
    (P.setBody m body).Coherent ∧ P.Extends (P.setBody m body) := by
  have hext : P.Extends (P.setBody m body) := ⟨id, fun _ hm => hm⟩
  refine ⟨hP.of_extends hext ?_ ?_, hext⟩
  · exact fun hr => ⟨hP.placed hr, hext.hasRecord (hP.hasRecord hr), hP.declaring hr⟩
  · intro m' body' hbody' i hi
    rw [body?_setBody] at hbody'
    split at hbody'
    · cases hbody'
      exact hext.within (hbody i hi)
    · exact hext.within (hP.grounded.bodies m' body' hbody' i hi)

end Coherent

end Program

end AheadOfTime
