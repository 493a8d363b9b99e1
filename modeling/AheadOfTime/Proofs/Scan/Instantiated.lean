import AheadOfTime.Proofs.Program.Instantiated
import AheadOfTime.Proofs.Scan.GenericOverrides
import AheadOfTime.Proofs.Scan.Grounded

/-!
# What is constructed and compiled is instantiated

Objects have instantiated types, and code and slots belong to instantiated methods.  Roots and the
methods that bodies refer to are checked for that.  Of the types that bodies refer to it is only
checked that they mention no parameters, so that a generic declaration without arguments passes.
Most instructions do no harm with it: they refer to its data, or make an array of it.  But a value
of it can be boxed, and a call can be resolved on it as the receiver.

If the declarations of a program fit together, then these instructions are the only way in which
something that is not instantiated is marked.
-/

set_option autoImplicit false

namespace AheadOfTime

open Marking

/-- Whether a node is about objects, static fields, code or a slot that need further arguments.
Type data and reflection may be about generic declarations. -/
def Node.isOpen : Node → Bool
  | constructed t | statics t => t.isOpen
  | code m | shadow m | slot m => m.isOpen
  | typeData _ | reflection _ => false

/-- A node that does not need further arguments. -/
abbrev Node.Instantiated (n : Node) : Prop := n.isOpen = false

/-- Type data needs no further arguments. -/
theorem Node.instantiated_typeData (t : Ty) : (typeData t).Instantiated := rfl

/-- Reflection needs no further arguments. -/
theorem Node.instantiated_reflection (r : Reflected) : (reflection r).Instantiated := rfl

/-! ## Saturated nodes -/

namespace NodeVocabulary

/-- Saturated types, and methods that are seen through them. -/
def saturated : NodeVocabulary where
  toVocabulary := .saturated
  object := Ty.Saturated
  field _ := True
  code := Method.Saturated
  shadow := Method.Saturated
  slot := Method.Saturated

end NodeVocabulary

open NodeVocabulary (saturated)

/-- The declarations of a program fit together, and bodies refer to saturated types and methods. -/
structure Program.Saturated (P : Program) : Prop extends P.Applied where
  bodies : ∀ {m : Method} {body : Body}, P.body? m = some body →
    ∀ i ∈ body, saturated.HasInstruction i

/-- The canonical form of a method that is seen through saturated types is seen through saturated
types. -/
theorem Method.Saturated.canonical {m : Method} (hm : m.Saturated) : m.canonical.Saturated := by
  refine ⟨hm.1.canonical, fun a ha => ?_⟩
  obtain ⟨b, hb, rfl⟩ := List.mem_map.1 ha
  exact (hm.2 b hb).canonical.canonicalArg

/-- If bodies refer to saturated types and methods, saturated nodes lead to saturated types and
methods. -/
theorem Setting.covers_saturated {S : Setting} (hP : S.program.Saturated) : saturated.Covers S where
  toCovers := hP.covers_saturated
  objectType ht := ht
  typeObject ht := ht
  arrayOf ht := ⟨rfl, ht⟩
  element ht := ht.2
  pointerTarget ht := ht.2
  byRefTarget ht := ht.2
  typeDefinition ht := ht.definition
  fieldOwner _ := .inl rfl
  bodies := hP.bodies
  ownCode hm := hm
  ownShadow hm _ := hm
  shadowMethod hm := hm
  sharedCode := Vocabulary.codeOwner (V := .saturated) Method.Saturated.canonical
  slotFor := hP.covers_saturated.slotFor Method.Saturated.canonical
  importable := .inl

/-! ## Code and slots -/

/-- The canonical form of an instantiated method is instantiated. -/
theorem Method.isOpen_canonical {m : Method} (hm : m.Saturated) (hopen : m.isOpen = false) :
    m.canonical.isOpen = false := by
  obtain ⟨hgeneric, howner, hargs⟩ := isOpen_eq_false_iff.1 hopen
  refine isOpen_eq_false_iff.2 ⟨?_, hm.1.isOpen_canonical howner, fun a ha => ?_⟩
  · simpa [isGenericDefinition, Method.canonical] using hgeneric
  · obtain ⟨b, hb, rfl⟩ := List.mem_map.1 ha
    unfold Ty.canonicalArg
    split
    · rfl
    · exact Ty.hasParams_canonical (hargs b hb)

namespace Setting

variable {S : Setting} {m : Method}

/-- The node for the code of an instantiated method is instantiated. -/
theorem isOpen_codeNode (hm : m.isOpen = false) : (S.codeNode m).value.isOpen = false := by
  rw [value_codeNode]
  split <;> exact hm

/-- The code of an instantiated method is that of an instantiated one. -/
theorem isOpen_codeOwner (hm : m.Saturated) (hopen : m.isOpen = false) :
    (S.codeOwner m).value.isOpen = false := by
  rw [value_codeOwner]
  split
  · exact Method.isOpen_canonical hm hopen
  · exact hopen

/-- The slot that an instantiated method is called through is instantiated. -/
theorem isOpen_slotFor (hP : S.program.Applied) (hm : S.program.instantiated.method m)
    (hgeneric : m.isGenericDefinition = false) :
    Yields (fun slot => slot.isOpen = false) (S.slotFor m) := by
  refine .bind (hP.instantiated_slotOf hm hgeneric) fun slot hslot => ?_
  have hopen := Program.isOpen_of_instantiated hslot.1 hslot.2
  refine .ite (.pure hopen) ?_
  split
  · refine .lift ?_
    rw [Method.value_canonicalForm]
    exact Method.isOpen_canonical hslot.1.2.1 hopen
  · next hargs =>
    refine .bind (p := fun definition => definition = slot.definition.canonical)
      (.lift (Method.value_canonicalForm _)) fun definition hdefinition => ?_
    subst hdefinition
    cases happly : slot.definition.canonical.apply slot.args with
    | error fault => exact .refuse
    | ok applied =>
      refine .lift ?_
      rw [value_needMethod]
      unfold Method.apply at happly
      split at happly
      · cases happly
      · cases happly
        refine Method.isOpen_eq_false_iff.2 ⟨?_, ?_, hslot.1.2.2.2⟩
        · simp [Method.isGenericDefinition, hargs]
        · exact hslot.1.2.1.1.isOpen_canonical hslot.1.2.2.1

end Setting

/-! ## What bodies need -/

namespace Importer

/-- An instruction takes a type that is not instantiated for the type of a value to be boxed, or of
a receiver. -/
inductive TakesOpen (I : Importer) : Instruction → Prop
  | box {operand : Operand Ty} {t : Ty} : outcome (I.type operand) = .ok t → t.isOpen = true →
      TakesOpen I (.box operand)
  | callvirt {operand : Operand Method} {receiver : Operand Ty} {t : Ty} :
      outcome (I.type receiver) = .ok t → t.isOpen = true →
      TakesOpen I (.callvirt operand (some receiver))
  | constrained {constraint : Operand Ty} {operand : Operand Method} {t : Ty} :
      outcome (I.type constraint) = .ok t → t.isOpen = true →
      TakesOpen I (.constrained constraint operand)

variable {I : Importer}

/-- An edge to an instantiated node leads to an instantiated node. -/
theorem leadTo_edge {n : Node} (hn : n.isOpen = false) (label : String) :
    LeadTo Node.Instantiated (I.edge n label) := by
  intro e he
  rw [target_of_mem_edge he]
  exact hn

/-- Importing an edge to an instantiated node leads to an instantiated node. -/
theorem importsTo_edge {n : Node} (hn : n.isOpen = false) (label : String) (sites : List Site) :
    ImportsTo Node.Instantiated (pure ⟨I.edge n label, sites⟩) :=
  .pure (leadTo_edge hn label)

/-- The edge to the code of an instantiated method leads to an instantiated node. -/
theorem leadTo_isOpen_code {m : Method} (hm : m.isOpen = false) (label : String) :
    LeadTo Node.Instantiated (I.code m label).value := by
  have hcode := leadTo_edge (I := I) (I.setting.isOpen_codeNode hm) label
  have howner : m.owner.isOpen = false := (Method.isOpen_eq_false_iff.1 hm).2.1
  unfold code
  split
  · exact .nil
  · dsimp only
    split
    · simp only [Recorded.value_bind, Recorded.value_pure]
      refine .append ?_ hcode
      split
      · exact leadTo_edge (n := .statics m.owner) howner _
      · exact .nil
    · exact hcode

/-- Direct calls of instantiated methods lead to instantiated nodes. -/
theorem importsTo_isOpen_directCall {m : Method} (hm : m.isOpen = false) (offset : Nat)
    (label : String) : ImportsTo Node.Instantiated (liftM (I.directCall offset m label)) := by
  refine .lift ?_
  unfold directCall
  rw [Recorded.value_bind, Recorded.value_pure]
  exact leadTo_isOpen_code hm label

/-! ### Operands -/

/-- A type that a body refers to has no parameters left. -/
theorem yields_hasParams_type (operand : Operand Ty) :
    Yields (fun t => t.hasParams = false) (I.type operand) := by
  refine .after fun t => .after fun t' => ?_
  split
  · exact .refuse
  · next hparams => exact .pure (Bool.eq_false_iff.2 hparams)

/-- A method that a body calls needs no further arguments. -/
theorem yields_isOpen_calledMethod (operand : Operand Method) :
    Yields (fun m => m.isOpen = false) (I.calledMethod operand) := by
  refine .after fun m => .after fun m' => ?_
  split
  · exact .refuse
  · next hopen => exact .pure (Bool.eq_false_iff.2 hopen)

section Instantiated

variable (hP : I.setting.program.Saturated) (hI : I.setting.program.instantiated.method I.method)
include hP hI

/-- A type that a body refers to is instantiated if it has its arguments. -/
theorem yields_instantiated_type {operand : Operand Ty}
    (hwithin : operand.All I.setting.program.HasType) (hsaturated : operand.All Ty.Saturated) :
    Yields (fun t => t.isOpen = false → I.setting.program.instantiated.type t)
      (I.type operand) := by
  have hV := Setting.covers_of_grounded hP.coherent.grounded
  rw [Program.nodeVocabulary_eq] at hV
  intro t ht hopen
  exact ⟨yields_type hV.toSpans hI.1 hwithin t ht,
    yields_type (Setting.covers_saturated hP).toSpans hI.2.1 hsaturated t ht, hopen⟩

/-- A method that a body refers to is instantiated. -/
theorem yields_instantiated_calledMethod {operand : Operand Method}
    (hwithin : operand.All I.setting.program.HasMethod)
    (hsaturated : operand.All Method.Saturated) :
    Yields (fun m => I.setting.program.instantiated.method m ∧ m.isGenericDefinition = false)
      (I.calledMethod operand) := by
  have hV := Setting.covers_of_grounded hP.coherent.grounded
  rw [Program.nodeVocabulary_eq] at hV
  intro m hm
  have hopen := yields_isOpen_calledMethod operand m hm
  have hmethod := yields_calledMethod hV.toSpans hI.1 hwithin m hm
  have hseen := yields_calledMethod (Setting.covers_saturated hP).toSpans hI.2.1 hsaturated m hm
  exact ⟨Program.instantiated_of_isOpen hmethod hseen hopen,
    (Method.isOpen_eq_false_iff.1 hopen).1⟩

/-- The owner through which a body sees a field is instantiated. -/
theorem yields_isOpen_fieldOwner? (f : Field) :
    Yields (fun owner => ∀ t ∈ owner, t.isOpen = false) (liftM (I.fieldOwner? f)) := by
  refine .lift fun t ht => ?_
  unfold fieldOwner? at ht
  split at ht
  · next hclosed =>
    cases ht
    simpa using hclosed
  · rw [Program.value_findUp] at ht
    obtain ⟨u, hu, hfound⟩ := List.exists_of_findSome?_eq_some ht
    rw [Recorded.value_pure] at hfound
    split at hfound
    · cases hfound
      have howner := hP.answers_instantiated.owner hI
      exact (hP.answers_instantiated.chain howner hu).2.2
    · cases hfound

end Instantiated

/-! ### Calls -/

section Calls

variable (hP : I.setting.program.Saturated) {m : Method}
  (hm : I.setting.program.instantiated.method m) (hgeneric : m.isGenericDefinition = false)
include hP hm hgeneric

/-- The only target of a call on an instantiated receiver is instantiated. -/
theorem yields_isOpen_onlyTarget? {receiver : Option Ty}
    (hr : ∀ t ∈ receiver, I.setting.program.instantiated.type t) :
    Yields (fun target => ∀ m' ∈ target, m'.isOpen = false) (I.onlyTarget? m receiver) := by
  intro target htarget m' hm'
  cases hm'
  rcases I.onlyTarget?_eq_some htarget with ⟨-, hresolve, -⟩ | ⟨rfl, -⟩
  · refine hP.isOpen_resolve hm hgeneric ?_ m' hresolve
    cases receiver with
    | none => exact hP.answers_instantiated.owner hm
    | some t => exact hr t rfl
  · exact Program.isOpen_of_instantiated hm hgeneric

/-- Virtual calls on instantiated receivers lead to instantiated nodes. -/
theorem importsTo_isOpen_virtualCall {receiver : Option Ty}
    (hr : ∀ t ∈ receiver, I.setting.program.instantiated.type t) (offset : Nat) (label : String) :
    ImportsTo Node.Instantiated (I.virtualCall offset m receiver label) := by
  have hopen := Program.isOpen_of_instantiated hm hgeneric
  refine .ite (importsTo_isOpen_directCall hopen offset label)
    (.bind (yields_isOpen_onlyTarget? hP hm hgeneric hr) fun target htarget => ?_)
  cases target with
  | some target =>
    exact .bind (.lift (leadTo_isOpen_code (htarget target rfl) _)) fun _ h => .pure h
  | none =>
    refine .bind (Setting.isOpen_slotFor hP.toApplied hm hgeneric) fun slot hslot => ?_
    exact importsTo_edge (n := .slot slot) hslot label _

/-- Calls that are constrained to instantiated types lead to instantiated nodes. -/
theorem importsTo_isOpen_constrainedCall {constraint : Ty}
    (hc : I.setting.program.instantiated.type constraint) (offset : Nat) :
    ImportsTo Node.Instantiated (I.constrainedCall offset constraint m) := by
  have hcall : ImportsTo Node.Instantiated
      (I.virtualCall offset m constraint "constrained call") := by
    refine importsTo_isOpen_virtualCall hP hm hgeneric (fun t ht => ?_) offset _
    cases ht
    exact hc
  refine .ite hcall (.bind (hP.isOpen_resolve hm hgeneric hc) fun target htarget => ?_)
  refine .ite (importsTo_isOpen_directCall htarget offset _) (.bind hcall fun rest hrest => ?_)
  exact .pure (LeadTo.append (leadTo_edge (n := .constructed constraint) hc.2.2 _) hrest)

end Calls

/-! ### Instructions -/

/-- Casts lead to instantiated nodes. -/
theorem importsTo_isOpen_cast (offset : Nat) (operand : Operand Ty) (label : String) :
    ImportsTo Node.Instantiated (I.cast offset operand label) :=
  .after fun t => .after fun _ => importsTo_edge (n := .typeData t) rfl label _

/-- Instance fields lead to instantiated nodes. -/
theorem importsTo_isOpen_instanceField (operand : Operand Field) :
    ImportsTo Node.Instantiated (I.instanceField operand) := by
  refine .after fun f => .after fun owner => ?_
  cases owner with
  | some owner => exact importsTo_edge (n := .typeData owner) rfl _ _
  | none => exact .pure .nil

/-- Tokens lead to instantiated nodes. -/
theorem importsTo_isOpen_token (t : Token) : ImportsTo Node.Instantiated (I.token t) := by
  cases t with
  | type operand =>
    refine .after fun t => .pure ?_
    exact (leadTo_edge (n := .reflection (.type t)) rfl _).append
      (leadTo_edge (n := .typeData t) rfl _)
  | method operand =>
    refine .after fun m => .pure ?_
    exact (leadTo_edge (n := .reflection (.method m)) rfl _).append
      (leadTo_edge (n := .typeData m.owner) rfl _)
  | field operand =>
    refine .after fun f => .after fun owner => .pure ?_
    refine (leadTo_edge (n := .reflection (.field f)) rfl _).append ?_
    cases owner with
    | some owner => exact leadTo_edge (n := .typeData owner) rfl _
    | none => exact .nil

section Instructions

variable (hP : I.setting.program.Saturated) (hI : I.setting.program.instantiated.method I.method)
include hP hI

/-- Static fields lead to instantiated nodes. -/
theorem importsTo_isOpen_staticField (operand : Operand Field) :
    ImportsTo Node.Instantiated (I.staticField operand) := by
  refine .after fun f => .bind (yields_isOpen_fieldOwner? hP hI f) fun owner howner => ?_
  cases owner with
  | some owner => exact importsTo_edge (n := .statics owner) (howner owner rfl) _ _
  | none => exact .pure .nil

/-- An instruction that takes no type without arguments leads to what is instantiated. -/
theorem importsTo_isOpen_instruction (offset : Nat) {i : Instruction}
    (hwithin : i.Within I.setting.program) (hsaturated : saturated.HasInstruction i)
    (htakes : ¬ I.TakesOpen i) : ImportsTo Node.Instantiated (I.instruction offset i) := by
  -- called methods are refused if they need arguments; types of receivers and of boxed values are not
  cases i with
  | call operand =>
    exact .bind (yields_isOpen_calledMethod operand) fun m hm =>
      importsTo_isOpen_directCall hm offset _
  | ldftn operand =>
    exact .bind (yields_isOpen_calledMethod operand) fun m hm =>
      importsTo_isOpen_directCall hm offset _
  | callvirt operand receiver =>
    refine .bind (yields_instantiated_calledMethod hP hI hwithin.1 hsaturated.1) fun m hm => ?_
    refine .bind (p := fun r => ∀ t ∈ r, I.setting.program.instantiated.type t) ?_
      fun r hr => importsTo_isOpen_virtualCall hP hm.1 hm.2 hr offset _
    cases receiver with
    | none => exact .pure fun t ht => by cases ht
    | some receiver =>
      have htype :=
        yields_instantiated_type hP hI (hwithin.2 receiver rfl) (hsaturated.2 receiver rfl)
      refine .map htype.eq_ok fun t ht u hu => ?_
      cases hu
      exact ht.1 (Bool.eq_false_iff.2 fun hopen => htakes (.callvirt ht.2 hopen))
  | ldvirtftn operand =>
    refine .bind (yields_instantiated_calledMethod hP hI hwithin hsaturated) fun m hm => ?_
    exact importsTo_isOpen_virtualCall hP hm.1 hm.2 (fun t ht => by cases ht) offset _
  | constrained constraint operand =>
    refine .bind (yields_instantiated_type hP hI hwithin.1 hsaturated.1).eq_ok fun c hc => ?_
    refine .bind (yields_instantiated_calledMethod hP hI hwithin.2 hsaturated.2) fun m hm => ?_
    refine importsTo_isOpen_constrainedCall hP hm.1 hm.2 (hc.1 ?_) offset
    exact Bool.eq_false_iff.2 fun hopen => htakes (.constrained hc.2 hopen)
  | newobj operand =>
    refine .bind (yields_isOpen_calledMethod operand) fun m hm => ?_
    refine .bind (importsTo_isOpen_directCall hm offset _) fun call hcall =>
      .pure (.append ?_ hcall)
    dsimp only
    split
    · exact leadTo_edge (n := .typeData m.owner) rfl _
    · exact leadTo_edge (n := .constructed m.owner) (Method.isOpen_eq_false_iff.1 hm).2.1 _
  | newarr operand =>
    refine .bind (yields_hasParams_type operand) fun t ht => ?_
    refine .bind (p := fun array => array.isOpen = false) (.lift ?_) fun array harray =>
      importsTo_edge (n := .constructed array) harray _ _
    rw [value_needType]
    simpa [Ty.isOpen, Ty.hasParams] using ht
  | box operand =>
    refine .bind (p := fun t => t.isOpen = false) (fun t ht => ?_) fun t ht => .pure ?_
    · exact Bool.eq_false_iff.2 fun hopen => htakes (.box ht hopen)
    · dsimp only
      split
      · exact leadTo_edge (n := .constructed t) ht _
      · exact leadTo_edge (n := .typeData t) rfl _
  | unboxAny operand => exact importsTo_isOpen_cast offset operand _
  | castclass operand => exact importsTo_isOpen_cast offset operand _
  | isinst operand => exact importsTo_isOpen_cast offset operand _
  | ldtoken t => exact importsTo_isOpen_token t
  | ldfld operand => exact importsTo_isOpen_instanceField operand
  | ldflda operand => exact importsTo_isOpen_instanceField operand
  | stfld operand => exact importsTo_isOpen_instanceField operand
  | ldsfld operand => exact importsTo_isOpen_staticField hP hI operand
  | ldsflda operand => exact importsTo_isOpen_staticField hP hI operand
  | stsfld operand => exact importsTo_isOpen_staticField hP hI operand
  | _ => exact .pure .nil

end Instructions

end Importer

/-! ## What nodes need -/

namespace Setting

variable {S : Setting}

/-- Type data leads to instantiated nodes. -/
theorem expandsTo_isOpen_typeData (t : Ty) :
    Yields (ExpandsTo Node.Instantiated) (S.expandTypeData t) := by
  refine .after fun _ => .after fun base => .pure (LeadTo.append ?_ ?_).expansion
  · cases base with
    | some base => exact LeadTo.singleton (Node.instantiated_typeData base) _
    | none => exact .nil
  · cases t with
    | array e r => exact LeadTo.singleton (Node.instantiated_typeData e) _
    | pointer e => exact LeadTo.singleton (Node.instantiated_typeData e) _
    | byRef e => exact LeadTo.singleton (Node.instantiated_typeData e) _
    | _ => exact .nil

/-- Reflection leads to instantiated nodes. -/
theorem expandsTo_isOpen_reflection (r : Reflected) :
    Yields (ExpandsTo Node.Instantiated) (S.expandReflection r) := by
  cases r with
  | type t =>
    refine .after fun _ => .pure (LeadTo.cons (Node.instantiated_typeData t) _ ?_).expansion
    split
    · exact .nil
    · refine .cons (Node.instantiated_reflection (.type t.definition)) _ fun e he => ?_
      obtain ⟨a, -, rfl⟩ := List.mem_map.1 he
      rfl
  | method m =>
    refine .after fun _ => .pure ?_
    exact (LeadTo.singleton (Node.instantiated_reflection (.type m.owner)) _).expansion
  | field f =>
    refine .pure (LeadTo.singleton ?_ _).expansion
    exact Node.instantiated_reflection (.type f.ownerType)

section Objects

variable (hP : S.program.Applied) {t : Ty} (ht : S.program.instantiated.type t)
include hP ht

/-- The slots of an instantiated type lead to instantiated nodes. -/
theorem isOpen_slotEdges :
    Yields (fun edges => ∀ e ∈ edges, e.target.isOpen = false) (S.slotEdges t) := by
  have hslots := (hP.answers_instantiated.slotsOf ht).and
    (Program.Applied.isGenericDefinition_slotsOf t)
  refine .bind hslots fun slots hslots => .mapM_flatten fun slot hslot => ?_
  refine .bind (hP.isOpen_resolve (hslots.1 slot hslot) (hslots.2 slot hslot) ht)
    fun target htarget => ?_
  exact S.yields_overrideEdge (N := Node.Instantiated) (isOpen_codeNode htarget) slot _

/-- The interfaces of an instantiated type lead to instantiated nodes. -/
theorem isOpen_interfaceEdges {i : Ty} (hi : S.program.instantiated.type i) :
    Yields (fun edges => ∀ e ∈ edges, e.target.isOpen = false) (S.interfaceEdges t i) := by
  refine .bind (p := fun methods => ∀ m ∈ methods, S.program.instantiated.method m) (.lift ?_)
    fun methods hmethods => .mapM_flatten fun m hm => ?_
  · rw [Program.value_methodsOf]
    exact hP.answers_instantiated.methods hi
  · split
    · exact .pure fun e he => by cases he
    · next hcalled =>
      rw [Bool.or_eq_true, not_or, Bool.not_eq_true, Bool.not_eq_true] at hcalled
      refine .bind (hP.isOpen_interfaceTarget? (hmethods m hm) hcalled.2 ht)
        fun target htarget => ?_
      cases target with
      | some target =>
        have hnode := isOpen_codeNode (S := S) (htarget target rfl)
        exact S.yields_overrideEdge (N := Node.Instantiated) hnode m _
      | none => exact .pure fun e he => by cases he

/-- Objects of an instantiated type lead to instantiated nodes. -/
theorem expandsTo_isOpen_constructed :
    Yields (ExpandsTo Node.Instantiated) (S.expandConstructed t) :=
  S.expandsTo_constructed (N := Node.Instantiated) rfl ht.2.2 (fun _ => rfl)
    (isOpen_slotEdges hP ht) fun i hi =>
      isOpen_interfaceEdges hP ht (hP.answers_instantiated.allInterfaces ht i hi)

/-- Static fields of an instantiated type lead to instantiated nodes. -/
theorem expandsTo_isOpen_statics :
    Yields (ExpandsTo Node.Instantiated) (S.expandStatics t) :=
  S.expandsTo_statics (N := Node.Instantiated) rfl fun hm =>
    isOpen_codeNode (hP.isOpen_classConstructor? ht hm)

/-- The search for overrides of an instantiated slot finds instantiated nodes. -/
theorem isOpen_genericOverride {m : Method} (hm : S.program.instantiated.method m)
    (hgeneric : m.isGenericDefinition = false) :
    Yields (LeadTo Node.Instantiated) (S.genericOverride m t) := by
  refine .ite (.pure .nil) (.after fun derives => .ite (.pure .nil) ?_)
  refine .bind (hP.isOpen_resolve hm hgeneric ht) fun target htarget => .ite (.pure .nil) ?_
  exact .bind (.lift (isOpen_codeNode htarget)) fun n hn => .pure (.singleton hn _)

end Objects

/-- What an instantiated node needs is instantiated, unless an instruction of its body takes a type
without arguments and leads to something else. -/
theorem expandsTo_isOpen {n : Node} (hP : S.program.Saturated) (hwithin : S.program.HasNode n)
    (hsaturated : saturated.HasNode n) (hopen : n.isOpen = false)
    (htakes : ∀ {I body}, S.HasBody n I body → ∀ p ∈ body.zipIdx, I.TakesOpen p.1 →
      Importer.ImportsTo Node.Instantiated (I.instruction p.2 p.1)) :
    Yields (ExpandsTo Node.Instantiated) (S.expand n) := by
  -- each instruction of a body either takes such a type or leads to what is instantiated
  have hbody : ∀ {m : Method} {shared : Bool} {body : Body},
      S.program.instantiated.method m → S.program.body? m = some body →
      S.HasBody n (S.importer m shared) body →
        Importer.ImportsTo Node.Instantiated (S.importBody m shared body) := by
    intro m shared body hm hbody hhas
    refine Importer.importsTo_importBody fun p hp => ?_
    by_cases htake : (S.importer m shared).TakesOpen p.1
    · exact htakes hhas p hp htake
    · have hi := List.fst_mem_of_mem_zipIdx hp
      exact Importer.importsTo_isOpen_instruction (I := S.importer m shared) hP hm p.2
        (hP.coherent.grounded.bodies m body hbody p.1 hi) (hP.bodies hbody p.1 hi) htake
  cases n with
  | constructed t => exact expandsTo_isOpen_constructed hP.toApplied ⟨hwithin, hsaturated, hopen⟩
  | statics t => exact expandsTo_isOpen_statics hP.toApplied ⟨hwithin, hsaturated, hopen⟩
  | typeData t => exact expandsTo_isOpen_typeData t
  | reflection r => exact expandsTo_isOpen_reflection r
  | slot m => exact .after fun _ => .pure LeadTo.nil.expansion
  | code m =>
    refine Importer.expandsTo_code fun hhas => ?_
    cases hhas with
    | code hcode hcodeBody =>
      exact hbody (Program.instantiated_of_isOpen hwithin hsaturated hopen) hcodeBody
        (.code hcode hcodeBody)
  | shadow m =>
    refine Importer.expandsTo_shadow (isOpen_codeOwner hsaturated hopen) fun hhas => ?_
    cases hhas with
    | shadow hown =>
      exact hbody (Program.instantiated_of_isOpen hwithin hsaturated hopen) hown (.shadow hown)

/-- Roots stand for instantiated nodes. -/
theorem isOpen_rootNodes (k : RootKind) :
    Yields (fun nodes => ∀ n ∈ nodes, n.isOpen = false) (S.rootNodes k) := by
  cases k with
  | method m =>
    rw [rootNodes]
    split
    · exact .refuse
    · next hopen =>
      refine .bind (p := Node.Instantiated) (.lift (isOpen_codeNode (Bool.eq_false_iff.2 hopen)))
        fun n hn => .pure ?_
      exact List.forall_mem_singleton.2 hn
  | constructed t =>
    rw [rootNodes]
    split
    · exact .refuse
    · next hopen =>
      rw [Bool.or_eq_true, not_or] at hopen
      exact .pure (List.forall_mem_singleton.2 (Bool.eq_false_iff.2 hopen.1))
  | reflectedType t =>
    refine .pure (List.forall_mem_cons.2 ⟨rfl, ?_⟩)
    split
    · next hopen =>
      rw [Bool.and_eq_true, Bool.not_eq_true'] at hopen
      exact List.forall_mem_singleton.2 hopen.1
    · exact List.forall_mem_nil _
  | reflectedMethod m =>
    rw [rootNodes]
    split
    · next hopen =>
      rw [Bool.and_eq_true, Bool.not_eq_true'] at hopen
      refine .bind (p := Node.Instantiated) (.lift (isOpen_codeNode hopen.1))
        fun n hn => .pure ?_
      exact List.forall_mem_cons.2 ⟨rfl, List.forall_mem_singleton.2 hn⟩
    · exact .pure (List.forall_mem_singleton.2 rfl)

namespace FixedPoint

variable {roots : List Root} {g : NodeGraph}

/-- What a marking marks is instantiated if and only if whatever is needed is that is needed by an
instruction which takes a type without arguments. -/
theorem isOpen_iff (hg : S.FixedPoint roots g) (hP : S.program.Saturated)
    (hroots : ∀ r ∈ roots, S.program.HasRoot r.kind ∧ saturated.HasRoot r.kind) :
    (∀ n, g.isMarked n = true → n.isOpen = false) ↔
      ∀ n I body i offset own, g.isMarked n = true → S.HasBody n I body →
        (i, offset) ∈ body.zipIdx → I.TakesOpen i → outcome (I.instruction offset i) = .ok own →
        ∀ e ∈ own.edges, e.target.isOpen = false := by
  constructor
  · intro hclosed n I body i offset own hn hbody hi _ hown e he
    obtain ⟨own', hown', hmarked⟩ := hg.exists_imported hn hbody hi
    cases hown.symm.trans hown'
    exact hclosed _ (hmarked e he)
  · intro htakes n hn
    -- what is marked is saturated and declared by the program, whether it is instantiated or not
    have hwithin : ∀ {n : Node}, g.isMarked n = true → S.program.HasNode n := fun hn =>
      hasNode_of_isMarked hP.coherent.grounded (fun r hr => (hroots r hr).1) hg hn
    have hV := covers_saturated hP
    have hsaturated : ∀ {n : Node}, g.isMarked n = true → saturated.HasNode n := fun hn =>
      hg.hasNode hV (fun r hr => (hroots r hr).2) (fun _ hm _ ht _ => hV.genericOverride hm ht) hn
    have hexpand : ∀ {n : Node}, g.isMarked n = true → n.isOpen = false →
        Yields (ExpandsTo Node.Instantiated) (S.expand n) := by
      intro n hn hopen
      refine expandsTo_isOpen hP (hwithin hn) (hsaturated hn) hopen ?_
      intro I body hbody p hp htake own hown
      exact htakes n I body p.1 p.2 own hn hbody hp htake hown
    have hclosed : S.system.Closed fun n => g.isMarked n = true ∧ n.isOpen = false := by
      refine S.nodeByNode_system.closed ?_ ?_ ?_
      · intro n x hn hx e he
        exact ⟨hg.edge hn.1 hx e he, (hexpand hn.1 hn.2 x hx).1 e he⟩
      · intro n x hn hx e he hcondition
        exact ⟨hg.conditional hn.1 hx e he hcondition.1, (hexpand hn.1 hn.2 x hx).2 e he⟩
      · intro n k x found hn hx hd hk hfound e he
        refine ⟨hg.closed.dynamic hn.1 hx hd (by simpa using hk.1) hfound e he, ?_⟩
        obtain ⟨m, t, rfl, rfl, -, hoverride⟩ := S.exists_of_search_singleton hfound he
        refine isOpen_genericOverride hP.toApplied ⟨hwithin hk.1, hsaturated hk.1, hk.2⟩ ?_ ?_
          found hoverride e he
        · exact Program.instantiated_of_isOpen (hwithin hn.1) (hsaturated hn.1) hn.2
        · exact (Method.isOpen_eq_false_iff.1 hn.2).1
    refine (hg.least hclosed (fun k hk => ⟨hg.root hk, ?_⟩) hn).2
    obtain ⟨r, -, nodes, hnodes, hk⟩ := hk
    exact isOpen_rootNodes r.kind nodes hnodes k hk

end FixedPoint

end Setting

/-- Everything that a scan marks as constructed, as code, as a method on shared code or as a slot is
instantiated, and so are the types of static fields, if and only if whatever an instruction needs
that boxes a value of a type without arguments, or calls a method on a receiver of such a type, is
instantiated.  In particular it is if no body has such an instruction. -/
theorem Program.scan_instantiated_iff {P : Program} {fuel : Nat} {options : Options}
    {roots : List Root} {cancelled : Option Bool} {scan : Scan}
    (hscan : outcome (P.scan fuel options roots cancelled) = .ok (some scan)) (hP : P.Saturated)
    (hroots : ∀ r ∈ roots, P.HasRoot r.kind ∧ saturated.HasRoot r.kind) :
    (∀ n, scan.graph.isMarked n = true → n.isOpen = false) ↔
      ∀ n I body i offset own, scan.graph.isMarked n = true →
        Setting.HasBody { program := P, options } n I body → (i, offset) ∈ body.zipIdx →
        I.TakesOpen i → outcome (I.instruction offset i) = .ok own →
        ∀ e ∈ own.edges, e.target.isOpen = false :=
  (scan_eq_ok hscan).2.isOpen_iff hP hroots

/-! ### Packing

Crates are values, and generic in what they hold.  Storing something packs it: a crate is boxed. -/

namespace Packing

def crate : TypeDecl :=
  { id := 19, space := "App", name := "Crate`1", arity := 1, flags := { valueType := true } }

def depot : TypeDecl := { id := 20, space := "App", name := "Depot" }

def store : MethodDecl := .ofName 0 depot "Store" { static := true } 1

def crateOf (t : Ty) : Ty := .app (.decl crate) t

def types : List TypeRecord :=
  [.ofMethods crate (some (.ofWellKnown .valueType)) [], .ofMethods depot (some .object) [store]]

/-- A program in which a given type is boxed. -/
def program (boxed : Ty) : Program :=
  Program.withTypes types |>.setBody store.method [.box (.known boxed)]

/-- A number is stored. -/
def storeInt32 : Method := ⟨store, .decl depot, [.ofWellKnown .int32]⟩

def roots : List Root :=
  [{ kind := .method storeInt32, reason := "entry point" }]

abbrev setting (boxed : Ty) : Setting := { program := program boxed }

/-- Either the crate is one for what is stored, or that was forgotten. -/
def Boxable (boxed seen : Ty) : Prop :=
  boxed = crateOf (.param .method 0) ∧ seen = crateOf (.ofWellKnown .int32) ∨
    boxed = .decl crate ∧ seen = .decl crate

section Program

variable {boxed seen : Ty}

/-- To store a number is to box a crate. -/
theorem body?_storeInt32 : (program boxed).body? storeInt32 = some [.box (.known boxed)] := by
  have htypical : storeInt32.typical = store.method := rfl
  simp [program, htypical]

/-- Crates and depots are declared. -/
theorem hasDecl (boxed : Ty) {r : TypeRecord} (hr : r ∈ types) : (program boxed).HasDecl r.decl :=
  ⟨r, Program.mem_types_withTypes.2 (.inr hr), rfl⟩

/-- The boxed crate is a type of the program. -/
theorem hasType_boxed (h : Boxable boxed seen) : (program boxed).HasType boxed := by
  have hcrate : (program boxed).HasDecl crate := hasDecl boxed List.mem_cons_self
  rcases h with ⟨hboxed, -⟩ | ⟨hboxed, -⟩
  · rw [hboxed] at hcrate ⊢
    exact ⟨rfl, hcrate, trivial⟩
  · rw [hboxed] at hcrate ⊢
    exact hcrate

/-- The boxed crate is saturated: its declaration stands with an argument or alone. -/
theorem saturated_boxed (h : Boxable boxed seen) : boxed.Saturated := by
  rcases h with ⟨rfl, -⟩ | ⟨rfl, -⟩
  · exact ⟨.inr rfl, rfl⟩
  · exact .inl rfl

/-- What the program of crates refers to is declared. -/
theorem grounded_program (h : Boxable boxed seen) : (program boxed).Grounded := by
  have hwellKnown := Program.hasDecl_wellKnown_of_withTypes (P := program boxed) types rfl
  have hrecord : ∀ {d : TypeDecl} {w : WellKnown} {methods : List MethodDecl},
      (∀ m ∈ methods, m.signature.result = .ofWellKnown .void ∧ m.signature.parameters = []) →
        (program boxed).HasRecord (.ofMethods d (some (.ofWellKnown w)) methods) := by
    intro d w methods hmethods
    refine ⟨fun b hb => ?_, List.forall_mem_nil _, fun m hm => ?_, List.forall_mem_nil _⟩
    · cases hb
      exact hwellKnown w
    · rw [Program.HasSignature, (hmethods m hm).1, (hmethods m hm).2]
      exact ⟨hwellKnown .void, List.forall_mem_nil _⟩
  refine Program.grounded_of_withTypes types rfl ?_ ?_
  · simp only [types, List.forall_mem_cons]
    exact ⟨hrecord (List.forall_mem_nil _), hrecord (List.forall_mem_singleton.2 ⟨rfl, rfl⟩),
      List.forall_mem_nil _⟩
  · intro m body hbody i hi
    rw [program, Program.body?_setBody, Program.body?_withTypes] at hbody
    split at hbody
    · cases hbody
      rw [List.mem_singleton.1 hi]
      exact hasType_boxed h
    · cases hbody

/-- The declarations of crates and depots fit together. -/
theorem saturated_program (h : Boxable boxed seen) : (program boxed).Saturated := by
  have hcoherent := Program.coherent_of_grounded (grounded_program h) rfl rfl
  refine ⟨Program.applied_of_withTypes types rfl hcoherent ?_, ?_⟩
  · have hrecord : ∀ {d : TypeDecl} {w : WellKnown} {methods : List MethodDecl},
        (∀ m ∈ methods, m.flags.classConstructor = false) →
          (TypeRecord.ofMethods d (some (.ofWellKnown w)) methods).Applied := by
      intro d w methods hmethods
      refine TypeRecord.applied_ofMethods (fun b hb => ?_) hmethods
      cases hb
      exact .ofWellKnown w _
    simp only [types, List.forall_mem_cons]
    exact ⟨hrecord (List.forall_mem_nil _), hrecord (List.forall_mem_singleton.2 rfl),
      List.forall_mem_nil _⟩
  · intro m body hbody i hi
    rw [program, Program.body?_setBody, Program.body?_withTypes] at hbody
    split at hbody
    · cases hbody
      rw [List.mem_singleton.1 hi]
      exact saturated_boxed h
    · cases hbody

/-- The root is about what the program has, and saturated. -/
theorem hasRoot_roots (boxed : Ty) :
    ∀ r ∈ roots, (program boxed).HasRoot r.kind ∧ saturated.HasRoot r.kind := by
  have hdepot : (program boxed).HasDecl depot := hasDecl boxed (.tail _ List.mem_cons_self)
  have hint32 := Program.hasDecl_wellKnown_of_withTypes (P := program boxed) types rfl .int32
  refine List.forall_mem_singleton.2 ⟨⟨?_, hdepot, ?_⟩, .inl rfl, ?_⟩
  · exact ⟨depot, rfl, List.mem_singleton_self _⟩
  · exact List.forall_mem_singleton.2 hint32
  · exact List.forall_mem_singleton.2 (.inl rfl)

/-! Whatever it is seen as is boxed. -/

/-- When a number is stored, a crate for numbers is seen, or the bare declaration. -/
theorem outcome_type_boxed (h : Boxable boxed seen) (shared : Bool) :
    outcome (((setting boxed).importer storeInt32 shared).type (.known boxed)) = .ok seen := by
  rcases h with ⟨rfl, rfl⟩ | ⟨rfl, rfl⟩
  · exact Importer.outcome_type_known _ rfl rfl
  · exact Importer.outcome_type_known _ rfl rfl

/-- Storing a number needs the crate that is seen. -/
theorem expand_storeInt32 (h : Boxable boxed seen) :
    outcome ((setting boxed).expand (.code storeInt32)) =
      .ok { edges := [⟨.constructed seen, "box"⟩] } := by
  have hvalue : seen.isValueType = true := by rcases h with ⟨-, rfl⟩ | ⟨-, rfl⟩ <;> rfl
  have hkept : ((setting boxed).importer storeInt32 true).skipsCanon = false := rfl
  have hbox : outcome (((setting boxed).importer storeInt32 true).instruction 0
      (.box (.known boxed))) = .ok ⟨[⟨.constructed seen, "box"⟩], []⟩ := by
    simp [Importer.instruction, outcome_type_boxed h, hvalue, Importer.edge, hkept]
  exact (setting boxed).outcome_expand_code_singleton rfl rfl body?_storeInt32 hbox

/-- Crates that exist need their type data and nothing else. -/
theorem expand_seen (h : Boxable boxed seen) :
    outcome ((setting boxed).expand (.constructed seen)) =
      .ok { edges := [⟨.typeData seen, "type handle"⟩] } := by
  rcases h with ⟨-, rfl⟩ | ⟨-, rfl⟩ <;> rfl

/-- Crates are values. -/
theorem expand_typeData (h : Boxable boxed seen) :
    outcome ((setting boxed).expand (.typeData seen)) =
      .ok { edges := [⟨.typeData (.ofWellKnown .valueType), "base type"⟩] } := by
  rcases h with ⟨-, rfl⟩ | ⟨-, rfl⟩ <;> rfl

/-- What is needed to store a number. -/
def nodes (seen : Ty) : List Node :=
  [.code storeInt32, .constructed seen, .typeData seen, .typeData (.ofWellKnown .valueType),
    .typeData .object]

/-- Storing a number needs what is listed. -/
theorem selfContained (h : Boxable boxed seen) : (setting boxed).SelfContained (nodes seen) := by
  have hvalue := (setting boxed).outcome_expand_typeData (t := .ofWellKnown .valueType)
    (some .object) rfl rfl rfl
  have hobject := (setting boxed).outcome_expand_typeData (t := .object) none rfl rfl rfl
  refine .of_plain (.cons (expand_storeInt32 h) <| .cons (expand_seen h) <|
    .cons (expand_typeData h) <| .cons hvalue <| .cons hobject .nil) ?_ ?_ <;> simp [nodes]

/-- Storing a number marks the type that is boxed. -/
theorem exists_scan (h : Boxable boxed seen) : ∃ fuel scan,
    outcome ((program boxed).scan fuel {} roots none) = .ok (some scan) ∧
      scan.graph.isMarked (.constructed seen) = true ∧
      ∀ n, scan.graph.isMarked n = true → n ∈ nodes seen := by
  obtain ⟨fuel, g, hg, hroots, hnodes⟩ := (selfContained h).exists_analyze roots
    (.cons ((setting boxed).rootNodes_method rfl rfl) .nil) (by simp [nodes])
  have hseen := (Setting.fixedPoint_of_analyze hg).edge (hroots _ (by simp)) (expand_storeInt32 h) _
    (List.mem_singleton_self _)
  exact ⟨fuel, ⟨g, roots⟩, Program.scan_of_analyze hg, hseen, hnodes⟩

end Program

/-- A number is stored in a crate for numbers. -/
theorem scan_instantiated_iff_crate : ∃ fuel scan,
    outcome ((program (crateOf (.param .method 0))).scan fuel {} roots none) = .ok (some scan) ∧
      (program (crateOf (.param .method 0))).Saturated ∧
      (∀ r ∈ roots, (program (crateOf (.param .method 0))).HasRoot r.kind ∧
        saturated.HasRoot r.kind) ∧
      scan.graph.isMarked (.constructed (crateOf (.ofWellKnown .int32))) = true ∧
      ∀ n, scan.graph.isMarked n = true → n.isOpen = false := by
  have hboxable : Boxable (crateOf (.param .method 0)) (crateOf (.ofWellKnown .int32)) :=
    .inl ⟨rfl, rfl⟩
  obtain ⟨fuel, scan, hscan, hcrate, hnodes⟩ := exists_scan hboxable
  refine ⟨fuel, scan, hscan, saturated_program hboxable, hasRoot_roots _, hcrate, ?_⟩
  apply (Program.scan_instantiated_iff hscan (saturated_program hboxable) (hasRoot_roots _)).2
  intro n I body i offset own hn hbody hi htakes
  -- the only body is that which stores a number, and it boxes a crate for numbers
  have hmem := hnodes n hn
  cases hbody with
  | @code m _ _ hbody =>
    simp only [nodes, List.mem_cons, Node.code.injEq, List.not_mem_nil, or_false, reduceCtorEq]
      at hmem
    subst hmem
    rw [body?_storeInt32] at hbody
    cases hbody
    cases List.mem_singleton.1 (List.fst_mem_of_mem_zipIdx hi)
    cases htakes with
    | box htype hopen =>
      cases htype.symm.trans (outcome_type_boxed hboxable true)
      cases hopen
  | shadow _ => simp [nodes] at hmem

/-- If it was forgotten what the crate is for, then objects of a type are marked that is not
instantiated. -/
theorem exists_scan_marking_open : ∃ fuel scan,
    outcome ((program (.decl crate)).scan fuel {} roots none) = .ok (some scan) ∧
      (program (.decl crate)).Saturated ∧
      (∀ r ∈ roots, (program (.decl crate)).HasRoot r.kind ∧ saturated.HasRoot r.kind) ∧
      scan.graph.isMarked (.constructed (.decl crate)) = true ∧ (Ty.decl crate).isOpen = true := by
  have hboxable : Boxable (.decl crate) (.decl crate) := .inr ⟨rfl, rfl⟩
  obtain ⟨fuel, scan, hscan, hcrate, -⟩ := exists_scan hboxable
  exact ⟨fuel, scan, hscan, saturated_program hboxable, hasRoot_roots _, hcrate, rfl⟩

end Packing

end AheadOfTime
