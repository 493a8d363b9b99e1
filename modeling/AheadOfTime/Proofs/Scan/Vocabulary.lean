import AheadOfTime.Proofs.Program.Vocabulary
import AheadOfTime.Proofs.Scan.Graph

/-!
# What a scan speaks of

In a scan a vocabulary also says which fields may be spoken of, whose code may be needed and which
slots may be called through; for code and slots that may be said more freely than for methods, since
they are about what is shared.  If neither substitution nor declarations nor bodies lead out of a
vocabulary, then a scan that starts within it stays within it.

Shared code leaves out what mentions the placeholder.  Code in a vocabulary is therefore the code of
a method in it, or shared code all of whose edges are in it because they do not mention the
placeholder.
-/

set_option autoImplicit false

namespace AheadOfTime

open Marking

/-- What a scan may speak of. -/
structure NodeVocabulary extends Vocabulary where
  /-- The types of which objects may exist. -/
  object : Ty → Prop
  field : Field → Prop
  code : Method → Prop
  /-- The methods that may run on shared code. -/
  shadow : Method → Prop
  slot : Method → Prop

/-! ## Edges that lead to certain nodes -/

/-- Every edge leads to a node with a given property. -/
def LeadTo (N : Node → Prop) (edges : List (Edge Node)) : Prop :=
  ∀ e ∈ edges, N e.target

/-- Every edge of an expansion, under a condition or not, leads to a node with a given property. -/
def ExpandsTo (N : Node → Prop) (x : Expansion Node) : Prop :=
  LeadTo N x.edges ∧ ∀ e ∈ x.conditional, N e.target

namespace LeadTo

variable {N : Node → Prop} {edges : List (Edge Node)}

/-- Where there are no edges, none leads astray. -/
theorem nil : LeadTo N [] := by
  intro e he
  cases he

/-- One more edge may be put first if its target has the property. -/
theorem cons {n : Node} (hn : N n) (label : String) (h : LeadTo N edges) :
    LeadTo N (⟨n, label⟩ :: edges) := by
  intro e he
  rcases List.mem_cons.1 he with rfl | he
  · exact hn
  · exact h e he

/-- A single edge leads to its target. -/
theorem singleton {n : Node} (hn : N n) (label : String) : LeadTo N [⟨n, label⟩] :=
  .cons hn label .nil

/-- Joined edges lead where the two parts do. -/
theorem append {a b : List (Edge Node)} (ha : LeadTo N a) (hb : LeadTo N b) :
    LeadTo N (a ++ b) := by
  intro e he
  rcases List.mem_append.1 he with he | he
  · exact ha e he
  · exact hb e he

/-- Without conditional edges, an expansion leads where its edges do. -/
theorem expansion (h : LeadTo N edges) : ExpandsTo N { edges } :=
  ⟨h, fun e he => by cases he⟩

end LeadTo

/-! ## Code and slots -/

namespace Vocabulary

variable {V : Vocabulary} {S : Setting} {m : Method}

/-- Code is that of a method that may be spoken of, if canonical forms may. -/
theorem codeOwner (hcanonical : ∀ {m : Method}, V.method m → V.method m.canonical)
    (hm : V.method m) : V.method (S.codeOwner m).value := by
  unfold Setting.codeOwner
  split
  · rw [Method.value_canonicalForm]
    exact hcanonical hm
  · exact hm

/-- Slots are methods that may be spoken of, if canonical forms may. -/
theorem Covers.slotFor (hV : V.Covers S.program)
    (hcanonical : ∀ {m : Method}, V.method m → V.method m.canonical) (hm : V.method m) :
    Yields V.method (S.slotFor m) := by
  refine .bind (hV.answers.slotOf hm) fun slot hslot => .ite (.pure hslot) (.ite (.lift ?_) ?_)
  · rw [Method.value_canonicalForm]
    exact hcanonical hslot
  · refine .bind (p := V.method) (.lift ?_) fun definition hdefinition => ?_
    · rw [Method.value_canonicalForm]
      exact hcanonical (hV.definition hslot)
    · cases happly : definition.apply slot.args with
      | error fault => exact .refuse
      | ok applied =>
        refine .lift ?_
        rw [value_needMethod]
        unfold Method.apply at happly
        split at happly
        · cases happly
        · cases happly
          exact hV.replaceArgs hdefinition hslot

end Vocabulary

namespace NodeVocabulary

/-- The nodes about what may be spoken of. -/
def HasNode (V : NodeVocabulary) : Node → Prop
  | .constructed t => V.object t
  | .typeData t | .statics t => V.type t
  | .code m => V.code m
  | .shadow m => V.shadow m
  | .slot m => V.slot m
  | .reflection (.type t) => V.type t
  | .reflection (.method m) => V.method m
  | .reflection (.field f) => V.field f

/-- The roots about what may be spoken of. -/
def HasRoot (V : NodeVocabulary) : RootKind → Prop
  | .method m | .reflectedMethod m => V.method m
  | .constructed t => V.object t
  | .reflectedType t => V.type t

/-- The instructions whose operands may be spoken of. -/
def HasInstruction (V : NodeVocabulary) : Instruction → Prop
  | .call m | .newobj m | .ldftn m | .ldvirtftn m => m.All V.method
  | .callvirt m receiver => m.All V.method ∧ ∀ t ∈ receiver, t.All V.type
  | .constrained t m => t.All V.type ∧ m.All V.method
  | .newarr t | .box t | .unboxAny t | .castclass t | .isinst t => t.All V.type
  | .ldtoken (.type t) => t.All V.type
  | .ldtoken (.method m) => m.All V.method
  | .ldtoken (.field f) => f.All V.field
  | .ldfld f | .ldflda f | .stfld f | .ldsfld f | .ldsflda f | .stsfld f => f.All V.field
  | _ => True

/-- Nothing that nodes without a body need leads out of a vocabulary. -/
structure Spans (V : NodeVocabulary) (S : Setting) : Prop
    extends V.toVocabulary.Covers S.program where
  element : ∀ {t : Ty} {r : Option Nat}, V.type (.array t r) → V.type t
  pointerTarget : ∀ {t : Ty}, V.type (.pointer t) → V.type t
  byRefTarget : ∀ {t : Ty}, V.type (.byRef t) → V.type t
  typeDefinition : ∀ {t : Ty}, V.type t → V.type t.definition
  fieldOwner : ∀ {f : Field}, V.field f → V.type f.ownerType
  ownCode : ∀ {m : Method}, V.method m → V.code m
  ownShadow : ∀ {m : Method}, V.method m → (S.codeOwner m).value ≠ m → V.shadow m
  slotFor : ∀ {m : Method}, V.method m → Yields V.slot (S.slotFor m)

/-- Nothing that a node needs by itself leads out of a vocabulary. -/
structure Covers (V : NodeVocabulary) (S : Setting) : Prop extends V.Spans S where
  objectType : ∀ {t : Ty}, V.object t → V.type t
  typeObject : ∀ {t : Ty}, V.type t → V.object t
  arrayOf : ∀ {t : Ty}, V.type t → V.type (.array t none)
  bodies : ∀ {m : Method} {body : Body}, S.program.body? m = some body →
    ∀ i ∈ body, V.HasInstruction i
  shadowMethod : ∀ {m : Method}, V.shadow m → V.method m
  sharedCode : ∀ {m : Method}, V.method m → V.code (S.codeOwner m).value
  importable : ∀ {m : Method}, V.code m →
    V.method m ∨ m.hasCanon = true ∧ ∀ n : Node, n.hasCanon = false → V.HasNode n

/-- The node for the code of a method is one of the vocabulary. -/
theorem Spans.codeNode {V : NodeVocabulary} {S : Setting} (hV : V.Spans S) {m : Method}
    (hm : V.method m) : V.HasNode (S.codeNode m).value := by
  rw [Setting.codeNode, Recorded.value_bind, Recorded.value_pure]
  by_cases howner : (S.codeOwner m).value = m
  · rw [if_pos howner]
    exact hV.ownCode hm
  · rw [if_neg howner]
    exact hV.ownShadow hm howner

end NodeVocabulary

/-! ## What bodies need -/

namespace Importer

/-- An instruction makes objects of a type. -/
inductive Allocates (I : Importer) : Instruction → Ty → Prop
  | newobj {operand : Operand Method} {m : Method} : outcome (I.calledMethod operand) = .ok m →
      m.owner.isValueType = false → Allocates I (.newobj operand) m.owner
  | newarr {operand : Operand Ty} {t : Ty} : outcome (I.type operand) = .ok t →
      Allocates I (.newarr operand) (.array t none)
  | box {operand : Operand Ty} {t : Ty} : outcome (I.type operand) = .ok t →
      t.isValueType = true → Allocates I (.box operand) t
  /-- A value is boxed for a call if its type does not have the method itself. -/
  | constrained {constraint : Operand Ty} {operand : Operand Method} {t : Ty} {m target : Method} :
      outcome (I.type constraint) = .ok t → outcome (I.calledMethod operand) = .ok m →
      t.isValueType = true → outcome (I.setting.program.resolve m t) = .ok target →
      ¬ (target.owner = t ∧ target.isAbstract = false) →
      Allocates I (.constrained constraint operand) t

variable {I : Importer} {V : NodeVocabulary} {N : Node → Prop}

/-- The nodes of a vocabulary that are not left to others have a given property. -/
def Admits (I : Importer) (V : NodeVocabulary) (N : Node → Prop) : Prop :=
  ∀ n, V.HasNode n → (I.skipsCanon && n.hasCanon) = false → N n

/-- The edge to a node of the vocabulary is left to others or leads to an admitted node. -/
theorem Admits.edge (hN : I.Admits V N) {n : Node} (hn : V.HasNode n) (label : String) :
    LeadTo N (I.edge n label) := by
  unfold Importer.edge
  split
  · exact .nil
  · next hkept => exact .singleton (hN n hn (Bool.not_eq_true _ ▸ hkept)) label

/-- What is imported leads to nodes with a given property. -/
def ImportsTo (N : Node → Prop) (q : Attempt Imported) : Prop :=
  Yields (fun imported => LeadTo N imported.edges) q

/-- A body leads where its instructions do. -/
theorem importsTo_importBody {S : Setting} {m : Method} {shared : Bool} {body : Body}
    (h : ∀ p ∈ body.zipIdx, ImportsTo N ((S.importer m shared).instruction p.2 p.1)) :
    ImportsTo N (S.importBody m shared body) := by
  refine .map (.mapM (r := fun own : Imported => LeadTo N own.edges) h) fun l hl e he => ?_
  obtain ⟨imported, himported, he⟩ := List.mem_flatMap.1 he
  exact hl imported himported e he

/-- What code needs is what its body needs. -/
theorem expandsTo_code {S : Setting} {m : Method} (h : ∀ {body : Body},
      S.HasBody (.code m) (S.importer m true) body → ImportsTo N (S.importBody m true body)) :
    Yields (ExpandsTo N) (S.expand (.code m)) := by
  refine .bind (p := fun imported => LeadTo N imported.edges) (.after fun _ => ?_)
    fun imported himported => .pure himported.expansion
  split
  · exact .pure .nil
  · next hcode =>
    split
    · next body hbody => exact h (.code (Bool.eq_false_iff.2 hcode) hbody)
    · exact .throw

/-- What a method needs that runs on shared code is this code and what its own body needs. -/
theorem expandsTo_shadow {S : Setting} {m : Method} (howner : N (.code (S.codeOwner m).value))
    (h : ∀ {body : Body}, S.HasBody (.shadow m) (S.importer m false) body →
      ImportsTo N (S.importBody m false body)) : Yields (ExpandsTo N) (S.expand (.shadow m)) := by
  refine .after fun _ => .bind (p := fun owner => N (.code owner)) (.lift howner)
    fun owner howner => ?_
  dsimp only
  split
  · next body hbody =>
    refine .bind (h (.shadow hbody)) fun imported himported => .pure ?_
    exact (himported.cons howner _).expansion
  · exact .pure (LeadTo.singleton howner _).expansion

/-- An instruction that needs one node of the vocabulary leads to admitted nodes. -/
theorem Admits.imported (hN : I.Admits V N) {n : Node} (hn : V.HasNode n) (label : String)
    (sites : List Site) : ImportsTo N (pure ⟨I.edge n label, sites⟩) :=
  .pure (hN.edge hn label)

section Code

variable (hN : I.Admits V N) (hV : V.Spans I.setting)
include hN hV

/-- Needing the code of a method leads to admitted nodes. -/
theorem leadTo_code {m : Method} (hm : V.method m) (label : String) :
    LeadTo N (I.code m label).value := by
  have hcode := hN.edge (hV.codeNode hm) label
  unfold code
  split
  · exact .nil
  · dsimp only
    split
    · simp only [Recorded.value_bind, Recorded.value_pure]
      refine .append ?_ hcode
      split
      · exact hN.edge (n := .statics m.owner) (hV.owner hm) _
      · exact .nil
    · exact hcode

/-- A direct call leads to admitted nodes. -/
theorem importsTo_directCall {m : Method} (hm : V.method m) (offset : Nat) (label : String) :
    ImportsTo N (liftM (I.directCall offset m label)) := by
  refine .lift ?_
  unfold directCall
  rw [Recorded.value_bind, Recorded.value_pure]
  exact leadTo_code hN hV hm label

end Code

/-! ### Operands -/

/-- An operand that is known is what may be spoken of. -/
theorem yields_known {α : Type} {p : α → Prop} {operand : Operand α} (h : operand.All p) :
    Yields p (I.known operand) := by
  cases operand with
  | known a => exact .pure h
  | unknown symbol => exact .throw

section Operands

variable (hV : V.Spans I.setting) (hI : V.method I.method)
include hV hI

/-- A type operand stands for a type that may be spoken of, also where it is instantiated. -/
theorem yields_type {operand : Operand Ty} (h : operand.All V.type) :
    Yields V.type (I.type operand) := by
  refine .bind (yields_known h) fun t ht => .bind (.lift ?_) fun t' ht' => .ite .refuse (.pure ht')
  rw [Ty.value_instantiate]
  exact hV.subst ht (hV.methodBindings hI)

/-- A method operand stands for a method that may be spoken of, also where it is instantiated. -/
theorem yields_calledMethod {operand : Operand Method} (h : operand.All V.method) :
    Yields V.method (I.calledMethod operand) := by
  refine .bind (yields_known h) fun m hm => .bind (.lift ?_) fun m' hm' => .ite .refuse (.pure hm')
  rw [value_needMethod]
  exact hV.methodSubst hm (hV.methodBindings hI)

/-- The known type of a receiver may be spoken of. -/
theorem yields_receiver {receiver : Option (Operand Ty)} (h : ∀ t ∈ receiver, t.All V.type) :
    Yields (fun r => ∀ t ∈ r, V.type t) (receiver.mapM I.type) := by
  cases receiver with
  | none =>
    refine .pure fun t ht => ?_
    cases ht
  | some operand =>
    refine .map (yields_type hV hI (h operand rfl)) fun t ht u hu => ?_
    cases hu
    exact ht

/-- The owner of a field may be spoken of, if an access to the field needs it. -/
theorem yields_fieldOwner? {f : Field} (hf : V.field f) :
    Yields (fun owner => ∀ t ∈ owner, V.type t) (liftM (I.fieldOwner? f)) := by
  refine .lift fun t ht => ?_
  unfold fieldOwner? at ht
  split at ht
  · cases ht
    exact hV.fieldOwner hf
  · rw [Program.value_findUp] at ht
    obtain ⟨u, hu, hfound⟩ := List.exists_of_findSome?_eq_some ht
    rw [Recorded.value_pure] at hfound
    split at hfound
    · cases hfound
      exact hV.answers.chain (hV.owner hI) hu
    · cases hfound

end Operands

variable (hN : I.Admits V N) (hV : V.Spans I.setting)

/-! ### Calls -/

section Calls

include hV

/-- The only target of a call may be spoken of. -/
theorem yields_onlyTarget? {m : Method} (hm : V.method m) {receiver : Option Ty}
    (hr : ∀ t ∈ receiver, V.type t) :
    Yields (fun target => ∀ m' ∈ target, V.method m') (I.onlyTarget? m receiver) := by
  intro target htarget m' hm'
  cases hm'
  rcases I.onlyTarget?_eq_some htarget with ⟨-, hresolve, -⟩ | ⟨rfl, -⟩
  · refine hV.answers.resolve hm ?_ m' hresolve
    cases receiver with
    | none => exact hV.owner hm
    | some t => exact hr t rfl
  · exact hm

include hN

/-- A virtual call leads to admitted nodes. -/
theorem importsTo_virtualCall {m : Method} (hm : V.method m) {receiver : Option Ty}
    (hr : ∀ t ∈ receiver, V.type t) (offset : Nat) (label : String) :
    ImportsTo N (I.virtualCall offset m receiver label) := by
  refine .ite (importsTo_directCall hN hV hm offset label)
    (.bind (yields_onlyTarget? hV hm hr) fun target htarget => ?_)
  cases target with
  | some target =>
    exact .bind (.lift (leadTo_code hN hV (htarget target rfl) _)) fun _ h => .pure h
  | none =>
    exact .bind (hV.slotFor hm) fun slot hslot => hN.imported (n := .slot slot) hslot label _

/-- A call on a constrained receiver leads to admitted nodes, if objects that it boxes are
admitted. -/
theorem importsTo_constrainedCall {m : Method} (hm : V.method m) {constraint : Ty}
    (hc : V.type constraint) (hboxed : (constraint.isValueType = true ∧ ∃ target,
        outcome (I.setting.program.resolve m constraint) = .ok target ∧
          ¬ (target.owner = constraint ∧ target.isAbstract = false)) →
      LeadTo N (I.edge (.constructed constraint) "box for constrained call")) (offset : Nat) :
    ImportsTo N (I.constrainedCall offset constraint m) := by
  have hcall : ImportsTo N (I.virtualCall offset m constraint "constrained call") := by
    refine importsTo_virtualCall hN hV hm (fun t ht => ?_) offset _
    cases ht
    exact hc
  unfold constrainedCall
  split
  · exact hcall
  · next hvalue =>
    refine .bind (hV.answers.resolve hm hc).eq_ok fun target htarget => ?_
    split
    · exact importsTo_directCall hN hV htarget.1 offset _
    · next hnot =>
      refine .bind hcall fun rest hrest => .pure (LeadTo.append (hboxed ?_) hrest)
      exact ⟨by simpa using hvalue, target, htarget.2, by simpa using hnot⟩

end Calls

/-! ### Casts, fields and tokens -/

variable (hI : V.method I.method)
include hN hV hI

/-- A cast leads to admitted nodes. -/
theorem importsTo_cast {operand : Operand Ty} (h : operand.All V.type) (offset : Nat)
    (label : String) : ImportsTo N (I.cast offset operand label) :=
  .bind (yields_type hV hI h) fun t ht => .after fun _ =>
    hN.imported (n := .typeData t) ht label _

/-- An access to an instance field leads to admitted nodes. -/
theorem importsTo_instanceField {operand : Operand Field} (h : operand.All V.field) :
    ImportsTo N (I.instanceField operand) := by
  refine .bind (yields_known h) fun f hf => ?_
  refine .bind (yields_fieldOwner? hV hI hf) fun owner howner => ?_
  cases owner with
  | some owner => exact hN.imported (n := .typeData owner) (howner owner rfl) _ _
  | none => exact .pure .nil

/-- An access to a static field leads to admitted nodes. -/
theorem importsTo_staticField {operand : Operand Field} (h : operand.All V.field) :
    ImportsTo N (I.staticField operand) := by
  refine .bind (yields_known h) fun f hf => ?_
  refine .bind (yields_fieldOwner? hV hI hf) fun owner howner => ?_
  cases owner with
  | some owner => exact hN.imported (n := .statics owner) (howner owner rfl) _ _
  | none => exact .pure .nil

/-- A token leads to admitted nodes. -/
theorem importsTo_token {t : Token} (h : V.HasInstruction (.ldtoken t)) :
    ImportsTo N (I.token t) := by
  cases t with
  | type operand =>
    refine .bind (yields_type hV hI h) fun t ht => .pure ?_
    exact (hN.edge (n := .reflection (.type t)) ht _).append (hN.edge (n := .typeData t) ht _)
  | method operand =>
    refine .bind (yields_calledMethod hV hI h) fun m hm => .pure ?_
    exact (hN.edge (n := .reflection (.method m)) hm _).append
      (hN.edge (n := .typeData m.owner) (hV.owner hm) _)
  | field operand =>
    refine .bind (yields_known h) fun f hf => ?_
    refine .bind (yields_fieldOwner? hV hI hf) fun owner howner => .pure ?_
    refine (hN.edge (n := .reflection (.field f)) hf _).append ?_
    cases owner with
    | some owner => exact hN.edge (n := .typeData owner) (howner owner rfl) _
    | none => exact .nil

/-! ### Instructions -/

/-- An instruction leads to admitted nodes, if the objects that it makes are admitted. -/
theorem importsTo_instruction (offset : Nat) {i : Instruction} (h : V.HasInstruction i)
    (hobjects : ∀ {t : Ty}, I.Allocates i t → ∀ label, LeadTo N (I.edge (.constructed t) label)) :
    ImportsTo N (I.instruction offset i) := by
  cases i with
  | call operand =>
    exact .bind (yields_calledMethod hV hI h) fun m hm => importsTo_directCall hN hV hm offset _
  | ldftn operand =>
    exact .bind (yields_calledMethod hV hI h) fun m hm => importsTo_directCall hN hV hm offset _
  | callvirt operand receiver =>
    refine .bind (yields_calledMethod hV hI h.1) fun m hm => ?_
    exact .bind (yields_receiver hV hI h.2) fun r hr => importsTo_virtualCall hN hV hm hr offset _
  | ldvirtftn operand =>
    refine .bind (yields_calledMethod hV hI h) fun m hm => ?_
    exact importsTo_virtualCall hN hV hm (fun t ht => by cases ht) offset _
  | constrained constraint operand =>
    refine .bind (yields_type hV hI h.1).eq_ok fun c hc => ?_
    refine .bind (yields_calledMethod hV hI h.2).eq_ok fun m hm => ?_
    refine importsTo_constrainedCall hN hV hm.1 hc.1 ?_ offset
    rintro ⟨hvalue, target, htarget, hnot⟩
    exact hobjects (.constrained hc.2 hm.2 hvalue htarget hnot) _
  | newobj operand =>
    refine .bind (yields_calledMethod hV hI h).eq_ok fun m hm => ?_
    refine .bind (importsTo_directCall hN hV hm.1 offset _) fun call hcall =>
      .pure (.append ?_ hcall)
    dsimp only
    split
    · exact hN.edge (n := .typeData m.owner) (hV.owner hm.1) _
    · next hvalue => exact hobjects (.newobj hm.2 (Bool.eq_false_iff.2 hvalue)) _
  | newarr operand =>
    refine .bind (yields_type hV hI h).eq_ok fun t ht => ?_
    exact .bind (p := fun array => array = .array t none) (.lift (value_needType _))
      fun array harray => .pure (harray ▸ hobjects (.newarr ht.2) _)
  | box operand =>
    refine .bind (yields_type hV hI h).eq_ok fun t ht => .pure ?_
    dsimp only
    split
    · next hvalue => exact hobjects (.box ht.2 hvalue) _
    · exact hN.edge (n := .typeData t) ht.1 _
  | unboxAny operand => exact importsTo_cast hN hV hI h offset _
  | castclass operand => exact importsTo_cast hN hV hI h offset _
  | isinst operand => exact importsTo_cast hN hV hI h offset _
  | ldtoken t => exact importsTo_token hN hV hI h
  | ldfld operand => exact importsTo_instanceField hN hV hI h
  | ldflda operand => exact importsTo_instanceField hN hV hI h
  | stfld operand => exact importsTo_instanceField hN hV hI h
  | ldsfld operand => exact importsTo_staticField hN hV hI h
  | ldsflda operand => exact importsTo_staticField hN hV hI h
  | stsfld operand => exact importsTo_staticField hN hV hI h
  | _ => exact .pure .nil

omit hN in
/-- Objects are made of types that may be spoken of. -/
theorem Allocates.type {i : Instruction} {t : Ty} (halloc : I.Allocates i t)
    (harray : ∀ {t : Ty}, V.type t → V.type (.array t none)) (h : V.HasInstruction i) :
    V.type t := by
  cases halloc with
  | newobj hm _ => exact hV.owner (yields_calledMethod hV hI h _ hm)
  | newarr ht => exact harray (yields_type hV hI h _ ht)
  | box ht _ => exact yields_type hV hI h _ ht
  | constrained ht _ _ _ _ => exact yields_type hV hI h.1 _ ht

end Importer

namespace NodeVocabulary

/-- Nothing is left out. -/
def all : NodeVocabulary where
  type _ := True
  method _ := True
  object _ := True
  field _ := True
  code _ := True
  shadow _ := True
  slot _ := True

/-- Every instruction is about something. -/
theorem all_hasInstruction (i : Instruction) : all.HasInstruction i := by
  have hall : ∀ {α : Type} (o : Operand α), o.All fun _ => True := by
    intro α o
    cases o <;> trivial
  cases i with
  | callvirt m receiver => exact ⟨hall m, fun t _ => hall t⟩
  | constrained t m => exact ⟨hall t, hall m⟩
  | ldtoken t => cases t <;> exact hall _
  | _ => first | trivial | exact hall _

/-- Where everything may be spoken of, nothing leads out, whatever there may be objects of. -/
theorem all_spans (S : Setting) (object : Ty → Prop) : { all with object }.Spans S := by
  constructor
  case toCovers => constructor <;> intros <;> trivial
  case slotFor => exact fun _ _ _ => trivial
  all_goals intros; trivial

/-- Where nothing is left out, nothing leads out. -/
theorem all_covers (S : Setting) : all.Covers S := by
  constructor
  case toSpans => exact all_spans S _
  case bodies => exact fun _ i _ => all_hasInstruction i
  case importable => exact fun _ => .inl trivial
  all_goals intros; trivial

end NodeVocabulary

/-! ## What nodes without a body need -/

namespace Setting

variable {S : Setting} {N : Node → Prop}

/-- What a slot leads to under a condition is the code of the implementation. -/
theorem yields_overrideEdge {implementation : Method} (h : N (S.codeNode implementation).value)
    (slot : Method) (label : String) :
    Yields (fun edges => ∀ e ∈ edges, N e.target) (S.overrideEdge implementation slot label) := by
  refine .ite (.pure fun e he => by cases he) ?_
  refine .bind (.lift h) fun target htarget => .after fun condition => .pure ?_
  intro e he
  rw [List.mem_singleton.1 he]
  exact htarget

/-- A type of which objects exist leads to its data, its statics, its elements and to what fills its
slots and implements its interfaces. -/
theorem expandsTo_constructed {t : Ty} (htype : N (.typeData t)) (hstatics : N (.statics t))
    (helement : ∀ {e : Ty} {r : Option Nat}, t = .array e r → N (.typeData e))
    (hslots : Yields (fun edges => ∀ e ∈ edges, N e.target) (S.slotEdges t))
    (hinterfaces : ∀ i ∈ (S.program.allInterfaces t).value,
      Yields (fun edges => ∀ e ∈ edges, N e.target) (S.interfaceEdges t i)) :
    Yields (ExpandsTo N) (S.expandConstructed t) := by
  refine .after fun _ => .after fun constructor => ?_
  have hrest : ∀ edges : List (Edge Node), LeadTo N edges →
      Yields (ExpandsTo N) (if t.isAbstract then pure { edges } else do
        let ofSlots ← S.slotEdges t
        let interfaces ← liftM (S.program.allInterfaces t)
        let ofInterfaces ← interfaces.mapM (S.interfaceEdges t)
        pure { edges, conditional := ofSlots ++ ofInterfaces.flatten }) := by
    intro edges hedges
    refine .ite (.pure hedges.expansion) (.bind hslots fun ofSlots hslots => ?_)
    refine .bind (p := fun interfaces => interfaces = (S.program.allInterfaces t).value)
      (.lift rfl) fun interfaces hall => ?_
    refine .bind (.mapM fun i hi => hinterfaces i (hall ▸ hi))
      fun ofInterfaces hof => .pure ⟨hedges, fun e he => ?_⟩
    rcases List.mem_append.1 he with he | he
    · exact hslots e he
    · obtain ⟨edges, hedges, he⟩ := List.mem_flatten.1 he
      exact hof edges hedges e he
  refine hrest _ (.cons htype _ (.append ?_ ?_))
  · split
    · exact .singleton (helement rfl) _
    · exact .nil
  · split
    · exact .singleton hstatics _
    · exact .nil

/-- The statics of a type lead to its data and to its class constructor. -/
theorem expandsTo_statics {t : Ty} (htype : N (.typeData t))
    (hcode : ∀ {m : Method}, (S.program.classConstructor? t).value = some m →
      N (S.codeNode m).value) : Yields (ExpandsTo N) (S.expandStatics t) := by
  refine .after fun _ => ?_
  refine .bind (p := fun constructor => ∀ m ∈ constructor, N (S.codeNode m).value)
    (.lift fun m hm => hcode hm) fun constructor hconstructor => ?_
  cases constructor with
  | some constructor =>
    refine .bind (.lift (hconstructor constructor rfl)) fun n hn => .pure ?_
    exact ((LeadTo.singleton hn _).cons htype _).expansion
  | none => exact .pure (LeadTo.singleton htype _).expansion

end Setting

namespace NodeVocabulary

namespace Spans

variable {V : NodeVocabulary} {S : Setting} (hV : V.Spans S)
include hV

/-- What fills the slots of a type is about what may be spoken of. -/
theorem slotEdges {t : Ty} (ht : V.type t) :
    Yields (fun edges => ∀ e ∈ edges, V.HasNode e.target) (S.slotEdges t) := by
  refine .bind (hV.answers.slotsOf ht) fun slots hslots => .mapM_flatten fun slot hslot => ?_
  exact .bind (hV.answers.resolve (hslots slot hslot) ht) fun _ hi =>
    S.yields_overrideEdge (hV.codeNode hi) slot _

/-- What implements an interface on a type is about what may be spoken of. -/
theorem interfaceEdges {t i : Ty} (ht : V.type t) (hi : V.type i) :
    Yields (fun edges => ∀ e ∈ edges, V.HasNode e.target) (S.interfaceEdges t i) := by
  refine .bind (p := fun methods => ∀ m ∈ methods, V.method m) (.lift ?_)
    fun methods hmethods => .mapM_flatten fun m hm => .ite (.pure fun e he => by cases he) ?_
  · rw [Program.value_methodsOf]
    exact hV.methods hi
  · refine .bind (hV.answers.interfaceTarget? (hmethods m hm) ht) fun target htarget => ?_
    cases target with
    | some target => exact S.yields_overrideEdge (hV.codeNode (htarget target rfl)) m _
    | none => exact .pure fun e he => by cases he

/-- A type of which objects exist leads to nodes of the vocabulary. -/
theorem expandConstructed {t : Ty} (ht : V.type t) :
    Yields (ExpandsTo V.HasNode) (S.expandConstructed t) := by
  refine S.expandsTo_constructed (N := V.HasNode) ht ht (fun harray => ?_) (hV.slotEdges ht)
    fun i hi => hV.interfaceEdges ht (hV.answers.allInterfaces ht i hi)
  exact hV.element (harray ▸ ht)

/-- The data of a type leads to nodes of the vocabulary. -/
theorem expandTypeData {t : Ty} (ht : V.type t) :
    Yields (ExpandsTo V.HasNode) (S.expandTypeData t) := by
  refine .after fun _ => ?_
  refine .bind (p := fun base => ∀ b ∈ base, V.type b)
    (.lift fun b hb => hV.baseType ht hb) fun base hbase => .pure (LeadTo.expansion ?_)
  refine .append ?_ ?_
  · cases base with
    | some base => exact .singleton (n := .typeData base) (hbase base rfl) _
    | none => exact .nil
  · cases t with
    | array e r => exact .singleton (n := .typeData e) (hV.element ht) _
    | pointer e => exact .singleton (n := .typeData e) (hV.pointerTarget ht) _
    | byRef e => exact .singleton (n := .typeData e) (hV.byRefTarget ht) _
    | _ => exact .nil

/-- The statics of a type lead to nodes of the vocabulary. -/
theorem expandStatics {t : Ty} (ht : V.type t) :
    Yields (ExpandsTo V.HasNode) (S.expandStatics t) :=
  S.expandsTo_statics (N := V.HasNode) ht fun hm =>
    hV.codeNode (hV.answers.classConstructor? ht hm)

/-- What is reflected on leads to nodes of the vocabulary. -/
theorem expandReflection {r : Reflected} (hr : V.HasNode (.reflection r)) :
    Yields (ExpandsTo V.HasNode) (S.expandReflection r) := by
  cases r with
  | type t =>
    refine .after fun _ => .pure (LeadTo.cons (n := .typeData t) hr _ ?_).expansion
    split
    · exact .nil
    · refine .cons (n := .reflection (.type t.definition)) (hV.typeDefinition hr) _ ?_
      intro e he
      obtain ⟨a, ha, rfl⟩ := List.mem_map.1 he
      exact hV.typeArgs hr a ha
  | method m =>
    refine .after fun _ => .pure ?_
    exact (LeadTo.singleton (n := .reflection (.type m.owner)) (hV.owner hr) _).expansion
  | field f =>
    refine .pure (LeadTo.singleton (n := .reflection (.type f.ownerType)) ?_ _).expansion
    exact hV.fieldOwner hr

/-- The override of a generic method is a node of the vocabulary. -/
theorem genericOverride {m : Method} (hm : V.method m) {t : Ty} (ht : V.type t) :
    Yields (LeadTo V.HasNode) (S.genericOverride m t) := by
  refine .ite (.pure .nil) (.after fun derives => .ite (.pure .nil) ?_)
  refine .bind (hV.answers.resolve hm ht) fun target htarget => .ite (.pure .nil) ?_
  exact .bind (.lift (hV.codeNode htarget)) fun n hn => .pure (.singleton hn _)

end Spans

/-- A search never leads to types of which objects exist. -/
theorem ne_constructed_of_search {S : Setting} {n k : Node} {found : List (Edge Node)} {e : Edge Node}
    (hfound : outcome (S.search n [k]) = .ok found) (he : e ∈ found) (c : Ty) :
    e.target ≠ .constructed c := by
  intro hc
  obtain ⟨m, t, -, -, -, hoverride⟩ := S.exists_of_search_singleton hfound he
  have hnode := (all_spans S fun _ => False).genericOverride trivial trivial found hoverride e he
  rw [hc] at hnode
  exact hnode

/-! ## What nodes need -/

namespace Covers

variable {V : NodeVocabulary} {S : Setting} (hV : V.Covers S)

/-- Imported bodies lead to nodes with a given property if all nodes of a vocabulary that are not
left to others have it. -/
theorem importBody_admits {N : Node → Prop} (hV : V.Covers S) {m : Method} (hm : V.method m)
    {shared : Bool} (hN : (S.importer m shared).Admits V N) {body : Body}
    (hbody : S.program.body? m = some body) :
    Importer.ImportsTo N (S.importBody m shared body) := by
  refine Importer.importsTo_importBody fun p hp => ?_
  have hi := hV.bodies hbody p.1 (List.fst_mem_of_mem_zipIdx hp)
  refine Importer.importsTo_instruction hN hV.toSpans hm p.2 hi fun halloc label => ?_
  have ht := Importer.Allocates.type hV.toSpans hm halloc hV.arrayOf hi
  exact hN.edge (n := .constructed _) (hV.typeObject ht) label

include hV

/-- The body of a method leads to nodes of the vocabulary. -/
theorem importBody {m : Method} (hm : V.method m) (shared : Bool) {body : Body}
    (hbody : S.program.body? m = some body) :
    Importer.ImportsTo V.HasNode (S.importBody m shared body) :=
  hV.importBody_admits hm (fun _ hn _ => hn) hbody

/-- In shared code only what does not mention the placeholder counts. -/
theorem importSharedBody {m : Method} (hm : V.code m) {body : Body}
    (hbody : S.program.body? m = some body) :
    Importer.ImportsTo V.HasNode (S.importBody m true body) := by
  rcases hV.importable hm with hm | ⟨hcanon, hnodes⟩
  · exact hV.importBody hm true hbody
  · refine (all_covers S).importBody_admits trivial (fun n _ hkept => hnodes n ?_) hbody
    have hskips : (S.importer m true).skipsCanon = true := hcanon
    simpa [hskips] using hkept

/-- The code of a method leads to nodes of the vocabulary. -/
theorem expandCode {m : Method} (hm : V.code m) :
    Yields (ExpandsTo V.HasNode) (S.expand (.code m)) := by
  refine Importer.expandsTo_code fun hhas => ?_
  cases hhas with
  | code _ hbody => exact hV.importSharedBody hm hbody

/-- A method that runs on shared code leads to nodes of the vocabulary. -/
theorem expandShadow {m : Method} (hm : V.shadow m) :
    Yields (ExpandsTo V.HasNode) (S.expand (.shadow m)) := by
  have hmethod := hV.shadowMethod hm
  refine Importer.expandsTo_shadow (hV.sharedCode hmethod) fun hhas => ?_
  cases hhas with
  | shadow hbody => exact hV.importBody hmethod false hbody

/-- Every node of the vocabulary leads to nodes of the vocabulary. -/
theorem expand {n : Node} (hn : V.HasNode n) : Yields (ExpandsTo V.HasNode) (S.expand n) := by
  cases n with
  | constructed t => exact hV.expandConstructed (hV.objectType hn)
  | typeData t => exact hV.expandTypeData hn
  | code m => exact hV.expandCode hn
  | shadow m => exact hV.expandShadow hn
  | slot m => exact .after fun _ => .pure LeadTo.nil.expansion
  | statics t => exact hV.expandStatics hn
  | reflection r => exact hV.expandReflection hn

/-- Roots of the vocabulary start at nodes of the vocabulary. -/
theorem rootNodes {k : RootKind} (hk : V.HasRoot k) :
    Yields (fun nodes => ∀ n ∈ nodes, V.HasNode n) (S.rootNodes k) := by
  cases k with
  | method m =>
    refine .ite .refuse (.bind (.lift (hV.codeNode hk)) fun n hn => .pure ?_)
    exact List.forall_mem_singleton.2 hn
  | constructed t => exact .ite .refuse (.pure (List.forall_mem_singleton.2 hk))
  | reflectedType t =>
    refine .pure (List.forall_mem_cons.2 ⟨hk, ?_⟩)
    split
    · exact List.forall_mem_singleton.2 (hV.typeObject hk)
    · exact List.forall_mem_nil _
  | reflectedMethod m =>
    refine .ite (.bind (.lift (hV.codeNode hk)) fun n hn => .pure ?_) (.pure ?_)
    · exact List.forall_mem_cons.2 ⟨hk, List.forall_mem_singleton.2 hn⟩
    · exact List.forall_mem_singleton.2 hk

/-- Each node that the roots start at is one of the vocabulary. -/
theorem rootNode {roots : List Root} (hroots : ∀ r ∈ roots, V.HasRoot r.kind) {n : Node}
    (hn : S.RootNode roots n) : V.HasNode n := by
  obtain ⟨r, hr, nodes, hnodes, hn⟩ := hn
  exact hV.rootNodes (hroots r hr) nodes hnodes n hn

/-- Within closed nodes nothing leads out of a vocabulary if the overrides of generic virtual methods
do not. -/
theorem closed {C : Node → Prop} (hC : S.system.Closed C)
    (hslot : ∀ {m : Method} {t : Ty}, C (.slot m) → V.slot m → C (.constructed t) → V.object t →
      m.args ≠ [] → Yields (LeadTo V.HasNode) (S.genericOverride m t)) :
    S.system.Closed fun n => C n ∧ V.HasNode n := by
  refine S.nodeByNode_system.closed ?_ ?_ ?_
  · intro n x hn hx e he
    exact ⟨hC.edge hn.1 hx e he, (hV.expand hn.2 _ hx).1 e he⟩
  · intro n x hn hx e he hcondition
    exact ⟨hC.conditional hn.1 hx e he hcondition.1, (hV.expand hn.2 _ hx).2 e he⟩
  · intro n k x found hn hx hd hk hfound e he
    refine ⟨hC.dynamic hn.1 hx hd (by simpa using hk.1) hfound e he, ?_⟩
    obtain ⟨m, t, rfl, rfl, hargs, hoverride⟩ := S.exists_of_search_singleton hfound he
    exact hslot hn.1 hn.2 hk.1 hk.2 hargs found hoverride e he

end Covers

end NodeVocabulary

/-- A marking that starts within a vocabulary stays within it if the overrides of generic virtual
methods do. -/
theorem Setting.FixedPoint.hasNode {S : Setting} {roots : List Root} {g : NodeGraph}
    (hg : S.FixedPoint roots g) {V : NodeVocabulary} (hV : V.Covers S)
    (hroots : ∀ r ∈ roots, V.HasRoot r.kind)
    (hslot : ∀ {m : Method} {t : Ty}, g.isMarked (.slot m) = true → V.slot m →
      g.isMarked (.constructed t) = true → V.object t → m.args ≠ [] →
      Yields (LeadTo V.HasNode) (S.genericOverride m t))
    {n : Node} (hn : g.isMarked n = true) : V.HasNode n :=
  (hg.least (hV.closed hg.closed hslot) (fun _ h => ⟨hg.root h, hV.rootNode hroots h⟩) hn).2

/-! ## Vocabularies over an alphabet -/

namespace Alphabet

variable (A : Alphabet) (E : Method → Prop) (F : Field → Prop)

/-- What is made of what an alphabet has; code and slots are treated like other methods. -/
def nodeVocabulary : NodeVocabulary where
  toVocabulary := A.vocabulary E
  object := (A.vocabulary E).type
  field := F
  code := (A.vocabulary E).method
  shadow := (A.vocabulary E).method
  slot := (A.vocabulary E).method

variable {A E F} {S : Setting}

/-- If an alphabet has what a program declares and what its bodies mention, nothing leads out of its
nodes. -/
theorem Describes.covers_nodeVocabulary (h : A.Describes E S.program) (hcanon : A.canon)
    (hrank : A.rank none) (hE : ∀ m, E m → E m.canonical) (hF : ∀ f, F f → A.decl f.owner)
    (hbodies : ∀ {m : Method} {body : Body}, S.program.body? m = some body →
      ∀ i ∈ body, (A.nodeVocabulary E F).HasInstruction i) : (A.nodeVocabulary E F).Covers S where
  toCovers := h.covers
  objectType ht := ht
  typeObject ht := ht
  arrayOf ht := ⟨hrank, ht⟩
  element ht := ht.2
  pointerTarget ht := ht
  byRefTarget ht := ht
  typeDefinition := Ty.Over.definition
  fieldOwner := hF _
  bodies := hbodies
  ownCode hm := hm
  ownShadow hm _ := hm
  shadowMethod hm := hm
  sharedCode := Vocabulary.codeOwner (canonical hcanon hE)
  slotFor := h.covers.slotFor (canonical hcanon hE)
  importable := .inl

end Alphabet

end AheadOfTime
