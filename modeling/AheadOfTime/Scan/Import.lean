import AheadOfTime.Marking.Basic
import AheadOfTime.Scan.Setting

/-!
# Importing bodies

What the body of a method needs, and how each call and cast in it is carried out.  The arguments
that the method is seen through are filled in first.  Shared code leaves out whatever mentions the
placeholder: each method that runs on it says for itself which exact types it needs.
-/

set_option autoImplicit false

namespace AheadOfTime

open Marking

/-- How a call reaches its target. -/
inductive Dispatch where
  /-- The method is called. -/
  | direct (target : Method)
  /-- The call is virtual, but can only lead to one method. -/
  | devirtualized (target : Method)
  /-- The call goes through a slot. -/
  | throughSlot (slot : Method)
deriving DecidableEq, Repr

/-- Whether a call goes straight to a method. -/
def Dispatch.isDirect : Dispatch → Bool
  | throughSlot _ => false
  | _ => true

/-- The method that is called, or that stands for the slot. -/
def Dispatch.target : Dispatch → Method
  | direct m => m
  | devirtualized m => m
  | throughSlot m => m

/-- How the instruction at an offset is carried out. -/
inductive Site where
  /-- A call of `callee`. -/
  | call (offset : Nat) (callee : Method) (dispatch : Dispatch)
  /-- A cast to `target`; the check is exact if no other type has to be considered. -/
  | cast (offset : Nat) (target : Ty) (exact : Bool)
deriving DecidableEq, Repr

/-- What importing yields. -/
structure Imported where
  /-- What is needed. -/
  edges : List (Edge Node) := []
  /-- How calls and casts are carried out. -/
  sites : List Site := []

namespace Imported

/-- One after the other. -/
def append (a b : Imported) : Imported :=
  ⟨a.edges ++ b.edges, a.sites ++ b.sites⟩

/-- All, one after the other. -/
def concat (l : List Imported) : Imported :=
  ⟨l.flatMap (·.edges), l.flatMap (·.sites)⟩

end Imported

/-- The body that is being imported. -/
structure Importer where
  /-- The setting. -/
  setting : Setting
  /-- The method whose body it is. -/
  method : Method
  /-- Whether the placeholder is left to others. -/
  skipsCanon : Bool

namespace Importer

variable (I : Importer)

/-- One edge, unless it is left to others. -/
def edge (n : Node) (label : String) : List (Edge Node) :=
  if I.skipsCanon && n.hasCanon then [] else [⟨n, label⟩]

/-- An operand that exists. -/
def known {α : Type} : Operand α → Attempt α
  | .known a => pure a
  | .unknown symbol => throw (.unresolvedReference symbol I.method.displayName)

/-- A type operand with the arguments filled in. -/
def type (operand : Operand Ty) : Attempt Ty := do
  let t ← I.known operand
  let t ← t.instantiate I.method.bindings
  if t.hasParams then refuse (.openType I.method t) else pure t

/-- A method operand with the arguments filled in. -/
def calledMethod (operand : Operand Method) : Attempt Method := do
  let m ← I.known operand
  let m ← needMethod (m.subst I.method.bindings)
  if m.isOpen then refuse (.openMethod I.method m) else pure m

/-- The type, seen from the body, that a field belongs to.  A field of a generic type belongs to the
instantiation that the owner of the body is or extends. -/
def fieldOwner? (f : Field) : Tracked (Option Ty) :=
  if !f.ownerType.isOpen then pure (some f.ownerType)
  else I.setting.program.findUp (m := Recorded Catalog) I.method.owner fun t =>
    pure (if t.definition = f.ownerType then some t else none)

/-- The code of a method.  A static method is preceded by its class constructor. -/
def code (m : Method) (label : String) : Tracked (List (Edge Node)) := do
  if m.isAbstract then pure []
  else
    let hasConstructor ← if m.isStatic then
        Option.isSome <$> I.setting.program.classConstructor? m.owner
      else pure false
    let statics :=
      if hasConstructor then I.edge (.statics m.owner) "static method class constructor" else []
    let n ← I.setting.codeNode m
    pure (statics ++ I.edge n label)

/-- A call that is not dispatched. -/
def directCall (offset : Nat) (m : Method) (label : String) : Tracked Imported := do
  let edges ← I.code m label
  pure ⟨edges, [.call offset m (.direct m)]⟩

/-- The only method that a virtual call can lead to, if there is only one: what the method leads to
on a sealed receiver, or the method itself if it is sealed. -/
def onlyTarget? (m : Method) (receiver : Option Ty) : Attempt (Option Method) := do
  let S := I.setting
  let receiver := receiver.getD m.owner
  let sealed ← if receiver.isInterface then pure false else liftM (S.sealing.sealsType receiver)
  let onReceiver ← if sealed then some <$> S.program.resolve m receiver else pure none
  match onReceiver.filter fun target => !target.isAbstract with
  | some target => pure (some target)
  | none =>
    if m.owner.isInterface || m.isAbstract then pure none
    else
      let sealed ← liftM (S.sealing.sealsMethod S.program m)
      pure (if sealed then some m else none)

/-- A call that is dispatched if the method is virtual. -/
def virtualCall (offset : Nat) (m : Method) (receiver : Option Ty) (label : String) :
    Attempt Imported := do
  if !m.isVirtual then I.directCall offset m label
  else
    match ← I.onlyTarget? m receiver with
    | some target =>
      let edges ← liftM (I.code target "devirtualized call")
      pure ⟨edges, [.call offset m (.devirtualized target)]⟩
    | none =>
      let slot ← I.setting.slotFor m
      pure ⟨I.edge (.slot slot) label, [.call offset m (.throughSlot slot)]⟩

/-- A call on a receiver of the constraining type.  A value is boxed, unless its type has the method
itself. -/
def constrainedCall (offset : Nat) (constraint : Ty) (m : Method) : Attempt Imported := do
  if !constraint.isValueType then I.virtualCall offset m constraint "constrained call"
  else
    let target ← I.setting.program.resolve m constraint
    if target.owner = constraint && !target.isAbstract then
      I.directCall offset target "constrained call"
    else
      let rest ← I.virtualCall offset m constraint "constrained call"
      pure (.append ⟨I.edge (.constructed constraint) "box for constrained call", []⟩ rest)

/-- A cast. -/
def cast (offset : Nat) (operand : Operand Ty) (label : String) : Attempt Imported := do
  let t ← I.type operand
  let exact ← liftM (I.setting.sealing.sealsType t)
  pure ⟨I.edge (.typeData t) label, [.cast offset t exact]⟩

/-- A use of an instance field. -/
def instanceField (operand : Operand Field) : Attempt Imported := do
  let f ← I.known operand
  match ← liftM (I.fieldOwner? f) with
  | some owner => pure ⟨I.edge (.typeData owner) "instance field access", []⟩
  | none => pure {}

/-- A use of a static field. -/
def staticField (operand : Operand Field) : Attempt Imported := do
  let f ← I.known operand
  match ← liftM (I.fieldOwner? f) with
  | some owner => pure ⟨I.edge (.statics owner) "static field access", []⟩
  | none => pure {}

/-- A token. -/
def token : Token → Attempt Imported
  | .type operand => do
    let t ← I.type operand
    pure ⟨I.edge (.reflection (.type t)) "ldtoken" ++ I.edge (.typeData t) "ldtoken", []⟩
  | .method operand => do
    let m ← I.calledMethod operand
    pure ⟨I.edge (.reflection (.method m)) "ldtoken" ++ I.edge (.typeData m.owner) "ldtoken", []⟩
  | .field operand => do
    let f ← I.known operand
    let owner ← liftM (I.fieldOwner? f)
    let ofOwner := match owner with
      | some owner => I.edge (.typeData owner) "ldtoken"
      | none => []
    pure ⟨I.edge (.reflection (.field f)) "ldtoken" ++ ofOwner, []⟩

/-- What one instruction needs. -/
def instruction (offset : Nat) (i : Instruction) : Attempt Imported := do
  match i with
  | .call operand => I.directCall offset (← I.calledMethod operand) "call"
  | .ldftn operand => I.directCall offset (← I.calledMethod operand) "ldftn"
  | .callvirt operand receiver =>
    let m ← I.calledMethod operand
    let receiver ← receiver.mapM I.type
    I.virtualCall offset m receiver "callvirt"
  | .ldvirtftn operand => I.virtualCall offset (← I.calledMethod operand) none "ldvirtftn"
  | .constrained constraint operand =>
    let constraint ← I.type constraint
    let m ← I.calledMethod operand
    I.constrainedCall offset constraint m
  | .newobj operand =>
    let constructor ← I.calledMethod operand
    let owner := constructor.owner
    let allocation :=
      if owner.isValueType then I.edge (.typeData owner) "newobj value type"
      else I.edge (.constructed owner) "newobj"
    let call ← liftM (I.directCall offset constructor "constructor")
    pure (.append ⟨allocation, []⟩ call)
  | .newarr operand =>
    let element ← I.type operand
    let array ← needType (.array element none)
    pure ⟨I.edge (.constructed array) "newarr", []⟩
  | .box operand =>
    let t ← I.type operand
    pure ⟨if t.isValueType then I.edge (.constructed t) "box"
      else I.edge (.typeData t) "box reference type", []⟩
  | .unboxAny operand => I.cast offset operand i.mnemonic
  | .castclass operand => I.cast offset operand i.mnemonic
  | .isinst operand => I.cast offset operand i.mnemonic
  | .ldtoken t => I.token t
  | .ldfld operand => I.instanceField operand
  | .ldflda operand => I.instanceField operand
  | .stfld operand => I.instanceField operand
  | .ldsfld operand => I.staticField operand
  | .ldsflda operand => I.staticField operand
  | .stsfld operand => I.staticField operand
  | _ => pure {}

/-- What a body needs, instruction by instruction. -/
def body (body : Body) : Attempt (List Imported) :=
  body.zipIdx.mapM fun (i, offset) => I.instruction offset i

end Importer

/-- What the body of a method needs.  If the body is that of shared code, the placeholder is left to
the methods that run on it. -/
def Setting.importBody (S : Setting) (m : Method) (shared : Bool) (body : Body) :
    Attempt Imported := do
  let I : Importer := { setting := S, method := m, skipsCanon := shared && m.hasCanon }
  Imported.concat <$> I.body body

end AheadOfTime
