import AheadOfTime.Scan.Import

/-!
# What a node needs

The edges of each node, and the edges that a slot finds among the types of which objects exist.
-/

set_option autoImplicit false

namespace AheadOfTime

open Marking

namespace Setting

variable (S : Setting)

/-- An override is needed if objects of the type exist and the slot is called through.  Abstract
methods have no code. -/
def overrideEdge (implementation slot : Method) (label : String) :
    Attempt (List (ConditionalEdge Node)) := do
  if implementation.isAbstract then pure []
  else
    let target ← liftM (S.codeNode implementation)
    let condition ← S.slotNode slot
    pure [⟨target, condition, label⟩]

/-- What fills the slots of a class. -/
def slotEdges (t : Ty) : Attempt (List (ConditionalEdge Node)) := do
  let slots ← S.program.slotsOf t
  let edges ← slots.mapM fun slot => do
    let implementation ← S.program.resolve slot t
    S.overrideEdge implementation slot "virtual method override"
  pure edges.flatten

/-- What implements the methods of an interface. -/
def interfaceEdges (t interface : Ty) : Attempt (List (ConditionalEdge Node)) := do
  let methods ← liftM (S.program.methodsOf interface)
  let edges ← methods.mapM fun m => do
    if !m.isVirtual || m.isGenericDefinition then pure []
    else
      match ← S.program.interfaceTarget? m t with
      | some implementation => S.overrideEdge implementation m "interface method implementation"
      | none => pure []
  pure edges.flatten

/-- What a type needs of which objects exist. -/
def expandConstructed (t : Ty) : Attempt (Expansion Node) := do
  S.checkType t
  let element := match t with
    | .array e _ => [⟨.typeData e, "array element"⟩]
    | _ => []
  let constructor ← liftM (S.program.classConstructor? t)
  let statics := if constructor.isSome
    then [⟨.statics t, "class constructor before first instance"⟩] else []
  let edges : List (Edge Node) := ⟨.typeData t, "type handle"⟩ :: (element ++ statics)
  if t.isAbstract then pure { edges }
  else
    let ofSlots ← S.slotEdges t
    let interfaces ← liftM (S.program.allInterfaces t)
    let ofInterfaces ← interfaces.mapM (S.interfaceEdges t)
    pure { edges, conditional := ofSlots ++ ofInterfaces.flatten }

/-- What a type needs that is referred to. -/
def expandTypeData (t : Ty) : Attempt (Expansion Node) := do
  S.checkType t
  let base ← liftM (S.program.baseType t)
  let ofBase := match base with
    | some base => [⟨.typeData base, "base type"⟩]
    | none => []
  let ofPart := match t with
    | .array e _ => [⟨.typeData e, "parameter type"⟩]
    | .pointer e => [⟨.typeData e, "parameter type"⟩]
    | .byRef e => [⟨.typeData e, "parameter type"⟩]
    | _ => []
  pure { edges := ofBase ++ ofPart }

/-- What the code of a method needs, and how its calls and casts are carried out. -/
def importCode (m : Method) : Attempt Imported := do
  S.checkMethod m
  if m.isAbstract then pure {}
  else
    match S.program.body? m with
    | some body => S.importBody m true body
    | none => throw (.bodyNotAvailable m.displayName)

/-- What the code of a method needs. -/
def expandCode (m : Method) : Attempt (Expansion Node) := do
  let imported ← S.importCode m
  pure { edges := imported.edges }

/-- What a method needs that runs on shared code. -/
def expandShadow (m : Method) : Attempt (Expansion Node) := do
  S.checkMethod m
  let owner ← liftM (S.codeOwner m)
  let shared : Edge Node := ⟨.code owner, "shared code"⟩
  match S.program.body? m with
  | some body =>
    let imported ← S.importBody m false body
    pure { edges := shared :: imported.edges }
  | none => pure { edges := [shared] }

/-- What the static fields of a type need. -/
def expandStatics (t : Ty) : Attempt (Expansion Node) := do
  S.checkType t
  let owner : Edge Node := ⟨.typeData t, "owning type"⟩
  match ← liftM (S.program.classConstructor? t) with
  | some constructor =>
    let n ← liftM (S.codeNode constructor)
    pure { edges := [owner, ⟨n, "class constructor"⟩] }
  | none => pure { edges := [owner] }

/-- What reflection needs. -/
def expandReflection : Reflected → Attempt (Expansion Node)
  | .type t => do
    S.checkType t
    let parts : List (Edge Node) :=
      if t.definition = t then []
      else ⟨.reflection (.type t.definition), "generic definition"⟩ ::
        t.args.map fun a => ⟨.reflection (.type a), "generic argument"⟩
    pure { edges := ⟨.typeData t, "reflected type"⟩ :: parts }
  | .method m => do
    S.checkMethod m
    pure { edges := [⟨.reflection (.type m.owner), "declaring type"⟩] }
  | .field f => pure { edges := [⟨.reflection (.type f.ownerType), "declaring type"⟩] }

/-- What a node needs. -/
def expand : Node → Attempt (Expansion Node)
  | .constructed t => S.expandConstructed t
  | .typeData t => S.expandTypeData t
  | .code m => S.expandCode m
  | .shadow m => S.expandShadow m
  | .slot m => do
    S.checkMethod m
    pure {}
  | .statics t => S.expandStatics t
  | .reflection r => S.expandReflection r

/-- The override of a generic virtual method on a type of which objects exist. -/
def genericOverride (m : Method) (t : Ty) : Attempt (List (Edge Node)) := do
  if t.isAbstract then pure []
  else if !(← S.program.derivesUpToCanon t m.owner) then pure []
  else
    let implementation ← S.program.resolve m t
    if implementation.isAbstract then pure []
    else
      let n ← liftM (S.codeNode implementation)
      pure [⟨n, "generic virtual method override"⟩]

/-- The edges that a node finds among others: a generic virtual method has no fixed place in a
table, so that its overrides are looked up for each type of which objects exist. -/
def search : Node → List Node → Attempt (List (Edge Node))
  | .slot m, nodes =>
    if m.args.isEmpty then pure []
    else do
      let edges ← nodes.mapM fun
        | .constructed t => S.genericOverride m t
        | _ => pure []
      pure edges.flatten
  | _, _ => pure []

/-- The nodes of a scan. -/
def system : NodeSystem Node Diagnostic Catalog where
  expand n := (S.expand n).run
  search n nodes := (S.search n nodes).run
  isDeferred := Node.isDeferred
  isDynamic := Node.isDynamic

end Setting

end AheadOfTime
