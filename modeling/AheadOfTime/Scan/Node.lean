import AheadOfTime.Field
import AheadOfTime.Method.Basic

/-!
# What a program may need

The nodes of the graph that a scan marks: types, code, slots and data that the compiled program may
need.
-/

set_option autoImplicit false

namespace AheadOfTime

/-- Something that can be reflected on. -/
inductive Reflected where
  /-- A type. -/
  | type (t : Ty)
  /-- A method. -/
  | method (m : Method)
  /-- A field. -/
  | field (f : Field)
deriving DecidableEq, Repr, Hashable

/-- Something that the compiled program may need. -/
inductive Node where
  /-- Objects of the type exist. -/
  | constructed (t : Ty)
  /-- The type is referred to. -/
  | typeData (t : Ty)
  /-- The code of the method, which is the one that others share it with. -/
  | code (m : Method)
  /-- A method that runs on shared code, with the exact types that it needs. -/
  | shadow (m : Method)
  /-- The method introduces a slot that is called through. -/
  | slot (m : Method)
  /-- The static fields of the type. -/
  | statics (t : Ty)
  /-- The data for reflection. -/
  | reflection (r : Reflected)
deriving DecidableEq, Repr, Hashable

/-- The display name of something that can be reflected on. -/
def Reflected.name : Reflected → String
  | type t => t.name
  | method m => m.displayName
  | field f => f.displayName

namespace Node

/-- The kinds of nodes. -/
inductive Kind where
  | constructed
  | typeData
  | code
  | shadow
  | slot
  | statics
  | reflection
deriving DecidableEq, Repr

/-- All kinds, in the order in which they are counted. -/
def Kind.all : List Kind :=
  [constructed, typeData, code, shadow, slot, statics, reflection]

/-- The name of a kind. -/
def Kind.name : Kind → String
  | constructed => "ConstructedType"
  | typeData => "TypeMetadata"
  | code => "MethodCode"
  | shadow => "ShadowConcreteMethod"
  | slot => "VTableSlot"
  | statics => "StaticBase"
  | reflection => "Metadata"

/-- The kind of a node. -/
def kind : Node → Kind
  | constructed _ => .constructed
  | typeData _ => .typeData
  | code _ => .code
  | shadow _ => .shadow
  | slot _ => .slot
  | statics _ => .statics
  | reflection _ => .reflection

/-- The display name of what a node is about. -/
def subject : Node → String
  | constructed t => t.name
  | typeData t => t.name
  | code m => m.displayName
  | shadow m => m.displayName
  | slot m => m.displayName
  | statics t => t.name
  | reflection r => r.name

/-- A description of a node. -/
def describe (n : Node) : String :=
  n.kind.name ++ "(" ++ n.subject ++ ")"

/-- Whether a node is about the placeholder rather than about exact types.  A slot is compared in
canonical form anyway; only the arguments of a generic virtual method count. -/
def hasCanon : Node → Bool
  | constructed t => t.hasCanon
  | typeData t => t.hasCanon
  | code m => m.hasCanon
  | shadow m => m.hasCanon
  | slot m => m.args.any Ty.hasCanon
  | statics t => t.hasCanon
  | reflection (.type t) => t.hasCanon
  | reflection (.method m) => m.hasCanon
  | reflection (.field _) => false

/-- Code is looked at only when nothing else is left to do. -/
def isDeferred : Node → Bool
  | code _ => true
  | shadow _ => true
  | _ => false

/-- Slots are shown the types of which objects exist. -/
def isDynamic : Node → Bool
  | slot _ => true
  | _ => false

end Node

end AheadOfTime
