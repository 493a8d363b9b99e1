/-!
# Type declarations

A declaration fixes what never changes about a named type: its name, its flags and the number of its
generic parameters.  What the type extends and implements is said later, in the program.
-/

set_option autoImplicit false

namespace AheadOfTime

/-- The flags of a type declaration. -/
structure TypeFlags where
  /-- The type is an interface. -/
  interface : Bool := false
  /-- The type has no instances of its own. -/
  abstract : Bool := false
  /-- No type may extend the type. -/
  sealed : Bool := false
  /-- Values of the type are not references. -/
  valueType : Bool := false
deriving DecidableEq, Repr

/-- The flags that one or the other has. -/
def TypeFlags.join (a b : TypeFlags) : TypeFlags where
  interface := a.interface || b.interface
  abstract := a.abstract || b.abstract
  sealed := a.sealed || b.sealed
  valueType := a.valueType || b.valueType

namespace TypeFlags

/-- The flags with their names, in order. -/
def table : List (String × TypeFlags) :=
  [("INTERFACE", { interface := true }), ("ABSTRACT", { abstract := true }),
    ("SEALED", { sealed := true }), ("VALUE_TYPE", { valueType := true })]

/-- The flag of a given name. -/
def ofName? (name : String) : Option TypeFlags :=
  table.lookup name

/-- The names of the flags that are set, in order. -/
def names (f : TypeFlags) : List String :=
  (table.filter fun entry => f.join entry.2 = f).map (·.1)

end TypeFlags

/-- A type declaration. -/
structure TypeDecl where
  /-- The number of the declaration, in order of declaration. -/
  id : Nat
  /-- The name space, possibly empty. -/
  space : String
  /-- The name within the name space. -/
  name : String
  /-- The flags. -/
  flags : TypeFlags := {}
  /-- The number of generic parameters. -/
  arity : Nat := 0
deriving DecidableEq, Repr

instance : Hashable TypeDecl := ⟨fun d => hash d.id⟩

/-- A name within a name space. -/
def qualifiedName (space name : String) : String :=
  if space = "" then name else space ++ "." ++ name

/-- The name with its name space. -/
def TypeDecl.fullName (d : TypeDecl) : String :=
  qualifiedName d.space d.name

/-- The types that every program has. -/
inductive WellKnown where
  | object
  | valueType
  | array
  | string
  | void
  | boolean
  | char
  | sbyte
  | byte
  | int16
  | uint16
  | int32
  | uint32
  | int64
  | uint64
  | intPtr
  | uintPtr
  | single
  | double
deriving DecidableEq, Repr

namespace WellKnown

/-- All of them, in order of declaration. -/
def all : List WellKnown :=
  [object, valueType, array, string, void, boolean, char, sbyte, byte, int16, uint16, int32, uint32,
    int64, uint64, intPtr, uintPtr, single, double]

/-- The name within the name space `System`. -/
def name : WellKnown → String
  | object => "Object"
  | valueType => "ValueType"
  | array => "Array"
  | string => "String"
  | void => "Void"
  | boolean => "Boolean"
  | char => "Char"
  | sbyte => "SByte"
  | byte => "Byte"
  | int16 => "Int16"
  | uint16 => "UInt16"
  | int32 => "Int32"
  | uint32 => "UInt32"
  | int64 => "Int64"
  | uint64 => "UInt64"
  | intPtr => "IntPtr"
  | uintPtr => "UIntPtr"
  | single => "Single"
  | double => "Double"

/-- The flags: the primitive types are sealed value types. -/
def flags : WellKnown → TypeFlags
  | object => {}
  | valueType => { abstract := true }
  | array => { abstract := true }
  | string => { sealed := true }
  | _ => { sealed := true, valueType := true }

/-- The type that it extends. -/
def base? : WellKnown → Option WellKnown
  | object => none
  | valueType => some object
  | array => some object
  | string => some object
  | _ => some valueType

/-- The declaration. -/
def decl (w : WellKnown) : TypeDecl where
  id := all.idxOf w
  space := "System"
  name := w.name
  flags := w.flags

end WellKnown

end AheadOfTime
