import AheadOfTime.Ty.Name

/-!
# Fields
-/

set_option autoImplicit false

namespace AheadOfTime

/-- The flags of a field declaration. -/
structure FieldFlags where
  /-- The field belongs to the type rather than to its instances. -/
  static : Bool := false
  /-- The field is a constant. -/
  literal : Bool := false
deriving DecidableEq, Repr

namespace FieldFlags

/-- The flags that one or the other has. -/
def join (a b : FieldFlags) : FieldFlags where
  static := a.static || b.static
  literal := a.literal || b.literal

/-- The flags with their names, in order. -/
def table : List (String × FieldFlags) :=
  [("STATIC", { static := true }), ("LITERAL", { literal := true })]

/-- The flag of a given name. -/
def ofName? (name : String) : Option FieldFlags :=
  table.lookup name

/-- The names of the flags that are set, in order. -/
def names (f : FieldFlags) : List String :=
  (table.filter fun entry => f.join entry.2 = f).map (·.1)

end FieldFlags

/-- A field declaration. -/
structure Field where
  /-- The number of the declaration, in order of declaration. -/
  id : Nat
  /-- The declaring type. -/
  owner : TypeDecl
  /-- The name. -/
  name : String
  /-- The type of the field. -/
  type : Ty
  /-- The flags. -/
  flags : FieldFlags := {}
deriving DecidableEq, Repr

namespace Field

instance : Hashable Field := ⟨fun f => hash f.id⟩

/-- The declaring type. -/
def ownerType (f : Field) : Ty :=
  .decl f.owner

/-- The display name. -/
def displayName (f : Field) : String :=
  f.ownerType.name ++ "::" ++ f.name

end Field

end AheadOfTime
