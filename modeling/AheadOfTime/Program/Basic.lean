import AheadOfTime.Formation
import AheadOfTime.Instruction
import AheadOfTime.Override
import AheadOfTime.Roster

/-!
# Programs

A program says what every declared type extends and implements, which methods and fields it has and
which methods it overrides explicitly; and it holds the bodies of methods.

Declarations may contradict each other so badly that following them never ends, for instance when a
type is its own base type.  Whoever follows declarations therefore takes at most `walkLimit` steps.
-/

set_option autoImplicit false

namespace AheadOfTime

/-- What a program says about a declared type. -/
structure TypeRecord where
  /-- The declaration. -/
  decl : TypeDecl
  /-- The base type, once it is given; there may be none. -/
  base : Option (Option Ty) := none
  /-- The interfaces, once they are given. -/
  interfaces : Option (List Ty) := none
  /-- The methods, in order of declaration. -/
  methods : List MethodDecl := []
  /-- The fields, in order of declaration. -/
  fields : List Field := []
  /-- The explicit overrides. -/
  overrides : OverrideList := {}

/-- A program. -/
structure Program where
  /-- The declared types, in order of declaration. -/
  types : Array TypeRecord
  /-- The names of the declared types, in order of declaration. -/
  names : Roster String
  /-- The number of declared methods. -/
  methodCount : Nat := 0
  /-- The number of declared fields. -/
  fieldCount : Nat := 0
  /-- The bodies. -/
  bodies : Std.HashMap Method Body := ∅
  /-- How many steps are taken along declarations. -/
  walkLimit : Nat := 1000000000

namespace Program

/-- The program that declares nothing but the well-known types. -/
def initial : Program where
  types := (WellKnown.all.map fun w =>
    { decl := w.decl, base := some (w.base?.map Ty.ofWellKnown), interfaces := some [] }).toArray
  names := Roster.empty.insertAll (WellKnown.all.map (·.decl.fullName))

/-- What a program says about a declaration. -/
def record (P : Program) (d : TypeDecl) : TypeRecord :=
  P.types[d.id]?.getD { decl := d }

/-- Changes what a program says about a declaration. -/
def modifyRecord (P : Program) (d : TypeDecl) (f : TypeRecord → TypeRecord) : Program :=
  { P with types := P.types.modify d.id f }

/-- The declared type of a given name. -/
def lookup? (P : Program) (fullName : String) : Option TypeDecl :=
  ((P.names.position? fullName).bind (P.types[·]?)).map (·.decl)

/-- Declares a type.  Interfaces are abstract. -/
def define (P : Program) (space name : String) (flags : TypeFlags) (arity : Nat) :
    Except Fault (TypeDecl × Program) :=
  let fullName := qualifiedName space name
  if (P.lookup? fullName).isSome then .error (.alreadyDefined fullName)
  else
    let flags := { flags with abstract := flags.abstract || flags.interface }
    let d : TypeDecl := { id := P.types.size, space, name, flags, arity }
    .ok (d, { P with types := P.types.push { decl := d }, names := P.names.insert fullName })

/-- Gives the base type of a declared type, which can be done once. -/
def setBase (P : Program) (t : Ty) (base : Option Ty) : Except Fault Program := do
  let d ← t.declared
  if (P.record d).base.isSome then .error (.baseAlreadySet t)
  else .ok (P.modifyRecord d fun r => { r with base := some base })

/-- Gives the interfaces of a declared type, which can be done once. -/
def setInterfaces (P : Program) (t : Ty) (interfaces : List Ty) : Except Fault Program := do
  let d ← t.declared
  if (P.record d).interfaces.isSome then .error (.interfacesAlreadySet t)
  else .ok (P.modifyRecord d fun r => { r with interfaces := some interfaces })

/-- Declares a method. -/
def addMethod (P : Program) (owner : Ty) (name : String) (signature : Signature)
    (flags : MethodFlags) : Except Fault (MethodDecl × Program) := do
  let d ← owner.declared
  if flags.abstract && !flags.virtual then .error (.abstractNotVirtual d name)
  else
    let m : MethodDecl := { id := P.methodCount, owner := d, name, signature, flags }
    let P := P.modifyRecord d fun r => { r with methods := r.methods ++ [m] }
    .ok (m, { P with methodCount := P.methodCount + 1 })

/-- Declares a field. -/
def addField (P : Program) (owner : Ty) (name : String) (type : Ty) (flags : FieldFlags) :
    Except Fault (Field × Program) := do
  let d ← owner.declared
  let f : Field := { id := P.fieldCount, owner := d, name, type, flags }
  let P := P.modifyRecord d fun r => { r with fields := r.fields ++ [f] }
  .ok (f, { P with fieldCount := P.fieldCount + 1 })

/-- Declares an explicit override on a type whose overrides are not closed. -/
def addOverride (P : Program) (isClosed : TypeDecl → Bool) (owner : Ty) (decl body : Method) :
    Except Fault Program := do
  let d ← owner.declared
  if isClosed d then .error (.overridesClosed d)
  else if !decl.isVirtual || !body.isVirtual then .error (.overrideNotVirtual d decl body)
  else .ok (P.modifyRecord d fun r => { r with overrides := r.overrides.push ⟨decl, body⟩ })

/-- Gives a method a body, in place of any that it had. -/
def setBody (P : Program) (m : Method) (body : Body) : Program :=
  { P with bodies := P.bodies.insert m body }

/-- The body that a method runs: that of the method as declared. -/
def body? (P : Program) (m : Method) : Option Body :=
  P.bodies[m.typical]?

end Program

end AheadOfTime
