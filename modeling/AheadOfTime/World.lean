import AheadOfTime.Catalog
import AheadOfTime.Declaration
import AheadOfTime.Formation
import AheadOfTime.Program.Override

/-!
# Worlds

A world is a program with the catalog of the types and methods that were needed so far.
Declarations extend the program; questions extend the catalog.
-/

set_option autoImplicit false

namespace AheadOfTime

/-- A program with its catalog. -/
structure World where
  /-- The program. -/
  program : Program := .initial
  /-- The types and methods needed so far. -/
  catalog : Catalog := .initial

namespace World

/-- Answers a question, and enters what it needed. -/
def ask {α : Type} (w : World) (q : Tracked α) : α × World :=
  match w with
  | ⟨program, catalog⟩ =>
    match q.run catalog with
    | (a, catalog) => (a, ⟨program, catalog⟩)

/-- Tries to answer a question, and enters what that needed, also if there is no answer. -/
def attempt {α : Type} (w : World) (q : Attempt α) : Except Diagnostic α × World :=
  w.ask q.run

/-- The number of a type. -/
def typeNumber (w : World) (t : Ty) : Nat × World :=
  let (_, catalog) := w.catalog.addType t
  ((catalog.types.position? t).getD 0, { w with catalog })

/-- The number of a method. -/
def methodNumber (w : World) (m : Method) : Nat × World :=
  let (_, catalog) := w.catalog.addMethod m
  ((catalog.methods.position? m).getD 0, { w with catalog })

/-- A declared type enters the catalog. -/
def withType (w : World) (d : TypeDecl) (P : Program) : Ty × World :=
  (.decl d, { program := P, catalog := (w.catalog.addType (.decl d)).2 })

/-- Declares a type of which only the flags are known. -/
def define (w : World) (space name : String) (flags : TypeFlags) (arity : Nat) :
    Except Fault (Ty × World) := do
  let (d, P) ← w.program.define space name flags arity
  .ok (w.withType d P)

/-- Declares a type with what it extends and implements. -/
def declare (w : World) (s : TypeSketch) : Except Fault (Ty × World) := do
  let (d, P) ← w.program.declare s
  .ok (w.withType d P)

/-- Gives the base type of a declared type. -/
def setBase (w : World) (t : Ty) (base : Option Ty) : Except Fault World := do
  .ok { w with program := ← w.program.setBase t base }

/-- Gives the interfaces of a declared type. -/
def setInterfaces (w : World) (t : Ty) (interfaces : List Ty) : Except Fault World := do
  .ok { w with program := ← w.program.setInterfaces t interfaces }

/-- Declares a method. -/
def addMethod (w : World) (owner : Ty) (name : String) (signature : Signature)
    (flags : MethodFlags) : Except Fault (Method × World) := do
  let (d, P) ← w.program.addMethod owner name signature flags
  .ok (d.method, { program := P, catalog := (w.catalog.addMethod d.method).2 })

/-- Declares a field. -/
def addField (w : World) (owner : Ty) (name : String) (type : Ty) (flags : FieldFlags) :
    Except Fault (Field × World) := do
  let (f, P) ← w.program.addField owner name type flags
  .ok (f, { w with program := P })

/-- Declares an explicit override. -/
def addOverride (w : World) (owner : Ty) (decl body : Method) : Except Fault World := do
  .ok { w with program := ← w.program.addOverride w.catalog.isClosed owner decl body }

/-- Gives a method a body. -/
def setBody (w : World) (m : Method) (body : Body) : World :=
  { w with program := w.program.setBody m body }

/-- The settled overrides of methods with a given name. -/
def overridesNamed (w : World) (t : Ty) (name : String) : Attempt (List Override) :=
  w.program.overridesNamed w.catalog.isClosed t name

end World

end AheadOfTime
