import AheadOfTime.Program.Basic

/-!
# Declarations in the usual form

A type is usually declared at once with what it extends and implements, and flags come in the
combinations that belong together.
-/

set_option autoImplicit false

namespace AheadOfTime

/-- A type to be declared. -/
structure TypeSketch where
  /-- The name space. -/
  space : String
  /-- The name within the name space. -/
  name : String
  /-- The flags. -/
  flags : TypeFlags := {}
  /-- The number of generic parameters. -/
  arity : Nat := 0
  /-- The base type, if it is not the usual one; there may be none. -/
  base : Option (Option Ty) := none
  /-- The interfaces. -/
  interfaces : List Ty := []

namespace TypeSketch

/-- An interface, which extends nothing. -/
def interface (s : TypeSketch) : TypeSketch :=
  { s with flags := s.flags.join { interface := true, abstract := true }, base := some none }

/-- A value type, which is sealed. -/
def value (s : TypeSketch) : TypeSketch :=
  { s with flags := s.flags.join { valueType := true, sealed := true } }

/-- An abstract type. -/
def abstract (s : TypeSketch) : TypeSketch :=
  { s with flags := s.flags.join { abstract := true } }

/-- A sealed type. -/
def sealed (s : TypeSketch) : TypeSketch :=
  { s with flags := s.flags.join { sealed := true } }

/-- The sketch with a modifier of a given name. -/
def modifier? (s : TypeSketch) : String → Option TypeSketch
  | "interface" => some s.interface
  | "value" => some s.value
  | "abstract" => some s.abstract
  | "sealed" => some s.sealed
  | _ => none

/-- The base type: unless another one was chosen, that of value types or of classes. -/
def baseType (s : TypeSketch) : Option Ty :=
  s.base.getD (some (if s.flags.valueType then .ofWellKnown .valueType else .object))

end TypeSketch

/-- An instance constructor. -/
def MethodFlags.ofConstructor : MethodFlags :=
  { constructor := true }

/-- A class constructor is static. -/
def MethodFlags.ofClassConstructor : MethodFlags :=
  { classConstructor := true, static := true }

/-- A virtual method that overrides nothing. -/
def MethodFlags.ofVirtual : MethodFlags :=
  { virtual := true, newSlot := true }

/-- A virtual method that overrides nothing and has no body. -/
def MethodFlags.ofAbstract : MethodFlags :=
  { virtual := true, newSlot := true, abstract := true }

/-- A virtual method that overrides one of a base type. -/
def MethodFlags.ofOverride : MethodFlags :=
  { virtual := true }

/-- The flags that a modifier of a given name stands for. -/
def MethodFlags.ofModifier? : String → Option MethodFlags
  | "virtual" => some ofVirtual
  | "abstract" => some ofAbstract
  | "override" => some ofOverride
  | "final" => some { final := true }
  | "static" => some { static := true }
  | _ => none

/-- Declares a type with what it extends and implements. -/
def Program.declare (P : Program) (s : TypeSketch) : Except Fault (TypeDecl × Program) := do
  let (d, P) ← P.define s.space s.name s.flags s.arity
  let P ← P.setBase (.decl d) s.baseType
  let P ← P.setInterfaces (.decl d) s.interfaces
  .ok (d, P)

end AheadOfTime
