import AheadOfTime.Fault

/-!
# Forming types and methods

The parts of a type or a method that are given by a request have to fit together.
-/

set_option autoImplicit false

namespace AheadOfTime

/-- The declaration of a type that is not instantiated. -/
def Ty.declared (t : Ty) : Except Fault TypeDecl :=
  match t.definition? with
  | some d => .ok d
  | none => .error (.notDeclared t)

/-- A generic type applied to as many arguments as it has parameters. -/
def Ty.apply (t : Ty) (args : List Ty) : Except Fault Ty := do
  let d ← t.declared
  if d.arity = 0 || d.arity ≠ args.length then .error (.wrongTypeArgs d args.length)
  else .ok (.named d args)

/-- The highest number of dimensions of an array. -/
def Ty.maxRank : Nat := 32

/-- An array with a number of dimensions. -/
def Ty.arrayOfRank (element : Ty) (rank : Nat) : Except Fault Ty :=
  if 1 ≤ rank && rank ≤ Ty.maxRank then .ok (.array element (some rank))
  else .error (.invalidRank rank)

/-- A method as declared, seen through an instantiation of its owner. -/
def Method.on (m : Method) (owner : Ty) : Except Fault Method :=
  if !m.isTypical then .error (.notTypical m)
  else if owner.definition ≠ m.owner then .error (.notInstantiationOf owner m.owner)
  else .ok ⟨m.decl, owner, []⟩

/-- A generic method applied to as many arguments as it has parameters. -/
def Method.apply (m : Method) (args : List Ty) : Except Fault Method :=
  if !m.isGenericDefinition || m.signature.arity ≠ args.length then
    .error (.wrongMethodArgs m args.length)
  else .ok { m with args }

end AheadOfTime
