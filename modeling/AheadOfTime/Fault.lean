import AheadOfTime.Diagnostic
import AheadOfTime.Method.Basic

/-!
# Faults of requests

What can be wrong with a request about types and methods, and how it is reported.
-/

set_option autoImplicit false

namespace AheadOfTime

/-- What is wrong with a request. -/
inductive Fault where
  /-- A type of that name exists. -/
  | alreadyDefined (name : String)
  /-- A declared type was expected. -/
  | notDeclared (t : Ty)
  /-- The base type was given before. -/
  | baseAlreadySet (t : Ty)
  /-- The interfaces were given before. -/
  | interfacesAlreadySet (t : Ty)
  /-- An abstract method has to be virtual. -/
  | abstractNotVirtual (owner : TypeDecl) (method : String)
  /-- The overrides of the type have been used already. -/
  | overridesClosed (owner : TypeDecl)
  /-- Only virtual methods override each other. -/
  | overrideNotVirtual (owner : TypeDecl) (decl body : Method)
  /-- The number of type arguments is wrong. -/
  | wrongTypeArgs (decl : TypeDecl) (given : Nat)
  /-- No array has that many dimensions. -/
  | invalidRank (rank : Nat)
  /-- A method as declared was expected. -/
  | notTypical (m : Method)
  /-- The type is no instantiation of the method's owner. -/
  | notInstantiationOf (t owner : Ty)
  /-- The number of method arguments is wrong. -/
  | wrongMethodArgs (m : Method) (given : Nat)
  /-- A body refers to a type that has generic parameters left. -/
  | openType (referrer : Method) (t : Ty)
  /-- A body refers to a method that has generic parameters left. -/
  | openMethod (referrer m : Method)
  /-- A root method has generic parameters left. -/
  | openRoot (m : Method)
  /-- No instance of the root type can be allocated. -/
  | unallocatableRoot (t : Ty)
  /-- Two methods of different types override the same one. -/
  | conflictingOverrides (decl first second : Method)
deriving DecidableEq, Repr

namespace Fault

/-- The text between single quotes. -/
def quoted (text : String) : String :=
  "'" ++ text ++ "'"

/-- The text that reports a fault. -/
def text : Fault → String
  | alreadyDefined name => "type " ++ quoted name ++ " is already defined"
  | notDeclared t => quoted t.name ++ " is not a defined type"
  | baseAlreadySet t => "base type of " ++ quoted t.name ++ " already set"
  | interfacesAlreadySet t => "interfaces of " ++ quoted t.name ++ " already set"
  | abstractNotVirtual owner method =>
    "abstract method " ++ quoted (owner.fullName ++ "::" ++ method) ++ " must be virtual"
  | overridesClosed owner =>
    "method impls of " ++ quoted owner.fullName ++ " were already computed"
  | overrideNotVirtual owner decl body =>
    "method impl " ++ decl.displayName ++ " -> " ++ body.displayName ++ " on " ++
      quoted owner.fullName ++ " requires virtual methods"
  | wrongTypeArgs decl given =>
    quoted decl.fullName ++ " expects " ++ Nat.repr decl.arity ++ " type arguments, got " ++
      Nat.repr given
  | invalidRank rank => "invalid array rank " ++ Nat.repr rank
  | notTypical m => quoted m.displayName ++ " is not a method definition"
  | notInstantiationOf t owner =>
    quoted t.name ++ " is not an instantiation of " ++ quoted owner.name
  | wrongMethodArgs m given =>
    quoted m.displayName ++ " expects " ++ Nat.repr m.signature.arity ++
      " method type arguments, got " ++ Nat.repr given
  | openType referrer t =>
    quoted referrer.displayName ++ " references " ++ quoted t.name ++
      " which is not fully instantiated"
  | openMethod referrer m =>
    quoted referrer.displayName ++ " references " ++ quoted m.displayName ++
      " which is not fully instantiated"
  | openRoot m => "method root " ++ quoted m.displayName ++ " is not fully instantiated"
  | unallocatableRoot t => "type root " ++ quoted t.name ++ " cannot be allocated"
  | conflictingOverrides decl first second =>
    "conflicting overrides of " ++ decl.displayName ++ ": " ++ first.displayName ++ " and " ++
      second.displayName

/-- The diagnostic that reports a fault: a contradiction between declarations is a failure to load
the type, everything else a malformed request. -/
def report (f : Fault) : Diagnostic :=
  match f with
  | conflictingOverrides _ _ _ => .typeLoad none f.text
  | _ => .typeError f.text

end Fault

end AheadOfTime
