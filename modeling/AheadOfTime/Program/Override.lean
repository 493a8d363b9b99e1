import AheadOfTime.Program.Hierarchy

/-!
# The overrides of types

The settled overrides of a type.  An instantiation has the overrides of its definition, seen through
its arguments.
-/

set_option autoImplicit false

namespace AheadOfTime

/-- An override, seen through the arguments of an instantiation, which needs the methods. -/
def Override.needThrough (args : List Ty) (o : Override) : Tracked Override := do
  let decl ← needMethod (o.decl.subst { ofType := args })
  let body ← needMethod (o.body.subst { ofType := args })
  pure ⟨decl, body⟩

namespace Program

/-- Overrides of a definition, seen through the arguments of an instantiation. -/
def instantiateOverrides (args : List Ty) (l : List Override) : Tracked (List Override) :=
  if args.isEmpty then pure l else l.mapM (Override.needThrough args)

/-- The settled overrides of a type.  Asking for them closes them. -/
def overridesOf (P : Program) (t : Ty) : Attempt (List Override) := do
  match t.decl? with
  | some d =>
    needOverrides d
    match (P.record d).overrides.settled with
    | .ok settled => instantiateOverrides t.args settled
    | .error fault => refuse fault
  | none => pure []

/-- The settled overrides of methods with a given name.  As long as the overrides of the type are
not closed, only those with that name have to agree with each other. -/
def overridesNamed (P : Program) (isClosed : TypeDecl → Bool) (t : Ty) (name : String) :
    Attempt (List Override) :=
  match t.decl? with
  | some d =>
    let overrides := (P.record d).overrides
    let matching (l : List Override) := l.filter (·.decl.name == name)
    let settled := if isClosed d then overrides.settled.map matching
      else Override.settle (matching overrides.declared)
    match settled with
    | .ok settled => instantiateOverrides t.args settled
    | .error fault => refuse fault
  | none => pure []

end Program

end AheadOfTime
