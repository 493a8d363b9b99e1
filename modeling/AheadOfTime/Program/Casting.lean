import AheadOfTime.Program.Hierarchy

/-!
# Casting

Which types a reference may be seen as.
-/

set_option autoImplicit false

namespace AheadOfTime.Program

/-- Whether a type is `base` or extends it. -/
def isSubclassOf (P : Program) (t base : Ty) : Tracked Bool := do
  let found ← P.findUp (m := Recorded Catalog) t fun current =>
    pure (if current = base then some () else none)
  pure found.isSome

/-- Whether a type is an interface or implements it. -/
def implements (P : Program) (t interface : Ty) : Tracked Bool := do
  if t = interface then pure true
  else
    let all ← P.allInterfaces t
    pure (all.contains interface)

/-- Whether a type is `target`, extends it or implements it. -/
def extendsOrImplements (P : Program) (t target : Ty) : Tracked Bool := do
  if t = target then pure true
  else if ← P.isSubclassOf t target then pure true
  else if target.isInterface then P.implements t target
  else pure false

/-- Whether every reference of type `source` is one of type `target`.  Besides what it extends and
implements, an array of references is also an array of what its elements can be cast to. -/
def canCast (P : Program) (source target : Ty) : Tracked Bool := do
  if ← P.extendsOrImplements source target then pure true
  else
    match source, target with
    | .array e r, .array f s => if r = s && e.isReference then P.canCast e f else pure false
    | _, _ => pure false

/-- Whether a type extends or implements one with the same canonical form as `target`. -/
def derivesUpToCanon (P : Program) (t target : Ty) : Tracked Bool := do
  let target ← target.canonicalForm
  let matching (current : Ty) : Tracked Bool := do
    let canonical ← current.canonicalForm
    pure (canonical == target)
  if target.isInterface then
    let all ← P.allInterfaces t
    all.anyM matching
  else
    let found ← P.findUp (m := Recorded Catalog) t fun current => do
      pure (if ← matching current then some () else none)
    pure found.isSome

end AheadOfTime.Program
