import AheadOfTime.Program.Casting
import AheadOfTime.Program.Dispatch

/-!
# Sealing

A type is sealed if an object seen as that type is of exactly that type, and a method is sealed if a
call on its owner always ends up at it.  This can be read off the declarations, or it follows from
knowing all types of which objects exist.  In the second case types are compared by their canonical
forms, except for arrays: all arrays of references have the same canonical form.
-/

set_option autoImplicit false

namespace AheadOfTime

/-- The types of which objects exist. -/
structure Constructed where
  /-- The types, in order. -/
  types : List Ty := []
  /-- The types as they are compared. -/
  keys : Roster Ty := .empty
  /-- The types that objects of other types can be seen as. -/
  unsealed : Roster Ty := .empty

/-- What sealing is concluded from. -/
inductive Sealing where
  /-- The declarations. -/
  | declared
  /-- The types of which objects exist. -/
  | constructed (known : Constructed)

namespace Constructed

/-- The form in which a type is compared. -/
def key (t : Ty) : Tracked Ty :=
  if t.isArray then pure t else t.canonicalForm

/-- Adds a type.  Its base types can no longer be sealed. -/
def add (P : Program) (c : Constructed) (t : Ty) : Tracked Constructed := do
  let k ← key t
  let bases ← match ← P.baseType t with
    | some base => P.collectUp base key
    | none => pure []
  pure { c with keys := c.keys.insert k, unsealed := c.unsealed.insertAll bases }

/-- The arrays, among those given, that a given array can be cast to. -/
def castTargets (P : Program) (arrays : List Ty) (source : Ty) : Tracked (List Ty) :=
  arrays.filterM fun target =>
    if source = target then pure false else P.canCast source target

/-- Knowledge from the types of which objects exist.  Besides base types, also an array that another
one can be cast to is not sealed. -/
def ofTypes (P : Program) (types : List Ty) : Tracked Constructed := do
  let c ← types.foldlM (add P) { types }
  let arrays := types.filter Ty.isArray
  let targets ← arrays.mapM (castTargets P arrays)
  pure { c with unsealed := c.unsealed.insertAll targets.flatten }

/-- Whether objects of a type exist. -/
def contains (c : Constructed) (t : Ty) : Tracked Bool := do
  let k ← key t
  pure (c.keys.contains k)

/-- Whether a type is sealed. -/
def sealsType (c : Constructed) (t : Ty) : Tracked Bool := do
  if t.isInterface || t.isAbstract then pure false
  else
    let k ← key t
    pure (c.keys.contains k && !c.unsealed.contains k)

/-- Whether some object is of a type below the owner of a method on which the method leads to
another one. -/
def isOverridden (P : Program) (c : Constructed) (m : Method) : Attempt Bool := do
  let owner ← key m.owner
  c.types.anyM fun t => do
    let k ← key t
    if k = owner then pure false
    else if !(← P.derivesUpToCanon t m.owner) then pure false
    else
      let target ← P.resolve m t
      let same ← target.sameUpToCanon m
      pure !same

/-- Whether a method is sealed.  One of which that cannot be found out is not. -/
def sealsMethod (P : Program) (c : Constructed) (m : Method) : Tracked Bool := do
  if !(← c.contains m.owner) then pure false
  else if m.isFinal then pure true
  else if ← c.sealsType m.owner then pure true
  else
    match ← (c.isOverridden P m).run with
    | .ok overridden => pure !overridden
    | .error _ => pure false

end Constructed

namespace Sealing

/-- Whether the declaration of a type seals it; an array is sealed if its elements are. -/
def declaresType : Ty → Bool
  | .array e _ => declaresType e
  | t => t.decl?.isSome && !t.isInterface && (t.isDeclaredSealed || t.isValueType)

/-- Whether a type is sealed. -/
def sealsType (s : Sealing) (t : Ty) : Tracked Bool :=
  match s with
  | declared => pure (declaresType t)
  | constructed known => known.sealsType t

/-- Whether a method is sealed. -/
def sealsMethod (P : Program) (s : Sealing) (m : Method) : Tracked Bool :=
  match s with
  | declared => pure (m.isFinal || declaresType m.owner)
  | constructed known => known.sealsMethod P m

/-- Whether objects of a type may exist. -/
def mayExist (s : Sealing) (t : Ty) : Tracked Bool :=
  match s with
  | declared => pure true
  | constructed known => known.contains t

end Sealing

end AheadOfTime
