import AheadOfTime.Tracked
import AheadOfTime.Program.Basic
import AheadOfTime.Roster

/-!
# The hierarchy of types

What a type extends and implements, directly and through others, and what it declares.  What a
generic declaration says is seen through the arguments of an instantiation.
-/

set_option autoImplicit false

namespace AheadOfTime.Program

/-- The base type.  Arrays extend the well-known array type, the placeholder extends the root. -/
def baseType (P : Program) (t : Ty) : Tracked (Option Ty) :=
  match t.decl? with
  | some d =>
    match (P.record d).base.join with
    | some base => some <$> base.instantiate { ofType := t.args }
    | none => pure none
  | none =>
    match t with
    | .array _ _ => pure (some (.ofWellKnown .array))
    | .canon => pure (some .object)
    | _ => pure none

/-- Visits a type and then its base types, nearest first, until a visit gives an answer; at most `n`
of them.  The base type of a type is found before the type is visited. -/
@[specialize]
def walkUp {m : Type → Type} [Monad m] [MonadLiftT (Recorded Catalog) m] {β : Type} (P : Program)
    (visit : Ty → m (Option β)) : Nat → Ty → m (Option β)
  | 0, _ => pure none
  | n + 1, t => do
    let base ← liftM (P.baseType t)
    match ← visit t, base with
    | some answer, _ => pure (some answer)
    | none, some base => P.walkUp visit n base
    | none, none => pure none

/-- Visits a type and then its base types, nearest first, until a visit gives an answer. -/
@[inline]
def findUp {m : Type → Type} [Monad m] [MonadLiftT (Recorded Catalog) m] {β : Type} (P : Program)
    (t : Ty) (visit : Ty → m (Option β)) : m (Option β) :=
  P.walkUp visit P.walkLimit t

/-- What a visit gives at a type and at each of its base types, farthest first, followed by what was
collected before; at most `n` types are visited. -/
def collectFrom {β : Type} (P : Program) (visit : Ty → Tracked β) :
    Nat → Ty → List β → Tracked (List β)
  | 0, _, collected => pure collected
  | n + 1, t, collected => do
    let base ← P.baseType t
    let b ← visit t
    match base with
    | some base => P.collectFrom visit n base (b :: collected)
    | none => pure (b :: collected)

/-- What a visit gives at a type and at each of its base types, nearest first. -/
def collectUp {β : Type} (P : Program) (t : Ty) (visit : Ty → Tracked β) : Tracked (List β) :=
  List.reverse <$> P.collectFrom visit P.walkLimit t []

/-- A type and its base types, nearest first. -/
def baseChain (P : Program) (t : Ty) : Tracked (List Ty) :=
  P.collectUp t pure

/-- The interfaces that a type lists. -/
def interfacesOf (P : Program) (t : Ty) : Tracked (List Ty) :=
  match t.decl? with
  | some d => ((P.record d).interfaces.getD []).mapM (Ty.instantiate { ofType := t.args })
  | none => pure []

/-- Adds the interfaces of a stack, and those that they inherit, to those seen; an interface is
followed by what it inherits.  At most `n` entries of the stack are looked at. -/
def closeInterfaces (P : Program) : Nat → List Ty → Roster Ty → Tracked (Roster Ty)
  | 0, _, seen => pure seen
  | _ + 1, [], seen => pure seen
  | n + 1, i :: rest, seen =>
    if seen.contains i then P.closeInterfaces n rest seen
    else do
      let inherited ← P.interfacesOf i
      P.closeInterfaces n (inherited ++ rest) (seen.insert i)

/-- The interfaces that a type lists, each followed by those that it inherits. -/
def interfaceClosure (P : Program) (t : Ty) : Tracked (List Ty) := do
  let listed ← P.interfacesOf t
  let closure ← P.closeInterfaces P.walkLimit listed .empty
  pure closure.toList

/-- The interfaces that a type implements, also through its base types. -/
def allInterfaces (P : Program) (t : Ty) : Tracked (List Ty) := do
  let closures ← P.collectUp t P.interfaceClosure
  pure (closures.foldl Roster.insertAll .empty).toList

/-- The methods that a type declares. -/
def methodsOf (P : Program) (t : Ty) : Tracked (List Method) :=
  match t.decl? with
  | some d => (P.record d).methods.mapM fun m => needMethod ⟨m, t, []⟩
  | none => pure []

/-- The fields that a type declares. -/
def fieldsOf (P : Program) (t : Ty) : List Field :=
  match t.decl? with
  | some d => (P.record d).fields
  | none => []

/-- The first method of a given name that a type declares. -/
def findMethod? (P : Program) (t : Ty) (name : String) : Tracked (Option Method) := do
  let methods ← P.methodsOf t
  pure (methods.find? (·.name == name))

/-- The class constructor of a type. -/
def classConstructor? (P : Program) (t : Ty) : Tracked (Option Method) := do
  let methods ← P.methodsOf t
  pure (methods.find? (·.isClassConstructor))

end AheadOfTime.Program
