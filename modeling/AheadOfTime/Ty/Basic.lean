import AheadOfTime.Ty.Decl

/-!
# Types

A type is a declared type, a generic type applied to an argument, or built from another type by an
array, a pointer or a reference, or a generic parameter, or the placeholder `canon` that stands for
every reference type in shared code.  A generic type with several parameters is applied to one
argument after the other; `Ty.named` applies a declaration to all of them.

The same type may occur many times inside another one.  What is asked for often is therefore kept
with each type, and two types are compared without looking into parts that are one object.
-/

set_option autoImplicit false

namespace AheadOfTime

/-- What declares a generic parameter. -/
inductive ParamKind where
  /-- A type declares the parameter. -/
  | type
  /-- A method declares the parameter. -/
  | method
deriving DecidableEq, Repr, Hashable

/-- A type. -/
inductive Ty where
  /-- A declared type; if it is generic, the definition without arguments. -/
  | decl (d : TypeDecl)
  /-- A generic type applied to a further argument. -/
  | app (generic arg : Ty)
  /-- An array; one without a rank has one dimension that starts at zero. -/
  | array (element : Ty) (rank : Option Nat)
  /-- A pointer. -/
  | pointer (target : Ty)
  /-- A reference to a location. -/
  | byRef (target : Ty)
  /-- A generic parameter. -/
  | param (kind : ParamKind) (index : Nat)
  /-- The placeholder for reference types. -/
  | canon
with
  /-- A hash of the type. -/
  @[computed_field] hashCode : Ty → UInt64
    | .decl d => mixHash 2 (hash d)
    | .app f a => mixHash f.hashCode a.hashCode
    | .array e r => mixHash (mixHash 3 (hash r)) e.hashCode
    | .pointer t => mixHash 5 t.hashCode
    | .byRef t => mixHash 7 t.hashCode
    | .param k i => mixHash (hash k) (hash i)
    | .canon => 11
  /-- How deep the type is nested. -/
  @[computed_field] depth : Ty → Nat
    | .decl _ => 0
    | .app f a => max f.depth (a.depth + 1)
    | .array e _ => e.depth + 1
    | .pointer t => t.depth + 1
    | .byRef t => t.depth + 1
    | .param _ _ => 0
    | .canon => 0
  /-- Whether the type has generic parameters left to fill in. -/
  @[computed_field] hasParams : Ty → Bool
    | .decl _ => false
    | .app f a => f.hasParams || a.hasParams
    | .array e _ => e.hasParams
    | .pointer t => t.hasParams
    | .byRef t => t.hasParams
    | .param _ _ => true
    | .canon => false
  /-- Whether the type mentions the placeholder. -/
  @[computed_field] hasCanon : Ty → Bool
    | .decl _ => false
    | .app f a => f.hasCanon || a.hasCanon
    | .array e _ => e.hasCanon
    | .pointer t => t.hasCanon
    | .byRef t => t.hasCanon
    | .param _ _ => false
    | .canon => true
  /-- Whether values of the type are references to collected objects. -/
  @[computed_field] isReference : Ty → Bool
    | .decl d => !d.flags.valueType
    | .app f _ => f.isReference
    | .array _ _ => true
    | .pointer _ => false
    | .byRef _ => false
    | .param _ _ => false
    | .canon => true
deriving Repr

namespace Ty

instance : Hashable Ty := ⟨hashCode⟩

instance : Inhabited Ty := ⟨canon⟩

/-- Decides whether two types are the same.  One object is the same type as itself, and different
hashes tell types apart; otherwise the parts decide. -/
def decideEq (a b : Ty) : Decidable (a = b) :=
  withPtrEqDecEq a b fun _ =>
    if h : a.hashCode = b.hashCode then
      match a, b with
      | .decl d, .decl e => if h : d = e then isTrue (by rw [h]) else isFalse (by simp [h])
      | .app f a, .app g b =>
        match decideEq a b with
        | isTrue ha =>
          match decideEq f g with
          | isTrue hf => isTrue (by rw [hf, ha])
          | isFalse hf => isFalse (by simp [hf])
        | isFalse ha => isFalse (by simp [ha])
      | .array a r, .array b s =>
        if h : r = s then
          match decideEq a b with
          | isTrue hs => isTrue (by rw [h, hs])
          | isFalse hs => isFalse (by simp [hs])
        else isFalse (by simp [h])
      | .pointer a, .pointer b =>
        match decideEq a b with
        | isTrue h => isTrue (by rw [h])
        | isFalse h => isFalse (by simp [h])
      | .byRef a, .byRef b =>
        match decideEq a b with
        | isTrue h => isTrue (by rw [h])
        | isFalse h => isFalse (by simp [h])
      | .param k i, .param l j =>
        if h : k = l ∧ i = j then isTrue (by rw [h.1, h.2]) else isFalse (by simpa using h)
      | .canon, .canon => isTrue rfl
      | .decl _, .app _ _ | .decl _, .array _ _ | .decl _, .pointer _ | .decl _, .byRef _
      | .decl _, .param _ _ | .decl _, .canon
      | .app _ _, .decl _ | .app _ _, .array _ _ | .app _ _, .pointer _ | .app _ _, .byRef _
      | .app _ _, .param _ _ | .app _ _, .canon
      | .array _ _, .decl _ | .array _ _, .app _ _ | .array _ _, .pointer _
      | .array _ _, .byRef _ | .array _ _, .param _ _ | .array _ _, .canon
      | .pointer _, .decl _ | .pointer _, .app _ _ | .pointer _, .array _ _
      | .pointer _, .byRef _ | .pointer _, .param _ _ | .pointer _, .canon
      | .byRef _, .decl _ | .byRef _, .app _ _ | .byRef _, .array _ _ | .byRef _, .pointer _
      | .byRef _, .param _ _ | .byRef _, .canon
      | .param _ _, .decl _ | .param _ _, .app _ _ | .param _ _, .array _ _
      | .param _ _, .pointer _ | .param _ _, .byRef _ | .param _ _, .canon
      | .canon, .decl _ | .canon, .app _ _ | .canon, .array _ _ | .canon, .pointer _
      | .canon, .byRef _ | .canon, .param _ _ => isFalse (by simp)
    else isFalse fun hab => h (congrArg hashCode hab)

instance : DecidableEq Ty := decideEq

/-- Whether a type is a generic parameter. -/
def isParam : Ty → Bool
  | .param _ _ => true
  | _ => false

/-- A declaration applied to arguments, from left to right. -/
def named (d : TypeDecl) (args : List Ty) : Ty :=
  args.foldl app (.decl d)

/-- The declaration of a declared or applied type. -/
def decl? : Ty → Option TypeDecl
  | .decl d => some d
  | .app f _ => f.decl?
  | _ => none

/-- The arguments of an applied type, followed by further ones. -/
def argsBefore : Ty → List Ty → List Ty
  | .app f a, rest => f.argsBefore (a :: rest)
  | _, rest => rest

/-- The arguments of an applied type. -/
def args (t : Ty) : List Ty :=
  t.argsBefore []

/-- The definition of an applied type, and every other type itself. -/
def definition : Ty → Ty
  | .app f _ => f.definition
  | t => t

/-- The declaration of a type that is not applied. -/
def definition? : Ty → Option TypeDecl
  | .decl d => some d
  | _ => none

/-- The flags of the declaration. -/
def flags : Ty → TypeFlags
  | .decl d => d.flags
  | .app f _ => f.flags
  | _ => {}

/-- Whether a type is an interface. -/
def isInterface (t : Ty) : Bool :=
  t.flags.interface

/-- Whether a type has no instances of its own. -/
def isAbstract (t : Ty) : Bool :=
  t.flags.abstract || t.flags.interface

/-- Whether a type is declared sealed. -/
def isDeclaredSealed (t : Ty) : Bool :=
  t.flags.sealed

/-- Whether a type is a value type. -/
def isValueType (t : Ty) : Bool :=
  t.flags.valueType

/-- Whether a type is an array. -/
def isArray : Ty → Bool
  | .array _ _ => true
  | _ => false

/-- Whether a type cannot be used before further arguments are filled in. -/
def isOpen (t : Ty) : Bool :=
  t.hasParams || match t with
    | .decl d => d.arity > 0
    | _ => false

/-- The type of a well-known declaration. -/
def ofWellKnown (w : WellKnown) : Ty :=
  .decl w.decl

/-- The type at the root of all classes. -/
def object : Ty :=
  ofWellKnown .object

/-- Arguments do not change what a type is declared as. -/
theorem decl?_foldl_app (args : List Ty) (t : Ty) : (args.foldl app t).decl? = t.decl? := by
  induction args generalizing t with
  | nil => rfl
  | cons a args ih => exact ih (app t a)

/-- The collected arguments stand before those that were there already. -/
theorem argsBefore_eq (t : Ty) (rest : List Ty) : t.argsBefore rest = t.args ++ rest := by
  induction t generalizing rest with
  | app f a ihf _ =>
    rw [args, argsBefore, argsBefore, ihf (a :: rest), ihf [a], List.append_assoc]
    rfl
  | decl _ => rfl
  | array _ _ _ => rfl
  | pointer _ _ => rfl
  | byRef _ _ => rfl
  | param _ _ => rfl
  | canon => rfl

/-- One more argument comes last. -/
@[simp] theorem args_app (f a : Ty) : (app f a).args = f.args ++ [a] :=
  f.argsBefore_eq [a]

/-- Applied to a list of arguments, a type has these after its own. -/
theorem args_foldl_app (args : List Ty) (t : Ty) : (args.foldl app t).args = t.args ++ args := by
  induction args generalizing t with
  | nil => exact (List.append_nil t.args).symm
  | cons a args ih =>
    rw [List.foldl_cons, ih (app t a), args_app, List.append_assoc]
    rfl

/-- A type built from a declaration is declared by it. -/
@[simp] theorem decl?_named (d : TypeDecl) (args : List Ty) : (named d args).decl? = some d :=
  decl?_foldl_app args (.decl d)

/-- A type built from a declaration and arguments has these arguments. -/
@[simp] theorem args_named (d : TypeDecl) (args : List Ty) : (named d args).args = args :=
  args_foldl_app args (.decl d)

/-- Without arguments, a declaration stands for itself. -/
@[simp] theorem named_nil (d : TypeDecl) : named d [] = .decl d := rfl

/-- A type with a declaration is that declaration applied to the arguments of the type. -/
theorem named_of_decl? {t : Ty} {d : TypeDecl} (h : t.decl? = some d) : named d t.args = t := by
  induction t with
  | decl e =>
    cases h
    rfl
  | app f a ihf _ =>
    have hf : named d f.args = f := ihf h
    rw [args_app, named, List.foldl_append]
    exact congrArg (app · a) hf
  | array _ _ _ => cases h
  | pointer _ _ => cases h
  | byRef _ _ => cases h
  | param _ _ => cases h
  | canon => cases h

end Ty

end AheadOfTime
