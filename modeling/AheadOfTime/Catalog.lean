import AheadOfTime.IndexSet
import AheadOfTime.Method.Basic
import AheadOfTime.Recorded
import AheadOfTime.Roster

/-!
# The catalog

The catalog numbers types and methods in the order in which they are first needed.  What a type or
method is built from always comes before it: arguments from left to right, and before a method also
the types of its signature, parameters first.

Entering a type gives back the object under which it is listed, and that object is built from listed
objects.  Whoever goes on with it compares types by looking at objects rather than into them.

The catalog also keeps canonical forms, and knows which declarations have had their overrides used;
those are closed.
-/

set_option autoImplicit false

namespace AheadOfTime

/-- Something that a question needed. -/
inductive Entity where
  /-- A type. -/
  | type (t : Ty)
  /-- The canonical form of a type. -/
  | form (t : Ty)
  /-- A method. -/
  | method (m : Method)
  /-- The canonical form of a method. -/
  | methodForm (m : Method)
  /-- The overrides that a type declares. -/
  | overrides (d : TypeDecl)
deriving DecidableEq, Repr

/-- The types and methods needed so far. -/
structure Catalog where
  /-- The types. -/
  types : Roster Ty := .empty
  /-- The methods. -/
  methods : Roster Method := .empty
  /-- The canonical forms of types that were needed. -/
  forms : CanonTable Ty.canonical := {}
  /-- The canonical forms of methods that were needed. -/
  methodForms : CanonTable Method.canonical := {}
  /-- The numbers of the declarations whose overrides have been used. -/
  closed : IndexSet := .empty

namespace Catalog

instance : Inhabited Catalog := ⟨{}⟩

/-- Enters a type whose parts are entered. -/
def enterType (c : Catalog) (t : Ty) : { u : Ty // u = t } × Catalog :=
  match c.types.find? t with
  | some u => (u, c)
  | none => (⟨t, rfl⟩, { c with types := c.types.insert t })

mutual

/-- Enters a type and what it is built from. -/
def addType (c : Catalog) (t : Ty) : { u : Ty // u = t } × Catalog :=
  match c.types.find? t with
  | some u => (u, c)
  | none =>
    match t with
    | .decl d => c.enterType (.decl d)
    | .app f a =>
      let (⟨f', hf⟩, c) := c.addGeneric f
      let (⟨a', ha⟩, c) := c.addType a
      let (⟨u, hu⟩, c) := c.enterType (.app f' a')
      (⟨u, by rw [hu, hf, ha]⟩, c)
    | .array e r =>
      let (⟨e', he⟩, c) := c.addType e
      let (⟨u, hu⟩, c) := c.enterType (.array e' r)
      (⟨u, by rw [hu, he]⟩, c)
    | .pointer t =>
      let (⟨t', ht⟩, c) := c.addType t
      let (⟨u, hu⟩, c) := c.enterType (.pointer t')
      (⟨u, by rw [hu, ht]⟩, c)
    | .byRef t =>
      let (⟨t', ht⟩, c) := c.addType t
      let (⟨u, hu⟩, c) := c.enterType (.byRef t')
      (⟨u, by rw [hu, ht]⟩, c)
    | .param k i => c.enterType (.param k i)
    | .canon => c.enterType .canon

/-- Enters the declaration that a type applies, and then the arguments. -/
def addGeneric (c : Catalog) : (t : Ty) → { u : Ty // u = t } × Catalog
  | .app f a =>
    let (⟨f', hf⟩, c) := c.addGeneric f
    let (⟨a', ha⟩, c) := c.addType a
    (⟨.app f' a', by rw [hf, ha]⟩, c)
  | .decl d => c.enterType (.decl d)
  | t => (⟨t, rfl⟩, c)

end

/-- Enters types from left to right. -/
def addTypes (c : Catalog) : (ts : List Ty) → { us : List Ty // us = ts } × Catalog
  | [] => (⟨[], rfl⟩, c)
  | t :: rest =>
    let (⟨t', ht⟩, c) := c.addType t
    let (⟨rest', hr⟩, c) := c.addTypes rest
    (⟨t' :: rest', by rw [ht, hr]⟩, c)

/-- Enters the canonical form of a type in the place of a generic argument, given how that of the
type itself is entered. -/
def addArgForm (c : Catalog) (t : Ty)
    (addForm : Catalog → { u : Ty // u = t.canonical } × Catalog) :
    { u : Ty // u = t.canonicalArg } × Catalog :=
  if h : t.isReference then
    let (⟨u, hu⟩, c) := c.enterType .canon
    (⟨u, by rw [hu, Ty.canonicalArg, if_pos h]⟩, c)
  else
    let (⟨u, hu⟩, c) := addForm c
    (⟨u, by rw [hu, Ty.canonicalArg, if_neg h]⟩, c)

mutual

/-- Enters the canonical form of a type. -/
def addForm (c : Catalog) (t : Ty) : { u : Ty // u = t.canonical } × Catalog :=
  match c.forms.find? t with
  | some u => (u, c)
  | none =>
    let (u, c) : { u : Ty // u = t.canonical } × Catalog :=
      match t with
      | .decl d => c.enterType (.decl d)
      | .app f a =>
        let (⟨f', hf⟩, c) := c.addGenericForm f
        let (⟨a', ha⟩, c) := c.addArgForm a (·.addForm a)
        let (⟨u, hu⟩, c) := c.enterType (.app f' a')
        (⟨u, by rw [hu, hf, ha]; rfl⟩, c)
      | .array e r =>
        let (⟨e', he⟩, c) := c.addArgForm e (·.addForm e)
        let (⟨u, hu⟩, c) := c.enterType (.array e' r)
        (⟨u, by rw [hu, he]; rfl⟩, c)
      | .pointer t =>
        let (⟨t', ht⟩, c) := c.addForm t
        let (⟨u, hu⟩, c) := c.enterType (.pointer t')
        (⟨u, by rw [hu, ht]; rfl⟩, c)
      | .byRef t =>
        let (⟨t', ht⟩, c) := c.addForm t
        let (⟨u, hu⟩, c) := c.enterType (.byRef t')
        (⟨u, by rw [hu, ht]; rfl⟩, c)
      | .param k i => c.enterType (.param k i)
      | .canon => c.enterType .canon
    (u, { c with forms := c.forms.insert t u })

/-- Enters the declaration that a type applies, and then the canonical forms of the arguments. -/
def addGenericForm (c : Catalog) : (t : Ty) → { u : Ty // u = t.canonical } × Catalog
  | .app f a =>
    let (⟨f', hf⟩, c) := c.addGenericForm f
    let (⟨a', ha⟩, c) := c.addArgForm a (·.addForm a)
    (⟨.app f' a', by rw [hf, ha]; rfl⟩, c)
  | .decl d => c.enterType (.decl d)
  | t => (⟨t.canonical, rfl⟩, c)

end

/-- Enters a method whose owner and arguments are entered.  The types of its signature come before
it. -/
def enterMethod (c : Catalog) (m : Method) : { n : Method // n = m } × Catalog :=
  match c.methods.find? m with
  | some n => (n, c)
  | none =>
    let signature := m.signature
    let (_, c) := c.addTypes signature.parameters
    let (_, c) := c.addType signature.result
    (⟨m, rfl⟩, { c with methods := c.methods.insert m })

/-- Enters a method and what it is built from: its owner, the method as declared, the method without
arguments of its own, and the arguments. -/
def addMethod (c : Catalog) (m : Method) : { n : Method // n = m } × Catalog :=
  match c.methods.find? m with
  | some n => (n, c)
  | none =>
    let (⟨owner, ho⟩, c) := c.addType m.owner
    let (_, c) := c.enterMethod m.typical
    let (_, c) := c.enterMethod ⟨m.decl, owner, []⟩
    let (⟨args, ha⟩, c) := c.addTypes m.args
    let (⟨n, hn⟩, c) := c.enterMethod ⟨m.decl, owner, args⟩
    (⟨n, by rw [hn, ho, ha]⟩, c)

/-- Enters the canonical forms of types in the place of generic arguments, from left to right. -/
def addArgForms (c : Catalog) :
    (ts : List Ty) → { us : List Ty // us = ts.map Ty.canonicalArg } × Catalog
  | [] => (⟨[], rfl⟩, c)
  | t :: rest =>
    let (⟨t', ht⟩, c) := c.addArgForm t (·.addForm t)
    let (⟨rest', hr⟩, c) := c.addArgForms rest
    (⟨t' :: rest', by rw [ht, hr, List.map_cons]⟩, c)

/-- Enters the canonical form of a method without its arguments. -/
def addDefinitionForm (c : Catalog) (m : Method) :
    { n : Method // n = m.definition.canonical } × Catalog :=
  match c.methodForms.find? m.definition with
  | some n => (n, c)
  | none =>
    let (⟨owner, ho⟩, c) := c.addForm m.owner
    let (⟨n, hn⟩, c) := c.addMethod ⟨m.decl, owner, []⟩
    let n : { n : Method // n = m.definition.canonical } := ⟨n, by rw [hn, ho]; rfl⟩
    (n, { c with methodForms := c.methodForms.insert m.definition n })

/-- Enters the canonical form of a method: first that of the method without its arguments, then those
of the arguments. -/
def addMethodForm (c : Catalog) (m : Method) : { n : Method // n = m.canonical } × Catalog :=
  match c.methodForms.find? m with
  | some n => (n, c)
  | none =>
    let (⟨definition, hd⟩, c) := c.addDefinitionForm m
    let (⟨args, ha⟩, c) := c.addArgForms m.args
    let (⟨n, hn⟩, c) := c.addMethod ⟨m.decl, definition.owner, args⟩
    let n : { n : Method // n = m.canonical } := ⟨n, by rw [hn, hd, ha]; rfl⟩
    (n, { c with methodForms := c.methodForms.insert m n })

/-- Closes the overrides of a declaration. -/
def close (c : Catalog) (d : TypeDecl) : Catalog :=
  if c.closed.contains d.id then c else { c with closed := c.closed.insert d.id }

/-- Enters what was needed. -/
def add (c : Catalog) : Entity → Catalog
  | .type t => (c.addType t).2
  | .form t => (c.addForm t).2
  | .method m => (c.addMethod m).2
  | .methodForm m => (c.addMethodForm m).2
  | .overrides d => c.close d

instance : Recorder Catalog Entity := ⟨add⟩

/-- Whether the overrides of a declaration have been used. -/
def isClosed (c : Catalog) (d : TypeDecl) : Bool :=
  c.closed.contains d.id

/-- The catalog that every program starts with: the well-known types and the placeholder. -/
def initial : Catalog :=
  (({} : Catalog).addTypes (WellKnown.all.map Ty.ofWellKnown ++ [.canon])).2

end Catalog

end AheadOfTime
