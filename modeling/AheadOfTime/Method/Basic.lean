import AheadOfTime.Ty.Canon
import AheadOfTime.Ty.Name
import AheadOfTime.Ty.Subst

/-!
# Methods

A method is a declaration seen through a type and, if it is generic, through its own arguments.  The
owner is the declaring type or an instantiation of it.  A method whose owner is the declaring type
itself and that has no arguments is the method as it was declared.
-/

set_option autoImplicit false

namespace AheadOfTime

/-- The types that a method takes and gives. -/
structure Signature where
  /-- The result type. -/
  result : Ty
  /-- The parameter types. -/
  parameters : List Ty := []
  /-- The number of generic parameters. -/
  arity : Nat := 0
deriving DecidableEq, Repr

/-- Replaces the generic parameters in a signature. -/
def Signature.subst (σ : Bindings) (s : Signature) : Signature where
  result := s.result.subst σ
  parameters := s.parameters.map (Ty.subst σ)
  arity := s.arity

/-- The flags of a method declaration. -/
structure MethodFlags where
  /-- The method has no receiver. -/
  static : Bool := false
  /-- The method is dispatched on its receiver. -/
  virtual : Bool := false
  /-- The method has no body. -/
  abstract : Bool := false
  /-- The method may not be overridden. -/
  final : Bool := false
  /-- The method overrides nothing. -/
  newSlot : Bool := false
  /-- The method is an instance constructor. -/
  constructor : Bool := false
  /-- The method is a class constructor. -/
  classConstructor : Bool := false
deriving DecidableEq, Repr

/-- The flags that one or the other has. -/
def MethodFlags.join (a b : MethodFlags) : MethodFlags where
  static := a.static || b.static
  virtual := a.virtual || b.virtual
  abstract := a.abstract || b.abstract
  final := a.final || b.final
  newSlot := a.newSlot || b.newSlot
  constructor := a.constructor || b.constructor
  classConstructor := a.classConstructor || b.classConstructor

namespace MethodFlags

/-- The flags with their names, in order. -/
def table : List (String × MethodFlags) :=
  [("STATIC", { static := true }), ("VIRTUAL", { virtual := true }),
    ("ABSTRACT", { abstract := true }), ("FINAL", { final := true }),
    ("NEW_SLOT", { newSlot := true }), ("CONSTRUCTOR", { constructor := true }),
    ("CLASS_CONSTRUCTOR", { classConstructor := true })]

/-- The flag of a given name. -/
def ofName? (name : String) : Option MethodFlags :=
  table.lookup name

/-- The names of the flags that are set, in order. -/
def names (f : MethodFlags) : List String :=
  (table.filter fun entry => f.join entry.2 = f).map (·.1)

end MethodFlags

/-- A method declaration. -/
structure MethodDecl where
  /-- The number of the declaration, in order of declaration. -/
  id : Nat
  /-- The declaring type. -/
  owner : TypeDecl
  /-- The name. -/
  name : String
  /-- The declared signature. -/
  signature : Signature
  /-- The flags. -/
  flags : MethodFlags := {}
deriving DecidableEq, Repr

instance : Hashable MethodDecl := ⟨fun d => hash d.id⟩

/-- A declaration seen through an owner and arguments. -/
structure Method where
  /-- The declaration. -/
  decl : MethodDecl
  /-- The declaring type or an instantiation of it. -/
  owner : Ty
  /-- The generic arguments of the method itself. -/
  args : List Ty := []
deriving DecidableEq, Repr

instance : Hashable Method :=
  ⟨fun m => mixHash (hash m.decl) (mixHash (hash m.owner) (hash m.args))⟩

/-- The method as it was declared. -/
def MethodDecl.method (d : MethodDecl) : Method :=
  ⟨d, .decl d.owner, []⟩

namespace Method

/-- The method as it was declared. -/
def typical (m : Method) : Method :=
  m.decl.method

/-- The method without arguments of its own. -/
def definition (m : Method) : Method :=
  { m with args := [] }

/-- The name, without owner and arguments. -/
def name (m : Method) : String :=
  m.decl.name

/-- The flags of the declaration. -/
def flags (m : Method) : MethodFlags :=
  m.decl.flags

/-- Whether the method is the one that was declared. -/
def isTypical (m : Method) : Bool :=
  m.owner.definition?.isSome && m.args.isEmpty

/-- The signature.  The owner's arguments are filled in first, then those of the method, which leave
no generic parameters to it. -/
def signature (m : Method) : Signature :=
  let onOwner := m.decl.signature.subst { ofType := m.owner.args }
  if m.args.isEmpty then onOwner
  else { onOwner.subst { ofMethod := m.args } with arity := 0 }

/-- Whether the method is virtual. -/
def isVirtual (m : Method) : Bool := m.flags.virtual

/-- Whether the method has no body. -/
def isAbstract (m : Method) : Bool := m.flags.abstract

/-- Whether the method may not be overridden. -/
def isFinal (m : Method) : Bool := m.flags.final

/-- Whether the method has no receiver. -/
def isStatic (m : Method) : Bool := m.flags.static

/-- Whether the method overrides nothing. -/
def isNewSlot (m : Method) : Bool := m.flags.newSlot

/-- Whether the method is an instance constructor. -/
def isConstructor (m : Method) : Bool := m.flags.constructor

/-- Whether the method is a class constructor. -/
def isClassConstructor (m : Method) : Bool := m.flags.classConstructor

/-- Whether the method is generic and has no arguments yet. -/
def isGenericDefinition (m : Method) : Bool :=
  m.decl.signature.arity > 0 && m.args.isEmpty

/-- How deep the types that the method is seen through are nested. -/
def depth (m : Method) : Nat :=
  m.args.foldl (fun depth t => max depth (t.depth + 1)) m.owner.depth

/-- Whether the method mentions the placeholder. -/
def hasCanon (m : Method) : Bool :=
  m.owner.hasCanon || m.args.any Ty.hasCanon

/-- Whether the method cannot run before further arguments are filled in. -/
def isOpen (m : Method) : Bool :=
  m.isGenericDefinition || m.owner.isOpen || m.args.any Ty.hasParams

/-- The arguments that the body of the method runs with. -/
def bindings (m : Method) : Bindings where
  ofType := m.owner.args
  ofMethod := m.args

/-- The owner of a method under a substitution.  An uninstantiated generic owner takes the type
arguments if their number is right. -/
def substOwner (σ : Bindings) (owner : Ty) : Ty :=
  match owner with
  | .decl d => if d.arity > 0 && d.arity == σ.ofType.length then .named d σ.ofType else owner
  | _ => owner.subst σ

/-- Replaces the generic parameters that a method is seen through. -/
def subst (σ : Bindings) (m : Method) : Method where
  decl := m.decl
  owner := substOwner σ m.owner
  args := m.args.map (Ty.subst σ)

/-- The method whose code all methods run on that differ only in reference types. -/
def canonical (m : Method) : Method where
  decl := m.decl
  owner := m.owner.canonical
  args := m.args.map Ty.canonicalArg

/-- The method applied to arguments, if it is generic and has none. -/
def withArgs (m : Method) (args : List Ty) : Method :=
  if args.isEmpty || !m.isGenericDefinition then m else { m with args }

/-- Whether name and signature of two methods are the same. -/
def sameNameAndSignature (a b : Method) : Bool :=
  a.name == b.name && a.signature == b.signature

/-- The characters of the display name. -/
def chars (m : Method) : List Char :=
  let base := m.owner.chars ++ ':' :: ':' :: m.name.toList
  if m.args.isEmpty then base else base ++ '<' :: (Ty.charsAll m.args ++ ['>'])

/-- The display name. -/
def displayName (m : Method) : String :=
  String.ofList m.chars

/-- The characters of the display name, followed by the signature. -/
def fullChars (m : Method) : List Char :=
  m.chars ++ '(' :: (Ty.charsAll m.signature.parameters ++ ')' :: m.signature.result.chars)

/-- The display name, followed by the signature. -/
def fullName (m : Method) : String :=
  String.ofList m.fullChars

/-- The linker symbol of the method's code, with a given lead. -/
def symbol (lead : String) (m : Method) : String :=
  lead ++ "M" ++ String.ofList (Symbol.encode m.fullChars)

end Method

end AheadOfTime
