/-!
# Handles

Types, methods and fields are referred to by number.  A handle is a thirty-two bit number together
with what it refers to, and has a short and a long written form.
-/

set_option autoImplicit false

namespace AheadOfTime

/-- What a handle refers to. -/
inductive HandleKind where
  | type
  | method
  | field
deriving DecidableEq, Repr

/-- The number of a type, a method or a field. -/
structure Handle where
  /-- What the handle refers to. -/
  kind : HandleKind
  /-- The number. -/
  index : UInt32
deriving DecidableEq, Repr

namespace Handle

/-- The handle with number `n`, of which only the low thirty-two bits count. -/
def ofNat (kind : HandleKind) (n : Nat) : Handle :=
  ⟨kind, n.toUInt32⟩

/-- The letter that stands before the number in the short form. -/
def letter : HandleKind → String
  | .type => "t"
  | .method => "m"
  | .field => "f"

/-- The word that stands before the number in the long form. -/
def word : HandleKind → String
  | .type => "TypeId"
  | .method => "MethodId"
  | .field => "FieldId"

/-- The short form, such as `t7`. -/
def short (h : Handle) : String :=
  letter h.kind ++ Nat.repr h.index.toNat

/-- The long form, such as `TypeId(7)`. -/
def long (h : Handle) : String :=
  word h.kind ++ "(" ++ Nat.repr h.index.toNat ++ ")"

end Handle

end AheadOfTime
