import Std.Data.HashMap
import AheadOfTime.Ty.Basic

/-!
# Canonical forms

Instantiations that differ only in which reference types they are applied to run on the same code.
The canonical form of a type has the placeholder where such a difference could be: every generic
argument and every array element that is a reference type becomes `canon`.

A `CanonTable` keeps canonical forms that were computed before, so that a type in which the same
parts occur many times need not be looked through for each occurrence.
-/

set_option autoImplicit false

namespace AheadOfTime

/-- Canonical forms that are known already. -/
structure CanonTable {α : Type} [BEq α] [LawfulBEq α] [Hashable α] (canonical : α → α) where
  /-- The forms. -/
  forms : Std.HashMap α α := ∅
  /-- They are what they should be. -/
  sound : ∀ a b : α, forms[a]? = some b → b = canonical a := by simp

namespace CanonTable

variable {α : Type} [BEq α] [LawfulBEq α] [Hashable α] {canonical : α → α}

/-- A canonical form, if it is known. -/
def find? (c : CanonTable canonical) (a : α) : Option { b : α // b = canonical a } :=
  match known : c.forms[a]? with
  | some b => some ⟨b, c.sound a b known⟩
  | none => none

/-- Adds a canonical form. -/
def insert (c : CanonTable canonical) (a : α) (b : { b : α // b = canonical a }) :
    CanonTable canonical where
  forms := c.forms.insert a b
  sound := by
    intro a' b' h
    rw [Std.HashMap.getElem?_insert] at h
    split at h
    · next ha =>
      cases h
      rw [b.2, eq_of_beq ha]
    · exact c.sound a' b' h

end CanonTable

namespace Ty

/-- The canonical form of a type. -/
def canonical : Ty → Ty
  | .decl d => .decl d
  | .app f a => .app f.canonical (if a.isReference then .canon else a.canonical)
  | .array e r => .array (if e.isReference then .canon else e.canonical) r
  | .pointer t => .pointer t.canonical
  | .byRef t => .byRef t.canonical
  | .param k i => .param k i
  | .canon => .canon

/-- The canonical form of a type in the place of a generic argument or an array element. -/
def canonicalArg (t : Ty) : Ty :=
  if t.isReference then .canon else t.canonical

/-- Whether a type is its own canonical form. -/
def isCanonical (t : Ty) : Bool :=
  t.canonical = t

end Ty

end AheadOfTime
