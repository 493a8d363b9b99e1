import AheadOfTime.Proofs.Program.Interfaces
import AheadOfTime.Proofs.Program.SlotTable

/-!
# Casts form a preorder

A reference can be cast to what its type extends, to the interfaces that it implements, and, if it is an
array of references, to arrays of what its elements can be cast to.  Each of these is a walk of its own.
Together they are transitive if interfaces extend nothing and arrays are not extended: then a class is
left for an interface once and for all, and arrays of different types meet only in what all arrays
extend.  What two casts in a row have shown, one cast shows if its own walks come to an end
(`CastEnds`); those of the other two need not.
-/

set_option autoImplicit false

namespace AheadOfTime

namespace Program

variable {P : Program}

/-! ## What a cast is -/

/-- A type extends or implements itself, its base types and its interfaces. -/
theorem value_extendsOrImplements_iff {s t : Ty} : (P.extendsOrImplements s t).value = true ↔
    s = t ∨ t ∈ P.chain P.walkLimit s ∨ t.isInterface = true ∧ t ∈ (P.allInterfaces s).value := by
  unfold extendsOrImplements
  rw [← value_isSubclassOf]
  by_cases hst : s = t
  · simp [hst]
  · cases hsub : (P.isSubclassOf s t).value <;> cases hinterface : t.isInterface <;>
      simp [hst, hsub, implements]

/-- Besides what it extends and implements, only an array of references can be cast, by its
elements. -/
theorem value_canCast_iff {s t : Ty} : (P.canCast s t).value = true ↔
    (P.extendsOrImplements s t).value = true ∨ ∃ e f r, s = .array e r ∧ t = .array f r ∧
      e.isReference = true ∧ (P.canCast e f).value = true := by
  rw [canCast.eq_def, Recorded.value_bind]
  by_cases hdirect : (P.extendsOrImplements s t).value = true
  · rw [if_pos hdirect]
    exact iff_of_true rfl (.inl hdirect)
  · rw [if_neg hdirect, or_iff_right hdirect]
    split
    · next e r f s =>
      constructor
      · intro hcast
        split at hcast
        · next hsame =>
          rw [Bool.and_eq_true, decide_eq_true_iff] at hsame
          obtain ⟨rfl, he⟩ := hsame
          exact ⟨e, f, r, rfl, rfl, he, hcast⟩
        · cases hcast
      · rintro ⟨_, _, _, ⟨⟩, ⟨⟩, he, hcast⟩
        rw [if_pos (by simp [he]), hcast]
    · next hne =>
      refine iff_of_false Bool.false_ne_true ?_
      rintro ⟨e, f, r, rfl, rfl, -⟩
      exact hne e r f r rfl rfl

/-- Arrays of references can be cast if their elements can and they have the same rank. -/
theorem canCast_array {e f : Ty} (he : e.isReference = true) (h : (P.canCast e f).value = true)
    (r : Option Nat) : (P.canCast (.array e r) (.array f r)).value = true :=
  value_canCast_iff.2 (.inr ⟨e, f, r, rfl, rfl, he, h⟩)

/-- Above an array, there is what all arrays extend. -/
theorem chain_array (n : Nat) (e : Ty) (r : Option Nat) :
    P.chain (n + 1) (.array e r) = .array e r :: P.chain n (.ofWellKnown .array) := rfl

/-- The walks come to an end that tell whether a type extends or implements another.  Going up, the other
type is met, or else the last base type; and if the other type is an interface, then going through the
interfaces of each type on the way comes to an end too. -/
def WalksEnd (P : Program) (s t : Ty) : Prop :=
  t ∈ P.chain P.walkLimit s ∨ P.Ends P.walkLimit s ∧
    (t.isInterface = true → ∀ u ∈ P.chain P.walkLimit s, P.ClosesWithin P.walkLimit u)

/-- Some types that with a type include what it extends, the interfaces that it lists and the type of
its elements. -/
structure SelfContained (P : Program) (T : Ty → Prop) : Prop where
  base : ∀ {t b : Ty}, T t → (P.baseType t).value = some b → T b
  listed : ∀ {t i : Ty}, T t → P.Lists t i → T i
  element : ∀ {e : Ty} {r : Option Nat}, T (.array e r) → T e

/-- A type extends whatever is on its chain. -/
theorem extendsOrImplements_of_mem_chain {s t : Ty} (h : t ∈ P.chain P.walkLimit s) :
    (P.extendsOrImplements s t).value = true :=
  value_extendsOrImplements_iff.2 (.inr (.inl h))

/-- If the walks come to an end, a type implements whatever is inherited by something on its chain. -/
theorem WalksEnd.extendsOrImplements {s t u : Ty} (h : P.WalksEnd s t)
    (hinterface : t.isInterface = true) (hu : u ∈ P.chain P.walkLimit s) (hut : P.Inherits u t) :
    (P.extendsOrImplements s t).value = true := by
  rcases h with hmem | ⟨-, hcloses⟩
  · exact extendsOrImplements_of_mem_chain hmem
  · have hmem := (hcloses hinterface u hu).mem_interfaceClosure.2 hut
    exact value_extendsOrImplements_iff.2
      (.inr (.inr ⟨hinterface, mem_allInterfaces.2 ⟨u, hu, hmem⟩⟩))

namespace SelfContained

variable {T : Ty → Prop} (hT : P.SelfContained T) {a b c : Ty} (ha : T a)
include hT ha

/-- Self-contained types include what a type extends at any distance. -/
theorem mem_chain {n : Nat} {u : Ty} (hu : u ∈ P.chain n a) : T u := by
  induction n generalizing a with
  | zero => cases hu
  | succ n ih =>
    rw [chain] at hu
    rcases List.mem_cons.1 hu with rfl | hu
    · exact ha
    · cases hb : (P.baseType a).value with
      | none =>
        rw [hb] at hu
        cases hu
      | some b =>
        rw [hb] at hu
        exact ih (hT.base ha hb) hu

section

variable (hinterface : ∀ t, T t → t.isInterface = true → (P.baseType t).value = none)
include hinterface

end

variable (harray : ∀ t b, T t → (P.baseType t).value = some b → b.isArray = false)
include harray

variable (hinterface : ∀ t, T t → t.isInterface = true → (P.baseType t).value = none)
include hinterface

end SelfContained

end Program

/-! ## Figures that can be drawn -/

namespace Figures

def drawable : TypeDecl := { id := 19, space := "", name := "IDrawable", flags := { interface := true } }

def shaped : TypeDecl :=
  { id := 20, space := "", name := "IShaped", flags := { interface := true }, arity := 1 }

def figure : TypeDecl := { id := 21, space := "", name := "Figure", arity := 1 }

def circle : TypeDecl := { id := 22, space := "", name := "Circle", arity := 1 }

/-- A generic circle is a figure, a figure has a shape, and what has a shape can be drawn. -/
def program : Program := .withTypes
  [{ TypeRecord.ofMethods drawable none [] with interfaces := some [] },
    { TypeRecord.ofMethods shaped none [] with interfaces := some [.decl drawable] },
    { TypeRecord.ofMethods figure (some .object) [] with
      interfaces := some [.app (.decl shaped) (.param .type 0)] },
    TypeRecord.ofMethods circle (some (.app (.decl figure) (.param .type 0))) []]

/-- A generic type with texts. -/
def ofTexts (d : TypeDecl) : Ty :=
  .app (.decl d) (.ofWellKnown .string)

/-- The type at the bottom of nested arrays. -/
def innermost : Ty → Ty
  | .array e _ => innermost e
  | t => t

/-- The types of circles of texts, with all that leads up from them. -/
def types : List Ty :=
  [.decl drawable, ofTexts shaped, ofTexts figure, ofTexts circle, .object, .ofWellKnown .array]

/-- Types that are in the list, and nested arrays of them. -/
def Known (t : Ty) : Prop :=
  innermost t ∈ types

/-- A known type is listed, or an array of a known type. -/
theorem Known.cases {t : Ty} (ht : Known t) : t ∈ types ∨ ∃ e r, t = .array e r ∧ Known e := by
  cases t with
  | array e r => exact .inr ⟨e, r, rfl, ht⟩
  | _ => exact .inl ht

end Figures

end AheadOfTime
