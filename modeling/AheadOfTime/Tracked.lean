import AheadOfTime.Catalog
import AheadOfTime.Fault

/-!
# Tracked answers

Questions about a program may lead to types and methods that nobody asked for before.  Answers to
such questions are tracked: what was needed for them enters the catalog, in order.  The order is
what numbers the entities; the answers themselves do not depend on it.
-/

set_option autoImplicit false

namespace AheadOfTime

/-- An answer; what is needed for it enters the catalog. -/
abbrev Tracked (α : Type) := Recorded Catalog α

/-- A tracked answer, or the reason why there is none. -/
abbrev Attempt (α : Type) := ExceptT Diagnostic (Recorded Catalog) α

/-- An answer that comes from entering an entity. -/
def Entity.yielding {α : Type} {a : α} (e : Entity)
    (enter : (c : Catalog) → { b : α // b = a } × Catalog)
    (h : ∀ c, (enter c).2 = c.add e) : Tracked α where
  run c :=
    match enter c with
    | (b, c) => (b.1, c)
  lawful := ⟨a, [e], fun c => Prod.ext (enter c).1.2 (h c)⟩

/-- The value of such an answer is the promised one, whatever the catalog holds. -/
@[simp] theorem Entity.value_yielding {α : Type} {a : α} (e : Entity)
    (enter : (c : Catalog) → { b : α // b = a } × Catalog)
    (h : ∀ c, (enter c).2 = c.add e) : (e.yielding enter h).value = a :=
  (enter default).1.2

/-- Whether a type is known as soon as it can be spoken of: a declaration enters the catalog when it
is made, and the placeholder is there from the start. -/
def Ty.isGiven : Ty → Bool
  | .decl _ => true
  | .canon => true
  | _ => false

/-- A type, which is needed. -/
def needType (t : Ty) : Tracked Ty :=
  if t.isGiven then pure t else (Entity.type t).yielding (·.addType t) fun _ => rfl

/-- A method, which is needed.  A method as declared is known as soon as it can be spoken of. -/
def needMethod (m : Method) : Tracked Method :=
  if m.isTypical then pure m else (Entity.method m).yielding (·.addMethod m) fun _ => rfl

/-- Notes that the overrides of a declaration are needed. -/
def needOverrides (d : TypeDecl) : Tracked Unit :=
  .report (Entity.overrides d)

/-- The value of a type that is needed is the type. -/
@[simp] theorem value_needType (t : Ty) : (needType t).value = t := by
  unfold needType
  split
  · rfl
  · exact Entity.value_yielding ..

/-- The value of a method that is needed is the method. -/
@[simp] theorem value_needMethod (m : Method) : (needMethod m).value = m := by
  unfold needMethod
  split
  · rfl
  · exact Entity.value_yielding ..

/-- Needing the overrides of a type has no value of its own. -/
@[simp] theorem value_needOverrides (d : TypeDecl) : (needOverrides d).value = () := rfl

/-- Reports a fault. -/
def refuse {α : Type} (f : Fault) : Attempt α :=
  throw f.report

namespace Ty

/-- A type under a substitution.  A type without parameters stays what it is, and a bare parameter
becomes one of the arguments; both are known already. -/
def instantiate (σ : Bindings) (t : Ty) : Tracked Ty :=
  if t.hasParams && !t.isParam then needType (t.subst σ) else pure (t.subst σ)

/-- The value of an instantiation is the substituted type. -/
@[simp] theorem value_instantiate (σ : Bindings) (t : Ty) :
    (t.instantiate σ).value = t.subst σ := by
  unfold instantiate
  split
  · exact value_needType _
  · rfl

/-- The canonical form of a type, which is needed. -/
def canonicalForm (t : Ty) : Tracked Ty :=
  (Entity.form t).yielding (·.addForm t) fun _ => rfl

/-- The value of the canonical form that is kept for a type is the one that is computed. -/
@[simp] theorem value_canonicalForm (t : Ty) : t.canonicalForm.value = t.canonical :=
  Entity.value_yielding ..

/-- Whether two types are the same or have the same canonical form. -/
def sameUpToCanon (a b : Ty) : Tracked Bool := do
  if a = b then pure true
  else
    let a ← a.canonicalForm
    let b ← b.canonicalForm
    pure (a == b)

end Ty

namespace Method

/-- The method whose code a method runs on, which is needed. -/
def canonicalForm (m : Method) : Tracked Method :=
  (Entity.methodForm m).yielding (·.addMethodForm m) fun _ => rfl

/-- The value of the canonical form that is kept for a method is the one that is computed. -/
@[simp] theorem value_canonicalForm (m : Method) : m.canonicalForm.value = m.canonical :=
  Entity.value_yielding ..

/-- Whether other methods may run on the same code. -/
def isShared (m : Method) : Tracked Bool := do
  let canonical ← m.canonicalForm
  pure canonical.hasCanon

/-- Whether two methods are the same or run on the same code. -/
def sameUpToCanon (a b : Method) : Tracked Bool := do
  if a = b then pure true
  else if a.decl = b.decl then
    let a ← a.canonicalForm
    let b ← b.canonicalForm
    pure (a == b)
  else pure false

end Method

end AheadOfTime
