import AheadOfTime.Program.Slot

/-!
# Dispatch

Which method runs when a virtual method is called on an object of a given type.  Slots are compared
by the method as declared, so that the same question can be asked about instantiations and about
canonical forms.
-/

set_option autoImplicit false

namespace AheadOfTime.Program

/-- The method of a type that fills the slot introduced by `slot`: the body of an explicit override,
or else a method of the same name. -/
def slotFiller? (P : Program) (slot : Method) (t : Ty) : Attempt (Option Method) := do
  let fills (m : Method) : Attempt Bool := do
    let other ← P.slotOf m
    pure (other.decl == slot.decl)
  let overrides ← P.overridesOf t
  let explicit ← overrides.findM? fun o =>
    if o.decl.owner.isInterface then pure false else fills o.decl.definition
  match explicit with
  | some o => pure (some o.body.definition)
  | none =>
    let methods ← liftM (P.methodsOf t)
    methods.findM? fun m => if !m.isVirtual || m.name != slot.name then pure false else fills m

/-- The method that a virtual method of a class leads to on an object of type `t`; the method itself
if nothing up to the root fills its slot. -/
def classTarget (P : Program) (m : Method) (t : Ty) : Attempt Method := do
  if !m.isVirtual then pure m
  else
    let slot ← P.slotOf m.definition
    match ← P.findUp t (P.slotFiller? slot) with
    | some found => needMethod (found.withArgs m.args)
    | none => pure m

/-- The method of a type, not counting its base types, that implements an interface method: the body
of an explicit override, or else, if the type lists the interface, a virtual method with the same
name and signature. -/
def implementation? (P : Program) (m : Method) (t : Ty) : Attempt (Option Method) := do
  let overrides ← P.overridesOf t
  let explicit ← liftM (overrides.findM? (m := Recorded Catalog) fun o =>
    o.decl.definition.sameUpToCanon m)
  match explicit with
  | some o => pure (some o.body)
  | none =>
    let closure ← liftM (P.interfaceClosure t)
    match ← liftM (closure.findM? (m := Recorded Catalog) fun i => i.sameUpToCanon m.owner) with
    | none => pure none
    | some listed =>
      let expected ← needMethod ⟨m.decl, listed, []⟩
      let methods ← liftM (P.methodsOf t)
      pure (methods.find? fun c => c.isVirtual && c.sameNameAndSignature expected)

/-- The method that an interface method leads to on an object of type `t`.  The nearest
implementation counts, and what overrides it on `t`; without one, the interface method itself if it
has a body. -/
def interfaceTarget? (P : Program) (m : Method) (t : Ty) : Attempt (Option Method) := do
  match ← P.findUp t (P.implementation? m.definition) with
  | some found =>
    let body ← needMethod (found.withArgs m.args)
    some <$> P.classTarget body t
  | none => pure (if m.isAbstract then none else some m)

/-- The method that a virtual method leads to on an object of type `t`; the method itself if there
is no implementation. -/
def resolve (P : Program) (m : Method) (t : Ty) : Attempt Method := do
  if m.owner.isInterface then
    let target ← P.interfaceTarget? m t
    pure (target.getD m)
  else P.classTarget m t

end AheadOfTime.Program
