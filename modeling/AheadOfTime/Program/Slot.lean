import AheadOfTime.Program.Override

/-!
# Slots

A virtual method that overrides nothing introduces a slot; every method that overrides it, directly
or not, occupies the same slot.
-/

set_option autoImplicit false

namespace AheadOfTime.Program

/-- The method of a base class that a method overrides: the one that an explicit override of the
owner says, or else the nearest virtual one with the same name and signature. -/
def overridden? (P : Program) (m : Method) : Attempt (Option Method) := do
  let overrides ← P.overridesOf m.owner
  match overrides.find? fun o => o.body == m && !o.decl.owner.isInterface with
  | some o => pure (some o.decl.definition)
  | none =>
    match ← liftM (P.baseType m.owner) with
    | none => pure none
    | some base =>
      liftM (P.findUp (m := Recorded Catalog) base fun current => do
        let methods ← P.methodsOf current
        pure (methods.find? fun c => c.isVirtual && c.sameNameAndSignature m))

/-- One step of the search for the slot of a method: to the method that it overrides, unless it
overrides nothing. -/
def slotStep (P : Program) (m : Method) : Tracked (Method ⊕ Except Diagnostic Method) := do
  if !m.isVirtual || m.isNewSlot then pure (.inr (.ok m))
  else
    match ← (P.overridden? m).run with
    | .ok (some next) => pure (.inl next)
    | .ok none => pure (.inr (.ok m))
    | .error diagnostic => pure (.inr (.error diagnostic))

/-- Follows overridden methods to the one that introduced the slot, in at most `n` steps. -/
def slotFrom (P : Program) (n : Nat) (m : Method) : Attempt Method :=
  ExceptT.mk (Recorded.loop P.slotStep .ok n m)

/-- One step of the search for a slot: a method that overrides nothing is its own slot, and any
other one leads to what it overrides. -/
theorem slotFrom_succ (P : Program) (n : Nat) (m : Method) :
    P.slotFrom (n + 1) m = if !m.isVirtual || m.isNewSlot then pure m
      else P.overridden? m >>= fun next =>
        match next with
        | some next => P.slotFrom n next
        | none => pure m := by
  unfold slotFrom
  rw [Recorded.loop_succ, slotStep]
  split
  · rfl
  · refine (bind_assoc (P.overridden? m).run _ _).trans ?_
    refine congrArg ((P.overridden? m).run >>= ·) (funext fun result => ?_)
    rcases result with diagnostic | _ | next <;> rfl

/-- The method that introduced the slot of a method, with the same arguments. -/
def slotOf (P : Program) (m : Method) : Attempt Method := do
  let slot ← P.slotFrom P.walkLimit m.definition
  needMethod (slot.withArgs m.args)

/-- The slots of a type, those of base types first.  Generic methods are left out: they are
dispatched separately for each list of arguments. -/
def slotsOf (P : Program) (t : Ty) : Attempt (List Method) := do
  let chain ← liftM (P.baseChain t)
  let perType ← chain.reverse.mapM fun current => do
    let methods ← liftM (P.methodsOf current)
    methods.filterM fun m =>
      if !m.isVirtual || m.isGenericDefinition then pure false
      else do
        let slot ← P.slotOf m
        pure (slot == m)
  pure perType.flatten

end AheadOfTime.Program
