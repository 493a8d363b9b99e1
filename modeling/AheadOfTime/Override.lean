import AheadOfTime.Fault

/-!
# Explicit overrides

A type may say of some methods which other method stands for them.  Such overrides are settled: of
several overrides of one method the first counts, and it is a contradiction if the others come from
another type.
-/

set_option autoImplicit false

namespace AheadOfTime

/-- An explicit override: on some type, `body` stands for `decl`. -/
structure Override where
  /-- The overridden method. -/
  decl : Method
  /-- The method that stands for it. -/
  body : Method
deriving DecidableEq, Repr

namespace Override

/-- Settles overrides one after the other, after those that are settled already. -/
def settleAfter (settled : List Override) : List Override → Except Fault (List Override)
  | [] => .ok settled
  | o :: rest =>
    match settled.find? (·.decl == o.decl) with
    | none => settleAfter (settled ++ [o]) rest
    | some first =>
      if first.body = o.body || first.body.owner = o.body.owner then settleAfter settled rest
      else .error (.conflictingOverrides o.decl first.body o.body)

/-- Settles overrides: one for each overridden method. -/
def settle (l : List Override) : Except Fault (List Override) :=
  settleAfter [] l

/-- Overrides can be settled in two parts, the second after the outcome of the first. -/
theorem settleAfter_append (settled l k : List Override) :
    settleAfter settled (l ++ k) = settleAfter settled l >>= (settleAfter · k) := by
  induction l generalizing settled with
  | nil => rfl
  | cons o rest ih =>
    rw [List.cons_append, settleAfter, settleAfter]
    split
    · exact ih _
    · split
      · exact ih _
      · rfl

end Override

/-- The overrides that a type declares. -/
structure OverrideList where
  /-- The overrides, in order of declaration. -/
  declared : List Override := []
  /-- The settled overrides. -/
  settled : Except Fault (List Override) := .ok []
  /-- They are what they should be. -/
  sound : settled = Override.settle declared := by rfl

/-- Declares one more override. -/
def OverrideList.push (l : OverrideList) (o : Override) : OverrideList where
  declared := l.declared ++ [o]
  settled := l.settled >>= (Override.settleAfter · [o])
  sound := by rw [Override.settle, Override.settleAfter_append, l.sound, Override.settle]

end AheadOfTime
