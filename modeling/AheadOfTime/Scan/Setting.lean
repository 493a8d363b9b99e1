import AheadOfTime.Options
import AheadOfTime.Scan.Node
import AheadOfTime.Sealing

/-!
# The setting of a scan

The program, the options and what is known about sealing; and the nodes that stand for code and
slots in that setting.
-/

set_option autoImplicit false

namespace AheadOfTime

/-- What a scan works with. -/
structure Setting where
  /-- The program. -/
  program : Program
  /-- The options. -/
  options : Options := {}
  /-- What sealing is concluded from. -/
  sealing : Sealing := .declared

namespace Setting

/-- The method whose code a method runs on. -/
def codeOwner (S : Setting) (m : Method) : Tracked Method :=
  if S.options.sharedGenerics then m.canonicalForm else pure m

/-- The node for a method that is called. -/
def codeNode (S : Setting) (m : Method) : Tracked Node := do
  let owner ← S.codeOwner m
  pure (if owner = m then .code m else .shadow m)

/-- The method that stands for the slot of a virtual method: the one that introduced it, on the
canonical form of its owner.  The arguments of a generic virtual method stay exact. -/
def slotFor (S : Setting) (m : Method) : Attempt Method := do
  let slot ← S.program.slotOf m
  if !S.options.sharedGenerics then pure slot
  else if slot.args.isEmpty then slot.canonicalForm
  else
    let definition ← slot.definition.canonicalForm
    match definition.apply slot.args with
    | .ok applied => needMethod applied
    | .error fault => refuse fault

/-- The node for a virtual method that is called through its slot. -/
def slotNode (S : Setting) (m : Method) : Attempt Node :=
  .slot <$> S.slotFor m

/-- Refuses types that are nested too deep. -/
def checkType (S : Setting) (t : Ty) : Attempt Unit :=
  if t.depth > S.options.maxDepth then
    throw (.genericTooDeep t.name t.depth S.options.maxDepth)
  else pure ()

/-- Refuses methods that are nested too deep. -/
def checkMethod (S : Setting) (m : Method) : Attempt Unit :=
  if m.depth > S.options.maxDepth then
    throw (.genericTooDeep m.displayName m.depth S.options.maxDepth)
  else pure ()

end Setting

end AheadOfTime
