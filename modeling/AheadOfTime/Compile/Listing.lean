import AheadOfTime.Instruction
import AheadOfTime.Sealing

/-!
# Code

Code is made from bodies by a generator.  The one given here writes a listing: a line for each
instruction, with the methods that calls lead to.
-/

set_option autoImplicit false

namespace AheadOfTime

/-- A place in the code that refers to a method. -/
structure Relocation where
  /-- The place, in bytes. -/
  offset : Nat
  /-- The method. -/
  target : Method
deriving DecidableEq, Repr

/-- The code of a method. -/
inductive Code where
  /-- Text, with the places that refer to methods. -/
  | text (text : String) (relocations : List Relocation)
  /-- A stub that stops the program. -/
  | trap
deriving DecidableEq, Repr

/-- A tracked result, or a text that says why there is none. -/
abbrev Generated (α : Type) := ExceptT String (Recorded Catalog) α

/-- How code is made from the body of a method. -/
abbrev Generator := Program → Sealing → Method → Body → Generated Code

namespace Listing

/-- One line, and the method that it refers to. -/
structure Line where
  /-- The line, without its end. -/
  text : String
  /-- The method. -/
  reference : Option Method := none
deriving DecidableEq, Repr

/-- The bytes that a line takes, with its end. -/
def Line.size (l : Line) : Nat :=
  l.text.utf8ByteSize + 1

/-- A tracked result, where a failure is known by its text only. -/
def explained {α : Type} (a : Attempt α) : Generated α :=
  ExceptT.adapt Diagnostic.message a

/-- A method operand of the body of `m`. -/
def known (m : Method) : Operand Method → Generated Method
  | .known callee => pure callee
  | .unknown symbol => throw (Diagnostic.unresolvedReference symbol m.displayName).message

/-- The method that a virtual call leads to, if that is known: what the method leads to on its owner
if the owner is sealed, or the method itself if it is sealed. -/
def callTarget? (P : Program) (s : Sealing) (m : Method) : Generated (Option Method) := do
  if !m.isVirtual then pure (some m)
  else if m.owner.isInterface then pure none
  else if ← liftM (s.sealsType m.owner) then some <$> explained (P.resolve m m.owner)
  else if m.isAbstract then pure none
  else
    let sealed ← liftM (s.sealsMethod P m)
    pure (if sealed then some m else none)

/-- A line that refers to a method. -/
def referring (mnemonic : String) (m : Method) : Line :=
  { text := mnemonic ++ " " ++ m.displayName, reference := some m }

/-- The line of an instruction of the body of `m`. -/
def line (P : Program) (s : Sealing) (m : Method) (i : Instruction) : Generated Line := do
  match i with
  | .call operand => referring i.mnemonic <$> known m operand
  | .newobj operand => referring i.mnemonic <$> known m operand
  | .callvirt operand _ =>
    let callee ← known m operand
    match ← callTarget? P s callee with
    | some target => pure (referring "call" target)
    | none => pure { text := "callvirt " ++ callee.displayName }
  | _ => pure { text := i.mnemonic }

/-- The places, from a given one on, where lines refer to methods. -/
def relocations (offset : Nat) : List Line → List Relocation
  | [] => []
  | l :: rest =>
    (l.reference.map (⟨offset, ·⟩)).toList ++ relocations (offset + l.size) rest

/-- The code that consists of lines. -/
def code (lines : List Line) : Code :=
  .text (String.join (lines.map fun l => l.text ++ "\n")) (relocations 0 lines)

end Listing

namespace Generator

/-- The generator that writes a listing. -/
def listing : Generator := fun P s m body =>
  Listing.code <$> body.mapM (Listing.line P s m)

/-- A generator that gives up on methods with given names. -/
def refusing (names : List String) (g : Generator) : Generator := fun P s m body =>
  if names.contains m.name then throw ("cannot compile " ++ m.name) else g P s m body

end Generator

end AheadOfTime
