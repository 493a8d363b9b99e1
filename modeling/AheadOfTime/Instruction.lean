import AheadOfTime.Field
import AheadOfTime.Method.Basic

/-!
# Method bodies

A body is a list of instructions.  Only what refers to types, methods and fields matters here.  The
body of a generic method refers to its parameters; the arguments are filled in when it is imported.
-/

set_option autoImplicit false

namespace AheadOfTime

/-- An operand: something that exists, or a symbol that names nothing. -/
inductive Operand (α : Type) where
  /-- It exists. -/
  | known (entity : α)
  /-- Nothing has that name. -/
  | unknown (symbol : String)
deriving DecidableEq, Repr

/-- The operand of `ldtoken`. -/
inductive Token where
  /-- A type. -/
  | type (t : Operand Ty)
  /-- A method. -/
  | method (m : Operand Method)
  /-- A field. -/
  | field (f : Operand Field)
deriving DecidableEq, Repr

/-- An instruction. -/
inductive Instruction where
  | nop
  | ldarg (n : UInt16)
  | ldloc (n : UInt16)
  | stloc (n : UInt16)
  | ldnull
  | ldcI4 (n : Int32)
  | ldstr (text : String)
  | dup
  | pop
  | throw
  | ret
  /-- A call that is not dispatched. -/
  | call (method : Operand Method)
  /-- A call dispatched on its receiver, of which a closer type may be known. -/
  | callvirt (method : Operand Method) (receiver : Option (Operand Ty))
  /-- A call dispatched on a receiver of the constraining type. -/
  | constrained (constraint : Operand Ty) (method : Operand Method)
  | newobj (constructor : Operand Method)
  /-- The operand is the element type. -/
  | newarr (element : Operand Ty)
  | box (type : Operand Ty)
  | unboxAny (type : Operand Ty)
  | castclass (type : Operand Ty)
  | isinst (type : Operand Ty)
  | ldtoken (token : Token)
  | ldfld (field : Operand Field)
  | ldflda (field : Operand Field)
  | stfld (field : Operand Field)
  | ldsfld (field : Operand Field)
  | ldsflda (field : Operand Field)
  | stsfld (field : Operand Field)
  | ldftn (method : Operand Method)
  | ldvirtftn (method : Operand Method)
deriving DecidableEq, Repr

/-- The name of an instruction. -/
def Instruction.mnemonic : Instruction → String
  | nop => "nop"
  | ldarg _ => "ldarg"
  | ldloc _ => "ldloc"
  | stloc _ => "stloc"
  | ldnull => "ldnull"
  | ldcI4 _ => "ldc.i4"
  | ldstr _ => "ldstr"
  | dup => "dup"
  | pop => "pop"
  | throw => "throw"
  | ret => "ret"
  | call _ => "call"
  | callvirt _ _ => "callvirt"
  | constrained _ _ => "constrained. callvirt"
  | newobj _ => "newobj"
  | newarr _ => "newarr"
  | box _ => "box"
  | unboxAny _ => "unbox.any"
  | castclass _ => "castclass"
  | isinst _ => "isinst"
  | ldtoken _ => "ldtoken"
  | ldfld _ => "ldfld"
  | ldflda _ => "ldflda"
  | stfld _ => "stfld"
  | ldsfld _ => "ldsfld"
  | ldsflda _ => "ldsflda"
  | stsfld _ => "stsfld"
  | ldftn _ => "ldftn"
  | ldvirtftn _ => "ldvirtftn"

namespace Instruction

/-- The instructions without operand, by name. -/
def plain : List (String × Instruction) :=
  [nop, ldnull, dup, pop, throw, ret].map fun i => (i.mnemonic, i)

/-- The instructions whose operand is a number, by name. -/
def withNumber : List (String × (UInt16 → Instruction)) :=
  [ldarg, ldloc, stloc].map fun i => ((i 0).mnemonic, i)

/-- The instructions whose operand is a method, by name. -/
def withMethod : List (String × (Operand Method → Instruction)) :=
  [call, (callvirt · none), newobj, ldftn, ldvirtftn].map fun i => ((i (.unknown "")).mnemonic, i)

/-- The instructions whose operand is a type, by name. -/
def withType : List (String × (Operand Ty → Instruction)) :=
  [newarr, box, unboxAny, castclass, isinst].map fun i => ((i (.unknown "")).mnemonic, i)

/-- The instructions whose operand is a field, by name. -/
def withField : List (String × (Operand Field → Instruction)) :=
  [ldfld, ldflda, stfld, ldsfld, ldsflda, stsfld].map fun i => ((i (.unknown "")).mnemonic, i)

end Instruction

/-- The instructions of a method, in order. -/
abbrev Body := List Instruction

end AheadOfTime
