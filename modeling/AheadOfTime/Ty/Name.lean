import AheadOfTime.Symbol
import AheadOfTime.Ty.Basic

/-!
# Names of types

The display name of a type, and the linker symbol made from it.  The names of generic parameters can
be read back without a program.
-/

set_option autoImplicit false

namespace AheadOfTime.Ty

/-- What follows the element's name in the name of an array. -/
def rankChars : Option Nat → List Char
  | none => ['[', ']']
  | some 1 => ['[', '*', ']']
  | some r => '[' :: (List.replicate (r - 1) ',' ++ [']'])

/-- What stands before the number of a generic parameter. -/
def paramMarks : ParamKind → List Char
  | .type => ['!']
  | .method => ['!', '!']

/-- The name of the placeholder. -/
def canonName : String := "System.__Canon"

/-- The characters of the display name, followed by `rest`.  If the type is applied to a further
argument, that argument is the first thing in `rest`. -/
def charsThen (applied : Bool) : Ty → List Char → List Char
  | .decl d, rest => d.fullName.toList ++ if applied then '<' :: rest else rest
  | .app f a, rest =>
    f.charsThen true (a.charsThen false ((if applied then ',' else '>') :: rest))
  | .array e r, rest => e.charsThen false (rankChars r ++ rest)
  | .pointer t, rest => t.charsThen false ('*' :: rest)
  | .byRef t, rest => t.charsThen false ('&' :: rest)
  | .param k i, rest => paramMarks k ++ Nat.toDigits 10 i ++ rest
  | .canon, rest => canonName.toList ++ rest

/-- The characters of the display name. -/
def chars (t : Ty) : List Char :=
  t.charsThen false []

/-- The characters of the display names of a list of types, separated by commas. -/
def charsAll (ts : List Ty) : List Char :=
  [','].intercalate (ts.map chars)

/-- The display name. -/
def name (t : Ty) : String :=
  String.ofList t.chars

/-- Reads the number of a generic parameter: decimal digits, which a plus sign may precede, for a
number of 32 bits. -/
def paramNumber? (cs : List Char) : Option Nat :=
  let digits := if cs.head? = some '+' then cs.tail else cs
  let number := Nat.ofDigitChars 10 digits 0
  if !digits.isEmpty && digits.all Char.isDigit && number < UInt32.size then some number else none

/-- Reads the name of a generic parameter. -/
def ofParamName? (name : String) : Option Ty :=
  match name.toList with
  | '!' :: '!' :: rest => (paramNumber? rest).map (.param .method)
  | '!' :: rest => (paramNumber? rest).map (.param .type)
  | _ => none

/-- The linker symbol of the type, with a given lead. -/
def symbol (lead : String) (t : Ty) : String :=
  lead ++ "T" ++ String.ofList (Symbol.encode t.chars)

end AheadOfTime.Ty
