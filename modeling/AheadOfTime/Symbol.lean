/-!
# Linker symbols

A display name becomes a linker symbol character by character.  ASCII letters and digits stand
for themselves, an underscore is doubled, and every other character is written as its hexadecimal
code point between two underscores.
-/

set_option autoImplicit false

namespace AheadOfTime.Symbol

/-- The symbol text of one character. -/
def encodeChar (c : Char) : List Char :=
  if c.isAlphanum then [c]
  else if c = '_' then ['_', '_']
  else '_' :: (Nat.toDigits 16 c.toNat ++ ['_'])

/-- The symbol text of a display name. -/
def encode (name : List Char) : List Char :=
  name.flatMap encodeChar

/-- The lead that symbols carry unless another one is chosen. -/
def defaultLead : String := "_D"

end AheadOfTime.Symbol
