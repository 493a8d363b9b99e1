import AheadOfTime.Symbol

/-!
# Linker symbols tell names apart

A symbol is read from left to right.  A letter or a digit stands for itself, and an underscore begins
an escape that goes up to the next underscore.  Nothing between the two stands for an underscore,
hexadecimal digits for the character with that code point; since no digit is an underscore, it is
always clear where an escape ends.  So a name can be read back from its symbol.
-/

set_option autoImplicit false

namespace AheadOfTime.Symbol

/-! ## Code points -/

/-- The number that a hexadecimal digit stands for. -/
def digitValue (c : Char) : Nat :=
  if c.isDigit then c.toNat - '0'.toNat else c.toNat - 'a'.toNat + 10

/-- The number that hexadecimal digits stand for. -/
def number (digits : List Char) : Nat :=
  digits.foldl (fun n c => 16 * n + digitValue c) 0

/-- One more digit makes a number sixteen times as large and adds the digit. -/
theorem number_concat (digits : List Char) (c : Char) :
    number (digits ++ [c]) = 16 * number digits + digitValue c := by
  simp [number]

/-- A digit is read as what it was written for. -/
theorem digitValue_digitChar {d : Nat} (hd : d < 16) : digitValue d.digitChar = d := by
  have hall : ∀ d < 16, digitValue d.digitChar = d := by decide
  exact hall d hd

/-- A number is read back from its digits. -/
theorem number_toDigits (n : Nat) : number (Nat.toDigits 16 n) = n := by
  induction n using Nat.strongRecOn with
  | ind n ih =>
    by_cases hn : n < 16
    · rw [Nat.toDigits_of_lt_base hn, ← List.nil_append [_], number_concat, digitValue_digitChar hn]
      exact Nat.zero_add n
    · have hmod : n % 16 < 16 := Nat.mod_lt _ (by decide)
      rw [Nat.toDigits_of_base_le (by decide) (by omega), number_concat, ih (n / 16) (by omega),
        digitValue_digitChar hmod]
      omega

/-- Digits are letters and figures. -/
theorem isAlphanum_of_mem_toDigits {n : Nat} {c : Char} (hc : c ∈ Nat.toDigits 16 n) :
    c.isAlphanum = true := by
  have hdigit : ∀ d < 16, d.digitChar.isAlphanum = true := by decide
  induction n using Nat.strongRecOn with
  | ind n ih =>
    by_cases hn : n < 16
    · rw [Nat.toDigits_of_lt_base hn, List.mem_singleton] at hc
      exact hc ▸ hdigit n hn
    · rw [Nat.toDigits_of_base_le (by decide) (by omega), List.mem_append,
        List.mem_singleton] at hc
      rcases hc with hc | hc
      · exact ih (n / 16) (by omega) hc
      · exact hc ▸ hdigit (n % 16) (Nat.mod_lt _ (by decide))

/-! ## Reading symbols -/

/-- The character that an escape stands for, by what is between the underscores. -/
def escaped (code : List Char) : Char :=
  if code.isEmpty then '_' else Char.ofNat (number code)

/-- Reads the rest of a symbol.  Inside of an escape, `code?` is what was read of it so far. -/
def decodeFrom : (code? : Option (List Char)) → List Char → Option (List Char)
  | none, [] => some []
  | some _, [] => none
  | none, c :: rest =>
    if c = '_' then decodeFrom (some []) rest else (decodeFrom none rest).map (c :: ·)
  | some code, c :: rest =>
    if c = '_' then (decodeFrom none rest).map (escaped code :: ·)
    else decodeFrom (some (code ++ [c])) rest

/-- The name that a symbol stands for. -/
def decode (symbol : List Char) : Option (List Char) :=
  decodeFrom none symbol

/-- An escape goes up to the next underscore. -/
theorem decodeFrom_escape {code : List Char} (hcode : '_' ∉ code) (before rest : List Char) :
    decodeFrom (some before) (code ++ '_' :: rest) =
      (decodeFrom none rest).map (escaped (before ++ code) :: ·) := by
  induction code generalizing before with
  | nil => rw [List.nil_append, decodeFrom, if_pos rfl, List.append_nil]
  | cons c code ih =>
    obtain ⟨hc, hcode⟩ := List.ne_and_not_mem_of_not_mem_cons hcode
    rw [List.cons_append, decodeFrom, if_neg hc.symm, ih hcode, List.append_assoc,
      List.singleton_append]

/-- The text of a character is read as that character, whatever follows. -/
theorem decodeFrom_encodeChar (c : Char) (rest : List Char) :
    decodeFrom none (encodeChar c ++ rest) = (decodeFrom none rest).map (c :: ·) := by
  have hunderscore : Char.isAlphanum '_' = false := by decide
  unfold encodeChar
  split
  · next hc =>
    have hne : c ≠ '_' := by
      rintro rfl
      exact absurd (hunderscore.symm.trans hc) Bool.false_ne_true
    rw [List.singleton_append, decodeFrom, if_neg hne]
  · split
    · next hc =>
      rw [hc]
      exact @decodeFrom_escape [] List.not_mem_nil [] rest
    · have hdigits : '_' ∉ Nat.toDigits 16 c.toNat := fun hmem =>
        absurd (hunderscore.symm.trans (isAlphanum_of_mem_toDigits hmem)) Bool.false_ne_true
      have hescaped : escaped (Nat.toDigits 16 c.toNat) = c := by
        rw [escaped, if_neg (by simp), number_toDigits, Char.ofNat_toNat]
      rw [List.cons_append, List.append_assoc, List.singleton_append, decodeFrom, if_pos rfl,
        decodeFrom_escape hdigits, List.nil_append, hescaped]

/-- A name is read back from its encoding. -/
theorem decode_encode (name : List Char) : decode (encode name) = some name := by
  induction name with
  | nil => rfl
  | cons c name ih =>
    rw [decode] at ih ⊢
    rw [encode, List.flatMap_cons, decodeFrom_encodeChar, ← encode, ih]
    rfl

/-- Different names have different symbols. -/
theorem encode_inj {a b : List Char} (h : encode a = encode b) : a = b := by
  have hdecode := congrArg decode h
  rw [decode_encode, decode_encode] at hdecode
  exact Option.some.inj hdecode

/-- Encodings are written with letters, figures and underscores. -/
theorem mem_encodeChar {c d : Char} (hd : d ∈ encodeChar c) : d.isAlphanum = true ∨ d = '_' := by
  unfold encodeChar at hd
  split at hd
  · next hc =>
    rw [List.mem_singleton.1 hd]
    exact .inl hc
  · split at hd
    · exact .inr (by simpa using hd)
    · rw [List.mem_cons, List.mem_append, List.mem_singleton] at hd
      rcases hd with hd | hd | hd
      · exact .inr hd
      · exact .inl (isAlphanum_of_mem_toDigits hd)
      · exact .inr hd

/-- A name can be read back from its symbol, which has only letters, digits and underscores. -/
theorem encode_readable (name : List Char) : decode (encode name) = some name ∧
    ∀ c ∈ encode name, c.isAlphanum = true ∨ c = '_' := by
  refine ⟨decode_encode name, fun c hc => ?_⟩
  obtain ⟨d, -, hd⟩ := List.mem_flatMap.1 hc
  exact mem_encodeChar hd

end AheadOfTime.Symbol
