/-!
# Sets of small indices

A set of natural numbers kept as one bit per index, sixty-four indices to a word.  The words grow
when an index beyond them is inserted and never shrink; asking for an index beyond them is answered
with `false`.
-/

set_option autoImplicit false

namespace AheadOfTime

/-- A set of indices; index `i` is bit `i % 64` of word `i / 64`. -/
structure IndexSet where
  /-- The words, sixty-four indices each. -/
  words : Array (BitVec 64) := #[]
deriving DecidableEq, Repr

namespace IndexSet

/-- The set without members. -/
def empty : IndexSet := {}

/-- The set without members, with room for the indices below `n`. -/
def withCapacity (n : Nat) : IndexSet :=
  ⟨Array.emptyWithCapacity ((n + 63) / 64)⟩

/-- The word with number `w`; words beyond the last one are zero. -/
def word (s : IndexSet) (w : Nat) : BitVec 64 :=
  s.words.getD w 0

/-- The word whose only bit is that of index `i`. -/
def mask (i : Nat) : BitVec 64 :=
  1#64 <<< (i % 64)

/-- Whether `i` is a member. -/
def contains (s : IndexSet) (i : Nat) : Bool :=
  s.word (i / 64) &&& mask i != 0#64

/-- The words, followed by as many zero words as are missing up to `n` of them. -/
def padded (s : IndexSet) (n : Nat) : Array (BitVec 64) :=
  s.words ++ Array.replicate (n - s.words.size) 0#64

/-- Adds `i`, and says whether it was missing. -/
def add (s : IndexSet) (i : Nat) : Bool × IndexSet :=
  let words := s.padded (i / 64 + 1)
  (words.getD (i / 64) 0 &&& mask i == 0#64, ⟨words.modify (i / 64) (· ||| mask i)⟩)

/-- The set with `i` as a further member. -/
def insert (s : IndexSet) (i : Nat) : IndexSet :=
  (s.add i).2

/-- Takes `i` out, and says whether it was a member. -/
def remove (s : IndexSet) (i : Nat) : Bool × IndexSet :=
  if s.contains i then (true, ⟨s.words.modify (i / 64) (· &&& ~~~ mask i)⟩) else (false, s)

/-- Adds the members of `t`, and says whether one of them was missing. -/
def absorb (s t : IndexSet) : Bool × IndexSet :=
  let words := s.padded t.words.size
  let joined := words.mapIdx fun w bits => bits ||| t.word w
  ((words.zip joined).any fun (old, new) => old != new, ⟨joined⟩)

/-- Clearing the lowest bit of a word makes it a smaller number. -/
theorem toNat_clear_lt {bits : BitVec 64} (h : bits ≠ 0#64) :
    (bits &&& (bits - 1#64)).toNat < bits.toNat := by
  have hpos : bits.toNat ≠ 0 := fun hzero => h (BitVec.eq_of_toNat_eq hzero)
  have hsub : (bits - 1#64).toNat = bits.toNat - 1 := by
    rw [BitVec.toNat_sub_of_le (by rw [BitVec.le_def, BitVec.toNat_ofNat]; omega)]
    rfl
  rw [BitVec.toNat_and, hsub]
  exact Nat.lt_of_le_of_lt Nat.and_le_right (by omega)

/-- The positions of the bits of a word, ascending: the lowest one, and then those that are left when
it is cleared. -/
def bitsOf (bits : BitVec 64) : List Nat :=
  if bits = 0#64 then [] else bits.ctz.toNat :: bitsOf (bits &&& (bits - 1#64))
  termination_by bits.toNat
  decreasing_by exact toNat_clear_lt ‹_›

/-- The members, ascending. -/
def toList (s : IndexSet) : List Nat :=
  s.words.toList.zipIdx.flatMap fun (bits, w) => (bitsOf bits).map (64 * w + ·)

/-- The number of members: that of the bits, word by word. -/
def size (s : IndexSet) : Nat :=
  s.words.toList.foldr (fun bits n => bits.cpop.toNat + n) 0

/-- Whether there is no member. -/
def isEmpty (s : IndexSet) : Bool :=
  s.words.all (· == 0#64)

/-- The set with the members of a list, inserted in order. -/
def ofList (l : List Nat) : IndexSet :=
  l.foldl insert empty

/-- The members between braces, separated by commas. -/
def render (s : IndexSet) : String :=
  "\x7b" ++ String.intercalate ", " (s.toList.map toString) ++ "\x7d"

end IndexSet

end AheadOfTime
