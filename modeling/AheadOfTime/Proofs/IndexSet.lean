import AheadOfTime.IndexSet
import Mathlib.Algebra.Group.Nat.Defs
import Mathlib.Data.Finset.Card

/-!
# Sets of small indices as finite sets

The words of an index set stand for a finite set of natural numbers.  `contains` is membership, and
each operation is followed through the words: adding, removing and joining change single bits, and
whatever stands beyond the last word counts as zero.  The members are read off by taking the lowest
bit of a word again and again; this visits every bit once and in ascending order.

Two sets may have the same members and different words, for zero words at the end make no
difference to `contains`.  They arise only from removing: as long as indices are only added, the
last word is never zero (`Compact`), and the members determine the words.
-/

set_option autoImplicit false

namespace AheadOfTime.IndexSet

/-! ## Bits of a word -/

/-- The mask of an index has the bit at its place in the word, and no other. -/
theorem getLsbD_mask (i k : Nat) : (mask i).getLsbD k = decide (i % 64 = k) := by
  have hmask : mask i = BitVec.twoPow 64 (i % 64) := rfl
  rw [hmask, BitVec.getLsbD_twoPow, decide_eq_true (Nat.mod_lt i (by decide)), Bool.true_and]

/-- A word meets the mask of an index if it has the bit of the index. -/
theorem and_mask_eq_zero (bits : BitVec 64) (i : Nat) :
    bits &&& mask i = 0#64 ↔ bits.getLsbD (i % 64) = false := by
  have hmask : mask i = BitVec.twoPow 64 (i % 64) := rfl
  have hne : BitVec.twoPow 64 (i % 64) ≠ 0#64 := by
    intro hzero
    have hbit := getLsbD_mask i (i % 64)
    rw [hmask, hzero] at hbit
    simp at hbit
  rw [hmask, BitVec.and_twoPow]
  cases bits.getLsbD (i % 64) <;> simp [hne]

/-- Above its lowest bit, a word that is not zero is a multiple of a power of two. -/
theorem exists_toNat_eq {bits : BitVec 64} (h : bits ≠ 0#64) :
    ∃ q, bits.toNat = 2 ^ (bits.ctz.toNat + 1) * q + 2 ^ bits.ctz.toNat := by
  refine ⟨bits.toNat / 2 ^ (bits.ctz.toNat + 1), ?_⟩
  have hmod : bits.toNat % 2 ^ (bits.ctz.toNat + 1) = 2 ^ bits.ctz.toNat := by
    refine Nat.eq_of_testBit_eq fun k => ?_
    rw [Nat.testBit_mod_two_pow, Nat.testBit_two_pow]
    rcases Nat.lt_trichotomy k bits.ctz.toNat with hk | hk | hk
    · have hbit : bits.toNat.testBit k = false := BitVec.getLsbD_false_of_lt_ctz hk
      rw [hbit, Bool.and_false, decide_eq_false (by omega)]
    · have hbit : bits.toNat.testBit bits.ctz.toNat = true := BitVec.getLsbD_true_ctz_of_ne_zero h
      rw [hk, hbit, decide_eq_true (by omega), decide_eq_true rfl, Bool.and_self]
    · rw [decide_eq_false (by omega), Bool.false_and, decide_eq_false (by omega)]
  rw [← hmod, Nat.div_add_mod]

/-- Taking one from a word and keeping what both have in common clears the lowest bit. -/
theorem getLsbD_clear {bits : BitVec 64} (h : bits ≠ 0#64) (k : Nat) :
    (bits &&& (bits - 1#64)).getLsbD k = (bits.getLsbD k && decide (k ≠ bits.ctz.toNat)) := by
  obtain ⟨q, hq⟩ := exists_toNat_eq h
  generalize bits.ctz.toNat = z at hq ⊢
  have hpos : 0 < 2 ^ z := Nat.two_pow_pos z
  have hlt : 2 ^ z < 2 ^ (z + 1) := Nat.pow_lt_pow_right (by decide) (Nat.lt_succ_self z)
  have hsub : (bits - 1#64).toNat = 2 ^ (z + 1) * q + (2 ^ z - 1) := by
    rw [BitVec.toNat_sub_of_le (by rw [BitVec.le_def, BitVec.toNat_ofNat]; omega), hq]
    exact Nat.add_sub_assoc hpos _
  rw [BitVec.getLsbD_and, BitVec.getLsbD, BitVec.getLsbD, hsub, hq,
    Nat.testBit_two_pow_mul_add _ hlt, Nat.testBit_two_pow_mul_add _ (by omega)]
  split
  · -- up to the lowest bit, that one is the only one of the word, and the other number lacks it
    rw [Nat.testBit_two_pow, Nat.testBit_two_pow_sub_one]
    by_cases hk : z = k <;> simp [hk]
  · rw [decide_eq_true (by omega), Bool.and_self, Bool.and_true]

/-- The bits that are listed are those that are set. -/
theorem mem_bitsOf (bits : BitVec 64) (k : Nat) : k ∈ bitsOf bits ↔ bits.getLsbD k = true := by
  fun_induction bitsOf bits with
  | case1 => simp
  | case2 bits h ih =>
    rw [List.mem_cons, ih, getLsbD_clear h, Bool.and_eq_true, decide_eq_true_eq]
    constructor
    · rintro (rfl | hk)
      · exact BitVec.getLsbD_true_ctz_of_ne_zero h
      · exact hk.1
    · intro hk
      by_cases heq : k = bits.ctz.toNat
      · exact .inl heq
      · exact .inr ⟨hk, heq⟩

/-- The bits of a word are listed from the lowest to the highest. -/
theorem pairwise_bitsOf (bits : BitVec 64) : (bitsOf bits).Pairwise (· < ·) := by
  fun_induction bitsOf bits with
  | case1 => exact .nil
  | case2 bits h ih =>
    refine .cons (fun k hk => ?_) ih
    rw [mem_bitsOf, getLsbD_clear h, Bool.and_eq_true, decide_eq_true_eq] at hk
    refine Nat.lt_of_le_of_ne (Nat.le_of_not_lt fun hlt => ?_) (Ne.symm hk.2)
    rw [BitVec.getLsbD_false_of_lt_ctz hlt] at hk
    exact Bool.false_ne_true hk.1

/-- Counting the bits of a word one by one. -/
theorem cpopNatRec_eq_countP (bits : BitVec 64) (n : Nat) :
    bits.cpopNatRec n 0 = (List.range n).countP bits.getLsbD := by
  induction n with
  | zero => rfl
  | succ n ih =>
    rw [BitVec.cpopNatRec_succ, BitVec.cpopNatRec_add, ih, List.range_succ, List.countP_append,
      List.countP_singleton]
    cases bits.getLsbD n <;> rfl

/-- As many bits are listed as are set. -/
theorem length_bitsOf (bits : BitVec 64) : (bitsOf bits).length = bits.cpop.toNat := by
  have hperm : (bitsOf bits).Perm ((List.range 64).filter bits.getLsbD) := by
    refine (List.perm_ext_iff_of_nodup ((pairwise_bitsOf bits).imp Nat.ne_of_lt)
      (List.nodup_range.filter _)).2 fun k => ?_
    rw [mem_bitsOf, List.mem_filter, List.mem_range]
    exact ⟨fun hk => ⟨BitVec.lt_of_getLsbD hk, hk⟩, fun hk => hk.2⟩
  rw [hperm.length_eq, BitVec.toNat_cpop, cpopNatRec_eq_countP, List.countP_eq_length_filter]

/-! ## Membership -/

/-- An index is a member exactly if its bit is set in its word. -/
theorem contains_eq_getLsbD (s : IndexSet) (i : Nat) :
    s.contains i = (s.word (i / 64)).getLsbD (i % 64) := by
  have hbit := and_mask_eq_zero (s.word (i / 64)) i
  rw [contains, Bool.eq_iff_iff, bne_iff_ne, Ne, hbit, Bool.not_eq_false]

/-- The bits of the words are the members. -/
theorem getLsbD_word (s : IndexSet) (w : Nat) {k : Nat} (hk : k < 64) :
    (s.word w).getLsbD k = s.contains (64 * w + k) := by
  have hdiv : (64 * w + k) / 64 = w := by omega
  have hmod : (64 * w + k) % 64 = k := by omega
  rw [contains_eq_getLsbD, hdiv, hmod]

/-- Sets with the same members have the same words, up to zero words at the end. -/
theorem word_eq_iff (s t : IndexSet) :
    (∀ w, s.word w = t.word w) ↔ ∀ i, s.contains i = t.contains i := by
  constructor
  · intro h i
    rw [contains, contains, h]
  · intro h w
    refine BitVec.eq_of_getLsbD_eq fun k hk => ?_
    rw [s.getLsbD_word w hk, t.getLsbD_word w hk, h]

/-- Past the words that are there, all words are zero. -/
theorem word_of_size_le (s : IndexSet) {w : Nat} (h : s.words.size ≤ w) : s.word w = 0#64 := by
  rw [word, Array.getD_eq_getD_getElem?, Array.getElem?_eq_none h]
  rfl

/-- The members lie within the words. -/
theorem div_lt_of_contains {s : IndexSet} {i : Nat} (h : s.contains i = true) :
    i / 64 < s.words.size := by
  by_contra hlt
  rw [contains_eq_getLsbD, s.word_of_size_le (Nat.le_of_not_lt hlt)] at h
  simp at h

/-- An empty set has no members. -/
theorem contains_empty (i : Nat) : empty.contains i = false := by
  rw [contains_eq_getLsbD, empty.word_of_size_le (Nat.zero_le _)]
  exact BitVec.getLsbD_zero

/-- Words that are missing are zero. -/
theorem getD_padded (s : IndexSet) (n w : Nat) : (s.padded n).getD w 0 = s.word w := by
  unfold padded word
  simp only [Array.getD_eq_getD_getElem?, Array.getElem?_append, Array.getElem?_replicate]
  split
  · rfl
  · next hw =>
    rw [Array.getElem?_eq_none (Nat.le_of_not_lt hw)]
    split <;> rfl

/-- Padding makes room for a number of words and never takes any away. -/
theorem size_padded (s : IndexSet) (n : Nat) : (s.padded n).size = max s.words.size n := by
  rw [padded, Array.size_append, Array.size_replicate]
  omega

/-! ## Adding an index -/

/-- Adding an index sets its bit and leaves all other words alone. -/
theorem word_insert (s : IndexSet) (i w : Nat) :
    (s.insert i).word w = if i / 64 = w then s.word w ||| mask i else s.word w := by
  have hsize : i / 64 < (s.padded (i / 64 + 1)).size := by
    rw [size_padded]
    omega
  rw [← s.getD_padded (i / 64 + 1) w]
  unfold insert add
  rw [word, Array.getD_eq_getD_getElem?, Array.getD_eq_getD_getElem?, Array.getElem?_modify]
  split
  · next hw =>
    rw [← hw, Array.getElem?_eq_getElem hsize]
    rfl
  · rfl

/-- After an index was added, it is a member besides those before. -/
theorem contains_insert (s : IndexSet) (i j : Nat) :
    (s.insert i).contains j = (decide (i = j) || s.contains j) := by
  rw [contains_eq_getLsbD, contains_eq_getLsbD, word_insert]
  split
  · next hword =>
    -- in the same word the bits tell indices apart
    have hbits : i % 64 = j % 64 ↔ i = j := by omega
    rw [BitVec.getLsbD_or, getLsbD_mask, Bool.or_comm, decide_eq_decide.2 hbits]
  · next hword =>
    have hne : i ≠ j := fun heq => hword (by rw [heq])
    rw [decide_eq_false hne, Bool.false_or]

/-- Adding an index reports whether it was new. -/
theorem fst_add (s : IndexSet) (i : Nat) : (s.add i).1 = !s.contains i := by
  show ((s.padded (i / 64 + 1)).getD (i / 64) 0 &&& mask i == 0#64) = _
  rw [getD_padded, contains, bne, Bool.not_not]

/-! ## Removing an index -/

/-- After an index was taken out, the others remain. -/
theorem contains_remove (s : IndexSet) (i j : Nat) :
    (s.remove i).2.contains j = (!decide (i = j) && s.contains j) := by
  unfold remove
  split
  · have hword : word ⟨s.words.modify (i / 64) (· &&& ~~~ mask i)⟩ (j / 64) =
        if i / 64 = j / 64 then s.word (j / 64) &&& ~~~ mask i else s.word (j / 64) := by
      unfold word
      rw [Array.getD_eq_getD_getElem?, Array.getD_eq_getD_getElem?, Array.getElem?_modify]
      split
      · cases s.words[j / 64]? with
        | none => simp
        | some bits => rfl
      · rfl
    rw [contains_eq_getLsbD, contains_eq_getLsbD, hword]
    split
    · next hdiv =>
      have hbits : i % 64 = j % 64 ↔ i = j := by omega
      have hlt : j % 64 < 64 := Nat.mod_lt _ (by decide)
      rw [BitVec.getLsbD_and, BitVec.getLsbD_not, getLsbD_mask, decide_eq_true hlt, Bool.true_and,
        Bool.and_comm, decide_eq_decide.2 hbits]
    · next hdiv =>
      have hne : i ≠ j := fun heq => hdiv (by rw [heq])
      rw [decide_eq_false hne, Bool.not_false, Bool.true_and]
  · next hi =>
    by_cases hij : i = j
    · subst hij
      simpa using hi
    · simp [hij]

/-- Taking out an index reports whether it was there. -/
theorem fst_remove (s : IndexSet) (i : Nat) : (s.remove i).1 = s.contains i := by
  unfold remove
  split
  · next hi => exact hi.symm
  · next hi => exact (Bool.not_eq_true _ ▸ hi : s.contains i = false).symm

/-! ## Joining sets -/

/-- Absorbing a set joins the words bit by bit. -/
theorem word_absorb (s t : IndexSet) (w : Nat) :
    (s.absorb t).2.word w = s.word w ||| t.word w := by
  show ((s.padded t.words.size).mapIdx fun w bits => bits ||| t.word w).getD w 0 = _
  rw [Array.getD_eq_getD_getElem?, Array.getElem?_mapIdx, ← s.getD_padded t.words.size w,
    Array.getD_eq_getD_getElem?]
  cases hw : (s.padded t.words.size)[w]? with
  | some bits => rfl
  | none =>
    have hsize := Array.getElem?_eq_none_iff.1 hw
    rw [size_padded] at hsize
    rw [t.word_of_size_le (by omega)]
    simp

/-- After a set was absorbed, the members are those of both. -/
theorem contains_absorb (s t : IndexSet) (i : Nat) :
    (s.absorb t).2.contains i = (s.contains i || t.contains i) := by
  rw [contains_eq_getLsbD, contains_eq_getLsbD, contains_eq_getLsbD, word_absorb,
    BitVec.getLsbD_or]

/-- Joining changes the first set if one of its words changes. -/
theorem fst_absorb (s t : IndexSet) :
    (s.absorb t).1 = true ↔ ∃ w, s.word w ≠ s.word w ||| t.word w := by
  have hword : ∀ {w : Nat} (hw : w < (s.padded t.words.size).size),
      (s.padded t.words.size)[w] = s.word w := by
    intro w hw
    rw [← s.getD_padded t.words.size w, Array.getD_eq_getD_getElem?, Array.getElem?_eq_getElem hw]
    rfl
  unfold absorb
  rw [Array.any_eq_true]
  constructor
  · rintro ⟨w, hw, hne⟩
    rw [Array.size_zip, Array.size_mapIdx, Nat.min_self] at hw
    simp only [Array.getElem_zip, Array.getElem_mapIdx, hword hw, bne_iff_ne] at hne
    exact ⟨w, hne⟩
  · rintro ⟨w, hne⟩
    have hw : w < (s.padded t.words.size).size := by
      rw [size_padded]
      by_contra hlt
      rw [t.word_of_size_le (by omega)] at hne
      simp at hne
    refine ⟨w, by rwa [Array.size_zip, Array.size_mapIdx, Nat.min_self], ?_⟩
    simpa only [Array.getElem_zip, Array.getElem_mapIdx, hword hw, bne_iff_ne] using hne

/-- Absorbing a set reports whether it had a member that was new. -/
theorem fst_absorb_iff_exists (s t : IndexSet) :
    (s.absorb t).1 = true ↔ ∃ i, t.contains i = true ∧ s.contains i = false := by
  rw [fst_absorb]
  have hwords : (∀ w, s.word w = s.word w ||| t.word w) ↔
      ∀ i, s.contains i = (s.contains i || t.contains i) := by
    simp only [← word_absorb, ← contains_absorb]
    exact word_eq_iff s (s.absorb t).2
  rw [← not_iff_not]
  push Not
  rw [hwords]
  refine forall_congr' fun i => ?_
  cases s.contains i <;> simp

/-! ## Going through the members -/

/-- The members are listed. -/
theorem mem_toList (s : IndexSet) (i : Nat) : i ∈ s.toList ↔ s.contains i = true := by
  have hmem : i ∈ s.toList ↔
      ∃ w bits, s.words.toList[w]? = some bits ∧ ∃ k, bits.getLsbD k = true ∧ 64 * w + k = i := by
    simp only [toList, List.mem_flatMap, List.mem_map, mem_bitsOf, Prod.exists,
      List.mem_zipIdx_iff_getElem?]
    exact exists_comm
  rw [hmem, contains_eq_getLsbD]
  constructor
  · rintro ⟨w, bits, hw, k, hbit, rfl⟩
    have hk : k < 64 := BitVec.lt_of_getLsbD hbit
    have hword : s.word w = bits := by
      rw [word, Array.getD_eq_getD_getElem?, ← Array.getElem?_toList, hw]
      rfl
    rwa [← contains_eq_getLsbD, ← s.getLsbD_word w hk, hword]
  · intro hbit
    have hw : i / 64 < s.words.size := div_lt_of_contains (s.contains_eq_getLsbD i ▸ hbit)
    refine ⟨i / 64, s.word (i / 64), ?_, i % 64, hbit, Nat.div_add_mod i 64⟩
    rw [Array.getElem?_toList, word, Array.getD_eq_getD_getElem?, Array.getElem?_eq_getElem hw]
    rfl

/-- The members are listed in order, each of them once. -/
theorem pairwise_toList (s : IndexSet) : s.toList.Pairwise (· < ·) := by
  refine List.pairwise_flatMap.2 ⟨fun p _ => ?_, ?_⟩
  · exact List.pairwise_map.2 ((pairwise_bitsOf p.1).imp fun h => Nat.add_lt_add_left h _)
  · -- the indices of a word are below those of the words after it
    have hwords : (s.words.toList.zipIdx).Pairwise fun p q => p.2 < q.2 := by
      refine List.pairwise_map.1 ?_
      rw [List.zipIdx_map_snd]
      exact List.pairwise_lt_range'
    refine hwords.imp fun {p q} hpq i hi j hj => ?_
    obtain ⟨k, hk, rfl⟩ := List.mem_map.1 hi
    obtain ⟨l, -, rfl⟩ := List.mem_map.1 hj
    have hlt : k < 64 := BitVec.lt_of_getLsbD ((mem_bitsOf _ _).1 hk)
    omega

/-- As many members are listed as are counted. -/
theorem length_toList (s : IndexSet) : s.toList.length = s.size := by
  have hwords : ∀ (words : List (BitVec 64)) (start : Nat),
      ((words.zipIdx start).flatMap fun p => (bitsOf p.1).map (64 * p.2 + ·)).length =
        words.foldr (fun bits n => bits.cpop.toNat + n) 0 := by
    intro words
    induction words with
    | nil => exact fun _ => rfl
    | cons bits words ih =>
      intro start
      rw [List.zipIdx_cons, List.flatMap_cons, List.length_append, List.length_map, length_bitsOf,
        ih, List.foldr_cons]
  exact hwords s.words.toList 0

/-- A set is empty exactly if it has no members. -/
theorem isEmpty_iff (s : IndexSet) : s.isEmpty = true ↔ ∀ i, s.contains i = false := by
  have hzero : s.isEmpty = true ↔ ∀ w, s.word w = empty.word w := by
    unfold isEmpty
    rw [Array.all_eq_true]
    constructor
    · intro h w
      rw [empty.word_of_size_le (Nat.zero_le w)]
      by_cases hw : w < s.words.size
      · rw [word, Array.getD_eq_getD_getElem?, Array.getElem?_eq_getElem hw]
        exact eq_of_beq (h w hw)
      · exact s.word_of_size_le (Nat.le_of_not_lt hw)
    · intro h w hw
      have hword := h w
      rw [empty.word_of_size_le (Nat.zero_le w), word, Array.getD_eq_getD_getElem?,
        Array.getElem?_eq_getElem hw] at hword
      exact beq_iff_eq.2 hword
  rw [hzero, word_eq_iff]
  refine forall_congr' fun i => ?_
  rw [contains_empty]

/-! ## Words without a zero at the end -/

/-- The last word, if there is one, has a member. -/
def Compact (s : IndexSet) : Prop :=
  ∀ n, s.words.size = n + 1 → ∃ i, i / 64 = n ∧ s.contains i = true

/-- Adding an index leaves no zero word at the end. -/
theorem compact_insert {s : IndexSet} (hs : s.Compact) (i : Nat) : (s.insert i).Compact := by
  intro n hn
  have hsize : (s.insert i).words.size = max s.words.size (i / 64 + 1) := by
    rw [← size_padded]
    exact Array.size_modify
  by_cases hi : i / 64 = n
  · exact ⟨i, hi, by simp [contains_insert]⟩
  · obtain ⟨j, hj, hmem⟩ := hs n (by omega)
    exact ⟨j, hj, by rw [contains_insert, hmem, Bool.or_true]⟩

/-- Absorbing a set leaves no zero word at the end. -/
theorem compact_absorb {s t : IndexSet} (hs : s.Compact) (ht : t.Compact) :
    (s.absorb t).2.Compact := by
  intro n hn
  have hsize : (s.absorb t).2.words.size = max s.words.size t.words.size := by
    rw [← size_padded]
    exact Array.size_mapIdx
  -- the longer one of the two has a member in the last word
  rcases Nat.le_total s.words.size t.words.size with hle | hle
  · obtain ⟨i, hi, hmem⟩ := ht n (by omega)
    exact ⟨i, hi, by rw [contains_absorb, hmem, Bool.or_true]⟩
  · obtain ⟨i, hi, hmem⟩ := hs n (by omega)
    exact ⟨i, hi, by rw [contains_absorb, hmem, Bool.true_or]⟩

/-- A set without a zero word at the end has no more words than a set that includes it. -/
theorem Compact.size_le {s t : IndexSet} (hs : s.Compact)
    (h : ∀ i, s.contains i = true → t.contains i = true) : s.words.size ≤ t.words.size := by
  cases hn : s.words.size with
  | zero => exact Nat.zero_le _
  | succ n =>
    obtain ⟨i, rfl, hmem⟩ := hs n hn
    exact div_lt_of_contains (h i hmem)

/-- Without zero words at the end, the members determine the words. -/
theorem Compact.eq_iff {s t : IndexSet} (hs : s.Compact) (ht : t.Compact) :
    s = t ↔ ∀ i, s.contains i = t.contains i := by
  refine ⟨fun h i => h ▸ rfl, fun h => ?_⟩
  have hsize : s.words.size = t.words.size := Nat.le_antisymm
    (hs.size_le fun i hi => h i ▸ hi) (ht.size_le fun i hi => (h i).symm ▸ hi)
  have hwords : s.words = t.words := by
    refine Array.ext hsize fun w hw hw' => ?_
    have hword := (word_eq_iff s t).2 h w
    rwa [word, word, Array.getD_eq_getD_getElem?, Array.getD_eq_getD_getElem?,
      Array.getElem?_eq_getElem hw, Array.getElem?_eq_getElem hw'] at hword
  cases s
  cases t
  exact congrArg IndexSet.mk hwords

/-! ## Sets that are made step by step -/

/-- How a set is made. -/
inductive Recipe where
  /-- Nothing is in it yet. -/
  | empty
  /-- Nothing is in it yet, but there is room. -/
  | withCapacity (n : Nat)
  /-- An index is added. -/
  | add (r : Recipe) (i : Nat)
  /-- An index is taken out. -/
  | remove (r : Recipe) (i : Nat)
  /-- The members of another set are added. -/
  | absorb (r t : Recipe)
deriving DecidableEq, Repr

namespace Recipe

/-- The set that is made. -/
def build : Recipe → IndexSet
  | empty => .empty
  | withCapacity n => .withCapacity n
  | add r i => (r.build.add i).2
  | remove r i => (r.build.remove i).2
  | absorb r t => (r.build.absorb t.build).2

/-- The numbers that should be in it. -/
def members : Recipe → Finset Nat
  | empty => ∅
  | withCapacity _ => ∅
  | add r i => {i} ∪ r.members
  | remove r i => r.members.erase i
  | absorb r t => r.members ∪ t.members

/-- Whether nothing is ever taken out. -/
def onlyAdds : Recipe → Bool
  | empty => true
  | withCapacity _ => true
  | add r _ => r.onlyAdds
  | remove _ _ => false
  | absorb r t => r.onlyAdds && t.onlyAdds

/-- The set that is made has the members that it should have. -/
theorem contains_build (r : Recipe) (i : Nat) : r.build.contains i = true ↔ i ∈ r.members := by
  induction r with
  | empty => simp [build, members, contains_empty]
  | withCapacity n =>
    have hempty : IndexSet.withCapacity n = .empty := rfl
    simp [build, members, hempty, contains_empty]
  | add r j ih =>
    have hcontains : (r.build.add j).2.contains i = _ := contains_insert r.build j i
    rw [build, members, hcontains, Bool.or_eq_true, ih, decide_eq_true_eq, Finset.mem_union,
      Finset.mem_singleton, eq_comm]
  | remove r j ih =>
    rw [build, members, contains_remove, Bool.and_eq_true, ih, Finset.mem_erase, Bool.not_eq_true',
      decide_eq_false_iff_not, eq_comm]
  | absorb r t ihr iht =>
    rw [build, members, contains_absorb, Bool.or_eq_true, ihr, iht, Finset.mem_union]

/-- If nothing is ever taken out, there is no zero word at the end. -/
theorem compact_build {r : Recipe} (h : r.onlyAdds = true) : r.build.Compact := by
  induction r with
  | empty => exact fun _ hn => absurd hn (Nat.succ_ne_zero _).symm
  | withCapacity n => exact fun _ hn => absurd hn (Nat.succ_ne_zero _).symm
  | add r i ih => exact compact_insert (ih h) i
  | remove r i ih => cases h
  | absorb r t ihr iht =>
    rw [onlyAdds, Bool.and_eq_true] at h
    exact compact_absorb (ihr h.1) (iht h.2)

/-- What should not be in the set is not. -/
theorem contains_build_eq_false (r : Recipe) (i : Nat) :
    r.build.contains i = false ↔ i ∉ r.members := by
  rw [← r.contains_build, Bool.not_eq_true]

/-- The listed members are those that should be there. -/
theorem toFinset_toList_build (r : Recipe) : r.build.toList.toFinset = r.members := by
  ext i
  rw [List.mem_toFinset, mem_toList, contains_build]

/-- As many members are counted as should be there. -/
theorem size_build (r : Recipe) : r.build.size = r.members.card := by
  have hnodup : r.build.toList.Nodup := r.build.pairwise_toList.imp Nat.ne_of_lt
  rw [← length_toList, ← toFinset_toList_build, List.toFinset_card_of_nodup hnodup]

/-- However a set of indices is made, it stands for a finite set of numbers: `contains` is
membership, adding and removing tell whether they change that set, joining makes the union and tells
whether it adds a member, `size` is the number of members, `isEmpty` tells whether there is none, and
`toList` lists them in ascending order.  Sets from which nothing was ever taken out are equal exactly
if they stand for the same numbers. -/
theorem build_stands_for_members (r : Recipe) :
    (∀ i, r.build.contains i = true ↔ i ∈ r.members) ∧
    (∀ i, (r.build.add i).1 = true ↔ (r.add i).members ≠ r.members) ∧
    (∀ i, (r.build.remove i).1 = true ↔ (r.remove i).members ≠ r.members) ∧
    (∀ t : Recipe, (∀ i, (r.build.absorb t.build).2.contains i = true ↔ i ∈ r.members ∪ t.members) ∧
      ((r.build.absorb t.build).1 = true ↔ ∃ i ∈ t.members, i ∉ r.members)) ∧
    r.build.size = r.members.card ∧
    (r.build.isEmpty = true ↔ r.members = ∅) ∧
    r.build.toList.Pairwise (· < ·) ∧ (∀ i, i ∈ r.build.toList ↔ i ∈ r.members) ∧
    ∀ t : Recipe, r.onlyAdds = true → t.onlyAdds = true →
      ((r.build == t.build) = true ↔ r.members = t.members) := by
  refine ⟨r.contains_build, fun i => ?_, fun i => ?_, fun t => ⟨(r.absorb t).contains_build, ?_⟩,
    r.size_build, ?_, r.build.pairwise_toList, fun i => ?_, fun t hr ht => ?_⟩
  · rw [fst_add, Bool.not_eq_true', contains_build_eq_false, members, Ne,
      Finset.union_eq_right, Finset.singleton_subset_iff]
  · rw [fst_remove, contains_build, members, Ne, Finset.erase_eq_self, not_not]
  · simp only [fst_absorb_iff_exists, contains_build, contains_build_eq_false]
  · rw [isEmpty_iff, Finset.eq_empty_iff_forall_notMem]
    exact forall_congr' r.contains_build_eq_false
  · rw [mem_toList, contains_build]
  · rw [beq_iff_eq, (compact_build hr).eq_iff (compact_build ht), Finset.ext_iff]
    refine forall_congr' fun i => ?_
    rw [Bool.eq_iff_iff, contains_build, contains_build]

/-- Four indices in three words, added in no particular order. -/
def scattered : Recipe :=
  (((Recipe.empty.add 130).add 3).add 64).add 63

/-- The same indices, two of which come from a longer set. -/
def joined : Recipe :=
  (((Recipe.withCapacity 10).add 63).absorb ((Recipe.empty.add 130).add 3)).add 64

/-- However the four indices are put together, the words are the same. -/
theorem build_stands_for_members_scattered : scattered.onlyAdds = true ∧ joined.onlyAdds = true ∧
    (scattered.build == joined.build) = true ∧ scattered.build.size = 4 ∧
    ∀ i, i ∈ joined.build.toList ↔ i ∈ ({3, 63, 64, 130} : Finset Nat) := by
  have hmembers : scattered.members = joined.members := by decide
  have hjoined : joined.members = {3, 63, 64, 130} := by decide
  obtain ⟨-, -, -, -, hsize, -, -, -, heq⟩ := build_stands_for_members scattered
  obtain ⟨-, -, -, -, -, -, -, hmem, -⟩ := build_stands_for_members joined
  exact ⟨rfl, rfl, (heq joined rfl rfl).2 hmembers, hsize.trans rfl, fun i => hjoined ▸ hmem i⟩

/-- Taking out the only index of a word leaves the word. -/
example : ((Recipe.empty.add 64).remove 64).members = Recipe.empty.members ∧
    ((Recipe.empty.add 64).remove 64).build ≠ Recipe.empty.build := by decide

end Recipe

end AheadOfTime.IndexSet
