import AipPkussm.OnesComplementProofs

/-! # The checksum of Traceroute

    `in_cksum` adds the words of a packet as `short`s, so that a word with its top
    bit set takes from the sum what it should add.  A step of the sum is exact in
    the integers (`addWords_eq`), and so is the rest up to multiples of 65535
    (`inCksum_compl`): what is wrong in the end is the number of those words.

    The accumulator and both folds stay inside an `int`, and the complement of the
    result is congruent to what was added, signs included (`inCksumInt_exact`).

    A receiver adds the words without their sign.  It finds all bits set exactly
    when there was no such word (`sum_inCksum_iff`). -/

namespace Icmp

open LittleEndian OnesComplement

/-! ## icmp.cc -/

/-- `htons` of a machine with the low byte first. -/
def htons (x : BitVec 16) : BitVec 16 := decodeWord 16 (encodeWord 2 x).reverse

/-- The loop of `in_cksum` and what it does with an odd byte, from a `sum` on. -/
def addWords : Int → List Byte → Int
  | sum, a :: b :: rest => addWords (sum + (decodeWord 16 [a, b]).toInt) rest
  | sum, [b] => sum + (htons (b.signExtend 16 <<< 8)).toNat
  | sum, [] => sum

/-- `in_cksum`. -/
def inCksum (addr : List Byte) (csum : BitVec 16) : BitVec 16 :=
  let sum := addWords csum.toInt addr
  let sum := (sum >>> (16 : Nat)) + sum % 2 ^ 16
  let sum := sum + sum >>> (16 : Nat)
  BitVec.ofInt 16 (~~~sum)

/-! ## What it adds -/

/-- The odd byte is taken without its sign. -/
theorem htons_shiftLeft (b : Byte) : (htons (b.signExtend 16 <<< 8)).toNat = b.toNat := by
  revert b
  decide +kernel

/-- A full word is taken with its sign. -/
theorem toInt_word (a b : Byte) : (decodeWord 16 [a, b]).toInt
    = (a.toNat + 256 * b.toNat : Nat) - 65536 * (if 128 ≤ b.toNat then 1 else 0 : Nat) := by
  have ha : a.toNat < 256 := a.isLt
  have hb : b.toNat < 256 := b.isLt
  have hword : (decodeWord 16 [a, b]).toNat = a.toNat + 256 * b.toNat := by
    show (a.toNat + 256 * (b.toNat + 256 * 0)) % 2 ^ 16 = _
    omega
  rw [BitVec.toInt_eq_toNat_cond, hword]
  split <;> split <;> omega

/-- The accumulator: the words without their sign, less 65536 for each that has one. -/
theorem addWords_eq (addr : List Byte) : ∀ sum, addWords sum addr
    = sum + (words addr).sum - 65536 * (negatives addr : Int) := by
  induction addr using words.induct with
  | case1 =>
      intro sum
      show sum = sum + (0 : Nat) - 65536 * (0 : Nat)
      omega
  | case2 b =>
      intro sum
      rw [addWords, htons_shiftLeft]
      show sum + b.toNat = sum + ([b.toNat].sum : Nat) - 65536 * (0 : Nat)
      rw [List.sum_singleton]
      omega
  | case3 a b rest ih =>
      intro sum
      rw [addWords, ih, toInt_word, words, negatives, List.sum_cons]
      omega

/-- The words of a block are few enough for an `int`. -/
theorem sum_words_le (addr : List Byte) :
    (words addr).sum ≤ 65535 * ((addr.length + 1) / 2) := by
  induction addr using words.induct with
  | case1 => exact Nat.le_refl 0
  | case2 b =>
      have hb : b.toNat < 256 := b.isLt
      rw [words, List.sum_singleton, List.length_singleton]
      omega
  | case3 a b rest ih =>
      have ha : a.toNat < 256 := a.isLt
      have hb : b.toNat < 256 := b.isLt
      rw [words, List.sum_cons, List.length_cons, List.length_cons]
      omega

/-- The high part of the accumulator fits a word, with its sign. -/
theorem addWords_bounds {addr : List Byte} (csum : BitVec 16) (hlen : addr.length ≤ 65535) :
    -65535 ≤ addWords csum.toInt addr / 65536 ∧ addWords csum.toInt addr / 65536 ≤ 65535 := by
  have hsum := sum_words_le addr
  have hneg := negatives_le addr
  have hcsum := BitVec.le_toInt csum
  have hcsum' := BitVec.toInt_lt (x := csum)
  rw [addWords_eq]
  omega

/-- The last step: complement, cut to a `short`. -/
theorem toNat_ofInt_not (s : Int) :
    ((BitVec.ofInt 16 (~~~s)).toNat : Int) = 65535 - s % 65536 := by
  have hnot : ~~~s = -s - 1 := by
    cases s with
    | ofNat n =>
        show Int.negSucc n = -(n : Int) - 1
        rw [Int.negSucc_eq]
        omega
    | negSucc n =>
        show (n : Int) = _
        rw [Int.negSucc_eq]
        omega
  rw [BitVec.toNat_ofInt, hnot]
  omega

/-- **TWO FOLDS**: the complement of the result is the accumulator, folded. -/
theorem inCksum_compl (addr : List Byte) (csum : BitVec 16) :
    ((inCksum addr csum).toNat : Int) = 65535 - folded 65536 (addWords csum.toInt addr) := by
  have hshift : ∀ s : Int, s >>> (16 : Nat) = s / 65536 := fun s => Int.shiftRight_eq_div_pow s 16
  rw [inCksum, hshift, hshift, toNat_ofInt_not]
  rfl

/-! ## Inside an `int` -/

/-- What `in_cksum` adds to `csum`: the words with their signs, and an odd byte without. -/
def summands : List Byte → List Int
  | a :: b :: rest => (decodeWord 16 [a, b]).toInt :: summands rest
  | [b] => [(b.toNat : Int)]
  | [] => []

/-- `+` on `int`, which has no result when it overflows. -/
def addInt (a b : Int) : Option Int :=
  if -2 ^ 31 ≤ a + b ∧ a + b < 2 ^ 31 then some (a + b) else none

/-- `addWords` with the additions of the machine. -/
def addWordsInt : Int → List Byte → Option Int
  | sum, a :: b :: rest =>
      (addInt sum (decodeWord 16 [a, b]).toInt).bind fun sum => addWordsInt sum rest
  | sum, [b] => addInt sum (htons (b.signExtend 16 <<< 8)).toNat
  | sum, [] => some sum

/-- `inCksum` with the additions of the machine. -/
def inCksumInt (addr : List Byte) (csum : BitVec 16) : Option (BitVec 16) :=
  (addWordsInt csum.toInt addr).bind fun sum =>
    (addInt (sum >>> (16 : Nat)) (sum % 2 ^ 16)).bind fun sum =>
      (addInt sum (sum >>> (16 : Nat))).bind fun sum => some (BitVec.ofInt 16 (~~~sum))

theorem addInt_eq {a b : Int} (hlow : -2 ^ 31 ≤ a + b) (hhigh : a + b < 2 ^ 31) :
    addInt a b = some (a + b) := if_pos ⟨hlow, hhigh⟩

/-- The accumulator ends at the sum of what was added. -/
theorem addWords_eq_summands (addr : List Byte) : ∀ sum,
    addWords sum addr = sum + (summands addr).sum := by
  induction addr using words.induct with
  | case1 =>
      intro sum
      exact (Int.add_zero sum).symm
  | case2 b =>
      intro sum
      rw [addWords, htons_shiftLeft, summands, List.sum_singleton]
  | case3 a b rest ih =>
      intro sum
      rw [addWords, ih, summands, List.sum_cons, Int.add_assoc]

/-- **STEP BY STEP**: a word moves the accumulator by 32768 at most, so that it stays
    inside an `int` as long as there is room for that many for every word. -/
theorem addWordsInt_eq (addr : List Byte) : ∀ sum : Int,
    -2 ^ 31 ≤ sum - 32768 * ((addr.length + 1) / 2 : Nat) →
    sum + 32768 * ((addr.length + 1) / 2 : Nat) < 2 ^ 31 →
    addWordsInt sum addr = some (addWords sum addr) := by
  induction addr using words.induct with
  | case1 =>
      intro sum _ _
      rfl
  | case2 b =>
      intro sum hlow hhigh
      have hb : b.toNat < 256 := b.isLt
      have hroom : ([b].length + 1) / 2 = 1 := by rw [List.length_singleton]
      rw [hroom] at hlow hhigh
      rw [addWordsInt, addWords, htons_shiftLeft, addInt_eq (by omega) (by omega)]
  | case3 a b rest ih =>
      intro sum hlow hhigh
      have hword := BitVec.le_toInt (decodeWord 16 [a, b])
      have hword' := BitVec.toInt_lt (x := decodeWord 16 [a, b])
      have hroom : ((a :: b :: rest).length + 1) / 2 = (rest.length + 1) / 2 + 1 := by
        rw [List.length_cons, List.length_cons]
        omega
      rw [hroom] at hlow hhigh
      rw [addWordsInt, addWords, addInt_eq (by omega) (by omega), Option.bind_some]
      exact ih _ (by omega) (by omega)

/-- Neither fold leaves an `int`. -/
theorem inCksumInt_eq {addr : List Byte} (csum : BitVec 16) (hlen : addr.length ≤ 65535) :
    inCksumInt addr csum = some (inCksum addr csum) := by
  have hcsum := BitVec.le_toInt csum
  have hcsum' := BitVec.toInt_lt (x := csum)
  obtain ⟨hlow, hhigh⟩ := addWords_bounds csum hlen
  have hshift : ∀ s : Int, s >>> (16 : Nat) = s / 65536 := fun s => Int.shiftRight_eq_div_pow s 16
  rw [inCksumInt, addWordsInt_eq addr _ (by omega) (by omega), Option.bind_some, hshift,
    addInt_eq (by omega) (by omega), Option.bind_some, hshift, addInt_eq (by omega) (by omega),
    Option.bind_some, inCksum, hshift, hshift]

/-- **FOLDING IS EXACT**: no addition overflows, and the complement of the result is
    congruent to the sum of `csum`, the signed words and the odd byte. -/
theorem inCksumInt_exact (addr : List Byte) (csum : BitVec 16) (hlen : addr.length ≤ 65535) :
    ∃ answer, inCksumInt addr csum = some answer
      ∧ (((~~~answer).toNat : Nat) : Int) ≡ csum.toInt + (summands addr).sum [ZMOD 65535] := by
  obtain ⟨hlow, hhigh⟩ := addWords_bounds csum hlen
  have hbase : (2 : Int) ≤ 65536 := by omega
  obtain ⟨-, -, hmod⟩ := folded_mod hbase hlow hhigh
  have hcompl := inCksum_compl addr csum
  have hlt := (inCksum addr csum).isLt
  have hnot : ((~~~inCksum addr csum).toNat : Int) = folded 65536 (addWords csum.toInt addr) := by
    rw [BitVec.toNat_not]
    omega
  refine ⟨inCksum addr csum, inCksumInt_eq csum hlen, ?_⟩
  rw [hnot, ← addWords_eq_summands]
  exact hmod

/-- A word with a sign and an odd byte, from a negative `csum` on. -/
theorem inCksumInt_borrow : ∃ answer, inCksumInt [0, 128, 255] 0xFFFF = some answer
    ∧ (((~~~answer).toNat : Nat) : Int)
      ≡ (0xFFFF : BitVec 16).toInt + (summands [0, 128, 255]).sum [ZMOD 65535] :=
  inCksumInt_exact [0, 128, 255] 0xFFFF (by decide)

/-! ## What a receiver finds -/

section Field

variable {buffer : List Byte} {off : Nat}

/-- A block around an aligned field that is 0, and with a word stored in the field. -/
theorem words_patch (halign : off % 2 = 0) (hin : off + 2 ≤ buffer.length)
    (hzero : slice off 2 buffer = [0, 0]) (x : BitVec 16) :
    (words (patch off (encodeWord 2 x) buffer)).sum = (words buffer).sum + x.toNat := by
  have hx : x.toNat < 2 ^ 16 := x.isLt
  have htake : (buffer.take off).length % 2 = 0 := by
    rw [List.length_take]
    omega
  have hsplit : buffer = buffer.take off ++ ([0, 0] ++ buffer.drop (off + 2)) := by
    rw [← hzero, slice, ← List.drop_drop, List.take_append_drop, List.take_append_drop]
  have hword : words (encodeWord 2 x ++ buffer.drop (off + 2))
      = x.toNat :: words (buffer.drop (off + 2)) := by
    show ((BitVec.ofNat 8 x.toNat).toNat + 256 * (BitVec.ofNat 8 (x.toNat / 256)).toNat) :: _ = _
    rw [BitVec.toNat_ofNat, BitVec.toNat_ofNat]
    congr 1
    omega
  have hnull : words ([0, 0] ++ buffer.drop (off + 2)) = 0 :: words (buffer.drop (off + 2)) := rfl
  rw [patch, length_encodeWord, words_append _ htake, hword]
  conv_rhs => rw [hsplit, words_append _ htake, hnull]
  rw [List.sum_append, List.sum_append, List.sum_cons, List.sum_cons]
  omega

/-- What a receiver adds up is, but for multiples of 65535, how many words had a sign. -/
theorem sum_words_inCksum (hlen : buffer.length ≤ 65535) (halign : off % 2 = 0)
    (hin : off + 2 ≤ buffer.length) (hzero : slice off 2 buffer = [0, 0]) :
    (words (patch off (encodeWord 2 (inCksum buffer 0)) buffer)).sum
      ≡ negatives buffer [MOD 65535] := by
  obtain ⟨hlow, hhigh⟩ := addWords_bounds 0 hlen
  have hbase : (2 : Int) ≤ 65536 := by omega
  obtain ⟨-, -, hmod⟩ := folded_mod hbase hlow hhigh
  have hcompl := inCksum_compl buffer 0
  have hadd := addWords_eq buffer (BitVec.toInt (0 : BitVec 16))
  have hstart : BitVec.toInt (0 : BitVec 16) = 0 := rfl
  rw [words_patch halign hin hzero, ← Int.natCast_modEq_iff]
  rw [Int.modEq_iff_dvd] at hmod ⊢
  omega

/-- The number of signs is too small to be a multiple of 65535. -/
theorem negatives_modEq_zero_iff (hlen : buffer.length ≤ 65535) :
    negatives buffer ≡ 0 [MOD 65535] ↔ negatives buffer = 0 := by
  have hle := negatives_le buffer
  rw [Nat.ModEq, Nat.mod_eq_of_lt (by omega), Nat.zero_mod]

/-- A block of zeros has the checksum with all bits set. -/
theorem inCksum_of_sum_eq_zero (hsum : (words buffer).sum = 0)
    (hneg : negatives buffer = 0) : (inCksum buffer 0).toNat = 65535 := by
  have hcompl := inCksum_compl buffer 0
  have hstart : BitVec.toInt (0 : BitVec 16) = 0 := rfl
  have hfolded : folded 65536 0 = 0 := rfl
  rw [addWords_eq, hsum, hneg, hstart] at hcompl
  simp only [Nat.cast_zero, Int.mul_zero, Int.add_zero, Int.sub_zero, hfolded] at hcompl
  omega

/-- **WHAT A RECEIVER FINDS**: all bits set exactly when no word has its top bit set. -/
theorem sum_inCksum_iff_negatives (hlen : buffer.length ≤ 65535) (halign : off % 2 = 0)
    (hin : off + 2 ≤ buffer.length) (hzero : slice off 2 buffer = [0, 0]) :
    sum 65536 (words (patch off (encodeWord 2 (inCksum buffer 0)) buffer)) = 65535
      ↔ negatives buffer = 0 := by
  have hmod := sum_words_inCksum hlen halign hin hzero
  have hbase : 2 ≤ 65536 := by omega
  rw [sum_eq_iff hbase (words_lt _), ← negatives_modEq_zero_iff hlen]
  show 65535 ∣ _ ∧ _ ↔ _
  rw [← Nat.modEq_zero_iff_dvd]
  constructor
  · rintro ⟨hdvd, -⟩
    exact hmod.symm.trans hdvd
  · intro hneg
    refine ⟨hmod.trans hneg, fun hsum => ?_⟩
    rw [words_patch halign hin hzero, Nat.add_eq_zero_iff] at hsum
    have hall := inCksum_of_sum_eq_zero hsum.1 ((negatives_modEq_zero_iff hlen).mp hneg)
    omega

/-- **THE CHECKSUM**: a receiver finds all bits set exactly when every byte at an odd
    address is below 128. -/
theorem sum_inCksum_iff (hlen : buffer.length ≤ 65535) (halign : off % 2 = 0)
    (hin : off + 2 ≤ buffer.length) (hzero : slice off 2 buffer = [0, 0]) :
    sum 65536 (words (patch off (encodeWord 2 (inCksum buffer 0)) buffer)) = 0xFFFF
      ↔ ∀ k, 2 * k + 1 < buffer.length → (buffer.getD (2 * k + 1) 0).toNat < 128 :=
  (sum_inCksum_iff_negatives hlen halign hin hzero).trans (negatives_eq_zero_iff buffer)

end Field

/-- The packet of process 1 in hop 1. -/
theorem sum_inCksum_one : sum 65536 (words (patch 2 (encodeWord 2
      (inCksum [8, 0, 0, 0, 1, 0, 1, 0] 0)) [8, 0, 0, 0, 1, 0, 1, 0])) = 0xFFFF := by
  have hbytes : ∀ k < 4,
      (([8, 0, 0, 0, 1, 0, 1, 0] : List Byte).getD (2 * k + 1) 0).toNat < 128 := by
    decide
  refine (sum_inCksum_iff (by decide) (by decide) (by decide) (by decide)).mpr ?_
  intro k hk
  have hlength : ([8, 0, 0, 0, 1, 0, 1, 0] : List Byte).length = 8 := rfl
  exact hbytes k (by omega)

/-- Process 32768: the receiver finds 1 instead. -/
theorem sum_inCksum_negative : ¬ ∀ buffer : List Byte, buffer.length ≤ 65535 →
    ∀ off, off % 2 = 0 → off + 2 ≤ buffer.length → slice off 2 buffer = [0, 0] →
    sum 65536 (words (patch off (encodeWord 2 (inCksum buffer 0)) buffer)) = 0xFFFF := by
  intro h
  exact absurd (h [8, 0, 0, 0, 0, 128, 1, 0] (by decide) 2 (by decide) (by decide) (by decide))
    (by decide)

end Icmp
