import Mathlib.Algebra.Order.Ring.Int
import Mathlib.Data.List.TakeWhile
import AipPkussm.ChatDisplayProofs

/-! # The label of a sender

    `comm_waitmsg` puts the name and the id of a sender together in a buffer of
    `MAX_FILE_NAME_LEN` bytes, which is the size of the field that the name alone may
    fill.  The id is an `unsigned int` and is printed with `%d`, so from 2^31 on it has
    a sign.

    The label fits exactly when the name leaves enough bytes for the digits
    (`sender_fits_iff`), which is for every id when it has at most 15 characters
    (`sender_fits`). -/

namespace ChatLabel

open LittleEndian ChatMessage ChatDisplay

/-! ## Client.cc -/

/-- A number in decimal. -/
def decimal (n : Nat) : List Byte := (Nat.toDigits 10 n).map fun c => BitVec.ofNat 8 c.toNat

/-- `%d`, which takes the word as an `int`. -/
def formatInt (v : BitVec 32) : List Byte :=
  if v.toInt < 0 then 45 :: decimal v.toInt.natAbs else decimal v.toInt.natAbs

/-- `[id=` -/
def idOpen : List Byte := [91, 105, 100, 61]

/-- What `sprintf(sender, "%s[id=%d]", recv_msg.fname, recv_msg.from)` writes, with the zero
    byte in the end.  Behind the struct is `after`. -/
def sprintfSender (recvMsg : Message) (after : List Byte) : Option (List Byte) :=
  (printString ((encode recvMsg).drop 4) after).map fun str =>
    str ++ idOpen ++ formatInt recvMsg.fromId ++ [93, 0]

/-- The characters of the name in a header. -/
def nickname (m : Message) : List Byte := m.fname.takeWhile (fun b => b ≠ 0)

/-! ## Digits -/

theorem length_decimal_le_iff {n k : Nat} (hk : 0 < k) : (decimal n).length ≤ k ↔ n < 10 ^ k := by
  rw [decimal, List.length_map]
  exact Nat.length_toDigits_le_iff (by omega) hk

theorem length_decimal_pos (n : Nat) : 0 < (decimal n).length := by
  rw [decimal, List.length_map]
  exact Nat.length_toDigits_pos

theorem length_formatInt_pos (v : BitVec 32) : 0 < (formatInt v).length := by
  have hdigits := length_decimal_pos v.toInt.natAbs
  rw [formatInt]
  split
  · exact Nat.succ_pos _
  · exact hdigits

/-- **DIGITS**: a sign takes the place of a digit. -/
theorem length_formatInt_le_iff {v : BitVec 32} {k : Nat} :
    (formatInt v).length ≤ k + 1 ↔ -10 ^ k < v.toInt ∧ v.toInt < 10 ^ (k + 1) := by
  have hpow : ∀ n : Nat, ((10 ^ n : Nat) : Int) = 10 ^ n := fun n => by push_cast; rfl
  have hpos : (0 : Int) < 10 ^ k := Int.pow_pos (by omega)
  rw [formatInt]
  split
  · next hneg =>
    rw [List.length_cons, Nat.add_le_add_iff_right]
    have hlt : v.toInt < 10 ^ (k + 1) :=
      Int.lt_trans hneg (Int.pow_pos (by omega))
    cases k with
    | zero =>
      have hdigits := length_decimal_pos v.toInt.natAbs
      omega
    | succ k =>
      rw [length_decimal_le_iff (Nat.succ_pos k)]
      have hbound := hpow (k + 1)
      omega
  · next hnonneg =>
    rw [length_decimal_le_iff (Nat.succ_pos k)]
    have hbound := hpow (k + 1)
    omega

/-! ## The label -/

/-- A name that ends in its field is shorter than the field. -/
theorem length_nickname_lt {m : Message} (hnul : (0 : Byte) ∈ m.fname) :
    (nickname m).length < m.fname.length := by
  refine Nat.lt_of_le_of_ne (List.takeWhile_prefix _).length_le ?_
  intro heq
  have hself : m.fname.takeWhile (fun b => b ≠ 0) = m.fname :=
    (List.takeWhile_prefix _).eq_of_length heq
  have hzero := List.takeWhile_eq_self_iff.mp hself 0 hnul
  exact absurd rfl (of_decide_eq_true hzero)

/-- Up to its zero byte the field is the name. -/
theorem printString_fname {m : Message} (hnul : (0 : Byte) ∈ m.fname) (after : List Byte) :
    printString ((encode m).drop 4) after = some (nickname m) := by
  have hlen := length_nickname_lt hnul
  have hfield : ∃ rest, (encode m).drop 4 ++ after = m.fname ++ rest := by
    rw [encode, List.drop_left' (length_encodeWord ..), List.append_assoc]
    exact ⟨_, rfl⟩
  obtain ⟨rest, hrest⟩ := hfield
  have hname : (m.fname ++ rest).takeWhile (fun b => b ≠ 0) = nickname m := by
    rw [nickname] at hlen ⊢
    rw [List.takeWhile_append, if_neg (Nat.ne_of_lt hlen)]
  rw [printString, hrest, hname, if_pos]
  rw [List.length_append]
  omega

theorem sprintfSender_eq {m : Message} (hnul : (0 : Byte) ∈ m.fname) (after : List Byte) :
    sprintfSender m after = some (nickname m ++ idOpen ++ formatInt m.fromId ++ [93, 0]) := by
  rw [sprintfSender, printString_fname hnul]
  rfl

theorem length_label (name digits : List Byte) :
    (name ++ idOpen ++ digits ++ [93, 0]).length = name.length + digits.length + 6 := by
  simp only [List.length_append, idOpen, List.length_cons, List.length_nil]
  omega

/-- The label of a number with `len` characters before it. -/
theorem length_label_le_iff (len : Nat) (v : BitVec 32) :
    len + (formatInt v).length + 6 ≤ maxFileNameLen
      ↔ len ≤ 25 ∧ -10 ^ (25 - len) < v.toInt ∧ v.toInt < 10 ^ (26 - len) := by
  have hpos := length_formatInt_pos v
  rw [maxFileNameLen]
  by_cases hlen : len ≤ 25
  · obtain ⟨k, hk⟩ := Nat.exists_eq_add_of_le hlen
    have hleft : 25 - len = k := by omega
    have hleft' : 26 - len = k + 1 := by omega
    rw [hleft, hleft', ← length_formatInt_le_iff]
    omega
  · omega

theorem length_label_le {len : Nat} (hlen : len ≤ 15) (v : BitVec 32) :
    len + (formatInt v).length + 6 ≤ maxFileNameLen := by
  have hlow := BitVec.le_toInt v
  have hhigh := BitVec.toInt_lt (x := v)
  have hten : (10 : Int) ^ 10 ≤ 10 ^ (25 - len) := pow_le_pow_right₀ (by omega) (by omega)
  have hten' : (10 : Int) ^ 10 ≤ 10 ^ (26 - len) := pow_le_pow_right₀ (by omega) (by omega)
  exact (length_label_le_iff len v).mpr ⟨by omega, by omega, by omega⟩

/-- **THE LABEL**: it fits exactly when the digits and the sign of the id fill no more than
    the name and six more bytes leave. -/
theorem sender_fits_iff {m : Message} (hnul : (0 : Byte) ∈ m.fname) (after : List Byte) :
    (∃ sender, sprintfSender m after = some sender ∧ sender.length ≤ maxFileNameLen)
      ↔ (nickname m).length ≤ 25
        ∧ -10 ^ (25 - (nickname m).length) < m.fromId.toInt
        ∧ m.fromId.toInt < 10 ^ (26 - (nickname m).length) := by
  rw [← length_label_le_iff, sprintfSender_eq hnul]
  simp only [Option.some.injEq, exists_eq_left', length_label]

/-- Fifteen characters leave enough for any id. -/
theorem sender_fits {m : Message} (hnul : (0 : Byte) ∈ m.fname)
    (hlen : (nickname m).length ≤ 15) (after : List Byte) :
    ∃ sender, sprintfSender m after = some sender ∧ sender.length ≤ maxFileNameLen := by
  refine ⟨_, sprintfSender_eq hnul after, ?_⟩
  rw [length_label]
  exact length_label_le hlen m.fromId

theorem length_letters (n : Nat) :
    ((List.replicate n 97).take 31 ++ List.replicate (32 - min n 31) (0 : Byte)).length
      = maxFileNameLen := by
  simp only [List.length_append, List.length_take, List.length_replicate, maxFileNameLen]
  omega

/-- A header from sender `v` with a name of `n` letters. -/
def letters (n : Nat) (v : BitVec 32) : Message where
  command := Command.SENDMSG.code
  fname := (List.replicate n 97).take 31 ++ List.replicate (32 - min n 31) 0
  dataSize := 0
  dataPtr := 0
  fromId := v
  toId := 0
  fname_length := length_letters n

theorem sender_fits_short : ∃ sender, sprintfSender (letters 4 (-1)) [] = some sender
    ∧ sender.length ≤ maxFileNameLen :=
  (sender_fits_iff (by decide) []).mpr (by decide)

/-- Twenty-six letters and the id 1 are a byte too long. -/
theorem not_sender_fits : ¬ ∀ (m : Message) (after : List Byte), (0 : Byte) ∈ m.fname →
    ∃ sender, sprintfSender m after = some sender ∧ sender.length ≤ maxFileNameLen := by
  intro h
  obtain ⟨sender, hsender, hlen⟩ := h (letters 26 1) [] (by decide)
  have hlong : (sprintfSender (letters 26 1) []).map List.length = some 33 := by
    decide +kernel
  rw [hsender, Option.map_some, Option.some.injEq] at hlong
  rw [hlong] at hlen
  exact absurd hlen (by decide)

end ChatLabel
