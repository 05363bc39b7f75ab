import Mathlib.Algebra.Order.Group.Nat
import Mathlib.Algebra.Ring.Nat
import Mathlib.Data.List.GetD
import Mathlib.Tactic.Ring

/-! # Bytes in memory — little-endian words, slices and uninitialised buffers

    What every raw `struct` image rests on: a machine word as its bytes, least
    significant first, and back (`decodeWord_encodeWord`); a slice of a byte
    list; `overlay`, the contents of a buffer of `n` bytes into whose front some
    bytes were read while the rest keeps whatever was there; and `patch`, a block
    of memory after bytes were written into it at an offset. -/

namespace LittleEndian

/-- One byte. -/
abbrev Byte := BitVec 8

/-- The `n` low bytes of a number, least significant first. -/
def toBytes : Nat → Nat → List Byte
  | 0, _ => []
  | n + 1, v => BitVec.ofNat 8 v :: toBytes n (v / 256)

/-- The number with the given bytes, least significant first. -/
def ofBytes : List Byte → Nat
  | [] => 0
  | b :: bs => b.toNat + 256 * ofBytes bs

@[simp] theorem length_toBytes (n v : Nat) : (toBytes n v).length = n := by
  induction n generalizing v with
  | zero => rfl
  | succ n ih =>
      show (toBytes n (v / 256)).length + 1 = n + 1
      rw [ih]

/-- Reading back the low bytes of a number gives it modulo their range. -/
theorem ofBytes_toBytes (n v : Nat) : ofBytes (toBytes n v) = v % 256 ^ n := by
  induction n generalizing v with
  | zero =>
      show 0 = v % 256 ^ 0
      rw [Nat.pow_zero, Nat.mod_one]
  | succ n ih =>
      show (BitVec.ofNat 8 v).toNat + 256 * ofBytes (toBytes n (v / 256))
        = v % 256 ^ (n + 1)
      rw [ih, BitVec.toNat_ofNat, pow_succ' 256 n, Nat.mod_mul]

/-- Writing out the number read from a list of bytes gives the list. -/
theorem toBytes_ofBytes (bs : List Byte) : toBytes bs.length (ofBytes bs) = bs := by
  induction bs with
  | nil => rfl
  | cons b bs ih =>
      have hb : b.toNat < 256 := b.isLt
      show BitVec.ofNat 8 (b.toNat + 256 * ofBytes bs)
          :: toBytes bs.length ((b.toNat + 256 * ofBytes bs) / 256) = b :: bs
      have hdiv : (b.toNat + 256 * ofBytes bs) / 256 = ofBytes bs := by omega
      have hlow : BitVec.ofNat 8 (b.toNat + 256 * ofBytes bs) = b := by
        apply BitVec.eq_of_toNat_eq
        rw [BitVec.toNat_ofNat]
        omega
      rw [hdiv, ih, hlow]

/-- A machine word as `n` bytes. -/
def encodeWord (n : Nat) {w : Nat} (x : BitVec w) : List Byte := toBytes n x.toNat

/-- The machine word with the given bytes. -/
def decodeWord (w : Nat) (bs : List Byte) : BitVec w := BitVec.ofNat w (ofBytes bs)

@[simp] theorem length_encodeWord (n : Nat) {w : Nat} (x : BitVec w) :
    (encodeWord n x).length = n := length_toBytes n x.toNat

/-- A word that fits its bytes survives the round trip. -/
theorem decodeWord_encodeWord {n w : Nat} (h : 2 ^ w ≤ 256 ^ n) (x : BitVec w) :
    decodeWord w (encodeWord n x) = x := by
  apply BitVec.eq_of_toNat_eq
  have hx : x.toNat < 2 ^ w := x.isLt
  rw [decodeWord, encodeWord, ofBytes_toBytes, BitVec.toNat_ofNat,
    Nat.mod_eq_of_lt (Nat.lt_of_lt_of_le hx h), Nat.mod_eq_of_lt hx]

@[simp] theorem decodeWord_encodeWord32 (x : BitVec 32) :
    decodeWord 32 (encodeWord 4 x) = x :=
  decodeWord_encodeWord (by decide) x

theorem ofBytes_lt (bs : List Byte) : ofBytes bs < 256 ^ bs.length := by
  induction bs with
  | nil => exact Nat.one_pos
  | cons b bs ih =>
      have hb : b.toNat < 256 := b.isLt
      show b.toNat + 256 * ofBytes bs < 256 ^ (bs.length + 1)
      rw [pow_succ' 256 bs.length]
      omega

/-- The bytes of a 32-bit word survive the round trip too. -/
theorem encodeWord_decodeWord32 {bs : List Byte} (h : bs.length = 4) :
    encodeWord 4 (decodeWord 32 bs) = bs := by
  have hlt : ofBytes bs < 2 ^ 32 := by
    have := ofBytes_lt bs
    rw [h] at this
    exact this
  rw [encodeWord, decodeWord, BitVec.toNat_ofNat, Nat.mod_eq_of_lt hlt, ← h]
  exact toBytes_ofBytes bs

/-- A number that fits an `int` is read back from it. -/
theorem toInt_ofNat32 {n : Nat} (h : n < 2 ^ 31) : (BitVec.ofNat 32 n).toInt = n := by
  rw [BitVec.toInt_eq_toNat_of_lt]
  · rw [BitVec.toNat_ofNat, Nat.mod_eq_of_lt (by omega)]
  · rw [BitVec.toNat_ofNat, Nat.mod_eq_of_lt (by omega)]
    omega

theorem toNat_complement (b : Byte) : (~~~ b).toNat = 255 - b.toNat := by
  rw [BitVec.toNat_not]

/-- Every bit of a byte is different in its complement. -/
theorem complement_ne (b : Byte) : ~~~ b ≠ b := by
  intro h
  have hnat := congrArg BitVec.toNat h
  have hlt : b.toNat < 256 := b.isLt
  rw [toNat_complement] at hnat
  omega

/-- The `len` bytes at offset `off`. -/
def slice (off len : Nat) (l : List Byte) : List Byte := (l.drop off).take len

theorem slice_append_left {off len : Nat} {a b : List Byte}
    (h : off + len ≤ a.length) : slice off len (a ++ b) = slice off len a := by
  rw [slice, slice, List.drop_append_of_le_length (by omega),
    List.take_append_of_le_length (by rw [List.length_drop]; omega)]

/-- Skipping a whole prefix of a concatenation. -/
theorem slice_append_right {off len : Nat} {a b : List Byte}
    (h : a.length ≤ off) : slice off len (a ++ b) = slice (off - a.length) len b := by
  rw [slice, slice, List.drop_append, List.drop_of_length_le h, List.nil_append]

/-- The front part of a concatenation, taken whole. -/
theorem slice_zero_append {len : Nat} {a b : List Byte} (h : a.length = len) :
    slice 0 len (a ++ b) = a := by
  subst h
  rw [slice, List.drop_zero, List.take_left]

theorem slice_zero_self {len : Nat} {a : List Byte} (h : a.length = len) :
    slice 0 len a = a := by
  subst h
  rw [slice, List.drop_zero, List.take_length]

theorem length_slice {off len : Nat} {l : List Byte} (h : off + len ≤ l.length) :
    (slice off len l).length = len := by
  simp only [slice, List.length_take, List.length_drop]
  omega

/-- A byte of a slice. -/
theorem getD_slice (off : Nat) {len i : Nat} {l : List Byte} (hi : i < len) :
    (slice off len l).getD i 0 = l.getD (off + i) 0 := by
  rw [slice, List.getD_eq_getElem?_getD, List.getD_eq_getElem?_getD,
    List.getElem?_take_of_lt hi, List.getElem?_drop]

/-- Two slices next to each other are one. -/
theorem slice_append_slice (off m n : Nat) (l : List Byte) :
    slice off m l ++ slice (off + m) n l = slice off (m + n) l := by
  rw [slice, slice, slice, ← List.drop_drop, List.take_add]

/-- A buffer of `n` bytes that held `old`, after `got` was read to its front. -/
def overlay (n : Nat) (got : List Byte) (old : Nat → Byte) : List Byte :=
  (List.range n).map (fun i => got.getD i (old i))

@[simp] theorem length_overlay (n : Nat) (got : List Byte) (old : Nat → Byte) :
    (overlay n got old).length = n := by
  rw [overlay, List.length_map, List.length_range]

theorem getElem_overlay {n : Nat} {got : List Byte} {old : Nat → Byte} {i : Nat}
    (h : i < (overlay n got old).length) :
    (overlay n got old)[i] = got.getD i (old i) := by
  simp only [overlay, List.getElem_map, List.getElem_range]

/-- A buffer that was read full holds exactly the bytes read. -/
theorem overlay_full {n : Nat} {got : List Byte} {old : Nat → Byte}
    (h : got.length = n) : overlay n got old = got := by
  subst h
  apply List.ext_getElem (length_overlay ..)
  intro i h₁ h₂
  rw [getElem_overlay h₁, List.getD_eq_getElem _ _ h₂]

/-- A buffer starts with the bytes read. -/
theorem overlay_prefix {n : Nat} {got : List Byte} {old : Nat → Byte}
    (h : got.length ≤ n) : ∃ kept, overlay n got old = got ++ kept := by
  refine ⟨(overlay n got old).drop got.length, ?_⟩
  have htake : (overlay n got old).take got.length = got := by
    apply List.ext_getElem
    · rw [List.length_take, length_overlay, Nat.min_eq_left h]
    · intro i h₁ h₂
      rw [List.getElem_take, getElem_overlay, List.getD_eq_getElem _ _ h₂]
  have hsplit := List.take_append_drop got.length (overlay n got old)
  rw [htake] at hsplit
  exact hsplit.symm

/-- A byte that was not reached keeps its old contents. -/
theorem getD_overlay_old {n i : Nat} {got : List Byte} {old : Nat → Byte} (hi : i < n)
    (hgot : got.length ≤ i) : (overlay n got old).getD i 0 = old i := by
  rw [List.getD_eq_getElem _ _ (by rw [length_overlay]; exact hi), getElem_overlay,
    List.getD_eq_default _ _ hgot]

/-- A block of memory after `got` was written into it at `off`. -/
def patch (off : Nat) (got l : List Byte) : List Byte :=
  l.take off ++ (got ++ l.drop (off + got.length))

/-- Writing inside a block keeps its length. -/
theorem length_patch {off : Nat} {got l : List Byte} (h : off + got.length ≤ l.length) :
    (patch off got l).length = l.length := by
  simp only [patch, List.length_append, List.length_take, List.length_drop]
  omega

theorem patch_nil (off : Nat) (l : List Byte) : patch off [] l = l := by
  rw [patch, List.nil_append, List.length_nil, Nat.add_zero, List.take_append_drop]

/-- A block that is written over as a whole. -/
theorem patch_full {got l : List Byte} (h : got.length = l.length) : patch 0 got l = got := by
  rw [patch, Nat.zero_add, h, List.drop_length, List.append_nil]
  rfl

/-- Two writes next to each other are one. -/
theorem patch_append {off : Nat} {a b l : List Byte} (h : off ≤ l.length) :
    patch (off + a.length) b (patch off a l) = patch off (a ++ b) l := by
  have hfront : (l.take off ++ a).length = off + a.length := by
    rw [List.length_append, List.length_take, Nat.min_eq_left h]
  rw [patch, patch, ← List.append_assoc (l.take off) a, List.take_left' hfront,
    List.drop_append, List.drop_of_length_le (by omega), hfront, Nat.add_sub_cancel_left,
    List.nil_append, List.drop_drop, patch, List.length_append, List.append_assoc,
    List.append_assoc, Nat.add_assoc]

/-- Writing after a part of a block. -/
theorem patch_behind {off : Nat} {a got l : List Byte} (h : a.length = off) :
    patch off got (a ++ l) = a ++ (got ++ l.drop got.length) := by
  subst h
  rw [patch, List.take_left, ← List.drop_drop, List.drop_left]

/-- Writing what is there already. -/
theorem patch_slice {off n : Nat} {l : List Byte} (h : off + n ≤ l.length) :
    patch off (slice off n l) l = l := by
  rw [patch, length_slice h, slice, ← List.drop_drop, List.take_append_drop,
    List.take_append_drop]

/-- Behind what is written a block keeps its contents. -/
theorem getD_patch_of_le {off i : Nat} {got l : List Byte} (hoff : off ≤ l.length)
    (h : off + got.length ≤ i) : (patch off got l).getD i 0 = l.getD i 0 := by
  have hfront : (l.take off ++ got).length = off + got.length := by
    rw [List.length_append, List.length_take, Nat.min_eq_left hoff]
  rw [patch, ← List.append_assoc, List.getD_append_right _ _ _ _ (by omega), hfront,
    List.getD_eq_getElem?_getD, List.getD_eq_getElem?_getD, List.getElem?_drop,
    Nat.add_sub_cancel' h]

/-- In front of what is written a block keeps its contents. -/
theorem getD_patch_of_lt {off i : Nat} {got l : List Byte} (hoff : off ≤ l.length)
    (h : i < off) : (patch off got l).getD i 0 = l.getD i 0 := by
  rw [patch, List.getD_append _ _ _ _ (by rw [List.length_take]; omega),
    List.getD_eq_getElem?_getD, List.getD_eq_getElem?_getD, List.getElem?_take_of_lt h]

/-- A block has what is written to it. -/
theorem getD_patch_inside {off i : Nat} {got l : List Byte} (hoff : off ≤ l.length)
    (h : off ≤ i) (hi : i < off + got.length) :
    (patch off got l).getD i 0 = got.getD (i - off) 0 := by
  have hfront : (l.take off).length = off := by
    rw [List.length_take, Nat.min_eq_left hoff]
  rw [patch, List.getD_append_right _ _ _ _ (by omega), hfront,
    List.getD_append _ _ _ _ (by omega)]

/-- A field into which `strcpy` has put a string that fits it: the string, the zero byte
    behind it, and what was there before. -/
theorem slice_patch_string {off len : Nat} {name l : List Byte} (hoff : off ≤ l.length)
    (hlen : name.length < len) : slice off len (patch off (name ++ [0]) l)
      = name ++ 0 :: slice (off + (name.length + 1)) (len - (name.length + 1)) l := by
  have hhead : (l.take off).length = off := by rw [List.length_take, Nat.min_eq_left hoff]
  have hstring : (name ++ [(0 : Byte)]).length = name.length + 1 := by
    rw [List.length_append, List.length_singleton]
  rw [patch, slice_append_right (Nat.le_of_eq hhead), hhead, Nat.sub_self, slice,
    List.drop_zero, List.take_append, List.take_of_length_le (by omega), hstring,
    List.append_assoc]
  rfl

/-- A string is what is in front of the first zero byte. -/
theorem takeWhile_string {name : List Byte} (hstr : ∀ b ∈ name, b ≠ 0) (rest : List Byte) :
    (name ++ 0 :: rest).takeWhile (fun b => b ≠ 0) = name := by
  have hall : ∀ b ∈ name, decide (b ≠ 0) = true := fun b hb => decide_eq_true (hstr b hb)
  rw [List.takeWhile_append_of_pos hall, List.takeWhile_cons, if_neg (by decide),
    List.append_nil]

/-- Blocks of one length with the same bytes. -/
theorem eq_of_getD {l l' : List Byte} (hlen : l.length = l'.length)
    (h : ∀ k, k < l.length → l.getD k 0 = l'.getD k 0) : l = l' := by
  apply List.ext_getElem hlen
  intro k hk hk'
  rw [← List.getD_eq_getElem _ 0 hk, ← List.getD_eq_getElem _ 0 hk']
  exact h k hk

end LittleEndian
