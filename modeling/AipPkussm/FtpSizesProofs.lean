import Mathlib.Algebra.BigOperators.Group.List.Basic
import AipPkussm.FtpHandlersProofs

/-! # What a transfer announces and what it sends

    `stat` reports the size of a file as an `off_t` of 64 bits, and the header has
    an `int` for it.  `get_handler` computes the lengths of its sends from the
    `int`, `comm_put` from the `off_t`; both divide towards zero.

    The narrowing leaves alone what is below 2^31 and nothing else (`exact_iff`).
    `getHandler_sizes` and `commPut_sizes` say that these are the sizes with which
    the two functions of `FtpHandlers` send. -/

namespace FtpSizes

open LittleEndian FtpMessage FtpTransfer FtpHandlers
open ChatReceive (socketioBufferSize)
open ChatGet (dataSends length_bytesAt)

/-- An integer stored in an `int`. -/
def narrow (n : Int) : Int := (BitVec.ofInt 32 n).toInt

/-- A length as it is passed to `send`. -/
def sizeT (n : Int) : Nat := (BitVec.ofInt 32 n).toNat

/-- The `data_size` of a header, and the lengths of the sends after it. -/
structure Sizes where
  dataSize : Int
  lens : List Int
  deriving DecidableEq

/-- The lengths of a loop of `remNum` chunks with the remainder after it. -/
def chunkLens (remNum remBytes : Int) : List Int :=
  List.replicate remNum.toNat (socketioBufferSize : Int) ++ [remBytes]

/-- `get_handler`, for a file of `stSize` bytes. -/
def getSizes (stSize : Int) : Sizes :=
  let dataSize := narrow stSize
  { dataSize := dataSize
    lens := chunkLens (dataSize.tdiv socketioBufferSize) (dataSize.tmod socketioBufferSize) }

/-- `comm_put`, for a file of `stSize` bytes. -/
def putSizes (stSize : Int) : Sizes where
  dataSize := narrow stSize
  lens := chunkLens (narrow (stSize.tdiv socketioBufferSize))
    (narrow (stSize.tmod socketioBufferSize))

theorem dataSize_getSizes (stSize : Int) : (getSizes stSize).dataSize = narrow stSize := rfl

theorem dataSize_putSizes (stSize : Int) : (putSizes stSize).dataSize = narrow stSize := rfl

/-- The size of a file is announced, and as much is sent. -/
structure Sizes.Exact (sizes : Sizes) (stSize : Int) : Prop where
  announced : sizes.dataSize = stSize
  nonneg : ∀ len ∈ sizes.lens, 0 ≤ len
  sent : sizes.lens.sum = stSize

/-! ## Narrowing -/

theorem narrow_eq {n : Int} (hlow : -2 ^ 31 ≤ n) (hhigh : n < 2 ^ 31) : narrow n = n := by
  rw [narrow, BitVec.toInt_ofInt]
  exact Int.bmod_eq_of_le (by omega) (by omega)

/-- An `int` is below 2^31. -/
theorem narrow_lt (n : Int) : narrow n < 2 ^ 31 := BitVec.toInt_lt

/-- Quotient and remainder of a size that is not negative, as lengths of sends. -/
theorem chunkLens_exact {n : Int} (hnonneg : 0 ≤ n) :
    (∀ len ∈ chunkLens (n.tdiv socketioBufferSize) (n.tmod socketioBufferSize), 0 ≤ len)
      ∧ (chunkLens (n.tdiv socketioBufferSize) (n.tmod socketioBufferSize)).sum = n := by
  have hquot : 0 ≤ n.tdiv socketioBufferSize := Int.tdiv_nonneg hnonneg (Int.natCast_nonneg _)
  have hrem : 0 ≤ n.tmod socketioBufferSize := Int.tmod_nonneg _ hnonneg
  constructor
  · intro len hlen
    rcases List.mem_append.mp hlen with hlen | hlen
    · obtain rfl := List.eq_of_mem_replicate hlen
      exact Int.natCast_nonneg _
    · obtain rfl := List.mem_singleton.mp hlen
      exact hrem
  · rw [chunkLens, List.sum_append, List.sum_replicate, List.sum_singleton, nsmul_eq_mul,
      Int.toNat_of_nonneg hquot, Int.tdiv_mul_add_tmod]

/-- What fits in an `int` is below 2^31. -/
theorem lt_of_exact {sizes : Sizes} {stSize : Nat} (hnarrow : sizes.dataSize = narrow stSize)
    (h : sizes.Exact stSize) : stSize < 2 ^ 31 := by
  have hlt := narrow_lt stSize
  rw [← hnarrow, h.announced] at hlt
  omega

/-- Sizes that announce what they send in chunks are exact. -/
theorem exact_of_chunkLens {sizes : Sizes} {stSize : Nat} (hsize : sizes.dataSize = stSize)
    (hlens : sizes.lens = chunkLens ((stSize : Int).tdiv socketioBufferSize)
      ((stSize : Int).tmod socketioBufferSize)) : sizes.Exact stSize := by
  obtain ⟨hnonneg, hsum⟩ := chunkLens_exact (Int.natCast_nonneg stSize)
  constructor
  · exact hsize
  · rw [hlens]
    exact hnonneg
  · rw [hlens]
    exact hsum

theorem getSizes_exact {stSize : Nat} (hlt : stSize < 2 ^ 31) :
    (getSizes stSize).Exact stSize := by
  have hnarrow : narrow stSize = stSize := narrow_eq (by omega) (by omega)
  refine exact_of_chunkLens hnarrow ?_
  rw [getSizes, hnarrow]

theorem putSizes_exact {stSize : Nat} (hlt : stSize < 2 ^ 31) :
    (putSizes stSize).Exact stSize := by
  have hsize : (socketioBufferSize : Int) = 512 := rfl
  have hquot : (stSize : Int).tdiv socketioBufferSize ≤ stSize :=
    Int.tdiv_le_self _ (Int.natCast_nonneg _)
  have hquot' : 0 ≤ (stSize : Int).tdiv socketioBufferSize :=
    Int.tdiv_nonneg (Int.natCast_nonneg _) (Int.natCast_nonneg _)
  have hrem' : 0 ≤ (stSize : Int).tmod socketioBufferSize :=
    Int.tmod_nonneg _ (Int.natCast_nonneg _)
  have hrem : (stSize : Int).tmod socketioBufferSize < socketioBufferSize :=
    Int.tmod_lt_of_pos _ (by decide)
  refine exact_of_chunkLens (narrow_eq (by omega) (by omega)) ?_
  rw [putSizes, narrow_eq (n := (stSize : Int).tdiv _) (by omega) (by omega),
    narrow_eq (n := (stSize : Int).tmod _) (by omega) (by omega)]

/-- **SIZES**: what is announced and what is sent is the size of the file exactly when it is
    below 2^31, on either side. -/
theorem exact_iff (stSize : Nat) :
    ((getSizes stSize).Exact stSize ↔ stSize < 2 ^ 31)
      ∧ ((putSizes stSize).Exact stSize ↔ stSize < 2 ^ 31) :=
  ⟨⟨lt_of_exact (dataSize_getSizes _), getSizes_exact⟩,
    ⟨lt_of_exact (dataSize_putSizes _), putSizes_exact⟩⟩

/-- A file of 4 GiB is announced as empty, and `comm_put` sends all of it. -/
theorem not_exact : ¬ ∀ stSize : Nat, stSize < 2 ^ 63 →
    (getSizes stSize).Exact stSize ∧ (putSizes stSize).Exact stSize := by
  intro h
  have hannounced := (h (2 ^ 32) (Nat.pow_lt_pow_right Nat.one_lt_two (by decide))).2.announced
  have hlt := narrow_lt ((2 ^ 32 : Nat) : Int)
  rw [← dataSize_putSizes, hannounced] at hlt
  exact absurd hlt (by decide)

/-! ## The functions of `FtpHandlers` -/

/-- The lengths of the sends of a file. -/
theorem lengths_dataSends (heap : Int → Byte) (buff : List Byte) (dataSize : Int) :
    (dataSends heap buff dataSize).map List.length
      = (chunkLens (dataSize.tdiv socketioBufferSize) (dataSize.tmod socketioBufferSize)).map
          sizeT := by
  have hchunk : sizeT (socketioBufferSize : Int) = socketioBufferSize := by decide
  rw [dataSends, chunkLens, List.map_append, List.map_append, List.map_map, List.map_replicate,
    hchunk]
  simp only [List.map_singleton, length_bytesAt, sizeT]
  congr 1
  refine List.eq_replicate_iff.mpr ⟨?_, ?_⟩
  · rw [List.length_map, List.length_range]
  · intro len hlen
    obtain ⟨i, -, rfl⟩ := List.mem_map.mp hlen
    rw [Function.comp_apply, length_bytesAt]

/-- `get_handler` announces and sends what `getSizes` has. -/
theorem getHandler_sizes {disk : Disk} {mem : Memory} {msg : Message} {name buff : List Byte}
    {l : Link} {r : Handled} (hname : fnameString msg = some name)
    (hopens : disk.opens name = some buff) (h : getHandler disk mem msg l = .ok r) :
    ∃ respMsg data, r.sends = encode respMsg :: data
      ∧ respMsg.size = (getSizes buff.length).dataSize
      ∧ data.map List.length = (getSizes buff.length).lens.map sizeT := by
  rw [getHandler, hname] at h
  simp only [hopens] at h
  split at h
  · cases h
  · rename_i respMsg hfill
    obtain rfl := Except.ok.inj h
    have hsize : respMsg.size = narrow buff.length := by
      obtain ⟨copy, -, rfl⟩ := Option.map_eq_some_iff.mp hfill
      rw [narrow, BitVec.ofInt_natCast]
      rfl
    refine ⟨respMsg, _, rfl, hsize, ?_⟩
    rw [lengths_dataSends, hsize]
    rfl

/-- `comm_put` announces and sends what `putSizes` has, for any file that fits a memory of
    32 bits. -/
theorem commPut_sizes {disk : Disk} {mem : Memory} {name file : List Byte}
    {sends : List (List Byte)} (hopens : disk.opens name = some file)
    (hfits : file.length < 2 ^ 32) (h : commPut disk mem name = .ok sends) :
    ∃ msg data, sends = encode msg :: data
      ∧ msg.size = (putSizes file.length).dataSize
      ∧ data.map List.length = (putSizes file.length).lens.map sizeT := by
  have hsize : (socketioBufferSize : Int) = 512 := rfl
  have hpos : (0 : Int) < socketioBufferSize := by decide
  have hquot := Int.tdiv_nonneg (Int.natCast_nonneg file.length) (Int.le_of_lt hpos)
  have hrem := Int.tmod_nonneg socketioBufferSize (Int.natCast_nonneg file.length)
  have hrem' := Int.tmod_lt_of_pos (file.length : Int) hpos
  have hdiv := Int.tdiv_mul_add_tmod (file.length : Int) socketioBufferSize
  have hnarrow : narrow ((file.length : Int).tdiv socketioBufferSize)
      = (file.length : Int).tdiv socketioBufferSize := by
    rw [hsize] at *
    exact narrow_eq (by omega) (by omega)
  have hnarrow' : narrow ((file.length : Int).tmod socketioBufferSize)
      = (file.length : Int).tmod socketioBufferSize := narrow_eq (by omega) (by omega)
  rw [commPut, hopens] at h
  simp only at h
  split at h
  · cases h
  · rename_i msg hfill
    obtain rfl := Except.ok.inj h
    refine ⟨msg, _, rfl, ?_, ?_⟩
    · obtain ⟨copy, -, rfl⟩ := Option.map_eq_some_iff.mp hfill
      rw [putSizes, narrow, BitVec.ofInt_natCast]
      rfl
    · rw [lengths_dataSends, putSizes, hnarrow, hnarrow']

end FtpSizes
