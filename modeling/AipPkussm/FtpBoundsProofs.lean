import AipPkussm.FtpReceiveProofs

/-! # The blocks of the receiving loops

    `put_handler` and `comm_get` allocate as many bytes as the header announces,
    whatever that is.  A header that announces less than a chunk makes them
    receive 512 bytes before the block; a negative remainder, which only the
    uninitialised `resp_msg` of `put_handler` can have behind a chunk, makes it
    ask for almost 2^32 bytes (`staysInside_iff`). -/

namespace FtpBounds

open LittleEndian ByteSocket FtpMessage FtpTransfer FtpReceive
open FtpHandlers hiding putHandler
open ChatReceive (socketioBufferSize chunkOffset_eq)
open ChatGet (lastOffset lastOffset_succ lastOffset_zero toNat_tdiv_natCast)

/-- What is handed to the system: the places of the `recv`s, and the length of the `fwrite`
    if it comes to that. -/
structure Accesses where
  recvs : List Call
  fwrite : Option Nat

/-- All of it inside a block of `alloc` bytes. -/
structure Accesses.Inside (a : Accesses) (alloc : Nat) : Prop where
  recvs : ∀ c ∈ a.recvs, 0 ≤ c.off ∧ c.off + c.len ≤ alloc
  fwrite : ∀ len ∈ a.fwrite, len ≤ alloc

/-- A loop that receives `dataSize` bytes, `remBytes` of them in the end, and writes them to
    a file if no `recv` failed. -/
def accesses (dataSize remBytes : Int) (d : Delivery) (s : Socket) : Accesses :=
  let calls := recvCalls dataSize remBytes
  { recvs := handed d calls s
    fwrite :=
      if ∀ j, j < calls.length → d (s.calls + j) ≠ .error then
        some (BitVec.ofInt 32 dataSize).toNat
      else none }

/-- `put_handler`, from `malloc` on. -/
def putAccesses (mem : Memory) (msg : Message) (d : Delivery) (s : Socket) : Accesses :=
  accesses msg.size (mem.old.size.tmod socketioBufferSize) d s

/-- `comm_get`, from `malloc` on. -/
def getAccesses (respMsg : Message) (d : Delivery) (s : Socket) : Accesses :=
  accesses respMsg.size (respMsg.size.tmod socketioBufferSize) d s

/-- The size of the block.  A negative `data_size` is more than `malloc` has, and there is no
    block. -/
def allocated (dataSize : Int) : Nat := dataSize.toNat

/-! ## The calls -/

/-- A single call is made, whatever becomes of it. -/
theorem handed_singleton (d : Delivery) (c : Call) (s : Socket) : handed d [c] s = [c] := by
  rw [handed]
  split
  · rfl
  · rfl

variable {d : Delivery} {s : Socket}

/-- Less than a chunk: the only call is for a place before the block. -/
theorem not_inside_of_short {dataSize : Int} (remBytes : Int)
    (hshort : dataSize < socketioBufferSize) (alloc : Nat) :
    ¬ (accesses dataSize remBytes d s).Inside alloc := by
  intro h
  have hsize : (socketioBufferSize : Int) = 512 := rfl
  have hnone : (dataSize.tdiv socketioBufferSize).toNat = 0 := by
    rcases Int.lt_or_le dataSize 0 with hneg | hpos
    · have hnonneg : 0 ≤ (-dataSize).tdiv socketioBufferSize :=
        Int.tdiv_nonneg (by omega) (by omega)
      rw [Int.neg_tdiv] at hnonneg
      exact Int.toNat_of_nonpos (by omega)
    · rw [Int.tdiv_eq_zero_of_lt hpos hshort]
      rfl
  have hcall : (accesses dataSize remBytes d s).recvs
      = [⟨lastOffset 0, (BitVec.ofInt 32 remBytes).toNat⟩] := by
    show handed d (recvCalls dataSize remBytes) s = _
    rw [recvCalls, hnone]
    exact handed_singleton d _ s
  have hoff := (h.recvs _ (by rw [hcall]; exact List.mem_singleton_self _)).1
  exact absurd hoff (Int.not_le.mpr lastOffset_zero)

section Chunks

variable {n : Nat} {remBytes : Int}

/-- The places of the chunks are inside the block. -/
theorem chunkCall_inside (hbound : n < 2 ^ 31) {c : Call}
    (hc : c ∈ (List.range (n / socketioBufferSize)).map chunkCall) :
    0 ≤ c.off ∧ c.off + c.len ≤ n := by
  obtain ⟨i, hi, rfl⟩ := List.mem_map.mp hc
  have hnext : (i + 1) * socketioBufferSize ≤ n :=
    (Nat.mul_le_mul_right _ (List.mem_range.mp hi)).trans (Nat.div_mul_le_self ..)
  rw [Nat.succ_mul] at hnext
  have hoff : (chunkCall i).off = (i * socketioBufferSize : Nat) := chunkOffset_eq (by omega)
  have hlen : (chunkCall i).len = socketioBufferSize := rfl
  rw [hoff, hlen]
  omega

/-- The calls behind at least one chunk: one of those for chunks fails, or all of them are
    made. -/
theorem handed_recvCalls (hbound : n < 2 ^ 31) (remBytes : Int) :
    ((∃ j, j < n / socketioBufferSize ∧ d (s.calls + j) = .error)
      ∧ ∀ c ∈ handed d (recvCalls n remBytes) s,
        c ∈ (List.range (n / socketioBufferSize)).map chunkCall)
    ∨ (¬ (∃ j, j < n / socketioBufferSize ∧ d (s.calls + j) = .error)
      ∧ handed d (recvCalls n remBytes) s = recvCalls n remBytes) := by
  have hblock : (List.replicate n (0 : Byte)).length = n := List.length_replicate
  have hfit : n / socketioBufferSize * socketioBufferSize
      ≤ (List.replicate n (0 : Byte)).length := by
    rw [hblock]
    exact Nat.div_mul_le_self ..
  rw [recvCalls, toNat_tdiv_natCast]
  by_cases hfails : ∃ j, j < n / socketioBufferSize ∧ d (s.calls + j) = .error
  · exact Or.inl ⟨hfails,
      (recvAll_chunks_failed (by rw [hblock]; exact hbound) _ _ hfit hfails).2⟩
  · obtain ⟨-, -, rest, -, -, -, hhanded⟩ := recvAll_chunks (d := d) (s := s)
      (by rw [hblock]; exact hbound) (n / socketioBufferSize)
      [⟨lastOffset (n / socketioBufferSize), (BitVec.ofInt 32 remBytes).toNat⟩]
      (fun j hj h => hfails ⟨j, hj, h⟩) hfit
    refine Or.inr ⟨hfails, ?_⟩
    rw [hhanded, handed_singleton]

/-- The place of the remainder is inside the block when it is not negative. -/
theorem lastCall_inside_iff (hbound : n < 2 ^ 31) (hchunk : socketioBufferSize ≤ n)
    (hlow : -(socketioBufferSize : Int) < remBytes) (hhigh : remBytes < socketioBufferSize) :
    (0 ≤ lastOffset (n / socketioBufferSize)
      ∧ lastOffset (n / socketioBufferSize) + (BitVec.ofInt 32 remBytes).toNat ≤ n)
      ↔ 0 ≤ remBytes := by
  have hsize : socketioBufferSize = 512 := rfl
  have hnat : ((BitVec.ofInt 32 remBytes).toNat : Int) = remBytes % 2 ^ 32 := by
    rw [BitVec.toNat_ofInt]
    exact Int.toNat_of_nonneg (Int.emod_nonneg _ (by decide))
  obtain ⟨q, hq⟩ : ∃ q, n / socketioBufferSize = q + 1 :=
    Nat.exists_eq_succ_of_ne_zero (Nat.div_pos hchunk (by decide)).ne'
  have hle : n / socketioBufferSize * socketioBufferSize ≤ n := Nat.div_mul_le_self ..
  rw [hq, Nat.succ_mul] at hle
  rw [hq, lastOffset_succ, chunkOffset_eq (by omega), hnat]
  rw [hsize] at hle hlow hhigh ⊢
  omega

end Chunks

/-- **THE LOOP**: it stays inside its block exactly when a chunk is announced and the
    remainder is not negative, or a `recv` fails before that. -/
theorem accesses_inside_iff {dataSize remBytes : Int} (hbound : dataSize < 2 ^ 31)
    (hlow : -(socketioBufferSize : Int) < remBytes) (hhigh : remBytes < socketioBufferSize) :
    (accesses dataSize remBytes d s).Inside (allocated dataSize)
      ↔ socketioBufferSize ≤ dataSize ∧ (0 ≤ remBytes
        ∨ ∃ j, j < dataSize.toNat / socketioBufferSize ∧ d (s.calls + j) = .error) := by
  by_cases hshort : dataSize < socketioBufferSize
  · refine iff_of_false (not_inside_of_short remBytes hshort _) ?_
    rintro ⟨hchunk, -⟩
    exact absurd hshort (Int.not_lt.mpr hchunk)
  have hchunk : (socketioBufferSize : Int) ≤ dataSize := Int.not_lt.mp hshort
  obtain ⟨n, rfl⟩ := Int.eq_ofNat_of_zero_le ((Int.natCast_nonneg _).trans hchunk)
  have hlast := lastCall_inside_iff (n := n) (by omega) (by omega) hlow hhigh
  have hsize : (BitVec.ofInt 32 (n : Int)).toNat = n := by
    rw [BitVec.ofInt_natCast, BitVec.toNat_ofNat, Nat.mod_eq_of_lt (by omega)]
  rw [allocated, Int.toNat_natCast]
  have hfwrite : ∀ len ∈ (accesses n remBytes d s).fwrite, len ≤ n := by
    intro len hlen
    rw [accesses] at hlen
    simp only at hlen
    split at hlen
    · rw [hsize] at hlen
      obtain rfl := Option.some.inj hlen
      exact Nat.le_refl _
    · exact nomatch hlen
  -- either a chunk fails, or the call for the remainder is made
  rcases handed_recvCalls (d := d) (s := s) (n := n) (by omega) remBytes with
    ⟨hfails, hmem⟩ | ⟨hok, hall⟩
  · refine iff_of_true ⟨fun c hc => ?_, hfwrite⟩ ⟨hchunk, Or.inr hfails⟩
    exact chunkCall_inside (by omega) (hmem c hc)
  · have hcalls : (accesses n remBytes d s).recvs
        = (List.range (n / socketioBufferSize)).map chunkCall
          ++ [⟨lastOffset (n / socketioBufferSize), (BitVec.ofInt 32 remBytes).toNat⟩] := by
      show handed d (recvCalls n remBytes) s = _
      rw [hall, recvCalls, toNat_tdiv_natCast]
    constructor
    · intro h
      have hmem : (⟨lastOffset (n / socketioBufferSize), (BitVec.ofInt 32 remBytes).toNat⟩ : Call)
          ∈ (accesses n remBytes d s).recvs := by
        rw [hcalls]
        exact List.mem_append_right _ (List.mem_singleton_self _)
      exact ⟨hchunk, Or.inl (hlast.mp (h.recvs _ hmem))⟩
    · rintro ⟨-, hrem | hfails⟩
      · refine ⟨fun c hc => ?_, hfwrite⟩
        rw [hcalls] at hc
        rcases List.mem_append.mp hc with hc | hc
        · exact chunkCall_inside (by omega) hc
        · obtain rfl := List.mem_singleton.mp hc
          exact hlast.mpr hrem
      · exact absurd hfails hok

/-- **INSIDE**: `put_handler` and `comm_get` stay inside their blocks exactly when a chunk is
    announced and, in `put_handler`, the remainder that it reads from `resp_msg` is not
    negative or a chunk fails. -/
theorem staysInside_iff (mem : Memory) (msg : Message) (d : Delivery) (s : Socket) :
    ((putAccesses mem msg d s).Inside (allocated msg.size)
      ↔ socketioBufferSize ≤ msg.size ∧ (0 ≤ mem.old.size.tmod socketioBufferSize
        ∨ ∃ j, j < msg.size.toNat / socketioBufferSize ∧ d (s.calls + j) = .error))
    ∧ ((getAccesses msg d s).Inside (allocated msg.size) ↔ socketioBufferSize ≤ msg.size) := by
  have hpos : (0 : Int) < socketioBufferSize := by decide
  have hbound : msg.size < 2 ^ 31 := BitVec.toInt_lt
  constructor
  · exact accesses_inside_iff hbound (Int.lt_tmod_of_pos _ hpos) (Int.tmod_lt_of_pos _ hpos)
  · refine (accesses_inside_iff hbound (Int.lt_tmod_of_pos _ hpos)
      (Int.tmod_lt_of_pos _ hpos)).trans (and_iff_left_of_imp (fun hchunk => Or.inl ?_))
    exact Int.tmod_nonneg _ ((Int.le_of_lt hpos).trans hchunk)

/-- A header that announces five bytes. -/
def fiveBytes : Message where
  command := Command.GET.code
  fname := List.replicate 32 0
  dataSize := 5
  fname_length := length_blankFname

/-- Five bytes would be received 512 bytes before their block. -/
theorem fiveBytes_outside : ¬ ∀ (mem : Memory) (msg : Message) (d : Delivery) (s : Socket),
    (putAccesses mem msg d s).Inside (allocated msg.size)
      ∧ (getAccesses msg d s).Inside (allocated msg.size) := by
  intro h
  have hinside := (h ⟨fun _ => 0, fiveBytes, fun _ => 0⟩ fiveBytes whole ⟨[], 0⟩).2
  exact absurd hinside (not_inside_of_short _ (by decide) _)

/-- **NO FAULT**: inside its block `put_handler` comes to an end. -/
theorem putHandler_no_fault {disk : Disk} {mem : Memory} {msg : Message} {name : List Byte}
    (hname : fnameString msg = some name) (hcreates : disk.creates name = true)
    (h : (putAccesses mem msg d s).Inside (allocated msg.size)) :
    putHandler disk mem msg d s ≠ .error .fault := by
  have hnonneg : ¬ msg.size < 0 := by
    intro hneg
    exact not_inside_of_short _ (Int.lt_trans hneg (by decide)) _ h
  have hrun := recvAll_no_fault (recvCalls msg.size (mem.old.size.tmod socketioBufferSize))
    (malloc mem msg.size.toNat) s (by rw [length_malloc]; exact h.recvs)
  rw [putHandler, hname]
  simp only
  rw [if_pos hcreates, if_neg hnonneg]
  generalize recvAll d _ _ s = outcome at hrun
  obtain ⟨result, s'⟩ := outcome
  cases result with
  | ok buff =>
      intro h
      cases h
  | error e =>
      cases e with
      | failed =>
          intro h
          cases h
      | waits =>
          intro h
          cases h
      | fault => exact absurd rfl hrun

end FtpBounds
