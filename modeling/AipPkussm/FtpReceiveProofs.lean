import AipPkussm.FtpHandlersProofs

/-! # The receiving loops on a connection that may fail

    `put_handler` and `comm_get` look at a `recv` only to see whether it returned
    -1.  Here every `recv` may return -1, a part of what was asked for, or 0 at
    the end of the stream, as a `Delivery` says; on a connection whose peer has
    closed it and where nothing is split this is what `FtpHandlers` says
    (`putHandler_whole`).

    `handed` is the list of the calls that are made: all of them up to the first
    that fails.  A loop whose calls lie inside the block does not write anywhere
    else (`recvAll_no_fault`). -/

namespace FtpReceive

open LittleEndian ByteSocket FtpMessage FtpTransfer FtpHandlers
open ChatReceive (socketioBufferSize chunkOffset chunkOffset_eq)

/-- The calls of a loop, one after another. -/
def recvAll (d : Delivery) : List Call → List Byte → Socket →
    Except Stop (List Byte) × Socket
  | [], buff, s => (.ok buff, s)
  | c :: cs, buff, s =>
      match ByteSocket.recv d s c.len with
      | (none, s') => (.error .failed, s')
      | (some got, s') =>
          match place c.off got buff with
          | .error e => (.error e, s')
          | .ok buff' => recvAll d cs buff' s'

/-- The calls that are made. -/
def handed (d : Delivery) : List Call → Socket → List Call
  | [], _ => []
  | c :: cs, s =>
      match ByteSocket.recv d s c.len with
      | (none, _) => [c]
      | (some _, s') => c :: handed d cs s'

/-- What `put_handler` did on such a connection. -/
structure Served where
  ret : Int
  sends : List (List Byte)
  stored : Option (List Byte × List Byte)
  socket : Socket

/-- The end of `put_handler`, whose loop is over. -/
def finish (name : List Byte) : Except Stop (List Byte) × Socket → Except Stop Served
  | (.ok buff, s) => .ok { ret := 0, sends := [], stored := some (name, buff), socket := s }
  -- the file was truncated by `fopen`
  | (.error .failed, s) =>
      .ok { ret := -1, sends := [], stored := some (name, []), socket := s }
  | (.error e, _) => .error e

/-- `put_handler`. -/
def putHandler (disk : Disk) (mem : Memory) (msg : Message) (d : Delivery) (s : Socket) :
    Except Stop Served :=
  match fnameString msg with
  | none => .error .fault
  | some name =>
      if disk.creates name then
        -- `malloc` returns NULL, and the one `recv`, for a place before it, fails
        if msg.size < 0 then finish name (.error .failed, { s with calls := s.calls + 1 })
        else
          finish name (recvAll d (recvCalls msg.size (mem.old.size.tmod socketioBufferSize))
            (malloc mem msg.size.toNat) s)
      else
        match fill mem.old [] .ERROR (BitVec.ofNat 32 ("Create file error".length + 1)) with
        | none => .error .fault
        | some respMsg =>
            .ok { ret := -1, sends := [encode respMsg], stored := none, socket := s }

/-- The contents of a file after the handler, by those of all files before it. -/
def Served.file (r : Served) (files : List Byte → Option (List Byte)) (name : List Byte) :
    Option (List Byte) :=
  match r.stored with
  | some (stored, contents) => if stored = name then some contents else files name
  | none => files name

/-! ## One call -/

/-- A `recv` fails when the delivery says so. -/
theorem recv_error {d : Delivery} {s : Socket} (h : d s.calls = .error) (req : Nat) :
    ByteSocket.recv d s req = (none, { s with calls := s.calls + 1 }) := by
  rw [ByteSocket.recv, h]

/-- A `recv` that does not fail takes bytes off the front, none only where none are left
    or asked for. -/
theorem recv_some {d : Delivery} {s : Socket} (h : d s.calls ≠ .error) (req : Nat) :
    ∃ got rest, ByteSocket.recv d s req = (some got, ⟨rest, s.calls + 1⟩)
      ∧ s.input = got ++ rest ∧ got.length ≤ req
      ∧ (got = [] → req = 0 ∨ s.input = [])
      ∧ (got.length = req ↔ (d s.calls).covers req ∧ req ≤ s.input.length) := by
  rw [ByteSocket.recv]
  cases hd : d s.calls with
  | error => exact absurd hd h
  | upTo k =>
      refine ⟨_, _, rfl, (List.take_append_drop _ _).symm, ?_, ?_, ?_⟩
      · rw [List.length_take]
        omega
      · intro hnil
        rw [List.take_eq_nil_iff] at hnil
        rcases hnil with hzero | hend
        · exact Or.inl (by omega)
        · exact Or.inr hend
      · rw [List.length_take]
        show _ ↔ req ≤ max 1 k ∧ _
        omega
  | all =>
      refine ⟨_, _, rfl, (List.take_append_drop _ _).symm, ?_, ?_, ?_⟩
      · rw [List.length_take]
        omega
      · intro hnil
        rw [List.take_eq_nil_iff] at hnil
        exact hnil
      · rw [List.length_take]
        show _ ↔ True ∧ _
        rw [true_and]
        omega

/-- A byte outside what is written stays what it was. -/
theorem getD_place {off : Int} {got buff buff' : List Byte}
    (h : place off got buff = .ok buff') {p : Nat}
    (hp : (p : Int) < off ∨ off + got.length ≤ p) : buff'.getD p 0 = buff.getD p 0 := by
  rw [place] at h
  split at h
  · obtain rfl := Except.ok.inj h
    rfl
  · split at h
    · obtain rfl := Except.ok.inj h
      rcases hp with hlow | hhigh
      · exact getD_patch_of_lt (by omega) (by omega)
      · exact getD_patch_of_le (by omega) (by omega)
    · cases h

/-- A call for a chunk. -/
theorem recvAll_chunk {d : Delivery} {s : Socket} (q : Nat) (cs : List Call) (buff : List Byte)
    (hok : d s.calls ≠ .error) (hfit : (q + 1) * socketioBufferSize ≤ buff.length)
    (hbound : buff.length < 2 ^ 31) :
    ∃ got rest, s.input = got ++ rest ∧ got.length ≤ socketioBufferSize
      ∧ (got = [] → rest = [])
      ∧ (got.length = socketioBufferSize ↔ (d s.calls).covers socketioBufferSize
        ∧ socketioBufferSize ≤ s.input.length)
      ∧ recvAll d (chunkCall q :: cs) buff s
        = recvAll d cs (patch (q * socketioBufferSize) got buff) ⟨rest, s.calls + 1⟩
      ∧ handed d (chunkCall q :: cs) s = chunkCall q :: handed d cs ⟨rest, s.calls + 1⟩ := by
  obtain ⟨got, rest, hrecv, hin, hle, hend, hfull⟩ := recv_some hok socketioBufferSize
  rw [Nat.succ_mul] at hfit
  have hplace : place (chunkOffset q) got buff
      = .ok (patch (q * socketioBufferSize) got buff) :=
    place_inside (chunkOffset_eq (by omega)) (by omega)
  refine ⟨got, rest, hin, hle, ?_, hfull, ?_, ?_⟩
  · intro hnil
    rcases hend hnil with hzero | hinput
    · exact absurd hzero (by decide)
    · rw [hnil, List.nil_append] at hin
      rw [← hin, hinput]
  · rw [recvAll, chunkCall]
    simp only [hrecv, hplace]
  · rw [handed, chunkCall]
    simp only [hrecv]

/-! ## The chunks -/

/-- What chunks have brought, and what the block is then. -/
structure Brought (d : Delivery) (s : Socket) (q : Nat) (buff body buff' : List Byte) :
    Prop where
  length_le : body.length ≤ q * socketioBufferSize
  full_iff : body.length = q * socketioBufferSize
    ↔ Covers d s.calls (List.replicate q socketioBufferSize)
      ∧ q * socketioBufferSize ≤ s.input.length
  block : body.length = q * socketioBufferSize → buff' = patch 0 body buff
  length_block : buff'.length = buff.length
  behind : ∀ p, q * socketioBufferSize ≤ p → buff'.getD p 0 = buff.getD p 0
  kept : body.length ≠ q * socketioBufferSize →
    ∃ p, p < q * socketioBufferSize ∧ buff'.getD p 0 = buff.getD p 0

/-- One more chunk. -/
theorem Brought.chunk {d : Delivery} {s : Socket} {q : Nat} {buff body buff' got rest : List Byte}
    (h : Brought d s q buff body buff') (hin : s.input = body ++ rest)
    (hfit : (q + 1) * socketioBufferSize ≤ buff.length) (hle : got.length ≤ socketioBufferSize)
    (hfull : got.length = socketioBufferSize ↔ (d (s.calls + q)).covers socketioBufferSize
      ∧ socketioBufferSize ≤ rest.length) :
    Brought d s (q + 1) buff (body ++ got) (patch (q * socketioBufferSize) got buff') := by
  have hbody := h.length_le
  have hlen := h.length_block
  have hinput : s.input.length = body.length + rest.length := by
    rw [hin, List.length_append]
  rw [Nat.succ_mul] at hfit
  have hoff : q * socketioBufferSize ≤ buff'.length := by omega
  have hboth : (body ++ got).length = (q + 1) * socketioBufferSize
      ↔ body.length = q * socketioBufferSize ∧ got.length = socketioBufferSize := by
    rw [List.length_append, Nat.succ_mul]
    omega
  constructor
  · rw [List.length_append, Nat.succ_mul]
    omega
  · have hcovers : Covers d s.calls (List.replicate (q + 1) socketioBufferSize)
        ↔ Covers d s.calls (List.replicate q socketioBufferSize)
          ∧ (d (s.calls + q)).covers socketioBufferSize := by
      rw [List.replicate_succ', covers_append, List.length_replicate]
      exact and_congr_right (fun _ => and_iff_left trivial)
    rw [hboth, hcovers, hfull, h.full_iff, Nat.succ_mul]
    constructor
    · rintro ⟨⟨hcov, henough⟩, hcov', henough'⟩
      have := h.full_iff.mpr ⟨hcov, henough⟩
      exact ⟨⟨hcov, hcov'⟩, by omega⟩
    · rintro ⟨⟨hcov, hcov'⟩, henough⟩
      have := h.full_iff.mpr ⟨hcov, by omega⟩
      exact ⟨⟨hcov, by omega⟩, hcov', by omega⟩
  · intro hall
    obtain ⟨hfront, -⟩ := hboth.mp hall
    have happend : patch (0 + body.length) got (patch 0 body buff) = patch 0 (body ++ got) buff :=
      patch_append (Nat.zero_le _)
    rw [Nat.zero_add, hfront] at happend
    rw [h.block hfront, happend]
  · rw [length_patch (by omega), hlen]
  · intro p hp
    rw [Nat.succ_mul] at hp
    rw [getD_patch_of_le hoff (by omega), h.behind p (by omega)]
  · intro hpart
    rw [Nat.succ_mul]
    -- a place that is kept lies behind a short chunk, or is kept already
    by_cases hfront : body.length = q * socketioBufferSize
    · have hshort : got.length ≠ socketioBufferSize := fun hgot => hpart (hboth.mpr ⟨hfront, hgot⟩)
      refine ⟨q * socketioBufferSize + got.length, by omega, ?_⟩
      rw [getD_patch_of_le hoff (Nat.le_refl _), h.behind _ (Nat.le_add_right ..)]
    · obtain ⟨p, hp, hkept⟩ := h.kept hfront
      refine ⟨p, by omega, ?_⟩
      rw [getD_patch_of_lt hoff hp, hkept]

/-- **LOOP**: chunks none of whose `recv`s fails. -/
theorem recvAll_chunks {d : Delivery} {buff : List Byte} {s : Socket}
    (hbound : buff.length < 2 ^ 31) (q : Nat) : ∀ cs,
    (∀ j, j < q → d (s.calls + j) ≠ .error) → q * socketioBufferSize ≤ buff.length →
    ∃ body buff' rest, s.input = body ++ rest ∧ Brought d s q buff body buff'
      ∧ recvAll d ((List.range q).map chunkCall ++ cs) buff s
        = recvAll d cs buff' ⟨rest, s.calls + q⟩
      ∧ handed d ((List.range q).map chunkCall ++ cs) s
        = (List.range q).map chunkCall ++ handed d cs ⟨rest, s.calls + q⟩ := by
  induction q with
  | zero =>
      intro cs _ _
      refine ⟨[], buff, s.input, rfl, ?_, rfl, rfl⟩
      constructor
      · exact Nat.zero_le _
      · rw [Nat.zero_mul]
        exact iff_of_true rfl ⟨trivial, Nat.zero_le _⟩
      · intro _
        rw [patch_nil]
      · rfl
      · intro _ _
        rfl
      · intro hpart
        rw [Nat.zero_mul] at hpart
        exact absurd rfl hpart
  | succ q ih =>
      intro cs hok hfit
      have hfit' : q * socketioBufferSize ≤ buff.length := by
        rw [Nat.succ_mul] at hfit
        omega
      rw [List.range_succ, List.map_append, List.append_assoc]
      obtain ⟨body, buff₁, rest₁, hin, hbrought, hrun, hhanded⟩ :=
        ih ([q].map chunkCall ++ cs) (fun j hj => hok j (by omega)) hfit'
      have hlen := hbrought.length_block
      obtain ⟨got, rest, hin', hle, -, hfull, hrun', hhanded'⟩ :=
        recvAll_chunk (s := ⟨rest₁, s.calls + q⟩) q cs buff₁ (hok q (Nat.lt_succ_self q))
          (by rw [hlen]; exact hfit) (by rw [hlen]; exact hbound)
      have hrest : rest₁ = got ++ rest := hin'
      refine ⟨body ++ got, patch (q * socketioBufferSize) got buff₁, rest, ?_,
        hbrought.chunk hin hfit hle hfull, hrun.trans hrun', ?_⟩
      · rw [hin, hrest, List.append_assoc]
      · rw [hhanded, List.append_assoc]
        exact congrArg _ hhanded'

/-- Chunks one of whose `recv`s fails. -/
theorem recvAll_chunks_failed {d : Delivery} {buff : List Byte} {s : Socket}
    (hbound : buff.length < 2 ^ 31) (q : Nat) : ∀ cs, q * socketioBufferSize ≤ buff.length →
    (∃ j, j < q ∧ d (s.calls + j) = .error) →
    (∃ s', recvAll d ((List.range q).map chunkCall ++ cs) buff s = (.error .failed, s'))
      ∧ ∀ c ∈ handed d ((List.range q).map chunkCall ++ cs) s,
        c ∈ (List.range q).map chunkCall := by
  induction q with
  | zero =>
      rintro cs _ ⟨j, hj, -⟩
      exact absurd hj (Nat.not_lt_zero j)
  | succ q ih =>
      rintro cs hfit ⟨j, hj, herror⟩
      rw [Nat.succ_mul] at hfit
      rw [List.range_succ, List.map_append, List.append_assoc]
      by_cases hearlier : ∃ j, j < q ∧ d (s.calls + j) = .error
      · obtain ⟨hrun, hhanded⟩ := ih ([q].map chunkCall ++ cs) (by omega) hearlier
        exact ⟨hrun, fun c hc => List.mem_append_left _ (hhanded c hc)⟩
      · have hok : ∀ j, j < q → d (s.calls + j) ≠ .error :=
          fun j hj h => hearlier ⟨j, hj, h⟩
        obtain ⟨body, buff₁, rest, -, -, hrun, hhanded⟩ :=
          recvAll_chunks hbound q ([q].map chunkCall ++ cs) hok (by omega)
        have hlast : j = q := by
          by_contra hne
          exact hok j (by omega) herror
        have hrecv : ByteSocket.recv d ⟨rest, s.calls + q⟩ (chunkCall q).len
            = (none, ⟨rest, s.calls + q + 1⟩) :=
          recv_error (s := ⟨rest, s.calls + q⟩) (by rw [← hlast]; exact herror) _
        rw [hrun, hhanded]
        refine ⟨⟨⟨rest, s.calls + q + 1⟩, ?_⟩, ?_⟩
        · show recvAll d (chunkCall q :: cs) buff₁ _ = _
          rw [recvAll]
          simp only [hrecv]
        · intro c hc
          have hone : handed d ([q].map chunkCall ++ cs) ⟨rest, s.calls + q⟩ = [chunkCall q] := by
            show handed d (chunkCall q :: cs) _ = _
            rw [handed]
            simp only [hrecv]
          rw [hone] at hc
          exact hc

/-- A loop that ends with a failure has made a call that failed. -/
theorem exists_error_of_failed {d : Delivery} (cs : List Call) : ∀ (buff : List Byte)
    (s : Socket), (recvAll d cs buff s).1 = .error .failed →
    ∃ j, j < cs.length ∧ d (s.calls + j) = .error := by
  induction cs with
  | nil =>
      intro buff s h
      cases h
  | cons c cs ih =>
      intro buff s h
      by_cases herror : d s.calls = .error
      · exact ⟨0, Nat.succ_pos _, herror⟩
      · obtain ⟨got, rest, hrecv, -⟩ := recv_some herror c.len
        rw [recvAll, hrecv] at h
        simp only at h
        cases hplace : place c.off got buff with
        | error e =>
            rw [hplace] at h
            obtain rfl := Except.error.inj h
            cases place_error hplace
        | ok buff' =>
            rw [hplace] at h
            obtain ⟨j, hj, hd⟩ := ih buff' ⟨rest, s.calls + 1⟩ h
            have hnext : s.calls + (j + 1) = s.calls + 1 + j := by omega
            refine ⟨j + 1, Nat.succ_lt_succ hj, ?_⟩
            rw [hnext]
            exact hd

/-! ## Memory -/

/-- **INSIDE**: a loop whose calls lie inside the block writes nowhere else. -/
theorem recvAll_no_fault {d : Delivery} (cs : List Call) : ∀ (buff : List Byte) (s : Socket),
    (∀ c ∈ handed d cs s, 0 ≤ c.off ∧ c.off + c.len ≤ buff.length) →
    (recvAll d cs buff s).1 ≠ .error .fault := by
  induction cs with
  | nil =>
      intro buff s _
      exact nofun
  | cons c cs ih =>
      intro buff s hin
      by_cases herror : d s.calls = .error
      · rw [recvAll, recv_error herror]
        exact nofun
      · obtain ⟨got, rest, hrecv, -, hle, -, -⟩ := recv_some herror c.len
        rw [handed, hrecv] at hin
        obtain ⟨hc, hrest⟩ := List.forall_mem_cons.mp hin
        have hoff : c.off = (c.off.toNat : Nat) := by omega
        have hplace : place c.off got buff = .ok (patch c.off.toNat got buff) :=
          place_inside hoff (by omega)
        rw [recvAll, hrecv]
        simp only [hplace]
        refine ih _ _ (fun c' hc' => ?_)
        rw [length_patch (by omega)]
        exact hrest c' hc'

/-! ## A connection that nothing splits -/

/-- Where nothing is split and the peer has closed the connection, the loop is the one of
    `FtpTransfer`. -/
theorem recvAll_whole (cs : List Call) : ∀ (buff : List Byte) (s : Socket),
    (recvAll whole cs buff s).1 ≠ .error .failed
      ∧ FtpTransfer.recvAll cs buff ⟨s.input, .closed⟩
        = (recvAll whole cs buff s).1.map
            (fun buff' => (buff', ⟨(recvAll whole cs buff s).2.input, .closed⟩)) := by
  induction cs with
  | nil =>
      intro buff s
      refine ⟨?_, rfl⟩
      intro h
      cases h
  | cons c cs ih =>
      intro buff s
      have hrecv : FtpTransfer.recv ⟨s.input, .closed⟩ c.len
          = .ok (s.input.take c.len, ⟨s.input.drop c.len, .closed⟩) := by
        rw [FtpTransfer.recv]
        split
        · rfl
        · rename_i hshort
          have hle : s.input.length ≤ c.len := Nat.le_of_lt (Nat.lt_of_not_le hshort)
          simp only
          rw [List.take_of_length_le hle, List.drop_of_length_le hle]
      rw [recvAll, recv_whole, FtpTransfer.recvAll, hrecv]
      simp only
      cases hplace : place c.off (s.input.take c.len) buff with
      | error e =>
          obtain rfl := place_error hplace
          refine ⟨?_, rfl⟩
          intro h
          cases h
      | ok buff' => exact ih buff' ⟨s.input.drop c.len, s.calls + 1⟩

/-- **WHOLE**: there `put_handler` is the one of `FtpHandlers`. -/
theorem putHandler_whole (disk : Disk) (mem : Memory) (msg : Message) (s : Socket) :
    FtpHandlers.putHandler disk mem msg ⟨s.input, .closed⟩
      = (putHandler disk mem msg whole s).map (fun r =>
          { ret := r.ret, sends := r.sends, stored := r.stored
            link := ⟨r.socket.input, .closed⟩ }) := by
  rw [FtpHandlers.putHandler, putHandler]
  cases fnameString msg with
  | none => rfl
  | some name =>
      simp only
      by_cases hcreates : disk.creates name = true
      · rw [if_pos hcreates, if_pos hcreates]
        by_cases hsize : msg.size < 0
        · rw [if_pos hsize, if_pos hsize]
          rfl
        · rw [if_neg hsize, if_neg hsize]
          obtain ⟨hfailed, hrun⟩ := recvAll_whole
            (recvCalls msg.size (mem.old.size.tmod socketioBufferSize))
            (malloc mem msg.size.toNat) s
          rw [hrun]
          generalize recvAll whole _ _ s = outcome at hfailed ⊢
          obtain ⟨result, s'⟩ := outcome
          cases result with
          | ok buff => rfl
          | error e =>
              cases e with
              | failed => exact absurd rfl hfailed
              | waits => rfl
              | fault => rfl
      · rw [if_neg hcreates, if_neg hcreates, refuse]
        cases fill mem.old [] .ERROR (BitVec.ofNat 32 ("Create file error".length + 1)) with
        | none => rfl
        | some respMsg => rfl

end FtpReceive
