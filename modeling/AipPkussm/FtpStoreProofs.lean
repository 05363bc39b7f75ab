import AipPkussm.FtpReceiveProofs

/-! # A PUT on a connection that may fail

    `fopen` truncates the file before anything has arrived, so a `recv` that fails
    leaves an empty file.  A `recv` that returns 0 or less than it was asked for
    counts as a success.

    The block that `malloc` returns may hold anything.  Put into it, byte for
    byte, the complement of what is received (`adverse`), and a byte that no
    `recv` has written gives itself away: nothing is missing only where every
    chunk arrives in full, no byte is left for the remainder, and the remainder
    brings none (`allOrNothing_iff`). -/

namespace FtpStore

open LittleEndian ByteSocket FtpMessage FtpReceive
open FtpTransfer hiding recvAll recv
open FtpHandlers hiding putHandler
open ChatReceive (socketioBufferSize chunkOffset_eq)
open ChatGet (lastOffset lastOffset_succ lastOffset_zero toNat_tdiv_natCast)

/-- What a PUT of `size` bytes is for: the file is what was received, or it is what it was. -/
def AllOrNothing (files : List Byte → Option (List Byte)) (name : List Byte) (size : Int)
    (s : Socket) (outcome : Except Stop Served) : Prop :=
  ∃ r, outcome = .ok r ∧
    ((r.ret = 0 ∧ ∃ received, s.input = received ++ r.socket.input
        ∧ (received.length : Int) = size ∧ r.file files name = some received)
      ∨ (r.ret = -1 ∧ r.file files name = files name))

/-! ## The loop -/

/-- What a loop is to do that receives `n` bytes into a block. -/
def Receives (n : Nat) (s : Socket) (outcome : Except Stop (List Byte) × Socket) : Prop :=
  ∃ received, s.input = received ++ outcome.2.input ∧ received.length = n
    ∧ outcome.1 = .ok received

/-- A block whose bytes are not those that will arrive. -/
def adverse (n : Nat) (input : List Byte) : List Byte :=
  overlay n [] (fun k => ~~~ input.getD k 0)

/-- A byte of the block that keeps what it was is not the byte that was received. -/
theorem not_kept {n p : Nat} {received rest : List Byte} (hp : p < n)
    (hlen : received.length = n) :
    received.getD p 0 ≠ (adverse n (received ++ rest)).getD p 0 := by
  have hold : (adverse n (received ++ rest)).getD p 0 = ~~~ (received ++ rest).getD p 0 :=
    getD_overlay_old hp (Nat.zero_le p)
  rw [hold, List.getD_append _ _ _ _ (by omega)]
  exact (complement_ne _).symm

/-- The call for the remainder. -/
theorem recvAll_singleton {d : Delivery} {s : Socket} (hok : d s.calls ≠ .error) (c : Call)
    (buff : List Byte) :
    ∃ got rest, s.input = got ++ rest ∧ got.length ≤ c.len
      ∧ (got = [] → c.len = 0 ∨ s.input = [])
      ∧ recvAll d [c] buff s = (place c.off got buff, ⟨rest, s.calls + 1⟩) := by
  obtain ⟨got, rest, hrecv, hin, hle, hend, -⟩ := recv_some hok c.len
  refine ⟨got, rest, hin, hle, hend, ?_⟩
  rw [recvAll]
  simp only [hrecv]
  cases place c.off got buff with
  | error e => rfl
  | ok buff' => rfl

section Loop

variable {d : Delivery} {s : Socket} {n : Nat}

/-- Less than a chunk: the place of the remainder is not in the block. -/
theorem receives_short (hok : d s.calls ≠ .error) (len : Nat) {buff : List Byte}
    (hbuff : buff.length = n) :
    Receives n s (recvAll d [⟨lastOffset 0, len⟩] buff s)
      ↔ n = 0 ∧ (len = 0 ∨ s.input = []) := by
  obtain ⟨got, rest, hin, hle, hend, hrun⟩ := recvAll_singleton hok ⟨lastOffset 0, len⟩ buff
  rw [hrun]
  constructor
  · rintro ⟨received, hin', hlen, hplace⟩
    have hnil : got = [] := by
      by_contra hne
      rw [place_before lastOffset_zero hne] at hplace
      exact nomatch hplace
    have hnone : received = [] := by
      rw [hin, hnil] at hin'
      exact (List.append_cancel_right hin').symm
    refine ⟨?_, hend hnil⟩
    rw [← hlen, hnone]
    rfl
  · rintro ⟨rfl, hnone⟩
    have hnil : got = [] := by
      rcases hnone with hzero | hinput
      · exact List.eq_nil_of_length_eq_zero (by rw [← Nat.le_zero, ← hzero]; exact hle)
      · rw [hinput] at hin
        exact (List.append_eq_nil_iff.mp hin.symm).1
    have hempty : buff = [] := List.eq_nil_of_length_eq_zero hbuff
    refine ⟨[], ?_, rfl, ?_⟩
    · rw [hin, hnil]
    · rw [hnil, hempty]
      rfl

/-- **NOTHING MISSING**: a loop that makes of the adverse block what it received has received
    all chunks in full, and nothing else. -/
theorem full_of_receives (hbound : n < 2 ^ 31) {q : Nat} (hq : n / socketioBufferSize = q + 1)
    (hok : ∀ j, j ≤ q + 1 → d (s.calls + j) ≠ .error) (len : Nat)
    (h : Receives n s (recvAll d ((List.range (q + 1)).map chunkCall
      ++ [⟨lastOffset (q + 1), len⟩]) (adverse n s.input) s)) :
    n = (q + 1) * socketioBufferSize
      ∧ Covers d s.calls (List.replicate (q + 1) socketioBufferSize)
      ∧ n ≤ s.input.length ∧ (len = 0 ∨ s.input.length = n) := by
  have hblock : (adverse n s.input).length = n := length_overlay ..
  have hfit : (q + 1) * socketioBufferSize ≤ n := by
    rw [← hq]
    exact Nat.div_mul_le_self ..
  have hfit' : q * socketioBufferSize + socketioBufferSize ≤ n := by
    rw [← Nat.succ_mul]
    exact hfit
  have hoff : lastOffset (q + 1) = (q * socketioBufferSize : Nat) := by
    rw [lastOffset_succ, chunkOffset_eq (by omega)]
  -- the chunks before the last, the last chunk, and the remainder
  obtain ⟨body, buff₁, rest₁, hin₁, hbrought, hrun₁, -⟩ :=
    recvAll_chunks (d := d) (s := s) (by rw [hblock]; exact hbound) q
      ([q].map chunkCall ++ [⟨lastOffset (q + 1), len⟩])
      (fun j hj => hok j (by omega)) (by rw [hblock]; omega)
  have hlen₁ := hbrought.length_block
  obtain ⟨got, rest₂, hin₂, hle, hover, hfull, hrun₂, -⟩ :=
    recvAll_chunk (s := ⟨rest₁, s.calls + q⟩) q [⟨lastOffset (q + 1), len⟩] buff₁
      (hok q (by omega)) (by rw [hlen₁, hblock]; exact hfit)
      (by rw [hlen₁, hblock]; exact hbound)
  have hrest₁ : rest₁ = got ++ rest₂ := hin₂
  obtain ⟨got', rest₃, hin₃, -, hend, hrun₃⟩ :=
    recvAll_singleton (d := d) (s := ⟨rest₂, s.calls + q + 1⟩) (hok (q + 1) (Nat.le_refl _))
      ⟨lastOffset (q + 1), len⟩ (patch (q * socketioBufferSize) got buff₁)
  have hrest₂ : rest₂ = got' ++ rest₃ := hin₃
  rw [List.range_succ, List.map_append, List.append_assoc, hrun₁] at h
  rw [show recvAll d ([q].map chunkCall ++ _) buff₁ _ = _ from hrun₂.trans hrun₃] at h
  obtain ⟨received, hin, hlen, hlast⟩ := h
  have hplace : place (q * socketioBufferSize : Nat) got'
      (patch (q * socketioBufferSize) got buff₁) = .ok received := by
    rw [← hoff]
    exact hlast
  have hinput : s.input = body ++ got ++ got' ++ rest₃ := by
    rw [hin₁, hrest₁, hrest₂, List.append_assoc, List.append_assoc]
  have hreceived : received = body ++ got ++ got' := by
    rw [hin] at hinput
    exact List.append_cancel_right hinput
  have hcount : body.length + got.length + got'.length = n := by
    rw [← hlen, hreceived, List.length_append, List.length_append]
  have hkept : ∀ p, p < n → received.getD p 0 ≠ (adverse n s.input).getD p 0 := by
    intro p hp
    rw [hin]
    exact not_kept hp hlen
  have hlen₂ : q * socketioBufferSize ≤ buff₁.length := by omega
  by_cases hfront : body.length = q * socketioBufferSize
  · by_cases hnil : got' = []
    · have hzero : got'.length = 0 := by rw [hnil]; rfl
      obtain ⟨hcov, henough⟩ := hfull.mp (by omega)
      refine ⟨?_, ?_, ?_, ?_⟩
      · rw [Nat.succ_mul]
        omega
      · rw [List.replicate_succ', covers_append, List.length_replicate]
        exact ⟨(hbrought.full_iff.mp hfront).1, hcov, trivial⟩
      · rw [hin, List.length_append]
        omega
      · rcases hend hnil with hnone | hover'
        · exact Or.inl hnone
        · refine Or.inr ?_
          have hrest₃ : rest₂ = [] := hover'
          rw [hin₁, hrest₁, hrest₃, List.append_nil, List.length_append]
          omega
    · -- the last byte of the block is behind both the last chunk and the remainder
      have hgot : got ≠ [] := by
        intro hgot
        rw [hover hgot] at hrest₂
        exact hnil (List.append_eq_nil_iff.mp hrest₂.symm).1
      have hpos := List.length_pos_iff.mpr hgot
      have hpos' := List.length_pos_iff.mpr hnil
      refine absurd ?_ (hkept (n - 1) (by omega))
      rw [getD_place hplace (Or.inr (by omega)),
        getD_patch_of_le hlen₂ (by omega), hbrought.behind _ (by omega)]
  · obtain ⟨p, hp, hold⟩ := hbrought.kept hfront
    refine absurd ?_ (hkept p (by omega))
    rw [getD_place hplace (Or.inl (by omega)), getD_patch_of_lt hlen₂ hp, hold]

/-- **ALL THERE**: full chunks and nothing else are what is received, whatever the block
    held. -/
theorem receives_of_full (hbound : n < 2 ^ 31) {k : Nat} (hn : n = k * socketioBufferSize)
    (hok : ∀ j, j ≤ k → d (s.calls + j) ≠ .error) {len : Nat}
    (hcovers : Covers d s.calls (List.replicate k socketioBufferSize))
    (henough : n ≤ s.input.length) (hnone : len = 0 ∨ s.input.length = n)
    {buff : List Byte} (hbuff : buff.length = n) :
    Receives n s (recvAll d ((List.range k).map chunkCall ++ [⟨lastOffset k, len⟩]) buff s) := by
  obtain ⟨body, buff₁, rest, hin, hbrought, hrun, -⟩ :=
    recvAll_chunks (d := d) (s := s) (by rw [hbuff]; exact hbound) k [⟨lastOffset k, len⟩]
      (fun j hj => hok j (Nat.le_of_lt hj)) (by rw [hbuff, hn])
  have hfull := hbrought.full_iff.mpr ⟨hcovers, by omega⟩
  have hblock := hbrought.block hfull
  rw [patch_full (by omega)] at hblock
  obtain ⟨got, rest', hin', hle, -, hrun'⟩ :=
    recvAll_singleton (d := d) (s := ⟨rest, s.calls + k⟩) (hok k (Nat.le_refl _))
      ⟨lastOffset k, len⟩ buff₁
  have hrest : rest = got ++ rest' := hin'
  have hnil : got = [] := by
    refine List.eq_nil_of_length_eq_zero ?_
    rcases hnone with hzero | hexact
    · rw [← Nat.le_zero, ← hzero]
      exact hle
    · have hlength := congrArg List.length hin
      rw [hrest, List.length_append, List.length_append] at hlength
      omega
  rw [hrun, hrun', hblock]
  refine ⟨body, ?_, by omega, ?_⟩
  · rw [hin, hrest, hnil]
    rfl
  · rw [hnil]
    show place (lastOffset k) [] body = .ok body
    exact if_pos rfl

/-- **THE LOOP**: whatever the block held, it becomes the `n` bytes that are received exactly
    when these are chunks, all of them arrive in full, and there is nothing to receive for
    the remainder. -/
theorem receives_iff (hbound : n < 2 ^ 31)
    (hok : ∀ j, j ≤ n / socketioBufferSize → d (s.calls + j) ≠ .error) (remBytes : Int) :
    (∀ heap, Receives n s (recvAll d (recvCalls n remBytes) (overlay n [] heap) s))
      ↔ socketioBufferSize ∣ n
        ∧ Covers d s.calls (List.replicate (n / socketioBufferSize) socketioBufferSize)
        ∧ n ≤ s.input.length
        ∧ ((BitVec.ofInt 32 remBytes).toNat = 0 ∨ s.input.length = n) := by
  have hlen : ∀ heap, (overlay n [] heap).length = n := fun heap => length_overlay ..
  rw [recvCalls, toNat_tdiv_natCast]
  constructor
  · intro h
    have hadverse := h (fun k => ~~~ s.input.getD k 0)
    cases hk : n / socketioBufferSize with
    | zero =>
        rw [hk] at hadverse hok
        obtain ⟨hzero, hnone⟩ := (receives_short (hok 0 (Nat.le_refl 0)) _ (hlen _)).mp hadverse
        subst hzero
        refine ⟨Nat.dvd_zero _, trivial, Nat.zero_le _, hnone.imp_right ?_⟩
        intro hnil
        rw [hnil]
        rfl
    | succ q =>
        rw [hk] at hadverse hok
        obtain ⟨hn, hrest⟩ := full_of_receives hbound hk hok _ hadverse
        exact ⟨⟨q + 1, by rw [hn, Nat.mul_comm]⟩, hrest⟩
  · rintro ⟨hdvd, hcovers, henough, hnone⟩ heap
    exact receives_of_full hbound (Nat.div_mul_cancel hdvd).symm hok hcovers henough hnone
      (hlen heap)

/-- A loop one of whose calls fails. -/
theorem recvAll_failed (hbound : n < 2 ^ 31)
    (herror : ∃ j, j ≤ n / socketioBufferSize ∧ d (s.calls + j) = .error) (remBytes : Int)
    {buff : List Byte} (hbuff : buff.length = n) :
    (recvAll d (recvCalls n remBytes) buff s).1 = .error .failed := by
  have hfit : n / socketioBufferSize * socketioBufferSize ≤ buff.length := by
    rw [hbuff]
    exact Nat.div_mul_le_self ..
  rw [recvCalls, toNat_tdiv_natCast]
  by_cases hchunk : ∃ j, j < n / socketioBufferSize ∧ d (s.calls + j) = .error
  · obtain ⟨⟨s', hrun⟩, -⟩ := recvAll_chunks_failed (d := d) (s := s)
      (by rw [hbuff]; exact hbound) _
      [⟨lastOffset (n / socketioBufferSize), (BitVec.ofInt 32 remBytes).toNat⟩] hfit hchunk
    rw [hrun]
  · obtain ⟨j, hj, hd⟩ := herror
    have hlast : j = n / socketioBufferSize := by
      by_contra hne
      exact hchunk ⟨j, by omega, hd⟩
    obtain ⟨-, buff₁, rest, -, -, hrun, -⟩ := recvAll_chunks (d := d) (s := s)
      (by rw [hbuff]; exact hbound) (n / socketioBufferSize)
      [⟨lastOffset (n / socketioBufferSize), (BitVec.ofInt 32 remBytes).toNat⟩]
      (fun j hj hd => hchunk ⟨j, hj, hd⟩) hfit
    rw [hrun, recvAll, recv_error (by rw [← hlast]; exact hd)]

end Loop

/-! ## put_handler -/

/-- The remainder that is asked for is 0 for a multiple of a chunk only. -/
theorem remBytes_eq_zero_iff (n : Int) : remBytes n = 0 ↔ (socketioBufferSize : Int) ∣ n := by
  rw [Int.dvd_iff_tmod_eq_zero]
  have hsize : 0 < socketioBufferSize := by decide
  rcases remBytes_cases n with ⟨-, heq⟩ | ⟨hneg, hle⟩
  · omega
  · omega

section Outcome

variable {files : List Byte → Option (List Byte)} {name : List Byte} {s : Socket}

/-- A failure leaves an empty file. -/
theorem allOrNothing_failed {size : Int} {outcome : Except Stop (List Byte) × Socket}
    (h : outcome.1 = .error .failed) :
    AllOrNothing files name size s (finish name outcome) ↔ files name = some [] := by
  obtain ⟨result, s'⟩ := outcome
  obtain rfl : result = .error .failed := h
  have hfile : ∀ r : Served, r.stored = some (name, []) → r.file files name = some [] := by
    intro r hr
    rw [Served.file, hr]
    exact if_pos rfl
  constructor
  · rintro ⟨r, hr, ⟨hret, -⟩ | ⟨-, hsame⟩⟩
    · obtain rfl := Except.ok.inj hr
      exact absurd hret (show (-1 : Int) ≠ 0 by decide)
    · obtain rfl := Except.ok.inj hr
      rw [← hsame]
      exact hfile _ rfl
  · intro hempty
    exact ⟨_, rfl, Or.inr ⟨rfl, (hfile _ rfl).trans hempty.symm⟩⟩

/-- Without a failure the file is the block. -/
theorem allOrNothing_iff_receives {n : Nat} {outcome : Except Stop (List Byte) × Socket}
    (h : outcome.1 ≠ .error .failed) :
    AllOrNothing files name n s (finish name outcome) ↔ Receives n s outcome := by
  obtain ⟨result, s'⟩ := outcome
  cases result with
  | ok buff =>
      have hfile : ∀ r : Served, r.stored = some (name, buff) →
          r.file files name = some buff := by
        intro r hr
        rw [Served.file, hr]
        exact if_pos rfl
      constructor
      · rintro ⟨r, hr, ⟨-, received, hin, hlen, hcontents⟩ | ⟨hret, -⟩⟩
        · obtain rfl := Except.ok.inj hr
          rw [hfile _ rfl] at hcontents
          obtain rfl := Option.some.inj hcontents
          exact ⟨buff, hin, Int.ofNat_inj.mp hlen, rfl⟩
        · obtain rfl := Except.ok.inj hr
          exact absurd hret (show (0 : Int) ≠ -1 by decide)
      · rintro ⟨received, hin, hlen, hok⟩
        obtain rfl := Except.ok.inj hok
        exact ⟨_, rfl, Or.inl ⟨rfl, buff, hin, Int.ofNat_inj.mpr hlen, hfile _ rfl⟩⟩
  | error e =>
      refine iff_of_false ?_ ?_
      · rintro ⟨r, hr, -⟩
        cases e with
        | failed => exact h rfl
        | waits => exact nomatch hr
        | fault => exact nomatch hr
      · rintro ⟨received, -, -, hok⟩
        exact nomatch hok

end Outcome

/-- `put_handler` for a file that it can create. -/
theorem putHandler_eq {disk : Disk} {mem : Memory} {msg : Message} {name : List Byte}
    (hname : fnameString msg = some name) (hcreates : disk.creates name = true) {n : Nat}
    (hsize : msg.size = n) (d : Delivery) (s : Socket) :
    putHandler disk mem msg d s
      = finish name (recvAll d (recvCalls n (mem.old.size.tmod socketioBufferSize))
          (overlay n [] (fun k : Nat => mem.heap k)) s) := by
  rw [putHandler, hname, hsize]
  simp only
  rw [if_pos hcreates, if_neg (by omega), Int.toNat_natCast, malloc]

/-- **ALL OR NOTHING**: a PUT, whatever its block held, is all or nothing exactly when a `recv`
    fails and the file was there and empty, or none fails, chunks only are announced, all of
    them arrive in full, and the remainder that `resp_msg` happens to ask for is none, or the
    stream has ended. -/
theorem allOrNothing_iff {disk : Disk} (mem : Memory) {msg : Message} {name : List Byte}
    (files : List Byte → Option (List Byte)) (hname : fnameString msg = some name)
    (hcreates : disk.creates name = true) {n : Nat} (hsize : msg.size = n) (d : Delivery)
    (s : Socket) :
    (∀ heap, AllOrNothing files name n s (putHandler disk { mem with heap := heap } msg d s))
      ↔ (∃ j, j ≤ n / socketioBufferSize ∧ d (s.calls + j) = .error) ∧ files name = some []
        ∨ (∀ j, j ≤ n / socketioBufferSize → d (s.calls + j) ≠ .error)
          ∧ socketioBufferSize ∣ n
          ∧ Covers d s.calls (List.replicate (n / socketioBufferSize) socketioBufferSize)
          ∧ n ≤ s.input.length
          ∧ ((socketioBufferSize : Int) ∣ mem.old.size ∨ s.input.length = n) := by
  have hbound : n < 2 ^ 31 := by
    have := BitVec.toInt_lt (x := msg.dataSize)
    rw [Message.size] at hsize
    omega
  have hrun : ∀ heap : Int → Byte, putHandler disk { mem with heap := heap } msg d s
      = finish name (recvAll d (recvCalls n (mem.old.size.tmod socketioBufferSize))
          (overlay n [] (fun k : Nat => heap k)) s) :=
    fun heap => putHandler_eq hname hcreates hsize d s
  by_cases hfails : ∃ j, j ≤ n / socketioBufferSize ∧ d (s.calls + j) = .error
  · have hfailed : ∀ heap : Int → Byte,
        AllOrNothing files name n s (putHandler disk { mem with heap := heap } msg d s)
          ↔ files name = some [] := by
      intro heap
      rw [hrun]
      exact allOrNothing_failed (recvAll_failed hbound hfails _ (length_overlay ..))
    constructor
    · intro h
      exact Or.inl ⟨hfails, (hfailed (fun _ => 0)).mp (h _)⟩
    · rintro (⟨-, hempty⟩ | ⟨hok, -⟩) heap
      · exact (hfailed heap).mpr hempty
      · obtain ⟨j, hj, hd⟩ := hfails
        exact absurd hd (hok j hj)
  · have hok : ∀ j, j ≤ n / socketioBufferSize → d (s.calls + j) ≠ .error :=
      fun j hj hd => hfails ⟨j, hj, hd⟩
    -- no `recv` fails, so the handler returns 0 and the bytes decide
    have hreceives : ∀ heap : Int → Byte,
        AllOrNothing files name n s (putHandler disk { mem with heap := heap } msg d s)
          ↔ Receives n s (recvAll d (recvCalls n (mem.old.size.tmod socketioBufferSize))
            (overlay n [] (fun k : Nat => heap k)) s) := by
      intro heap
      rw [hrun]
      refine allOrNothing_iff_receives (fun hfailed => ?_)
      obtain ⟨j, hj, hd⟩ := exists_error_of_failed _ _ _ hfailed
      refine hok j ?_ hd
      simp only [recvCalls, List.length_append, List.length_map, List.length_range,
        List.length_singleton, toNat_tdiv_natCast] at hj
      omega
    have hiff := receives_iff hbound hok (mem.old.size.tmod socketioBufferSize)
    rw [show (BitVec.ofInt 32 (mem.old.size.tmod socketioBufferSize)).toNat
      = remBytes mem.old.size from rfl, remBytes_eq_zero_iff] at hiff
    constructor
    · intro h
      refine Or.inr ⟨hok, hiff.mp (fun heap => ?_)⟩
      exact (hreceives (fun k => heap k.toNat)).mp (h _)
    · rintro (⟨hfailed, -⟩ | ⟨-, hfull⟩) heap
      · exact absurd hfailed hfails
      · exact (hreceives heap).mpr (hiff.mpr hfull _)

theorem length_putFname : (102 :: List.replicate 31 (0 : Byte)).length = maxFileNameLen := rfl

/-- A request to store a chunk under the name `f`. -/
def putChunk : Message where
  command := Command.PUT.code
  fname := 102 :: List.replicate 31 0
  dataSize := 512
  fname_length := length_putFname

/-- A disk where any file with a name can be created. -/
def blankDisk : Disk where
  opens := fun _ => none
  creates := fun name => name ≠ []
  opens_nil := rfl
  creates_nil := creates_nil_of_named

/-- What is in memory. -/
def blankMemory : Memory := ⟨fun _ => 0, putChunk, fun _ => 0⟩

/-- A stale `resp_msg` that leaves a remainder. -/
def staleMemory : Memory := { blankMemory with old := { putChunk with dataSize := 515 } }

/-- A chunk of data, and then the end of the stream. -/
def chunkStream : Socket := ⟨List.replicate 512 120, 0⟩

/-- The chunk is stored in place of what was in the file: the `recv` for the three bytes of the
    stale remainder returns 0. -/
theorem allOrNothing_chunkStream : chunkStream.input.length = 512 ∧ ∀ heap,
    AllOrNothing (fun _ => some [121]) [102] (512 : Nat) chunkStream
      (putHandler blankDisk { staleMemory with heap := heap } putChunk whole chunkStream) := by
  refine ⟨List.length_replicate, ?_⟩
  refine (allOrNothing_iff staleMemory (fun _ => some [121]) (by decide) (by decide) (by decide)
    whole chunkStream).mpr (Or.inr ⟨?_, Nat.dvd_refl _, ?_, ?_, Or.inr ?_⟩)
  · intro j _ h
    cases h
  · exact ⟨trivial, trivial⟩
  · exact Nat.le_of_eq List.length_replicate.symm
  · exact List.length_replicate

/-- The first `recv` fails, and what was in the file is gone. -/
theorem not_allOrNothing : ¬ ∀ (disk : Disk) (mem : Memory) (msg : Message) (name : List Byte)
    (files : List Byte → Option (List Byte)) (n : Nat) (d : Delivery) (s : Socket),
    fnameString msg = some name → disk.creates name = true → msg.size = n →
    AllOrNothing files name n s (putHandler disk mem msg d s) := by
  intro h
  have hrun := h blankDisk blankMemory putChunk [102] (fun _ => some [120]) 512
    (fun _ => .error) ⟨[], 0⟩ (by decide) (by decide) (by decide)
  have hname : fnameString putChunk = some [102] := by decide
  have hcreates : blankDisk.creates [102] = true := by decide
  have hsize : putChunk.size = (512 : Nat) := by decide
  rw [putHandler_eq hname hcreates hsize, allOrNothing_failed (recvAll_failed (by decide)
    ⟨0, Nat.zero_le _, rfl⟩ _ (length_overlay ..))] at hrun
  exact absurd hrun (by decide)

end FtpStore
