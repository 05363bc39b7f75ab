import AipPkussm.ChatReceiveProofs

/-! # `clithread` — what the server hands to `handle_msg`

    The loop of `Server.cc` on a connection that does not fail, for every way in
    which its bytes can be split among the `recv` calls.  What `handle_msg` gets
    is what it gets on an undivided connection exactly when no request of
    `parse_msg` is cut short (`served_eq_iff`): a short `recv` is never made up for,
    so bytes of a frame are left over and are taken for a message of their own. -/

namespace ChatServe

open LittleEndian ChatMessage ByteSocket ChatReceive

/-- `clithread`, at most `fuel` rounds of it: the messages handed to `handle_msg`
    from here on, those handed over before being `done`.  `handleMsg` is what
    `handle_msg` returns. -/
def clithread (handleMsg : List Parcel → Int) (mem : Nat → Memory) (d : Delivery) :
    Nat → List Parcel → Socket → Option (List Parcel)
  | 0, _, _ => none
  | fuel + 1, done, s =>
      match parseMsg (mem done.length) d s with
      | (.error _, _) => some []
      | (.ok p, s') =>
          if handleMsg (done ++ [p]) = 0 then
            (clithread handleMsg mem d fuel (done ++ [p]) s').map (List.cons p)
          else some [p]

/-- The messages handed to `handle_msg` on a connection with the given bytes. -/
def served (handleMsg : List Parcel → Int) (mem : Nat → Memory) (d : Delivery)
    (input : List Byte) : Option (List Parcel) :=
  clithread handleMsg mem d (input.length + 1) [] ⟨input, 0⟩

/-- Every message is handled without an error. -/
def alwaysHandled : List Parcel → Int := fun _ => 0

/-- The requests the server makes for a stream of frames. -/
def serverRequests (fs : List Frame) : List Nat := fs.flatMap (fun f => requests f.hdr)

/-! ## The loop ends -/

theorem recvInto_calls (d : Delivery) (s : Socket) (buff : List Byte) (off : Int)
    (req : Nat) : (recvInto d s buff off req).2.calls = s.calls + 1 := by
  have hcalls := recv_calls d s req
  rw [recvInto]
  rcases hr : recv d s req with ⟨_ | got, s'⟩
  · rw [hr] at hcalls
    exact hcalls
  · rw [hr] at hcalls
    show (if 0 ≤ off ∧ off + got.length ≤ buff.length then _ else _ :
      Except Failure (List Byte) × Socket).2.calls = _
    split <;> exact hcalls

theorem recvInto_length_le (d : Delivery) (s : Socket) (buff : List Byte) (off : Int)
    (req : Nat) : (recvInto d s buff off req).2.input.length ≤ s.input.length := by
  have hle := recv_length_le d s req
  rw [recvInto]
  rcases hr : recv d s req with ⟨_ | got, s'⟩
  · rw [hr] at hle
    exact hle
  · rw [hr] at hle
    show (if 0 ≤ off ∧ off + got.length ≤ buff.length then _ else _ :
      Except Failure (List Byte) × Socket).2.input.length ≤ _
    split <;> exact hle

theorem recvChunks_length_le (d : Delivery) (n : Nat) : ∀ i buff s,
    (recvChunks d n i buff s).2.input.length ≤ s.input.length := by
  induction n with
  | zero => exact fun _ _ _ => Nat.le_refl _
  | succ n ih =>
      intro i buff s
      have hle := recvInto_length_le d s buff (chunkOffset i) socketioBufferSize
      rw [recvChunks]
      rcases hr : recvInto d s buff (chunkOffset i) socketioBufferSize with ⟨e | b, s'⟩
      · rw [hr] at hle
        exact hle
      · rw [hr] at hle
        exact Nat.le_trans (ih (i + 1) b s') hle

theorem recvBody_length_le (d : Delivery) (s : Socket) (buff : List Byte) (size : Nat) :
    (recvBody d s buff size).2.input.length ≤ s.input.length := by
  have hle := recvChunks_length_le d (size / socketioBufferSize) 0 buff s
  simp only [recvBody]
  rcases hr : recvChunks d (size / socketioBufferSize) 0 buff s with ⟨e | b, s'⟩
  · rw [hr] at hle
    exact hle
  · rw [hr] at hle
    exact Nat.le_trans (recvInto_length_le d s' b _ _) hle

/-- A call that returns 0 has taken at least one byte. -/
theorem parseMsg_shrinks {mem : Memory} {d : Delivery} {s s' : Socket} {p : Parcel}
    (h : parseMsg mem d s = (.ok p, s')) : s'.input.length < s.input.length := by
  rw [parseMsg] at h
  rcases hr : recv d s messageLen with ⟨_ | _ | ⟨b, got⟩, s₁⟩
  · rw [hr] at h
    cases h
  · rw [hr] at h
    cases h
  · have hin := congrArg List.length (recv_input hr)
    rw [List.length_append, List.length_cons] at hin
    rw [hr] at h
    simp only at h
    split at h
    · obtain ⟨-, rfl⟩ := Prod.mk.inj h
      omega
    · have hle := recvBody_length_le d s₁
        (overlay (decode (overlay messageLen (b :: got) mem.stack)).payload [] mem.heap)
        (decode (overlay messageLen (b :: got) mem.stack)).payload
      rcases hb : recvBody d s₁
        (overlay (decode (overlay messageLen (b :: got) mem.stack)).payload [] mem.heap)
        (decode (overlay messageLen (b :: got) mem.stack)).payload with ⟨e | buff, s₂⟩
      · rw [hb] at h
        cases h
      · rw [hb] at h hle
        obtain ⟨-, rfl⟩ := Prod.mk.inj h
        have hle' : s₂.input.length ≤ s₁.input.length := hle
        omega

/-- **TERMINATION**: on any connection the loop ends within as many rounds as there
    are bytes, and one. -/
theorem clithread_ends (handleMsg : List Parcel → Int) (mem : Nat → Memory)
    (d : Delivery) (fuel : Nat) : ∀ done s, s.input.length < fuel →
    ∃ ps, clithread handleMsg mem d fuel done s = some ps := by
  induction fuel with
  | zero => exact fun _ _ h => absurd h (Nat.not_lt_zero _)
  | succ fuel ih =>
      intro done s hfuel
      rw [clithread]
      rcases hp : parseMsg (mem done.length) d s with ⟨e | p, s'⟩
      · exact ⟨[], rfl⟩
      · have hlt := parseMsg_shrinks hp
        show ∃ ps, (if handleMsg (done ++ [p]) = 0 then
          (clithread handleMsg mem d fuel (done ++ [p]) s').map (List.cons p)
          else some [p]) = some ps
        split
        · obtain ⟨ps, hps⟩ := ih (done ++ [p]) s' (by omega)
          exact ⟨p :: ps, by rw [hps]; rfl⟩
        · exact ⟨[p], rfl⟩

/-! ## Requests served in full -/

theorem recvInto_of_covers {d : Delivery} {s : Socket} {req : Nat}
    (h : (d s.calls).covers req) (buff : List Byte) (off : Int) :
    recvInto d s buff off req = recvInto whole s buff off req := by
  rw [recvInto, recvInto, recv_of_covers h]

theorem recvChunks_of_covers (d : Delivery) (n : Nat) : ∀ i buff s,
    Covers d s.calls (List.replicate n socketioBufferSize) →
    recvChunks d n i buff s = recvChunks whole n i buff s := by
  induction n with
  | zero => exact fun _ _ _ _ => rfl
  | succ n ih =>
      intro i buff s hcov
      obtain ⟨hhead, htail⟩ := hcov
      have hcalls := recvInto_calls whole s buff (chunkOffset i) socketioBufferSize
      rw [recvChunks, recvChunks, recvInto_of_covers hhead]
      rcases hr : recvInto whole s buff (chunkOffset i) socketioBufferSize with ⟨e | b, s'⟩
      · rfl
      · rw [hr] at hcalls
        have hcalls' : s'.calls = s.calls + 1 := hcalls
        exact ih (i + 1) b s' (by rw [hcalls']; exact htail)

theorem recvChunks_calls (d : Delivery) (n : Nat) : ∀ i buff s buff' s',
    recvChunks d n i buff s = (.ok buff', s') → s'.calls = s.calls + n := by
  induction n with
  | zero =>
      intro i buff s buff' s' h
      obtain ⟨-, rfl⟩ := Prod.mk.inj h
      rfl
  | succ n ih =>
      intro i buff s buff' s' h
      have hcalls := recvInto_calls d s buff (chunkOffset i) socketioBufferSize
      rw [recvChunks] at h
      rcases hr : recvInto d s buff (chunkOffset i) socketioBufferSize with ⟨e | b, s₁⟩
      · rw [hr] at h
        exact nomatch h
      · rw [hr] at h hcalls
        have hcalls' : s₁.calls = s.calls + 1 := hcalls
        rw [ih (i + 1) b s₁ buff' s' h, hcalls']
        omega

theorem recvBody_of_covers {d : Delivery} {s : Socket} {size : Nat}
    (h : Covers d s.calls (bodyRequests size)) (buff : List Byte) :
    recvBody d s buff size = recvBody whole s buff size := by
  rw [bodyRequests, covers_append, List.length_replicate] at h
  obtain ⟨hchunks, hlast, -⟩ := h
  simp only [recvBody, recvChunks_of_covers d _ 0 buff s hchunks]
  rcases hr : recvChunks whole (size / socketioBufferSize) 0 buff s with ⟨e | b, s'⟩
  · rfl
  · have hcalls := recvChunks_calls whole _ 0 buff s b s' hr
    exact recvInto_of_covers (by rw [hcalls]; exact hlast) b _

/-- A frame whose requests are served in full is received as if nothing was ever
    split. -/
theorem parseMsg_of_covers (mem : Memory) {d : Delivery} {s : Socket} {f : Frame}
    {rest : List Byte} (hin : s.input = f.bytes ++ rest)
    (h : Covers d s.calls (requests f.hdr)) : parseMsg mem d s = parseMsg mem whole s := by
  obtain ⟨hhead, hbody⟩ := h
  have hhdr := decode_overlay f.hdr mem.stack
  rw [parseMsg, parseMsg, recv_of_covers hhead, recv_header hin]
  cases hcons : encode f.hdr with
  | nil => rfl
  | cons b got =>
      rw [hcons] at hhdr
      simp only [hhdr]
      by_cases hsize : f.hdr.size ≤ 0
      · rw [if_pos hsize, if_pos hsize]
      · rw [if_neg hsize] at hbody
        rw [if_neg hsize, if_neg hsize, recvBody_of_covers hbody]

/-- At the end of the stream there is no message. -/
theorem parseMsg_nil (mem : Memory) (cuts : Nat → Nat) {s : Socket} (h : s.input = []) :
    parseMsg mem (split cuts) s = (.error .failed, ⟨[], s.calls + 1⟩)
      ∧ parseMsg mem whole s = (.error .failed, ⟨[], s.calls + 1⟩) := by
  have hwhole : recv whole s messageLen = (some [], ⟨[], s.calls + 1⟩) := by
    rw [recv_whole, h, List.take_nil, List.drop_nil]
  have hsplit := (recv_split_nil cuts h messageLen).trans hwhole
  rw [parseMsg, parseMsg, hwhole, hsplit]
  exact ⟨rfl, rfl⟩

/-- **ENOUGH**: when every request for a stream of frames is served in full, the
    server hands on what it would hand on if nothing was ever split. -/
theorem clithread_of_covers (handleMsg : List Parcel → Int) (mem : Nat → Memory)
    (cuts : Nat → Nat) (fs : List Frame) : ∀ fuel done s, s.input = stream fs →
    Covers (split cuts) s.calls (serverRequests fs) →
    clithread handleMsg mem (split cuts) fuel done s
      = clithread handleMsg mem whole fuel done s := by
  induction fs with
  | nil =>
      intro fuel done s hin _
      cases fuel with
      | zero => rfl
      | succ fuel =>
          obtain ⟨hsplit, hwhole⟩ := parseMsg_nil (mem done.length) cuts hin
          rw [clithread, clithread, hsplit, hwhole]
  | cons f fs ih =>
      intro fuel done s hin hcov
      cases fuel with
      | zero => rfl
      | succ fuel =>
          rw [show serverRequests (f :: fs) = requests f.hdr ++ serverRequests fs from rfl,
            covers_append] at hcov
          obtain ⟨hfirst, hothers⟩ := hcov
          have hin' : s.input = f.bytes ++ stream fs := hin
          obtain ⟨p, hp, -⟩ := parseMsg_whole (mem done.length) hin'
          rw [clithread, clithread, parseMsg_of_covers _ hin' hfirst, hp]
          simp only
          rw [ih fuel (done ++ [p]) ⟨stream fs, _⟩ rfl hothers]

/-! ## Bytes left over -/

/-- `recv` into a block with room for the whole request. -/
theorem recvInto_split (cuts : Nat → Nat) {s : Socket} {buff : List Byte} {off req : Nat}
    {o : Int} (hoff : o = off) (hfit : off + req ≤ buff.length) :
    ∃ buff' s', recvInto (split cuts) s buff o req = (.ok buff', s')
      ∧ buff'.length = buff.length ∧ Spent cuts s s' [req] := by
  obtain ⟨got, rest, hrecv, hle, -, hspent⟩ := recv_spent cuts s req
  have hplace : off + got.length ≤ buff.length := by omega
  refine ⟨patch off got buff, ⟨rest, s.calls + 1⟩, ?_, length_patch hplace, hspent⟩
  rw [recvInto, hrecv]
  show (if 0 ≤ o ∧ o + got.length ≤ buff.length then _ else _) = _
  rw [if_pos (by omega), hoff, Int.toNat_natCast]

/-- **LOOP**: short chunks or not, the loop stays inside the block. -/
theorem recvChunks_split (cuts : Nat → Nat) (n : Nat) : ∀ (i : Nat) (buff : List Byte)
    (s : Socket), (i + n) * socketioBufferSize ≤ buff.length → buff.length < 2 ^ 31 →
    ∃ buff' s', recvChunks (split cuts) n i buff s = (.ok buff', s')
      ∧ buff'.length = buff.length
      ∧ Spent cuts s s' (List.replicate n socketioBufferSize) := by
  induction n with
  | zero => exact fun _ buff s _ _ => ⟨buff, s, rfl, rfl, Spent.nil cuts s⟩
  | succ n ih =>
      intro i buff s hfit hbound
      have hplace : i * socketioBufferSize + socketioBufferSize ≤ buff.length := by
        rw [show i + (n + 1) = i + 1 + n by omega, Nat.add_mul, Nat.add_mul] at hfit
        omega
      obtain ⟨b, s₁, hstep, hlen, hspent⟩ :=
        recvInto_split cuts (chunkOffset_eq (by omega)) hplace
      obtain ⟨buff', s', hrun, hlen', hspent'⟩ := ih (i + 1) b s₁
        (by rw [hlen, show i + 1 + n = i + (n + 1) by omega]; exact hfit)
        (by rw [hlen]; exact hbound)
      refine ⟨buff', s', ?_, hlen'.trans hlen, hspent.append hspent'⟩
      rw [recvChunks, hstep]
      exact hrun

theorem sum_bodyRequests (size : Nat) : (bodyRequests size).sum = size := by
  rw [bodyRequests, List.sum_append, List.sum_replicate_nat, List.sum_singleton]
  exact Nat.div_add_mod' ..

theorem recvBody_split (cuts : Nat → Nat) {s : Socket} {buff : List Byte} {size : Nat}
    (hbuff : buff.length = size) (hbound : size < 2 ^ 31) :
    ∃ buff' s', recvBody (split cuts) s buff size = (.ok buff', s')
      ∧ Spent cuts s s' (bodyRequests size) := by
  have hdiv : size / socketioBufferSize * socketioBufferSize
      + size % socketioBufferSize = size := Nat.div_add_mod' ..
  obtain ⟨b, s₁, hrun, hlen, hspent⟩ :=
    recvChunks_split cuts (size / socketioBufferSize) 0 buff s
      (by rw [Nat.zero_add]; omega) (by omega)
  have hplace : ((if size / socketioBufferSize = 0 then 1
      else size / socketioBufferSize) - 1) * socketioBufferSize
        + size % socketioBufferSize ≤ b.length := by
    rw [hlen, hbuff]
    by_cases hzero : size / socketioBufferSize = 0
    · rw [if_pos hzero]
      omega
    · rw [if_neg hzero, Nat.sub_mul]
      omega
  obtain ⟨buff', s', hstep, -, hspent'⟩ :=
    recvInto_split cuts (chunkOffset_eq (by omega)) hplace
  refine ⟨buff', s', ?_, hspent.append hspent'⟩
  simp only [recvBody, hrun]
  exact hstep

/-- The bytes of a frame are what is requested for it. -/
theorem sum_requests (msg : Message) : (requests msg).sum = messageLen + msg.payload := by
  rw [requests, List.sum_cons]
  by_cases hsize : msg.size ≤ 0
  · rw [if_pos hsize, show msg.payload = 0 from Int.toNat_of_nonpos hsize]
    rfl
  · rw [if_neg hsize, sum_bodyRequests]

/-- **ONE CALL**: while there are bytes `parse_msg` returns 0, whatever it makes of
    them, and it has made the requests that belong to the header it hands on. -/
theorem parseMsg_split (mem : Memory) (cuts : Nat → Nat) {s : Socket}
    (hne : s.input ≠ []) :
    ∃ p s', parseMsg mem (split cuts) s = (.ok p, s')
      ∧ Spent cuts s s' (requests p.hdr) := by
  obtain ⟨got, rest, hrecv, -, hgot, hspent⟩ := recv_spent cuts s messageLen
  rw [parseMsg, hrecv]
  cases got with
  | nil => exact absurd rfl (hgot (by decide) hne)
  | cons b got =>
      generalize hmsg : decode (overlay messageLen (b :: got) mem.stack) = msg
      simp only [hmsg]
      by_cases hsize : msg.size ≤ 0
      · rw [if_pos hsize]
        exact ⟨_, _, rfl, hspent⟩
      · rw [if_neg hsize]
        obtain ⟨buff, s', hbody, hspent'⟩ := recvBody_split cuts
          (s := ⟨rest, s.calls + 1⟩) (length_overlay msg.payload [] mem.heap)
          (payload_lt msg)
        rw [hbody]
        refine ⟨{ hdr := { msg with dataPtr := mem.ptr }, body := buff }, s', rfl, ?_⟩
        have hreq : requests { msg with dataPtr := mem.ptr }
            = [messageLen] ++ bodyRequests msg.payload := by
          rw [requests]
          exact congrArg (List.cons messageLen) (if_neg hsize)
        rw [hreq]
        exact hspent.append hspent'

/-- **RUN**: the loop ends at the end of the stream, having made the requests that
    belong to the messages it handed on. -/
theorem clithread_spent (mem : Nat → Memory) (cuts : Nat → Nat) (fuel : Nat) :
    ∀ done s ps, clithread alwaysHandled mem (split cuts) fuel done s = some ps →
    ∃ s', s'.input = [] ∧ Spent cuts s s' (ps.flatMap (fun p => requests p.hdr)) := by
  induction fuel with
  | zero => exact fun _ _ _ h => nomatch h
  | succ fuel ih =>
      intro done s ps h
      rw [clithread] at h
      by_cases hin : s.input = []
      · rw [(parseMsg_nil _ cuts hin).1] at h
        obtain rfl := Option.some.inj h
        exact ⟨s, hin, Spent.nil cuts s⟩
      · obtain ⟨p, s₁, hp, hspent⟩ := parseMsg_split (mem done.length) cuts hin
        rw [hp] at h
        have hmap : (clithread alwaysHandled mem (split cuts) fuel (done ++ [p]) s₁).map
            (List.cons p) = some ps := h
        obtain ⟨qs, hqs, rfl⟩ := Option.map_eq_some_iff.mp hmap
        obtain ⟨s', hend, hspent'⟩ := ih (done ++ [p]) s₁ qs hqs
        exact ⟨s', hend, hspent.append hspent'⟩

/-- A header determines the requests made for it even after normalisation. -/
theorem requests_of_normalised {p : Parcel} {msg : Message}
    (h : p.wire.hdr = normalised msg) : requests p.hdr = requests msg := by
  have hwire : p.wire.hdr.dataSize = (normalised msg).dataSize :=
    congrArg Message.dataSize h
  have hsize : p.hdr.dataSize = (normalised msg).dataSize := hwire
  rw [normalised] at hsize
  by_cases hneg : msg.size ≤ 0
  · rw [if_pos hneg] at hsize
    have hzero : p.hdr.size ≤ 0 := by
      show p.hdr.dataSize.toInt ≤ 0
      rw [hsize]
      show (0 : BitVec 32).toInt ≤ 0
      decide
    rw [requests, requests, if_pos hneg, if_pos hzero]
  · rw [if_neg hneg] at hsize
    have hsame : p.hdr.dataSize = msg.dataSize := hsize
    rw [requests, requests, Message.payload, Message.payload, Message.size, Message.size,
      hsame]

/-- On an undivided stream one message is handed on for each frame. -/
theorem clithread_whole (mem : Nat → Memory) (fs : List Frame) : ∀ fuel done s,
    s.input = stream fs → fs.length < fuel →
    ∃ ps, clithread alwaysHandled mem whole fuel done s = some ps
      ∧ ps.flatMap (fun p => requests p.hdr) = serverRequests fs := by
  induction fs with
  | nil =>
      intro fuel done s hin hfuel
      cases fuel with
      | zero => exact absurd hfuel (Nat.not_lt_zero _)
      | succ fuel =>
          refine ⟨[], ?_, rfl⟩
          rw [clithread, (parseMsg_nil _ (fun _ => 0) hin).2]
  | cons f fs ih =>
      intro fuel done s hin hfuel
      cases fuel with
      | zero => exact absurd hfuel (Nat.not_lt_zero _)
      | succ fuel =>
          have hin' : s.input = f.bytes ++ stream fs := hin
          obtain ⟨p, hp, hhdr, -⟩ := parseMsg_whole (mem done.length) hin'
          obtain ⟨ps, hps, hreqs⟩ := ih fuel (done ++ [p]) ⟨stream fs, _⟩ rfl
            (Nat.lt_of_succ_lt_succ hfuel)
          refine ⟨p :: ps, ?_, ?_⟩
          · rw [clithread, hp]
            show (clithread alwaysHandled mem whole fuel (done ++ [p]) _).map _ = _
            rw [hps]
            rfl
          · rw [List.flatMap_cons, requests_of_normalised hhdr, hreqs]
            rfl

theorem sum_serverRequests (fs : List Frame) :
    (serverRequests fs).sum = (stream fs).length := by
  induction fs with
  | nil => rfl
  | cons f fs ih =>
      rw [show serverRequests (f :: fs) = requests f.hdr ++ serverRequests fs from rfl,
        List.sum_append, ih, sum_requests, stream_cons, List.length_append,
        Frame.length_bytes]

/-- **THE SERVER, EXACTLY**: the messages handed to `handle_msg` are those of the
    undivided stream, whatever the handlers answer, if and only if no request of
    `parse_msg` is cut short. -/
theorem served_eq_iff (fs : List Frame) (cuts : Nat → Nat) :
    (∀ handleMsg mem, served handleMsg mem (split cuts) (stream fs)
        = served handleMsg mem whole (stream fs))
      ↔ Covers (split cuts) 0 (serverRequests fs) := by
  constructor
  · intro h
    have mem : Nat → Memory := fun _ => ⟨fun _ => 0, 0, fun _ => 0⟩
    obtain ⟨ps, hps, hreqs⟩ := clithread_whole mem fs ((stream fs).length + 1) []
      ⟨stream fs, 0⟩ rfl (Nat.lt_succ_of_le (length_le_stream fs))
    obtain ⟨s', hend, hspent⟩ := clithread_spent mem cuts _ [] ⟨stream fs, 0⟩ ps
      ((h alwaysHandled mem).trans hps)
    rw [hreqs] at hspent
    refine hspent.covers ?_
    rw [hend, sum_serverRequests]
    exact (Nat.zero_add _).symm
  · intro hcov handleMsg mem
    exact clithread_of_covers handleMsg mem cuts fs _ [] ⟨stream fs, 0⟩ rfl hcov

end ChatServe
