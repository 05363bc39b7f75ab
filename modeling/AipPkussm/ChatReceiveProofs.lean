import AipPkussm.ByteSocketProofs
import AipPkussm.ChatMessageProofs

/-! # `parse_msg` — one frame off a connection

    `Server.cc`: a `recv` for the header, a block of `data_size` bytes, one
    `recv` for each 512 bytes of it and one for the remainder, which goes to
    offset `(i - 1) * 512`.  A write outside the block is a fault here, and the
    offsets are computed in 32-bit arithmetic.

    `parseMsg_whole` is the specification of one call on a connection where no
    `recv` is short; `parse_aligned` extends it to a whole stream of frames. -/

namespace ChatReceive

open LittleEndian ChatMessage ByteSocket

/-- `SOCKETIO_BUFFER_SIZE`. -/
def socketioBufferSize : Nat := 512

/-- What a call finds: the old contents of its `Message` on the stack, where
    `malloc` puts the block, and the old contents of the block. -/
structure Memory where
  stack : Nat → Byte
  ptr : BitVec 32
  heap : Nat → Byte

/-- A call that does not deliver a message: it returned -1, or it wrote outside
    its block. -/
inductive Failure where
  | failed
  | fault
  deriving DecidableEq

/-- `i * SOCKETIO_BUFFER_SIZE` as an `int`. -/
def chunkOffset (i : Nat) : Int :=
  (BitVec.ofNat 32 i * BitVec.ofNat 32 socketioBufferSize).toInt

/-- `recv` into a block at an offset. -/
def recvInto (d : Delivery) (s : Socket) (buff : List Byte) (off : Int) (req : Nat) :
    Except Failure (List Byte) × Socket :=
  match recv d s req with
  | (none, s') => (.error .failed, s')
  | (some got, s') =>
      if 0 ≤ off ∧ off + got.length ≤ buff.length then
        (.ok (patch off.toNat got buff), s')
      else (.error .fault, s')

/-- `for (; i < rem_num; i++)`, with `n` rounds to go. -/
def recvChunks (d : Delivery) : Nat → Nat → List Byte → Socket →
    Except Failure (List Byte) × Socket
  | 0, _, buff, s => (.ok buff, s)
  | n + 1, i, buff, s =>
      match recvInto d s buff (chunkOffset i) socketioBufferSize with
      | (.ok buff', s') => recvChunks d n (i + 1) buff' s'
      | (.error e, s') => (.error e, s')

/-- The body of a message of `size` bytes: the chunks, then the remainder. -/
def recvBody (d : Delivery) (s : Socket) (buff : List Byte) (size : Nat) :
    Except Failure (List Byte) × Socket :=
  let remNum := size / socketioBufferSize
  match recvChunks d remNum 0 buff s with
  | (.ok buff', s') =>
      -- `if (i == 0) i = 1;`
      let i := if remNum = 0 then 1 else remNum
      recvInto d s' buff' (chunkOffset (i - 1)) (size % socketioBufferSize)
  | (.error e, s') => (.error e, s')

/-- `parse_msg`. -/
def parseMsg (mem : Memory) (d : Delivery) (s : Socket) :
    Except Failure Parcel × Socket :=
  match recv d s messageLen with
  | (none, s') => (.error .failed, s')
  | (some [], s') => (.error .failed, s')
  | (some (b :: got), s') =>
      let msg := decode (overlay messageLen (b :: got) mem.stack)
      if msg.size ≤ 0 then
        (.ok { hdr := { msg with dataSize := 0, dataPtr := 0 }, body := [] }, s')
      else
        match recvBody d s' (overlay msg.payload [] mem.heap) msg.payload with
        | (.ok buff, s'') => (.ok { hdr := { msg with dataPtr := mem.ptr }, body := buff }, s'')
        | (.error e, s'') => (.error e, s'')

/-- A header as `parse_msg` hands it on, up to `data_ptr`. -/
def normalised (msg : Message) : Message :=
  if msg.size ≤ 0 then { msg with dataSize := 0, dataPtr := 0 }
  else { msg with dataPtr := 0 }

/-- The requests `parse_msg` makes for the body of a message of `size` bytes. -/
def bodyRequests (size : Nat) : List Nat :=
  List.replicate (size / socketioBufferSize) socketioBufferSize
    ++ [size % socketioBufferSize]

/-- The requests `parse_msg` makes for a message with the given header. -/
def requests (msg : Message) : List Nat :=
  messageLen :: if msg.size ≤ 0 then [] else bodyRequests msg.payload

/-! ## One call on an undivided stream -/

theorem payload_lt (msg : Message) : msg.payload < 2 ^ 31 := by
  have h := BitVec.toInt_lt (x := msg.dataSize)
  show msg.dataSize.toInt.toNat < 2 ^ 31
  omega

/-- The offset of a chunk of a message does not overflow. -/
theorem chunkOffset_eq {i : Nat} (h : i * socketioBufferSize < 2 ^ 31) :
    chunkOffset i = (i * socketioBufferSize : Nat) := by
  rw [socketioBufferSize] at h
  have hmod : (i % 2 ^ 32 * (512 % 2 ^ 32)) % 2 ^ 32 = i * 512 := by omega
  rw [chunkOffset, socketioBufferSize, BitVec.toInt_eq_toNat_of_lt]
  · rw [BitVec.toNat_mul, BitVec.toNat_ofNat, BitVec.toNat_ofNat, hmod]
  · rw [BitVec.toNat_mul, BitVec.toNat_ofNat, BitVec.toNat_ofNat, hmod]
    omega

/-- A `recv` of bytes that are there, into a place inside the block. -/
theorem recvInto_whole {s : Socket} {buff got rest : List Byte} {off : Nat} {o : Int}
    (hoff : o = off) (hin : s.input = got ++ rest)
    (hfit : off + got.length ≤ buff.length) :
    recvInto whole s buff o got.length
      = (.ok (patch off got buff), ⟨rest, s.calls + 1⟩) := by
  rw [recvInto, recv_whole, hin, List.take_left, List.drop_left]
  show (if 0 ≤ o ∧ o + got.length ≤ buff.length then _ else _) = _
  rw [if_pos (by omega), hoff, Int.toNat_natCast]

/-- **LOOP**: the chunks are read one after another, all inside the block, each to its
    place. -/
theorem recvChunks_whole (n : Nat) : ∀ (i : Nat) (buff : List Byte) (s : Socket)
    (body rest : List Byte), (i + n) * socketioBufferSize ≤ buff.length →
    buff.length < 2 ^ 31 → s.input = body ++ rest →
    body.length = n * socketioBufferSize →
    recvChunks whole n i buff s
      = (.ok (patch (i * socketioBufferSize) body buff), ⟨rest, s.calls + n⟩) := by
  induction n with
  | zero =>
      intro i buff s body rest _ _ hin hlen
      have hnil : body = [] := List.eq_nil_of_length_eq_zero (by rw [hlen, Nat.zero_mul])
      rw [hnil, List.nil_append] at hin
      rw [hnil, patch_nil]
      show (Except.ok buff, s) = _
      rw [← hin]
      rfl
  | succ n ih =>
      intro i buff s body rest hfit hbound hin hlen
      have hhead : (body.take socketioBufferSize).length = socketioBufferSize := by
        rw [List.length_take, hlen, Nat.succ_mul]
        omega
      have hsplit : s.input = body.take socketioBufferSize
          ++ (body.drop socketioBufferSize ++ rest) := by
        rw [← List.append_assoc, List.take_append_drop, hin]
      have hplace : i * socketioBufferSize + (body.take socketioBufferSize).length
          ≤ buff.length := by
        rw [hhead]
        rw [show i + (n + 1) = i + 1 + n by omega, Nat.add_mul, Nat.add_mul] at hfit
        omega
      have hoff : chunkOffset i = (i * socketioBufferSize : Nat) :=
        chunkOffset_eq (by omega)
      have hstep := recvInto_whole hoff hsplit hplace
      rw [hhead] at hstep
      have hkeep := length_patch hplace
      have hrest := ih (i + 1)
        (patch (i * socketioBufferSize) (body.take socketioBufferSize) buff)
        ⟨body.drop socketioBufferSize ++ rest, s.calls + 1⟩
        (body.drop socketioBufferSize) rest
        (by rw [hkeep, show i + 1 + n = i + (n + 1) by omega]; exact hfit)
        (by rw [hkeep]; exact hbound) rfl
        (by rw [List.length_drop, hlen, Nat.succ_mul]; omega)
      have hnext : (i + 1) * socketioBufferSize
          = i * socketioBufferSize + (body.take socketioBufferSize).length := by
        rw [hhead, Nat.succ_mul]
      rw [hnext, patch_append (by omega), List.take_append_drop] at hrest
      show (match recvInto whole s buff (chunkOffset i) socketioBufferSize with
        | (.ok buff', s') => recvChunks whole n (i + 1) buff' s'
        | (.error e, s') => (.error e, s')) = _
      rw [hstep, show s.calls + (n + 1) = s.calls + 1 + n by omega]
      exact hrest

/-- What a block holds after its body was received: the chunks lie in front, and the
    remainder where the last of them was put, or in front if there is none. -/
def reassembled (body buff : List Byte) : List Byte :=
  let remNum := body.length / socketioBufferSize
  patch (((if remNum = 0 then 1 else remNum) - 1) * socketioBufferSize)
    (body.drop (remNum * socketioBufferSize))
    (patch 0 (body.take (remNum * socketioBufferSize)) buff)

/-- The body is read in full, and nothing after it. -/
theorem recvBody_whole {s : Socket} {buff body rest : List Byte} {size : Nat}
    (hbuff : buff.length = size) (hbound : size < 2 ^ 31) (hin : s.input = body ++ rest)
    (hlen : body.length = size) :
    recvBody whole s buff size
        = (.ok (reassembled body buff), ⟨rest, s.calls + (bodyRequests size).length⟩)
      ∧ (reassembled body buff).length = size := by
  have hdiv : size / socketioBufferSize * socketioBufferSize
      + size % socketioBufferSize = size := Nat.div_add_mod' ..
  have hchunks : (body.take (size / socketioBufferSize * socketioBufferSize)).length
      = size / socketioBufferSize * socketioBufferSize := by
    rw [List.length_take]
    omega
  have hlast : (body.drop (size / socketioBufferSize * socketioBufferSize)).length
      = size % socketioBufferSize := by
    rw [List.length_drop]
    omega
  have hrun := recvChunks_whole (size / socketioBufferSize) 0 buff s
    (body.take (size / socketioBufferSize * socketioBufferSize))
    (body.drop (size / socketioBufferSize * socketioBufferSize) ++ rest)
    (by rw [Nat.zero_add]; omega) (by omega)
    (by rw [← List.append_assoc, List.take_append_drop, hin]) hchunks
  rw [Nat.zero_mul] at hrun
  have hlen₁ : (patch 0 (body.take (size / socketioBufferSize * socketioBufferSize))
      buff).length = size := by
    rw [length_patch (by omega), hbuff]
  -- the remainder goes to the place of the last chunk, or to the front
  have hplace : ((if size / socketioBufferSize = 0 then 1
        else size / socketioBufferSize) - 1) * socketioBufferSize
      + (body.drop (size / socketioBufferSize * socketioBufferSize)).length
        ≤ (patch 0 (body.take (size / socketioBufferSize * socketioBufferSize))
          buff).length := by
    rw [hlast, hlen₁]
    by_cases hzero : size / socketioBufferSize = 0
    · rw [if_pos hzero]
      omega
    · rw [if_neg hzero, Nat.sub_mul]
      omega
  have hin₂ : (⟨body.drop (size / socketioBufferSize * socketioBufferSize) ++ rest,
      s.calls + size / socketioBufferSize⟩ : Socket).input = _ := rfl
  have hstep := recvInto_whole (chunkOffset_eq (by omega)) hin₂ hplace
  rw [hlast] at hstep
  simp only [recvBody, hrun]
  rw [hstep, reassembled, hlen]
  refine ⟨?_, (length_patch hplace).trans hlen₁⟩
  rw [bodyRequests, List.length_append, List.length_replicate, List.length_singleton, Nat.add_assoc]

/-- The header in front of a stream, received in full. -/
theorem recv_header {s : Socket} {f : Frame} {rest : List Byte}
    (hin : s.input = f.bytes ++ rest) : recv whole s messageLen
      = (some (encode f.hdr), ⟨f.body ++ rest, s.calls + 1⟩) := by
  rw [recv_whole, hin, Parcel.take_bytes, Parcel.drop_bytes]

/-- **ONE CALL**: `parse_msg` takes exactly the frame in front, and hands on its
    header and a block of `data_size` bytes. -/
theorem parseMsg_whole (mem : Memory) {s : Socket} {f : Frame} {rest : List Byte}
    (hin : s.input = f.bytes ++ rest) :
    ∃ p, parseMsg mem whole s = (.ok p, ⟨rest, s.calls + (requests f.hdr).length⟩)
      ∧ p.wire.hdr = normalised f.hdr ∧ p.body.length = f.hdr.payload
      ∧ p.body = reassembled f.body (overlay f.hdr.payload [] mem.heap) := by
  have hlen : (encode f.hdr).length = messageLen := length_encode f.hdr
  have hhdr := decode_overlay f.hdr mem.stack
  rw [parseMsg, recv_header hin]
  cases hcons : encode f.hdr with
  | nil =>
      rw [hcons] at hlen
      exact nomatch hlen
  | cons b got =>
      rw [hcons] at hhdr
      show ∃ p, (if (decode (overlay messageLen (b :: got) mem.stack)).size ≤ 0 then _
        else _) = _ ∧ _
      rw [hhdr]
      rw [requests, normalised]
      by_cases hsize : f.hdr.size ≤ 0
      · have hzero : f.hdr.payload = 0 := Int.toNat_of_nonpos hsize
        have hbody : f.body = [] := Frame.body_eq_nil hsize
        rw [if_pos hsize, if_pos hsize, if_pos hsize, hbody, hzero]
        exact ⟨_, rfl, rfl, rfl, rfl⟩
      · rw [if_neg hsize, if_neg hsize, if_neg hsize]
        have hbodyIn : (⟨f.body ++ rest, s.calls + 1⟩ : Socket).input = f.body ++ rest := rfl
        obtain ⟨hrun, hbuff⟩ := recvBody_whole
          (length_overlay f.hdr.payload [] mem.heap) (payload_lt f.hdr) hbodyIn f.body_length
        rw [hrun]
        generalize reassembled f.body (overlay f.hdr.payload [] mem.heap) = buff at hbuff
        refine ⟨{ hdr := { f.hdr with dataPtr := mem.ptr }, body := buff }, ?_, rfl, hbuff, rfl⟩
        rw [List.length_cons, Nat.add_assoc, Nat.add_comm 1]

/-! ## A whole stream of frames -/

/-- The outcomes of successive calls, the `k`-th of them finding `mem k`. -/
def parseCalls (mem : Nat → Memory) (d : Delivery) : Nat → Nat → Socket →
    List (Except Failure Parcel × Socket)
  | _, 0, _ => []
  | k, n + 1, s => parseMsg (mem k) d s :: parseCalls mem d (k + 1) n (parseMsg (mem k) d s).2

/-- The `k`-th frame of a stream, and what comes after it. -/
theorem stream_drop {fs : List Frame} {k : Nat} (h : k < fs.length) :
    stream (fs.drop k) = fs[k].bytes ++ stream (fs.drop (k + 1)) := by
  rw [List.drop_eq_getElem_cons h, stream_cons]

/-- **ALIGNMENT**: on a stream of frames where no `recv` is short, the `k`-th call
    of `parse_msg` returns 0 with the header of the `k`-th frame and a block of
    its `data_size` bytes into which all its writes went, and takes exactly the
    bytes of that frame. -/
theorem parse_aligned (mem : Nat → Memory) (fs : List Frame) (tail : List Byte)
    (calls k : Nat) (h : k < fs.length) :
    ∃ p s', (parseCalls mem whole 0 fs.length ⟨stream fs ++ tail, calls⟩)[k]?
        = some (.ok p, s')
      ∧ p.wire.hdr = normalised fs[k].hdr ∧ p.body.length = fs[k].hdr.payload
      ∧ s'.input = stream (fs.drop (k + 1)) ++ tail
      ∧ (stream (fs.drop k) ++ tail).length
          = messageLen + fs[k].hdr.payload + s'.input.length := by
  -- by induction on the frames, the calls before counted by `j`
  have hgen : ∀ (gs : List Frame) (j c i : Nat) (hi : i < gs.length),
      ∃ p s', (parseCalls mem whole j gs.length ⟨stream gs ++ tail, c⟩)[i]?
          = some (.ok p, s')
        ∧ p.wire.hdr = normalised gs[i].hdr ∧ p.body.length = gs[i].hdr.payload
        ∧ s'.input = stream (gs.drop (i + 1)) ++ tail := by
    intro gs
    induction gs with
    | nil => exact fun _ _ _ hi => absurd hi (Nat.not_lt_zero _)
    | cons f gs ih =>
        intro j c i hi
        have hin : (⟨stream (f :: gs) ++ tail, c⟩ : Socket).input
            = f.bytes ++ (stream gs ++ tail) := List.append_assoc ..
        obtain ⟨p, hp, hhdr, hbody, -⟩ := parseMsg_whole (mem j) hin
        cases i with
        | zero =>
            exact ⟨p, ⟨stream gs ++ tail, _⟩, congrArg some hp, hhdr, hbody, rfl⟩
        | succ i =>
            obtain ⟨q, s', hq, hrest⟩ := ih (j + 1)
              (c + (requests f.hdr).length) i (Nat.lt_of_succ_lt_succ hi)
            refine ⟨q, s', ?_, hrest⟩
            show (parseCalls mem whole (j + 1) gs.length (parseMsg (mem j) whole _).2)[i]? = _
            rw [hp]
            exact hq
  obtain ⟨p, s', hp, hhdr, hbody, hrest⟩ := hgen fs 0 calls k h
  refine ⟨p, s', hp, hhdr, hbody, hrest, ?_⟩
  rw [hrest, stream_drop h, List.append_assoc, List.length_append, Frame.length_bytes]

/-- The size that a header announces. -/
theorem payload_ofNat {n : Nat} (h : n < 2 ^ 31) :
    ({ blankMessage with dataSize := BitVec.ofNat 32 n } : Message).payload = n := by
  rw [Message.payload, Message.size, toInt_ofNat32 h, Int.toNat_natCast]

/-- A frame with a body of one letter over and over. -/
def letters (n : Nat) (h : n < 2 ^ 31) : Frame where
  hdr := { blankMessage with dataSize := BitVec.ofNat 32 n }
  body := List.replicate n 120
  body_length := List.length_replicate.trans (payload_ofNat h).symm

/-- Three frames: a chunk less one byte, a chunk, and a chunk and one byte. -/
def aroundChunk : List Frame :=
  [letters 511 (by decide), letters 512 (by decide), letters 513 (by decide)]

/-- The second of them, between the others. -/
theorem parse_aligned_around :
    ∃ p s', (parseCalls (fun _ => ⟨fun _ => 7, 4096, fun _ => 7⟩) whole 0 aroundChunk.length
          ⟨stream aroundChunk ++ [1, 2, 3], 0⟩)[1]? = some (.ok p, s')
      ∧ p.wire.hdr = normalised aroundChunk[1].hdr
      ∧ p.body.length = aroundChunk[1].hdr.payload
      ∧ s'.input = stream (aroundChunk.drop 2) ++ [1, 2, 3]
      ∧ (stream (aroundChunk.drop 1) ++ [1, 2, 3]).length
          = messageLen + aroundChunk[1].hdr.payload + s'.input.length :=
  parse_aligned (fun _ => ⟨fun _ => 7, 4096, fun _ => 7⟩) aroundChunk [1, 2, 3] 0 1 (by decide)

end ChatReceive
