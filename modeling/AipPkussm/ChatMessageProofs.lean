import AipPkussm.LittleEndianProofs

/-! # The chatroom's `Message` and its frames

    `Message.h` and `Command.h`: the struct that both programs copy to the wire
    byte for byte.  The programs are built for a 32-bit machine (the pointer to
    `int` casts of the sources compile nowhere else, and the binaries of the
    repository are i386), so a pointer is one 32-bit word, the struct has no
    padding and `MESSAGE_LEN` is 52.

    * `decode_encode`: a struct read from its own image is the struct.
    * `Frame`: a header with exactly the `max 0 data_size` payload bytes that
      belong to it; `Packet`: a frame whose `data_size` is not negative, which
      is what `parse_msg` hands on. -/

namespace ChatMessage

open LittleEndian

/-- `enum Command`. -/
inductive Command where
  | PUT
  | GET
  | LS
  | CD
  | ERROR
  | QUIT
  | CONN
  | WAITMSG
  | SENDMSG
  deriving DecidableEq, Repr

/-- The `int` that stands for a command in the struct. -/
def Command.code : Command → BitVec 32
  | .PUT => 0
  | .GET => 1
  | .LS => 2
  | .CD => 3
  | .ERROR => 4
  | .QUIT => 5
  | .CONN => 6
  | .WAITMSG => 7
  | .SENDMSG => 8

/-- `MAX_FILE_NAME_LEN`. -/
def maxFileNameLen : Nat := 32

/-- `MESSAGE_LEN`, that is `sizeof(Message)`. -/
def messageLen : Nat := 52

/-- `struct Message`.  `command` is the raw word: any value can arrive.  The
    fields `from` and `to` are `fromId` and `toId` here. -/
@[ext] structure Message where
  command : BitVec 32
  fname : List Byte
  dataSize : BitVec 32
  dataPtr : BitVec 32
  fromId : BitVec 32
  toId : BitVec 32
  fname_length : fname.length = maxFileNameLen
  deriving DecidableEq

/-- `msg.data_size` as the `int` it is. -/
def Message.size (m : Message) : Int := m.dataSize.toInt

/-- The number of payload bytes that belong to a header. -/
def Message.payload (m : Message) : Nat := m.size.toNat

/-- The image of the struct, as `send` and `memcpy` copy it. -/
def encode (m : Message) : List Byte :=
  encodeWord 4 m.command ++ (m.fname ++ (encodeWord 4 m.dataSize
    ++ (encodeWord 4 m.dataPtr ++ (encodeWord 4 m.fromId ++ encodeWord 4 m.toId))))

/-- The struct that a block of memory holds. -/
def decode (l : List Byte) : Message where
  command := decodeWord 32 (slice 0 4 l)
  fname := overlay maxFileNameLen (slice 4 maxFileNameLen l) (fun _ => 0)
  dataSize := decodeWord 32 (slice 36 4 l)
  dataPtr := decodeWord 32 (slice 40 4 l)
  fromId := decodeWord 32 (slice 44 4 l)
  toId := decodeWord 32 (slice 48 4 l)
  fname_length := length_overlay ..

@[simp] theorem length_encode (m : Message) : (encode m).length = messageLen := by
  simp only [encode, List.length_append, length_encodeWord, m.fname_length, maxFileNameLen,
    messageLen]

/-! Where each field stands in the image. -/

theorem slice_command (m : Message) : slice 0 4 (encode m) = encodeWord 4 m.command :=
  slice_zero_append (length_encodeWord ..)

theorem slice_fname (m : Message) : slice 4 maxFileNameLen (encode m) = m.fname := by
  rw [encode, slice_append_right (by simp), length_encodeWord]
  exact slice_zero_append m.fname_length

theorem slice_dataSize (m : Message) : slice 36 4 (encode m) = encodeWord 4 m.dataSize := by
  have hf : m.fname.length = 32 := m.fname_length
  rw [encode, slice_append_right (by simp), slice_append_right (by simp [hf]),
    length_encodeWord, hf]
  exact slice_zero_append (length_encodeWord ..)

theorem slice_dataPtr (m : Message) : slice 40 4 (encode m) = encodeWord 4 m.dataPtr := by
  have hf : m.fname.length = 32 := m.fname_length
  rw [encode, slice_append_right (by simp), slice_append_right (by simp [hf]),
    slice_append_right (by simp [hf]), length_encodeWord, length_encodeWord, hf]
  exact slice_zero_append (length_encodeWord ..)

theorem slice_fromId (m : Message) : slice 44 4 (encode m) = encodeWord 4 m.fromId := by
  have hf : m.fname.length = 32 := m.fname_length
  rw [encode, slice_append_right (by simp), slice_append_right (by simp [hf]),
    slice_append_right (by simp [hf]), slice_append_right (by simp [hf]),
    length_encodeWord, length_encodeWord, length_encodeWord, hf]
  exact slice_zero_append (length_encodeWord ..)

theorem slice_toId (m : Message) : slice 48 4 (encode m) = encodeWord 4 m.toId := by
  have hf : m.fname.length = 32 := m.fname_length
  rw [encode, slice_append_right (by simp), slice_append_right (by simp [hf]),
    slice_append_right (by simp [hf]), slice_append_right (by simp [hf]),
    slice_append_right (by simp [hf]), length_encodeWord, length_encodeWord,
    length_encodeWord, length_encodeWord, hf]
  exact slice_zero_self (length_encodeWord ..)

/-- **ROUND TRIP**: the struct read from its own image is the struct. -/
theorem decode_encode (m : Message) : decode (encode m) = m := by
  ext1
  · show decodeWord 32 (slice 0 4 (encode m)) = m.command
    rw [slice_command, decodeWord_encodeWord32]
  · show overlay maxFileNameLen (slice 4 maxFileNameLen (encode m)) (fun _ => 0)
      = m.fname
    rw [slice_fname, overlay_full m.fname_length]
  · show decodeWord 32 (slice 36 4 (encode m)) = m.dataSize
    rw [slice_dataSize, decodeWord_encodeWord32]
  · show decodeWord 32 (slice 40 4 (encode m)) = m.dataPtr
    rw [slice_dataPtr, decodeWord_encodeWord32]
  · show decodeWord 32 (slice 44 4 (encode m)) = m.fromId
    rw [slice_fromId, decodeWord_encodeWord32]
  · show decodeWord 32 (slice 48 4 (encode m)) = m.toId
    rw [slice_toId, decodeWord_encodeWord32]

/-- The other round trip: a block of the size of the struct is the image of the
    struct it holds. -/
theorem encode_decode {l : List Byte} (h : l.length = messageLen) :
    encode (decode l) = l := by
  have hlen : l.length = 52 := h
  have hword : ∀ off, off + 4 ≤ 52 →
      encodeWord 4 (decodeWord 32 (slice off 4 l)) = slice off 4 l :=
    fun off hoff => encodeWord_decodeWord32 (length_slice (by omega))
  have hfname : overlay maxFileNameLen (slice 4 maxFileNameLen l) (fun _ => 0)
      = slice 4 32 l := overlay_full (length_slice (by rw [hlen]; decide))
  show encodeWord 4 (decodeWord 32 (slice 0 4 l))
    ++ (overlay maxFileNameLen (slice 4 maxFileNameLen l) (fun _ => 0)
      ++ (encodeWord 4 (decodeWord 32 (slice 36 4 l))
        ++ (encodeWord 4 (decodeWord 32 (slice 40 4 l))
          ++ (encodeWord 4 (decodeWord 32 (slice 44 4 l))
            ++ encodeWord 4 (decodeWord 32 (slice 48 4 l)))))) = l
  rw [hfname, hword 0 (by decide), hword 36 (by decide), hword 40 (by decide),
    hword 44 (by decide), hword 48 (by decide), slice_append_slice 44 4 4,
    slice_append_slice 40 4 8, slice_append_slice 36 4 12, slice_append_slice 4 32 16,
    slice_append_slice 0 4 48]
  exact slice_zero_self hlen

/-- The sign of `data_size` stands in byte 39. -/
theorem size_neg_iff (m : Message) :
    m.size < 0 ↔ 128 ≤ ((encode m).getD 39 0).toNat := by
  have hbyte : (encode m).getD 39 0 = BitVec.ofNat 8 (m.dataSize.toNat / 2 ^ 24) := by
    have hat := getD_slice 36 (l := encode m) (show 3 < 4 by decide)
    rw [slice_dataSize] at hat
    rw [← hat]
    show BitVec.ofNat 8 (m.dataSize.toNat / 256 / 256 / 256) = _
    congr 1
    omega
  have hlt : m.dataSize.toNat < 2 ^ 32 := m.dataSize.isLt
  rw [hbyte, BitVec.toNat_ofNat]
  show m.dataSize.toInt < 0 ↔ _
  rw [BitVec.toInt_eq_toNat_cond]
  split <;> omega

/-- A struct received in full, whatever the memory held. -/
theorem decode_overlay (m : Message) (old : Nat → Byte) :
    decode (overlay messageLen (encode m) old) = m := by
  rw [overlay_full (length_encode m), decode_encode]

theorem messageLen_pos : 0 < messageLen := by decide

/-- Distinct structs have distinct images. -/
theorem encode_injective {m m' : Message} (h : encode m = encode m') : m = m' := by
  rw [← decode_encode m, ← decode_encode m', h]

/-- `IS_BROADCAST(id)`. -/
def isBroadcast (id : BitVec 32) : Bool := id == 0

/-! ## Frames -/

/-- A header and the bytes that go with it. -/
structure Parcel where
  hdr : Message
  body : List Byte
  deriving DecidableEq

/-- A header and a body, up to the sender's `data_ptr`, which means nothing to
    whoever receives the struct. -/
def Parcel.wire (p : Parcel) : Parcel :=
  { hdr := { p.hdr with dataPtr := 0 }, body := p.body }

/-- A whole frame: a header with exactly its own payload bytes. -/
structure Frame extends Parcel where
  body_length : body.length = hdr.payload

/-- A frame whose `data_size` is not negative. -/
structure Packet extends Frame where
  nonneg : 0 ≤ hdr.size

/-- What a frame looks like on a connection or in the FIFO. -/
def Parcel.bytes (p : Parcel) : List Byte := encode p.hdr ++ p.body

/-- The header is the front of a frame. -/
theorem Parcel.take_bytes (p : Parcel) (l : List Byte) :
    (p.bytes ++ l).take messageLen = encode p.hdr := by
  rw [Parcel.bytes, List.append_assoc, ← length_encode p.hdr, List.take_left]

/-- The body comes after the header of a frame. -/
theorem Parcel.drop_bytes (p : Parcel) (l : List Byte) :
    (p.bytes ++ l).drop messageLen = p.body ++ l := by
  rw [Parcel.bytes, List.append_assoc, ← length_encode p.hdr, List.drop_left]

theorem Parcel.bytes_ne_nil (p : Parcel) : p.bytes ≠ [] := by
  intro h
  have hlen := congrArg List.length h
  have hpos := messageLen_pos
  rw [Parcel.bytes, List.length_append, length_encode, List.length_nil] at hlen
  omega

/-- The bytes of a sequence of frames. -/
def stream (fs : List Frame) : List Byte := fs.flatMap (fun f => f.toParcel.bytes)

@[simp] theorem stream_nil : stream [] = [] := rfl

@[simp] theorem stream_cons (f : Frame) (fs : List Frame) :
    stream (f :: fs) = f.toParcel.bytes ++ stream fs := rfl

theorem Frame.length_bytes (f : Frame) :
    f.toParcel.bytes.length = messageLen + f.hdr.payload := by
  rw [Parcel.bytes, List.length_append, length_encode, f.body_length]

/-- Only a positive `data_size` announces a body. -/
theorem Frame.body_eq_nil {f : Frame} (h : f.hdr.size ≤ 0) : f.body = [] :=
  List.eq_nil_of_length_eq_zero (f.body_length.trans (Int.toNat_of_nonpos h))

/-- Every frame has bytes, so there are no more frames than bytes. -/
theorem length_le_stream (fs : List Frame) : fs.length ≤ (stream fs).length := by
  induction fs with
  | nil => exact Nat.le_refl 0
  | cons f fs ih =>
      have hpos := messageLen_pos
      rw [stream_cons, List.length_append, Frame.length_bytes, List.length_cons]
      omega

theorem stream_ne_nil {fs : List Frame} (h : fs ≠ []) : stream fs ≠ [] := by
  intro hnil
  have hle := length_le_stream fs
  rw [hnil] at hle
  exact h (List.eq_nil_of_length_eq_zero (Nat.le_zero.mp hle))

/-- No frame is the beginning of another. -/
theorem Frame.eq_of_bytes {f g : Frame} {rest : List Byte}
    (h : f.toParcel.bytes = g.toParcel.bytes ++ rest) : f = g := by
  rw [Parcel.bytes, Parcel.bytes, List.append_assoc] at h
  obtain ⟨hencode, hrest⟩ := List.append_inj h (by rw [length_encode, length_encode])
  have hhdr := encode_injective hencode
  have hlen : f.body.length = g.body.length := by
    rw [f.body_length, g.body_length, hhdr]
  have hbody := (List.append_inj ((List.append_nil f.body).trans hrest) hlen).1
  obtain ⟨⟨fh, fb⟩, hf⟩ := f
  obtain ⟨⟨gh, gb⟩, hg⟩ := g
  obtain rfl : fh = gh := hhdr
  obtain rfl : fb = gb := hbody
  rfl

/-- Taking the first frame off a stream. -/
theorem stream_unpack {l : List Byte} {fs : List Frame} (h : l = stream fs) :
    l = [] ∨ messageLen + (decode (l.take messageLen)).payload ≤ l.length
      ∧ ∃ gs, l.drop (messageLen + (decode (l.take messageLen)).payload) = stream gs := by
  cases fs with
  | nil => exact Or.inl h
  | cons f fs =>
      have htake : l.take messageLen = encode f.hdr := by
        rw [h, stream_cons, Parcel.take_bytes]
      rw [htake, decode_encode, ← f.length_bytes, h, stream_cons]
      refine Or.inr ⟨?_, fs, List.drop_left⟩
      rw [List.length_append]
      exact Nat.le_add_right ..

/-- A chat line with no text, from user 1 to user 2. -/
def blankMessage : Message where
  command := Command.SENDMSG.code
  fname := List.replicate 32 0
  dataSize := 0
  dataPtr := 0
  fromId := 1
  toId := 2
  fname_length := rfl

/-- The frame of that line. -/
def blankPacket : Packet where
  hdr := blankMessage
  body := []
  body_length := rfl
  nonneg := by decide

/-- A chat line of two letters, from user 1 to user 2. -/
def textPacket : Packet where
  hdr := { blankMessage with dataSize := 2 }
  body := [104, 105]
  body_length := rfl
  nonneg := by decide

end ChatMessage
