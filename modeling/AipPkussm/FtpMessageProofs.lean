import AipPkussm.LittleEndianProofs

/-! # The file server's `Message`

    `FileServer.h` and `FileClient.h` declare the same struct of a command, a
    file name and a size, which both programs copy to the wire byte for byte.
    It is shorter than the chatroom's: `MESSAGE_LEN` is 40.

    * `decode_encode`: a struct read from its own image is the struct.
    * `fnameString_fill`: the name that `strcpy` put into a struct is the string
      that `fopen` finds there. -/

namespace FtpMessage

open LittleEndian

/-- `enum Command`. -/
inductive Command where
  | PUT
  | GET
  | LS
  | CD
  | ERROR
  | QUIT
  | CONNECT
  deriving DecidableEq, Repr

/-- The `int` that stands for a command in the struct. -/
def Command.code : Command → BitVec 32
  | .PUT => 0
  | .GET => 1
  | .LS => 2
  | .CD => 3
  | .ERROR => 4
  | .QUIT => 5
  | .CONNECT => 6

/-- `MAX_FILE_NAME_LEN`. -/
def maxFileNameLen : Nat := 32

/-- `MESSAGE_LEN`, that is `sizeof(Message)`. -/
def messageLen : Nat := 40

/-- `struct Message`.  `command` is the raw word: any value can arrive. -/
@[ext] structure Message where
  command : BitVec 32
  fname : List Byte
  dataSize : BitVec 32
  fname_length : fname.length = maxFileNameLen
  deriving DecidableEq

/-- An empty name fills its field. -/
theorem length_blankFname : (List.replicate 32 (0 : Byte)).length = maxFileNameLen := rfl

/-- `msg.data_size` as the `int` it is. -/
def Message.size (m : Message) : Int := m.dataSize.toInt

/-- No announced size is beyond the largest `int`. -/
theorem length_lt_of_size {m : Message} {data : List Byte} (h : m.size = data.length) :
    data.length < 2 ^ 31 := by
  have hlt := BitVec.toInt_lt (x := m.dataSize)
  rw [Message.size] at h
  omega

/-- The image of the struct, as `send` copies it. -/
def encode (m : Message) : List Byte :=
  encodeWord 4 m.command ++ (m.fname ++ encodeWord 4 m.dataSize)

/-- The struct that a block of memory holds. -/
def decode (l : List Byte) : Message where
  command := decodeWord 32 (slice 0 4 l)
  fname := overlay maxFileNameLen (slice 4 maxFileNameLen l) (fun _ => 0)
  dataSize := decodeWord 32 (slice 36 4 l)
  fname_length := length_overlay ..

@[simp] theorem length_encode (m : Message) : (encode m).length = messageLen := by
  simp only [encode, List.length_append, length_encodeWord, m.fname_length, maxFileNameLen,
    messageLen]

/-! Where each field stands in the image. -/

theorem slice_command (m : Message) : slice 0 4 (encode m) = encodeWord 4 m.command :=
  slice_zero_append (length_encodeWord ..)

theorem slice_fname (m : Message) : slice 4 maxFileNameLen (encode m) = m.fname := by
  rw [encode, slice_append_right (by simp), length_encodeWord]
  exact slice_zero_append m.fname_length

theorem slice_dataSize (m : Message) : slice 36 4 (encode m) = encodeWord 4 m.dataSize := by
  have hf : m.fname.length = 32 := m.fname_length
  rw [encode, slice_append_right (by simp), slice_append_right (by simp [hf]),
    length_encodeWord, hf]
  exact slice_zero_self (length_encodeWord ..)

/-- **ROUND TRIP**: the struct read from its own image is the struct. -/
theorem decode_encode (m : Message) : decode (encode m) = m := by
  ext1
  · show decodeWord 32 (slice 0 4 (encode m)) = m.command
    rw [slice_command, decodeWord_encodeWord32]
  · show overlay maxFileNameLen (slice 4 maxFileNameLen (encode m)) (fun _ => 0)
      = m.fname
    rw [slice_fname, overlay_full m.fname_length]
  · show decodeWord 32 (slice 36 4 (encode m)) = m.dataSize
    rw [slice_dataSize, decodeWord_encodeWord32]

/-- A struct received in full, whatever the memory held. -/
theorem decode_overlay (m : Message) (old : Nat → Byte) :
    decode (overlay messageLen (encode m) old) = m := by
  rw [overlay_full (length_encode m), decode_encode]

/-! ## File names -/

/-- The string that starts at `msg->fname`.  A name that fills the field goes on in
    `data_size`; with no zero byte up to the end of the struct there is no string. -/
def fnameString (msg : Message) : Option (List Byte) :=
  let str := ((encode msg).drop 4).takeWhile (fun b => b ≠ 0)
  if str.length < messageLen - 4 then some str else none

/-- `strcpy (msg.fname, name)`.  A name that does not fit the struct either runs past
    its end. -/
def copyName (msg : Message) (name : List Byte) : Option Message :=
  if name.length < messageLen - 4 then
    some (decode (patch 4 (name ++ [0]) (encode msg)))
  else none

/-- A header whose fields are assigned after the name was copied into it. -/
def fill (old : Message) (name : List Byte) (command : Command) (dataSize : BitVec 32) :
    Option Message :=
  (copyName old name).map (fun msg =>
    { msg with command := command.code, dataSize := dataSize })

/-- What a C string is: no byte of it is zero. -/
def IsString (name : List Byte) : Prop := ∀ b ∈ name, b ≠ 0

/-- The field after `strcpy` of a name that fits it. -/
theorem fname_copyName {old msg : Message} {name : List Byte}
    (hlen : name.length < maxFileNameLen) (h : copyName old name = some msg) :
    ∃ junk, msg.fname = name ++ 0 :: junk := by
  have hfit : name.length < 32 := hlen
  have hold : (encode old).length = 40 := length_encode old
  rw [copyName, if_pos (Nat.lt_of_lt_of_le hlen (by decide))] at h
  obtain rfl := Option.some.inj h
  have hfour : 4 ≤ (encode old).length := by omega
  have hslice := slice_patch_string hfour hlen
  have hpatch : (patch 4 (name ++ [0]) (encode old)).length = 40 := by
    rw [length_patch, hold]
    rw [hold, List.length_append, List.length_singleton]
    omega
  refine ⟨_, Eq.trans ?_ hslice⟩
  refine overlay_full (length_slice ?_)
  rw [hpatch]
  decide

/-- **NAME**: a name that fits its field is the string found in the struct. -/
theorem fnameString_fill {old msg : Message} {name : List Byte} {command : Command}
    {dataSize : BitVec 32} (hlen : name.length < maxFileNameLen) (hstr : IsString name)
    (h : fill old name command dataSize = some msg) :
    fnameString msg = some name ∧ msg.command = command.code ∧ msg.dataSize = dataSize := by
  obtain ⟨copy, hcopy, rfl⟩ := Option.map_eq_some_iff.mp h
  obtain ⟨junk, hjunk⟩ := fname_copyName hlen hcopy
  have htake : ((encode { copy with command := command.code, dataSize := dataSize }).drop
      4).takeWhile (fun b => b ≠ 0) = name := by
    have hdrop : (encode { copy with command := command.code, dataSize := dataSize }).drop 4
        = copy.fname ++ encodeWord 4 dataSize := List.drop_left' (length_encodeWord ..)
    rw [hdrop, hjunk, List.append_assoc, List.cons_append, takeWhile_string hstr]
  refine ⟨?_, rfl, rfl⟩
  have hfit : name.length < messageLen - 4 := Nat.lt_of_lt_of_le hlen (by decide)
  simp only [fnameString, htake]
  exact if_pos hfit

/-- A name that fits is copied. -/
theorem fill_eq_some (old : Message) {name : List Byte} (command : Command)
    (dataSize : BitVec 32) (hlen : name.length < maxFileNameLen) :
    ∃ msg, fill old name command dataSize = some msg := by
  rw [fill, copyName, if_pos (Nat.lt_of_lt_of_le hlen (by decide))]
  exact ⟨_, rfl⟩

end FtpMessage
