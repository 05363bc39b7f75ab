import AipPkussm.ChatDisplayProofs
import AipPkussm.ChatGetProofs

/-! # What the frames tell besides the message

    A `Message` is copied to the wire as it lies in memory.  The pointer in it is an
    address of the sender, and `get_handler` answers with a struct on its stack of
    which it sets two or three fields.

    Two runs that agree on everything else send the same bytes exactly when they
    agree on what is copied along with the message (`reveal_iff`): the address, the
    bytes of the stack behind the name, and for a short file the bytes 512 below the
    block that holds it. -/

namespace ChatSecrecy

open LittleEndian ChatMessage ChatReceive ChatUserList ChatDispatch ChatDisplay ChatGet

/-! ## Addresses -/

/-- A frame tells the pointer in its header. -/
theorem bytes_atPtr_iff (msg : Packet) (ptr₁ ptr₂ : BitVec 32) :
    (atPtr ptr₁ msg).bytes = (atPtr ptr₂ msg).bytes ↔ ptr₁ = ptr₂ := by
  constructor
  · intro h
    have hencode := (List.append_inj h (by rw [length_encode, length_encode])).1
    exact congrArg Message.dataPtr (encode_injective hencode)
  · rintro rfl
    rfl

/-- **CLIENT**: the frame of a line tells where the line lay. -/
theorem bytes_commSendmsg_iff (myName : List Byte) (myId id : BitVec 32) (content : Content)
    (ptr₁ ptr₂ : BitVec 32) :
    (commSendmsg myName myId id ptr₁ content).bytes
        = (commSendmsg myName myId id ptr₂ content).bytes ↔ ptr₁ = ptr₂ :=
  bytes_atPtr_iff (commSendmsg myName myId id 0 content) ptr₁ ptr₂

/-- A message that is sent to nobody: the dispatcher leaves it out, or its recipient is past
    the end of the list. -/
def Unsent (msg : Packet) : Prop :=
  (msg.hdr.toId = 0 ∧ msg.hdr.fromId = 0) ∨ maxUserNum ≤ msg.hdr.toId.toNat

/-- **DISPATCHER**: what `loop_dispatch` sends tells where the body was, if it sends. -/
theorem loopDispatch_iff (got : GetFrame) (seg : UserList) (msg : Packet)
    (ptr₁ ptr₂ : BitVec 32) :
    (loopDispatch got (atPtr ptr₁ msg) seg).map Prod.fst
        = (loopDispatch got (atPtr ptr₂ msg) seg).map Prod.fst
      ↔ ptr₁ = ptr₂ ∨ Unsent msg := by
  have hto : ∀ ptr, (atPtr ptr msg).hdr.toId = msg.hdr.toId := fun _ => rfl
  have hfrom : ∀ ptr, (atPtr ptr msg).hdr.fromId = msg.hdr.fromId := fun _ => rfl
  simp only [loopDispatch, hto, hfrom]
  by_cases hnull : msg.hdr.toId = 0 ∧ msg.hdr.fromId = 0
  · rw [if_pos hnull, if_pos hnull]
    exact iff_of_true rfl (Or.inr (Or.inl hnull))
  · rw [if_neg hnull, if_neg hnull, Unsent, or_iff_right hnull]
    by_cases hall : isBroadcast msg.hdr.toId = true
    · have hzero : msg.hdr.toId = 0 := beq_iff_eq.mp hall
      have hsent : ¬ maxUserNum ≤ msg.hdr.toId.toNat := by
        rw [hzero]
        decide
      rw [if_pos hall, if_pos hall, or_iff_left hsent, ← bytes_atPtr_iff msg]
      simp only [Option.map_some, Option.some.injEq, List.map_inj_left, Sending.mk.injEq, true_and]
      exact ⟨fun h => h ⟨0, by decide⟩ (List.mem_finRange _), fun h _ _ => h⟩
    · rw [if_neg hall, if_neg hall]
      by_cases hin : msg.hdr.toId.toNat < maxUserNum
      · rw [dif_pos hin, dif_pos hin, or_iff_left (Nat.not_le.mpr hin), ← bytes_atPtr_iff msg]
        simp only [Option.map_some, Option.some.injEq, List.cons.injEq, Sending.mk.injEq, true_and,
          and_true]
      · rw [dif_neg hin, dif_neg hin]
        exact iff_of_true rfl (Or.inr (Nat.not_lt.mp hin))

/-! ## The header of a response -/

/-- Past parts of the same length. -/
theorem getD_append_congr {a a' l l' : List Byte} {n k : Nat} (ha : a.length = n)
    (ha' : a'.length = n) (hk : n ≤ k) (h : l.getD (k - n) 0 = l'.getD (k - n) 0) :
    (a ++ l).getD k 0 = (a' ++ l').getD k 0 := by
  rw [List.getD_append_right _ _ _ _ (by omega), List.getD_append_right _ _ _ _ (by omega), ha, ha']
  exact h

/-- The bytes of a header that are neither of `command` nor of `data_size`. -/
theorem getD_encode_of_field (m : Message) (command dataSize : BitVec 32) {k : Nat} (hk : 4 ≤ k)
    (hsize : ¬ (36 ≤ k ∧ k < 40)) :
    (encode { m with command := command, dataSize := dataSize }).getD k 0
      = (encode m).getD k 0 := by
  have hfname : m.fname.length = 32 := m.fname_length
  have hword : ∀ x : BitVec 32, (encodeWord 4 x).length = 4 := length_encodeWord 4
  refine getD_append_congr (hword _) (hword _) hk ?_
  rcases Nat.lt_or_ge (k - 4) 32 with hlt | hge
  · rw [List.getD_append _ _ _ _ (by rw [hfname]; exact hlt),
      List.getD_append _ _ _ _ (by rw [hfname]; exact hlt)]
  · exact getD_append_congr hfname hfname hge
      (getD_append_congr (hword _) (hword _) (by omega) rfl)

/-- Two headers with the same `command` and `data_size`. -/
theorem with_eq_iff (a b : Message) (command dataSize : BitVec 32) :
    ({ a with command := command, dataSize := dataSize } : Message)
        = { b with command := command, dataSize := dataSize }
      ↔ ∀ k, 4 ≤ k → ¬ (36 ≤ k ∧ k < 40) → (encode a).getD k 0 = (encode b).getD k 0 := by
  constructor
  · intro h k hk hsize
    rw [← getD_encode_of_field a command dataSize hk hsize, h,
      getD_encode_of_field b command dataSize hk hsize]
  · intro h
    have hslice : ∀ {m m' : Message} (off : Nat) {k : Nat},
        slice off 4 (encode m) = slice off 4 (encode m') →
        off ≤ k → k < off + 4 → (encode m).getD k 0 = (encode m').getD k 0 := by
      intro m m' off k heq hoff hk
      have hat := getD_slice off (l := encode m) (show k - off < 4 by omega)
      rw [heq, getD_slice off (by omega), Nat.add_sub_cancel' hoff] at hat
      exact hat.symm
    apply encode_injective
    refine eq_of_getD (by rw [length_encode, length_encode]) fun k _ => ?_
    by_cases hcommand : k < 4
    · refine hslice 0 ?_ (Nat.zero_le k) (by omega)
      rw [slice_command, slice_command]
    · by_cases hsize : 36 ≤ k ∧ k < 40
      · refine hslice 36 ?_ hsize.1 (by omega)
        rw [slice_dataSize, slice_dataSize]
      · rw [getD_encode_of_field a command dataSize (by omega) hsize,
          getD_encode_of_field b command dataSize (by omega) hsize]
        exact h k (by omega) hsize

/-- The bytes of the stack that stay in a response with a name. -/
def Kept (name : List Byte) (k : Nat) : Prop :=
  4 + name.length < k ∧ k < messageLen ∧ ¬ (36 ≤ k ∧ k < 40)

theorem encode_copyName (old : Message) {name : List Byte} (hname : name.length < messageLen - 4) :
    encode (copyName old name) = patch 4 (name ++ [0]) (encode old) := by
  have hroom : 4 + (name ++ [0]).length ≤ (encode old).length := by
    rw [length_encode, List.length_append, List.length_singleton]
    omega
  rw [copyName, encode_decode]
  rw [length_patch hroom, length_encode]

/-- **RESPONSE HEADER**: it tells what the stack held behind the name. -/
theorem reply_eq_iff (old₁ old₂ : Message) {name : List Byte}
    (hname : name.length < messageLen - 4) (command dataSize : BitVec 32) :
    ({ copyName old₁ name with command := command, dataSize := dataSize } : Message)
        = { copyName old₂ name with command := command, dataSize := dataSize }
      ↔ ∀ k, Kept name k → (encode old₁).getD k 0 = (encode old₂).getD k 0 := by
  have hoff : ∀ m : Message, 4 ≤ (encode m).length := by
    intro m
    rw [length_encode]
    decide
  have hlen : (name ++ [(0 : Byte)]).length = name.length + 1 := by
    rw [List.length_append, List.length_singleton]
  rw [with_eq_iff, encode_copyName old₁ hname, encode_copyName old₂ hname]
  constructor
  · rintro h k ⟨hbehind, -, hsize⟩
    have hk := h k (by omega) hsize
    rwa [getD_patch_of_le (hoff old₁) (by omega), getD_patch_of_le (hoff old₂) (by omega)] at hk
  · intro h k hk hsize
    rcases Nat.lt_or_ge k (4 + (name ++ [(0 : Byte)]).length) with hname' | hbehind
    · rw [getD_patch_inside (hoff old₁) hk hname', getD_patch_inside (hoff old₂) hk hname']
    · rw [getD_patch_of_le (hoff old₁) hbehind, getD_patch_of_le (hoff old₂) hbehind]
      rcases Nat.lt_or_ge k messageLen with hin | hout
      · exact h k ⟨by omega, hin, hsize⟩
      · rw [List.getD_eq_default _ _ (by rw [length_encode]; exact hout),
          List.getD_eq_default _ _ (by rw [length_encode]; exact hout)]

/-! ## The data of a response -/

/-- The sends of the data read at `pos`, counted from `buff`. -/
def ReadAt (dataSize pos : Int) : Prop :=
  (∃ i < (dataSize.tdiv socketioBufferSize).toNat, ∃ k < socketioBufferSize,
      pos = chunkOffset i + k)
    ∨ ∃ k < (BitVec.ofInt 32 (dataSize.tmod socketioBufferSize)).toNat,
      pos = lastOffset (dataSize.tdiv socketioBufferSize).toNat + k

/-- The position is in the file. -/
def InBuff (buff : List Byte) (pos : Int) : Prop := 0 ≤ pos ∧ pos < buff.length

theorem bytesAt_eq_iff (heap₁ heap₂ : Int → Byte) (buff : List Byte) (off : Int) (len : Nat) :
    bytesAt heap₁ buff off len = bytesAt heap₂ buff off len
      ↔ ∀ k < len, ¬ InBuff buff (off + k) → heap₁ (off + k) = heap₂ (off + k) := by
  rw [bytesAt, bytesAt, List.map_inj_left]
  refine forall_congr' fun k => ?_
  rw [List.mem_range]
  refine forall_congr' fun _ => ?_
  rw [InBuff]
  by_cases hpos : 0 ≤ off + k
  · rw [if_pos hpos, if_pos hpos]
    by_cases hin : off + k < buff.length
    · rw [List.getD_eq_getElem _ _ (by omega), List.getD_eq_getElem _ _ (by omega)]
      exact iff_of_true rfl (fun hout => absurd ⟨hpos, hin⟩ hout)
    · rw [List.getD_eq_default _ _ (by omega), List.getD_eq_default _ _ (by omega)]
      exact ⟨fun h _ => h, fun h => h (fun hboth => hin hboth.2)⟩
  · rw [if_neg hpos, if_neg hpos]
    exact ⟨fun h _ => h, fun h => h (fun hboth => hpos hboth.1)⟩

/-- **RESPONSE DATA**: it tells what the heap held where the sends leave the file. -/
theorem dataSends_eq_iff (heap₁ heap₂ : Int → Byte) (buff : List Byte) (dataSize : Int) :
    dataSends heap₁ buff dataSize = dataSends heap₂ buff dataSize
      ↔ ∀ pos, ReadAt dataSize pos → ¬ InBuff buff pos → heap₁ pos = heap₂ pos := by
  have hlength : ∀ heap n, ((List.range n).map fun i =>
      bytesAt heap buff (chunkOffset i) socketioBufferSize).length = n := by
    intro heap n
    rw [List.length_map, List.length_range]
  rw [dataSends, dataSends]
  constructor
  · intro h
    obtain ⟨hchunks, hrest⟩ := List.append_inj h (by rw [hlength, hlength])
    rintro pos (⟨i, hi, k, hk, rfl⟩ | ⟨k, hk, rfl⟩)
    · have hchunk := List.map_inj_left.mp hchunks i (List.mem_range.mpr hi)
      exact (bytesAt_eq_iff ..).mp hchunk k hk
    · exact (bytesAt_eq_iff ..).mp (List.singleton_inj.mp hrest) k hk
  · intro h
    have hchunks : ∀ i ∈ List.range (dataSize.tdiv socketioBufferSize).toNat,
        bytesAt heap₁ buff (chunkOffset i) socketioBufferSize
          = bytesAt heap₂ buff (chunkOffset i) socketioBufferSize := by
      intro i hi
      exact (bytesAt_eq_iff ..).mpr fun k hk =>
        h _ (Or.inl ⟨i, List.mem_range.mp hi, k, hk, rfl⟩)
    have hrest := (bytesAt_eq_iff heap₁ heap₂ buff _ _).mpr fun k hk =>
      h _ (Or.inr ⟨k, hk, rfl⟩)
    rw [List.map_congr_left hchunks, hrest]

/-- For a file of fewer than 512 bytes they leave it to the front, and for a longer one
    not at all. -/
theorem readAt_outside_iff {buff : List Byte} (hsize : buff.length < 2 ^ 31) (pos : Int) :
    ReadAt buff.length pos ∧ ¬ InBuff buff pos
      ↔ buff.length < socketioBufferSize ∧ -512 ≤ pos ∧ pos < buff.length - 512 := by
  rw [ReadAt, toNat_tdiv_natCast, toNat_tmod_natCast, InBuff]
  simp only [socketioBufferSize]
  cases hq : buff.length / 512 with
  | zero =>
    have hzero : lastOffset 0 = -512 := by decide
    rw [hzero]
    constructor
    · rintro ⟨⟨i, hi, -⟩ | ⟨k, hk, rfl⟩, -⟩
      · exact absurd hi (Nat.not_lt_zero i)
      · omega
    · rintro ⟨-, hlow, hhigh⟩
      exact ⟨Or.inr ⟨(pos + 512).toNat, by omega, by omega⟩, by omega⟩
  | succ q =>
    have hoffset : ∀ i ≤ q, chunkOffset i = (i * 512 : Nat) :=
      fun i hi => chunkOffset_eq (show i * 512 < 2 ^ 31 by omega)
    refine iff_of_false ?_ (fun h => by omega)
    rintro ⟨⟨i, hi, k, hk, rfl⟩ | ⟨k, hk, rfl⟩, hout⟩
    · rw [hoffset i (by omega)] at hout
      exact hout (by omega)
    · rw [lastOffset_succ, hoffset q (Nat.le_refl q)] at hout
      exact hout (by omega)

/-! ## Two runs -/

/-- Two servers that agree on the file of a request agree on what is sent with it: the stack
    behind the name, and the heap around the block with the file. -/
def GetAgrees (files : Files) (msg old₁ old₂ : Message) (heap₁ heap₂ : Int → Byte) : Prop :=
  ∀ name, fnameString msg = some name →
    match files name with
    | none => ∀ k, Kept [] k → (encode old₁).getD k 0 = (encode old₂).getD k 0
    | some buff =>
      (∀ k, Kept name k → (encode old₁).getD k 0 = (encode old₂).getD k 0)
        ∧ ∀ pos, ReadAt (BitVec.ofNat 32 buff.length).toInt pos → ¬ InBuff buff pos →
          heap₁ pos = heap₂ pos

theorem length_fnameString {msg : Message} {name : List Byte}
    (h : fnameString msg = some name) : name.length < messageLen - 4 := by
  rw [fnameString] at h
  split at h
  · next hlt =>
    obtain rfl := Option.some.inj h
    exact hlt
  · exact nomatch h

/-- **SERVER**: the answer to a GET tells them. -/
theorem getHandler_iff (files : Files) (msg old₁ old₂ : Message) (heap₁ heap₂ : Int → Byte) :
    getHandler files old₁ heap₁ msg = getHandler files old₂ heap₂ msg
      ↔ GetAgrees files msg old₁ old₂ heap₁ heap₂ := by
  have hencode : ∀ m m' : Message, encode m = encode m' ↔ m = m' :=
    fun m m' => ⟨encode_injective, congrArg encode⟩
  rw [getHandler, getHandler, GetAgrees]
  cases hname : fnameString msg with
  | none => simp
  | some name =>
    have hlen := length_fnameString hname
    simp only [Option.map_some, Option.some.injEq, forall_eq']
    cases files name with
    | none =>
      simp only [Prod.mk.injEq, List.cons.injEq, true_and, and_true]
      rw [hencode, errorReply, errorReply,
        reply_eq_iff old₁ old₂ (by decide)]
    | some buff =>
      simp only [Prod.mk.injEq, List.cons.injEq, true_and]
      rw [hencode, getReply, getReply, reply_eq_iff old₁ old₂ hlen]
      exact and_congr_right fun _ => dataSends_eq_iff ..

/-- **SECRECY**: two runs with the same messages and files put the same bytes on the wire
    exactly when they agree on what is copied along.  For the client this is the address of
    the line; for the dispatcher it is that of the body, unless the message is not sent; and
    for `get_handler` it is the stack and the heap at the places of `GetAgrees`. -/
theorem reveal_iff (myName : List Byte) (myId id : BitVec 32) (content : Content)
    (got : GetFrame) (seg : UserList) (msg : Packet) (files : Files) (request : Message)
    (ptr₁ ptr₂ : BitVec 32) (old₁ old₂ : Message) (heap₁ heap₂ : Int → Byte) :
    ((commSendmsg myName myId id ptr₁ content).bytes
          = (commSendmsg myName myId id ptr₂ content).bytes ↔ ptr₁ = ptr₂)
      ∧ ((loopDispatch got (atPtr ptr₁ msg) seg).map Prod.fst
          = (loopDispatch got (atPtr ptr₂ msg) seg).map Prod.fst ↔ ptr₁ = ptr₂ ∨ Unsent msg)
      ∧ (getHandler files old₁ heap₁ request = getHandler files old₂ heap₂ request
          ↔ GetAgrees files request old₁ old₂ heap₁ heap₂) :=
  ⟨bytes_commSendmsg_iff .., loopDispatch_iff .., getHandler_iff ..⟩

/-- The same line at two addresses. -/
theorem not_secret : ¬ ∀ (myName : List Byte) (myId id : BitVec 32) (content : Content)
    (ptr₁ ptr₂ : BitVec 32), (commSendmsg myName myId id ptr₁ content).bytes
      = (commSendmsg myName myId id ptr₂ content).bytes := by
  intro h
  have heq := (bytes_commSendmsg_iff [97] 1 2 hello 0xBFFFF000 0xBFFFF010).mp
    (h [97] 1 2 hello 0xBFFFF000 0xBFFFF010)
  exact absurd heq (by decide)

end ChatSecrecy
