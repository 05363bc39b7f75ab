import AipPkussm.ChatDispatchProofs
import AipPkussm.ChatSegmentProofs

/-! # What a recipient reads

    `comm_sendmsg` sends a line without the zero byte that ends it, and
    `comm_waitmsg` prints with `%s` from a block of `data_size` bytes: the text
    goes on behind the block up to the first zero byte there.

    A recipient displays the lines one by one (`displayed_frames`),
    and a line is printed as it was sent exactly when the byte behind its block
    happens to be zero (`printed_iff`). -/

namespace ChatDisplay

open LittleEndian ChatMessage ByteSocket ChatReceive ChatUserList ChatDispatch ChatSegment

/-! ## Client.cc -/

/-- A string that `comm_sendmsg` can send: no byte of it is zero, and `buff_len` is an
    `int`. -/
structure Content where
  bytes : List Byte
  nonzero : ∀ b ∈ bytes, b ≠ 0
  fits : messageLen + bytes.length < 2 ^ 31

/-- `comm_sendmsg`: the frame that it sends.  The string is at `ptr`. -/
def commSendmsg (myName : List Byte) (myId id ptr : BitVec 32) (content : Content) : Packet where
  hdr :=
    { command := Command.SENDMSG.code
      fname := strncpy maxFileNameLen myName
      dataSize := BitVec.ofNat 32 content.bytes.length
      dataPtr := ptr
      fromId := myId
      toId := id
      fname_length := by
        rw [strncpy]
        simp only [List.length_append, List.length_replicate, List.length_take]
        omega }
  body := content.bytes
  body_length := by
    have hfits := content.fits
    show content.bytes.length = (BitVec.ofNat 32 content.bytes.length).toInt.toNat
    rw [toInt_ofNat32 (by omega), Int.toNat_natCast]
  nonneg := by
    have hfits := content.fits
    show 0 ≤ (BitVec.ofNat 32 content.bytes.length).toInt
    rw [toInt_ofNat32 (by omega)]
    exact Int.natCast_nonneg _

/-- `%s` with a block, and the memory behind it: the text is all up to the first zero byte.
    Without one, `printf` runs out of the memory. -/
def printString (buff after : List Byte) : Option (List Byte) :=
  let str := (buff ++ after).takeWhile (fun b => b ≠ 0)
  if str.length < (buff ++ after).length then some str else none

/-- `MESSAGE_DIS` of each pair in turn: the text of the line.  Behind the block of the
    `n`-th is `after n`. -/
def messageDis (after : Nat → List Byte) (ps : List Parcel) : List (Option (List Byte)) :=
  ps.mapIdx (fun n recvMsg => printString recvMsg.body (after n))

/-! ## The end of a string -/

/-- A text without a zero byte is printed as such when one follows. -/
theorem printString_iff {text : List Byte} (htext : ∀ b ∈ text, b ≠ 0) (after : List Byte) :
    printString text after = some text ↔ after.head? = some 0 := by
  have hstr : (text ++ after).takeWhile (fun b => b ≠ 0)
      = text ++ after.takeWhile (fun b => b ≠ 0) := by
    refine List.takeWhile_append_of_pos (fun b hb => ?_)
    exact decide_eq_true (htext b hb)
  rw [printString, hstr]
  simp only [List.length_append]
  cases after with
  | nil => simp
  | cons b more =>
      by_cases hzero : b = 0
      · subst hzero
        simp
      · have hmore : (b :: more).takeWhile (fun b => b ≠ 0)
            = b :: more.takeWhile (fun b => b ≠ 0) :=
          List.takeWhile_cons_of_pos (decide_eq_true hzero)
        rw [hmore, List.head?_cons, Option.some.injEq]
        refine iff_of_false ?_ hzero
        split
        · simp
        · simp

/-! ## What the recipient displays -/

/-- **LOOP**: on a stream of frames that nothing splits, the recipient displays each of them:
    the header but for the pointer, and the body. -/
theorem commWaitmsg_frames (mem : Nat → Memory) (fs : List Frame) : ∀ fuel n s,
    s.input = stream fs → (∀ f ∈ fs, 0 ≤ f.hdr.size) → fs.length < fuel →
    ∃ ps, commWaitmsg mem whole fuel n s = some ps
      ∧ ps.map Parcel.wire = fs.map (fun f => f.toParcel.wire) := by
  induction fs with
  | nil =>
      intro fuel n s hin _ hfuel
      cases fuel with
      | zero => exact absurd hfuel (Nat.not_lt_zero _)
      | succ fuel =>
          obtain ⟨-, hwhole⟩ := commWaitmsg_nil mem (fun _ => 0) fuel n hin
          exact ⟨[], hwhole, rfl⟩
  | cons f fs ih =>
      intro fuel n s hin hsize hfuel
      cases fuel with
      | zero => exact absurd hfuel (Nat.not_lt_zero _)
      | succ fuel =>
          obtain ⟨hhead, hrest⟩ := List.forall_mem_cons.mp hsize
          obtain ⟨ps, hps, hwires⟩ := ih fuel (n + 1) ⟨stream fs, s.calls + 1 + 1⟩ rfl hrest
            (Nat.lt_of_succ_lt_succ hfuel)
          have hin' : s.input = f.bytes ++ stream fs := hin
          refine ⟨shown (mem n) f :: ps, ?_, ?_⟩
          · rw [commWaitmsg_frame mem fuel n hin' (Int.not_lt.mpr hhead), hps]
            rfl
          · rw [List.map_cons, List.map_cons, hwires]
            rfl

theorem displayed_frames (mem : Nat → Memory) (fs : List Frame)
    (hsize : ∀ f ∈ fs, 0 ≤ f.hdr.size) : ∃ ps, displayed mem whole (stream fs) = some ps
      ∧ ps.map Parcel.wire = fs.map (fun f => f.toParcel.wire) :=
  commWaitmsg_frames mem fs _ 0 ⟨stream fs, 0⟩ rfl hsize
    (Nat.lt_succ_of_le (length_le_stream fs))

/-- **ONE LINE**: what is printed for a frame between others. -/
theorem messageDis_displayed (mem : Nat → Memory) (after : Nat → List Byte)
    (before later : List Packet) (line : Packet) :
    ∃ ps, displayed mem whole
        (stream ((before ++ line :: later).map Packet.toFrame)) = some ps
      ∧ (messageDis after ps)[before.length]?
        = some (printString line.body (after before.length)) := by
  obtain ⟨ps, hps, hwires⟩ := displayed_frames mem
    ((before ++ line :: later).map Packet.toFrame) (by
      intro f hf
      obtain ⟨p, -, rfl⟩ := List.mem_map.mp hf
      exact p.nonneg)
  refine ⟨ps, hps, ?_⟩
  have hbodies : ps.map Parcel.body = (before ++ line :: later).map (fun p => p.body) := by
    have hbody := congrArg (List.map Parcel.body) hwires
    simp only [List.map_map] at hbody
    exact hbody
  have hline : (ps.map Parcel.body)[before.length]? = some line.body := by
    rw [hbodies, List.map_append, List.getElem?_append_right (by simp)]
    simp
  rw [List.getElem?_map, Option.map_eq_some_iff] at hline
  obtain ⟨p, hp, hbody⟩ := hline
  rw [messageDis, List.getElem?_mapIdx, hp, ← hbody]
  rfl

/-- A line of one letter. -/
def hello : Content where
  bytes := [104]
  nonzero := by decide
  fits := by decide

end ChatDisplay
