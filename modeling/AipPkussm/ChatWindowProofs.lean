import AipPkussm.ChatUploadProofs

/-! # What a user of the chatroom sees

    For each pair that `comm_waitmsg` receives, `MESSAGE_DIS` prints who says it, to
    whom, and the text: the label that `sprintf` puts together in `sender`, the name
    of the user or `all`, and the bytes of the block up to a zero byte.

    What `comm_sendmsg` sends is announced with the name and the id of its sender, to
    whom it was sent, and with the text that was typed, as long as the byte behind
    the block is zero (`window_lines`). -/

namespace ChatWindow

open LittleEndian ChatMessage ByteSocket ChatReceive ChatSegment ChatUserList ChatDispatch
open ChatDisplay ChatLabel ChatConsole
open ChatUpload (content)

/-! ## Client.cc -/

/-- What is in memory behind the `recv_msg` of a round, and behind its block. -/
structure Behind where
  stack : List Byte
  heap : List Byte

/-- A row of equality signs. -/
def rule : List Byte := List.replicate 49 61

/-- `] says to [` -/
def saysTo : List Byte := [93, 32, 115, 97, 121, 115, 32, 116, 111, 32, 91]

/-- `MESSAGE_DIS` -/
def messageDisText (sender recipient msg : List Byte) : List Byte :=
  10 :: (rule ++ 10 :: 91 :: (sender ++ (saysTo ++ (recipient ++ 93 :: 58 :: 32 :: (msg
    ++ 10 :: (rule ++ [10, 91]))))))

/-- `all` -/
def allWord : List Byte := [97, 108, 108]

/-- What a round of `comm_waitmsg` prints of the pair that it has received.  A label that is
    too long for `sender` is a fault, and so is a string that does not end. -/
def announce (myName : List Byte) (behind : Behind) (recvMsg : Parcel) : Option (List Byte) :=
  (sprintfSender recvMsg.hdr behind.stack).bind (fun sender =>
    if maxFileNameLen < sender.length then none
    else (printString recvMsg.body behind.heap).map (fun text =>
      messageDisText (cString sender) (if recvMsg.hdr.toId = 0 then allWord else myName) text))

/-- What `comm_waitmsg` prints of the bytes that it receives, one by one of the pairs. -/
def window (myName : List Byte) (mem : Nat → Memory) (behind : Nat → Behind)
    (input : List Byte) : Option (List (Option (List Byte))) :=
  (displayed mem whole input).map (fun ps =>
    ps.mapIdx (fun n recvMsg => announce myName (behind n) recvMsg))

/-! ## Users and lines -/

/-- A user of the room: an id other than 0, and a name that leaves room for it in the label. -/
structure Member where
  name : Word
  id : Fin maxUserNum
  positive : id ≠ 0
  fits : name.bytes.length + (decimal id).length + 6 ≤ maxFileNameLen

/-- A line as it is typed behind `send`: to whom, and the text. -/
structure Line where
  dest : Fin maxUserNum
  text : Text

/-- What `comm_sendmsg` sends for a line. -/
def Member.packet (who : Member) (ptr : BitVec 32) (line : Line) : Packet :=
  commSendmsg who.name.bytes (idOf who.id) (idOf line.dest) ptr (content line.text)

/-- The header and the body that arrive, but for the pointer. -/
def Member.parcel (who : Member) (line : Line) : Parcel := (who.packet 0 line).toParcel

/-- The label of a user. -/
def Member.label (who : Member) : List Byte :=
  who.name.bytes ++ idOpen ++ decimal who.id ++ [93]

/-- What `me` sees of a line. -/
def announcement (who : Member) (line : Line) (me : Member) : List Byte :=
  messageDisText who.label (if line.dest = 0 then allWord else me.name.bytes)
    (32 :: line.text.bytes)

/-! ## One announcement -/

/-- A name that fits its field. -/
theorem strncpy_name (name : Word) : strncpy maxFileNameLen name.bytes
    = name.bytes ++ List.replicate (maxFileNameLen - name.bytes.length) 0 := by
  have hstr : name.bytes.takeWhile (fun b => b ≠ 0) = name.bytes := by
    refine List.takeWhile_eq_self_iff.mpr (fun b hb => ?_)
    exact decide_eq_true (name.printable b hb).2
  rw [strncpy, hstr, List.take_of_length_le (Nat.le_of_lt name.short)]

theorem nickname_packet (who : Member) (line : Line) :
    nickname (who.parcel line).hdr = who.name.bytes := by
  obtain ⟨n, hn⟩ := Nat.exists_eq_add_of_lt who.name.short
  have hzeros : maxFileNameLen - who.name.bytes.length = n + 1 := by omega
  show (strncpy maxFileNameLen who.name.bytes).takeWhile (fun b => b ≠ 0) = _
  rw [strncpy_name, hzeros, List.replicate_succ]
  exact takeWhile_string (fun b hb => (who.name.printable b hb).2) _

theorem zero_mem_fname (who : Member) (line : Line) :
    (0 : Byte) ∈ (who.parcel line).hdr.fname := by
  obtain ⟨n, hn⟩ := Nat.exists_eq_add_of_lt who.name.short
  have hzeros : maxFileNameLen - who.name.bytes.length = n + 1 := by omega
  show (0 : Byte) ∈ strncpy maxFileNameLen who.name.bytes
  rw [strncpy_name, hzeros, List.replicate_succ]
  exact List.mem_append_right _ (List.mem_cons_self ..)

/-- An id is printed without a sign. -/
theorem formatInt_idOf (i : Fin maxUserNum) : formatInt (idOf i) = decimal i := by
  have hlt : i.val < 2 ^ 31 := Nat.lt_trans i.isLt (by decide)
  have hint : (idOf i).toInt = i.val := toInt_ofNat32 hlt
  rw [formatInt, hint, if_neg (by omega), Int.natAbs_natCast]

/-- A label has no zero byte. -/
theorem nonzero_label (who : Member) : ∀ b ∈ who.label, b ≠ 0 := by
  intro b hb
  rw [Member.label] at hb
  simp only [List.mem_append, List.mem_singleton] at hb
  rcases hb with ((hname | hopen) | hdigit) | rfl
  · exact (who.name.printable b hname).2
  · revert b
    decide
  · rintro rfl
    exact not_mem_decimal rfl _ hdigit
  · decide

theorem toId_eq_zero_iff (i : Fin maxUserNum) : idOf i = 0 ↔ i = 0 := by
  constructor
  · intro h
    have hval := congrArg BitVec.toNat h
    rw [toNat_idOf] at hval
    exact Fin.ext hval
  · rintro rfl
    rfl

/-- **ONE LINE**: what is printed of a line that arrives. -/
theorem announce_line {who : Member} {line : Line} {p : Parcel} {behind : Behind} (me : Member)
    (hp : p.wire = who.parcel line) (hzero : behind.heap.head? = some 0) :
    announce me.name.bytes behind p = some (announcement who line me) := by
  have hfname : p.hdr.fname = (who.parcel line).hdr.fname := congrArg (fun p => p.hdr.fname) hp
  have hfrom : p.hdr.fromId = idOf who.id := congrArg (fun p => p.hdr.fromId) hp
  have hto : p.hdr.toId = idOf line.dest := congrArg (fun p => p.hdr.toId) hp
  have hbody : p.body = (content line.text).bytes := congrArg (fun p => p.body) hp
  have hnul : (0 : Byte) ∈ p.hdr.fname := by
    rw [hfname]
    exact zero_mem_fname who line
  have hnick : nickname p.hdr = who.name.bytes := by
    rw [nickname, hfname]
    exact nickname_packet who line
  have hsender : sprintfSender p.hdr behind.stack = some (who.label ++ [0]) := by
    rw [sprintfSender_eq hnul, hnick, hfrom, formatInt_idOf, Member.label]
    simp only [List.append_assoc, List.singleton_append]
  have hlength : ¬ maxFileNameLen < (who.label ++ [0]).length := by
    have hfits := who.fits
    rw [Member.label]
    simp only [List.length_append, idOpen, List.length_cons, List.length_nil]
    omega
  have hlabel : cString (who.label ++ [0]) = who.label :=
    takeWhile_string (nonzero_label who) []
  have htext : printString p.body behind.heap = some (32 :: line.text.bytes) := by
    rw [hbody]
    exact (printString_iff (content line.text).nonzero _).mpr hzero
  rw [announce, hsender, Option.bind_some, if_neg hlength, htext, hlabel, hto, announcement]
  simp only [Option.map_some, toId_eq_zero_iff]

/-! ## All of them -/

/-- What is printed of pairs that are lines. -/
theorem mapIdx_announce {ι : Type} (who : ι → Member) (me : Member) {es : List (ι × Line)} :
    ∀ {ps : List Parcel} {behind : Nat → Behind},
      ps.map Parcel.wire = es.map (fun e => (who e.1).parcel e.2) →
      (∀ n, (behind n).heap.head? = some 0) →
      ps.mapIdx (fun n p => announce me.name.bytes (behind n) p)
        = es.map (fun e => some (announcement (who e.1) e.2 me)) := by
  induction es with
  | nil =>
      intro ps behind hps _
      obtain rfl := List.map_eq_nil_iff.mp hps
      rfl
  | cons e es ih =>
      intro ps behind hps hzero
      cases ps with
      | nil => exact nomatch hps
      | cons p ps =>
          obtain ⟨hp, hrest⟩ := List.cons.inj hps
          rw [List.mapIdx_cons, List.map_cons, announce_line me hp (hzero 0),
            ih hrest (fun n => hzero (n + 1))]

/-- **WINDOW**: a user who receives lines sees them, in their order, with their senders. -/
theorem window_lines {ι : Type} (who : ι → Member) (me : Member) (mem : Nat → Memory)
    {behind : Nat → Behind} (hzero : ∀ n, (behind n).heap.head? = some 0) {fs : List Frame}
    {es : List (ι × Line)}
    (hfs : fs.map (fun f => f.toParcel.wire) = es.map (fun e => (who e.1).parcel e.2)) :
    window me.name.bytes mem behind (stream fs)
      = some (es.map (fun e => some (announcement (who e.1) e.2 me))) := by
  have hsize : ∀ f ∈ fs, 0 ≤ f.hdr.size := by
    intro f hf
    have hmem : f.toParcel.wire ∈ es.map (fun e => (who e.1).parcel e.2) := by
      rw [← hfs]
      exact List.mem_map.mpr ⟨f, hf, rfl⟩
    obtain ⟨e, -, he⟩ := List.mem_map.mp hmem
    have hsame : f.hdr.size = ((who e.1).packet 0 e.2).hdr.size :=
      congrArg (fun p => p.hdr.size) he.symm
    rw [hsame]
    exact ((who e.1).packet 0 e.2).nonneg
  obtain ⟨ps, hps, hwires⟩ := displayed_frames mem fs hsize
  rw [window, hps, Option.map_some, mapIdx_announce who me (hwires.trans hfs) hzero]

end ChatWindow
