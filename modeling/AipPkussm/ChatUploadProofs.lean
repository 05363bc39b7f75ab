import AipPkussm.ChatConsoleProofs
import AipPkussm.ChatIndexProofs
import AipPkussm.ChatReassemblyProofs
import AipPkussm.ChatSecrecyProofs
import AipPkussm.FtpTransferProofs

/-! # From the keyboard to the disk of the chatroom server

    What is typed at the console of a client goes through `comm_conn`, `comm_put` and
    `comm_sendmsg` to the wire, through `parse_msg` to `handle_msg`, and a file
    through `put_handler` to the disk of the server.

    `session_stored`: whatever files are put and whatever lines are sent in between,
    the files on the server are those that were put, in the order of the commands, up
    to the first one that the server cannot create: after that one it listens no
    more.  But a file that is put is the file only up to its last whole chunk of 512
    bytes; behind it the server keeps what `malloc` found, and of a file shorter than
    a chunk it keeps what the client had in front of its block (`stored_eq_iff`).

    Sessions with `comm_get` in them are not followed: it waits for an answer, and
    where that is a file of whole chunks its last `recv` asks for 0 bytes. -/

namespace ChatUpload

open LittleEndian ChatMessage ByteSocket ChatReceive ChatServe ChatReassembly ChatDisplay
open ChatGet ChatSecrecy ChatConsole
open FtpTransfer (chunks chunksLen remainder lastSent length_lastSent lastSent_eq
  flatten_dataSends chunksLen_add_remainder HoldsTail received_eq_iff)
open ChatIndex (route)

/-! ## Client.cc -/

/-- What a call of the client finds: the old contents of its `msg`, that of `st.st_size`,
    where its string is, and the memory around the block that `malloc` returns. -/
structure Locals where
  msg : Message
  stSize : BitVec 32
  ptr : BitVec 32
  heap : Int → Byte

/-- The globals `my_name` and `my_id`. -/
structure User where
  myName : List Byte
  myId : BitVec 32

/-- A `strncpy` fills the field. -/
theorem length_strncpy (n : Nat) (src : List Byte) :
    (ChatUserList.strncpy n src).length = n := by
  rw [ChatUserList.strncpy, List.length_append, List.length_replicate, List.length_take]
  omega

/-- The header of `comm_conn`. -/
def commConn (user : User) : Message where
  command := Command.CONN.code
  fname := ChatUserList.strncpy maxFileNameLen user.myName
  dataSize := 0
  dataPtr := 0
  fromId := user.myId
  toId := user.myId
  fname_length := length_strncpy ..

/-- The request of `comm_get`. -/
def getRequest (loc : Locals) (fname : List Byte) : Message :=
  { copyName loc.msg fname with command := Command.GET.code, dataSize := 0 }

/-- The header of `comm_put`, with the size that `stat` leaves. -/
def putHeader (files : Files) (loc : Locals) (fname : List Byte) : Message :=
  { copyName loc.msg fname with
    command := Command.PUT.code
    dataSize := match files fname with
      | some file => BitVec.ofNat 32 file.length
      | none => loc.stSize }

/-- What `comm_put` sends, and whether it comes back: without the file it reads from a
    null pointer after the header. -/
def commPut (files : Files) (loc : Locals) (fname : List Byte) : List (List Byte) × Bool :=
  match files fname with
  | none => ([encode (putHeader files loc fname)], false)
  | some file =>
      (encode (putHeader files loc fname) :: dataSends loc.heap file file.length, true)

/-- The empty string. -/
def noContent : Content where
  bytes := []
  nonzero := fun _ hb => absurd hb List.not_mem_nil
  fits := by decide

/-- The header of `comm_sendmsg` for any string. -/
def sendmsgHeader (user : User) (loc : Locals) (id : BitVec 32) (content : List Byte) : Message :=
  { (commSendmsg user.myName user.myId id loc.ptr noContent).hdr with
    dataSize := BitVec.ofNat 32 content.length }

/-- What a call of the console sends, and whether it comes back without an answer of the
    server. -/
def callSends (files : Files) (loc : Locals) (user : User) : Call → List (List Byte) × Bool
  | .conn _ _ => ([encode (commConn user)], true)
  | .put fname => commPut files loc fname
  | .get fname => ([encode (getRequest loc fname)], false)
  | .sendmsg id content =>
      ([encode (sendmsgHeader user loc (BitVec.ofInt 32 id) content) ++ content], true)

/-- The globals when a call is made: `console` has set them before `comm_conn`. -/
def userAt (user : User) : Call → User
  | .conn myName myId => ⟨myName, BitVec.ofInt 32 myId⟩
  | _ => user

/-- The bytes that the calls of the console send, the `k`-th call with `locs k`. -/
def sent (files : Files) (locs : Nat → Locals) : User → Nat → List Call → List Byte
  | _, _, [] => []
  | user, k, call :: calls =>
      let user' := userAt user call
      let r := callSends files (locs k) user' call
      r.1.flatten ++ if r.2 then sent files locs user' (k + 1) calls else []

/-! ## Handlers.cc -/

/-- `put_handler` writes the block that `parse_msg` has filled: the value it returns, and
    the files after it. -/
def putHandler (creates : List Byte → Bool) (files : Files) (p : Parcel) :
    Option (Int × Files) :=
  (fnameString p.hdr).map (fun name =>
    if creates name then (0, Function.update files name (some p.body)) else (-1, files))

/-- `handle_msg`, as far as the files go, for a server that can create the files in
    `creates`.  A call of the null pointer is a fault, and so is an id past the end of the
    user list: `conn_handler` goes there, and so does the dispatcher, to which
    `sendmsg_handler` hands the message. -/
def handleMsg (creates : List Byte → Bool) (loc : Locals) (files : Files) (p : Parcel) :
    Option (Int × Files) :=
  match route p.hdr with
  | some .getHandler => (getHandler files loc.msg loc.heap p.hdr).map (fun r => (r.1, files))
  | some .putHandler => putHandler creates files p
  | some .connHandler =>
      if p.hdr.fromId.toNat < ChatUserList.maxUserNum then some (0, files) else none
  | some .sendmsgHandler =>
      if p.hdr.toId.toNat < ChatUserList.maxUserNum then some (0, files) else none
  | none => none

/-- What `handle_msg` returned for the last of some messages, and the files after them. -/
def handled (creates : List Byte → Bool) (loc : Locals) (files : Files) (ps : List Parcel) :
    Option (Int × Files) :=
  ps.foldl (fun s p => s.bind (fun r => handleMsg creates loc r.2 p)) (some (0, files))

/-- What `clithread` sees of it; after a fault it sees nothing any more. -/
def answer (creates : List Byte → Bool) (loc : Locals) (files : Files) (ps : List Parcel) : Int :=
  match handled creates loc files ps with
  | some r => r.1
  | none => -1

/-! ## What the server is for -/

/-- What is stored of a file, by the memory around the block of the client and in that of
    the server. -/
def stored (client : Int → Byte) (server : Nat → Byte) (file : List Byte) : List Byte :=
  if chunks file = 0 then lastSent client file
  else file.take (chunksLen file) ++ (overlay file.length [] server).drop (chunksLen file)

/-- What a command comes to: whether the server listens on, and the files on it. -/
def outcome (client : Files) (creates : List Byte → Bool) (loc : Locals) (mem : Memory)
    (files : Files) : Typed → Int × Files
  | .put fname =>
      if creates fname.bytes then
        (0, Function.update files fname.bytes
          ((client fname.bytes).map (stored loc.heap mem.heap)))
      else (-1, files)
  | .get fname => (if (files fname.bytes).isSome then 0 else -1, files)
  | .send _ _ => (0, files)
  | .sd _ _ => (0, files)

/-- The files on the server after some commands, of which the first is the `k`-th message of
    its connection.  One that fails is the last. -/
def transfer (client : Files) (creates : List Byte → Bool) (locs : Nat → Locals)
    (mem : Nat → Memory) : Nat → Files → List Typed → Files
  | _, files, [] => files
  | k, files, cmd :: cmds =>
      let r := outcome client creates (locs k) (mem k) files cmd
      if r.1 = 0 then transfer client creates locs mem (k + 1) r.2 cmds else r.2

/-! ## One file -/

/-- **FILE**: what `parse_msg` makes of what `comm_put` sends. -/
theorem reassembled_sent (client : Int → Byte) (server : Nat → Byte) {file : List Byte}
    (hsize : file.length < 2 ^ 31) :
    reassembled (dataSends client file file.length).flatten (overlay file.length [] server)
      = stored client server file := by
  have hlen := length_dataSends client file file.length
  have hbuff : (overlay file.length [] server).length = file.length := length_overlay ..
  rw [stored]
  cases hq : chunks file with
  | zero =>
      have hshort : file.length < socketioBufferSize :=
        (Nat.div_eq_zero_iff_lt (by decide)).mp hq
      have hnone : chunksLen file = 0 := by rw [chunksLen, hq, Nat.zero_mul]
      rw [reassembled_short (hlen.trans hbuff.symm) (by rw [hlen]; exact hshort),
        flatten_dataSends client hsize, hnone, List.take_zero, List.nil_append, if_pos rfl]
  | succ q =>
      have hsum := chunksLen_add_remainder file
      have hlast : remainder file < socketioBufferSize := Nat.mod_lt _ (by decide)
      have hchunks : chunksLen file = q * socketioBufferSize + socketioBufferSize := by
        rw [chunksLen, hq, Nat.succ_mul]
      have hfront : (file.take (chunksLen file)).length = chunksLen file := by
        rw [List.length_take]
        omega
      have hdiv : (dataSends client file file.length).flatten.length / socketioBufferSize
          = q + 1 := by rw [hlen]; exact hq
      have hoff : (q + 1) * socketioBufferSize = chunksLen file := by rw [chunksLen, hq]
      have hinner : patch 0 (file.take (chunksLen file)) (overlay file.length [] server)
          = file.take (chunksLen file)
            ++ (overlay file.length [] server).drop (chunksLen file) := by
        rw [patch, List.take_zero, List.nil_append, hfront, Nat.zero_add]
      rw [if_neg (Nat.succ_ne_zero q), reassembled, hdiv, if_neg (Nat.succ_ne_zero q),
        Nat.add_sub_cancel, hoff, flatten_dataSends client hsize, List.take_left' hfront,
        List.drop_left' hfront, hinner]
      -- the remainder repeats the front of the last chunk
      have hrepeat : lastSent client file
          = slice (q * socketioBufferSize) (remainder file) (file.take (chunksLen file)
              ++ (overlay file.length [] server).drop (chunksLen file)) := by
        rw [lastSent_eq client hsize hq, slice_append_left (by omega), slice, slice, List.drop_take,
          List.take_take, Nat.min_eq_left (by omega)]
      rw [hrepeat, patch_slice]
      rw [List.length_append, hfront]
      omega

/-- The bytes in front of a block are those of the heap. -/
theorem getD_bytesAt_before (heap : Int → Byte) (buff : List Byte) {off : Int} {len : Nat}
    (hoff : off < 0) (hlen : 0 < len) : (bytesAt heap buff off len).getD 0 0 = heap off := by
  obtain ⟨n, rfl⟩ := Nat.exists_eq_succ_of_ne_zero (Nat.ne_of_gt hlen)
  rw [bytesAt, List.range_succ_eq_map, List.map_cons, List.getD_cons_zero, Int.natCast_zero,
    Int.add_zero, if_neg (Int.not_le.mpr hoff)]

/-- **THE FILE**: what is stored is the file, whatever was in memory, exactly when it has no
    remainder. -/
theorem stored_eq_iff (file : List Byte) :
    (∀ client server, stored client server file = file)
      ↔ socketioBufferSize ∣ file.length := by
  have hsum := chunksLen_add_remainder file
  constructor
  · intro h
    by_contra hdvd
    have hrem : 0 < remainder file :=
      Nat.pos_of_ne_zero (fun hzero => hdvd (Nat.dvd_of_mod_eq_zero hzero))
    have hfile := h (fun _ => ~~~ file.getD 0 0) (fun k => ~~~ file.getD k 0)
    rw [stored] at hfile
    cases hq : chunks file with
    | zero =>
        -- the first byte is from the heap of the client
        rw [if_pos hq, lastSent, hq] at hfile
        have hfirst := getD_bytesAt_before (fun _ => ~~~ file.getD 0 0) file lastOffset_zero hrem
        rw [hfile] at hfirst
        exact complement_ne _ hfirst.symm
    | succ q =>
        -- the first byte behind the chunks is from that of the server
        rw [if_neg (by omega), received_eq_iff] at hfile
        exact complement_ne _ (hfile (chunksLen file) (Nat.le_refl _) (by omega))
  · intro hdvd client server
    have hrem : remainder file = 0 := Nat.mod_eq_zero_of_dvd hdvd
    rw [stored]
    split
    · next hq =>
      have hnone : chunksLen file = 0 := by rw [chunksLen, hq, Nat.zero_mul]
      have hnil : file = [] := List.eq_nil_of_length_eq_zero (by omega)
      rw [hnil]
      rfl
    · rw [received_eq_iff]
      intro k hlow hhigh
      omega

/-! ## Names -/

/-- The field after `strcpy` of a name that fits it. -/
theorem fname_copyName (old : Message) {name : List Byte} (hlen : name.length < maxFileNameLen) :
    ∃ junk, (copyName old name).fname = name ++ 0 :: junk := by
  have hold : (encode old).length = 52 := length_encode old
  refine ⟨slice (4 + (name.length + 1)) (maxFileNameLen - (name.length + 1)) (encode old), ?_⟩
  rw [← slice_fname, encode_copyName old (Nat.lt_of_lt_of_le hlen (by decide))]
  exact slice_patch_string (by omega) hlen

/-- **NAME**: a name that fits the field is found in it. -/
theorem fnameString_of_fname {msg : Message} {name junk : List Byte}
    (hlen : name.length < maxFileNameLen) (hstr : ∀ b ∈ name, b ≠ 0)
    (h : msg.fname = name ++ 0 :: junk) : fnameString msg = some name := by
  have htake : ((encode msg).drop 4).takeWhile (fun b => b ≠ 0) = name := by
    rw [encode, List.drop_left' (length_encodeWord ..), h, List.append_assoc, List.cons_append,
      takeWhile_string hstr]
  have hfit : name.length < messageLen - 4 := Nat.lt_of_lt_of_le hlen (by decide)
  simp only [fnameString, htake]
  exact if_pos hfit

/-! ## One message -/

/-- What `parse_msg` hands on of a frame. -/
structure Arrived (mem : Memory) (f : Frame) (p : Parcel) : Prop where
  hdr : p.wire.hdr = normalised f.hdr
  body : p.body = reassembled f.body (overlay f.hdr.payload [] mem.heap)

section Arrived

variable {mem : Memory} {f : Frame} {p : Parcel}

/-- The fields that the handlers read arrive. -/
theorem Arrived.fields (h : Arrived mem f p) : p.hdr.command = f.hdr.command
    ∧ p.hdr.fname = f.hdr.fname ∧ p.hdr.fromId = f.hdr.fromId ∧ p.hdr.toId = f.hdr.toId := by
  have hsame : (normalised f.hdr).command = f.hdr.command
      ∧ (normalised f.hdr).fname = f.hdr.fname ∧ (normalised f.hdr).fromId = f.hdr.fromId
      ∧ (normalised f.hdr).toId = f.hdr.toId := by
    rw [normalised]
    split
    · exact ⟨rfl, rfl, rfl, rfl⟩
    · exact ⟨rfl, rfl, rfl, rfl⟩
  rw [← h.hdr] at hsame
  exact hsame

/-- **ROUND**: a round of `clithread` with a frame in front of it. -/
theorem clithread_cons {s : Socket} {fs : List Frame} (handleMsg : List Parcel → Int)
    (mem : Nat → Memory) (done : List Parcel) (fuel : Nat) (hin : s.input = stream (f :: fs)) :
    ∃ p s', Arrived (mem done.length) f p ∧ s'.input = stream fs
      ∧ clithread handleMsg mem whole (fuel + 1) done s
        = if handleMsg (done ++ [p]) = 0 then
            (clithread handleMsg mem whole fuel (done ++ [p]) s').map (List.cons p)
          else some [p] := by
  obtain ⟨p, hp, hhdr, -, hbody⟩ := parseMsg_whole (mem done.length) hin
  refine ⟨p, ⟨stream fs, s.calls + (requests f.hdr).length⟩, ⟨hhdr, hbody⟩, rfl, ?_⟩
  rw [clithread, hp]
  rfl

end Arrived

/-- The frame of a command, and the header of it that matters to `handle_msg`. -/
inductive Carries (client : Files) (loc : Locals) : Typed → Frame → Prop where
  | put {fname : Word} {file : List Byte} {f : Frame} (hfile : client fname.bytes = some file)
      (hsize : file.length < 2 ^ 31) (hhdr : f.hdr = putHeader client loc fname.bytes)
      (hbody : f.body = (dataSends loc.heap file file.length).flatten) :
      Carries client loc (.put fname) f
  | send {id : Fin (2 ^ 31)} {text : Text} {f : Frame}
      (hcommand : f.hdr.command = Command.SENDMSG.code)
      (htoId : f.hdr.toId.toNat < ChatUserList.maxUserNum) : Carries client loc (.send id text) f
  | sd {id : Fin (2 ^ 31)} {text : Text} {f : Frame}
      (hcommand : f.hdr.command = Command.SENDMSG.code)
      (htoId : f.hdr.toId.toNat < ChatUserList.maxUserNum) : Carries client loc (.sd id text) f

/-- The commands that are followed here: a file that is put can be read and its size is an
    `int`, and a line goes to an id in the user list. -/
def Sendable (client : Files) : Typed → Prop
  | .put fname => ∃ file, client fname.bytes = some file ∧ file.length < 2 ^ 31
  | .get _ => False
  | .send id _ => (id : Nat) < ChatUserList.maxUserNum
  | .sd id _ => (id : Nat) < ChatUserList.maxUserNum

/-- The string that a text is sent as. -/
def content (text : Text) : Content where
  bytes := 32 :: text.bytes
  nonzero := by
    intro b hb
    rcases List.mem_cons.mp hb with rfl | hmem
    · decide
    · rintro rfl
      exact text.nonzero hmem
  fits := by
    have hshort : (32 :: text.bytes).length < 512 := text.short
    have hlen : messageLen = 52 := rfl
    omega

/-- An id as `atoi` returns it is no larger as an unsigned number. -/
theorem toNat_ofInt_le (id : Nat) : (BitVec.ofInt 32 (id : Int)).toNat ≤ id := by
  rw [BitVec.ofInt_natCast, BitVec.toNat_ofNat]
  exact Nat.mod_le ..

/-- A line is a frame. -/
theorem sendmsg_frame (user : User) (loc : Locals) {id : Fin (2 ^ 31)} (text : Text)
    (hid : (id : Nat) < ChatUserList.maxUserNum) :
    ∃ f : Frame, f.hdr.command = Command.SENDMSG.code
      ∧ f.hdr.toId.toNat < ChatUserList.maxUserNum
      ∧ encode (sendmsgHeader user loc (BitVec.ofInt 32 (id : Nat)) (32 :: text.bytes))
          ++ (32 :: text.bytes) = f.toParcel.bytes := by
  refine ⟨(commSendmsg user.myName user.myId (BitVec.ofInt 32 (id : Nat)) loc.ptr
    (content text)).toFrame, rfl, ?_, rfl⟩
  exact Nat.lt_of_le_of_lt (toNat_ofInt_le id) hid

/-- **CLIENT**: what is sent for a command is one frame. -/
theorem callSends_frame {client : Files} {cmd : Typed} (loc : Locals) (user : User)
    (hread : Sendable client cmd) :
    ∃ f sends, Carries client loc cmd f ∧ userAt user cmd.call = user
      ∧ callSends client loc user cmd.call = (sends, true)
      ∧ sends.flatten = f.toParcel.bytes := by
  cases cmd with
  | put fname =>
      obtain ⟨file, hfile, hsize⟩ := hread
      have hdata : (putHeader client loc fname.bytes).dataSize = BitVec.ofNat 32 file.length := by
        rw [putHeader, hfile]
      have hpayload : (putHeader client loc fname.bytes).payload = file.length := by
        rw [Message.payload, Message.size, hdata, toInt_ofNat32 hsize, Int.toNat_natCast]
      refine ⟨{ hdr := putHeader client loc fname.bytes
                body := (dataSends loc.heap file file.length).flatten
                body_length := (length_dataSends ..).trans hpayload.symm },
        encode (putHeader client loc fname.bytes) :: dataSends loc.heap file file.length,
        Carries.put hfile hsize rfl rfl, rfl, ?_, rfl⟩
      simp only [Typed.call, callSends, commPut, hfile]
  | get fname => exact hread.elim
  | send id text =>
      obtain ⟨f, hcommand, htoId, hbytes⟩ := sendmsg_frame user loc text hread
      exact ⟨f, _, Carries.send hcommand htoId, rfl, rfl, List.flatten_singleton.trans hbytes⟩
  | sd id text =>
      obtain ⟨f, hcommand, htoId, hbytes⟩ := sendmsg_frame user loc text hread
      exact ⟨f, _, Carries.sd hcommand htoId, rfl, rfl, List.flatten_singleton.trans hbytes⟩

/-- What the server makes of a name that the client copied into a header. -/
theorem fnameString_arrived {mem : Memory} {f : Frame} {p : Parcel} {old : Message} {fname : Word}
    (h : Arrived mem f p) (hhdr : f.hdr.fname = (copyName old fname.bytes).fname) :
    fnameString p.hdr = some fname.bytes := by
  obtain ⟨junk, hjunk⟩ := fname_copyName old fname.short
  obtain ⟨-, hfname, -, -⟩ := h.fields
  exact fnameString_of_fname fname.short (fun b hb => (fname.printable b hb).2)
    ((hfname.trans hhdr).trans hjunk)

/-- `sendmsg_handler` takes a line to somebody in the list. -/
theorem handleMsg_sendmsg {files : Files} {creates : List Byte → Bool} {mem : Memory} {f : Frame}
    {p : Parcel} (server : Locals) (hp : Arrived mem f p)
    (hsend : f.hdr.command = Command.SENDMSG.code)
    (hid : f.hdr.toId.toNat < ChatUserList.maxUserNum) :
    handleMsg creates server files p = some (0, files) := by
  obtain ⟨hcommand, -, -, htoId⟩ := hp.fields
  have hroute : route p.hdr = some .sendmsgHandler := by
    rw [route, hcommand, hsend]
    rfl
  have hindex : p.hdr.toId.toNat < ChatUserList.maxUserNum := by
    rw [htoId]
    exact hid
  rw [handleMsg, hroute]
  exact if_pos hindex

/-- **SERVER**: what `handle_msg` makes of the frame of a command. -/
theorem handleMsg_carries {client files : Files} {creates : List Byte → Bool} {loc : Locals}
    {mem : Memory} {cmd : Typed} {f : Frame} {p : Parcel} (server : Locals)
    (hf : Carries client loc cmd f) (hp : Arrived mem f p) :
    handleMsg creates server files p = some (outcome client creates loc mem files cmd) := by
  obtain ⟨hcommand, -, -, -⟩ := hp.fields
  cases hf with
  | @put fname file _ hfile hsize hhdr hbody =>
      have hfield : f.hdr.fname = (copyName loc.msg fname.bytes).fname := by
        rw [hhdr]
        rfl
      have hname := fnameString_arrived hp hfield
      have hroute : route p.hdr = some .putHandler := by
        rw [route, hcommand, hhdr]
        rfl
      have hpayload : f.hdr.payload = file.length := by
        rw [← f.body_length, hbody, length_dataSends]
      have hstored : p.body = stored loc.heap mem.heap file := by
        rw [hp.body, hpayload, hbody, reassembled_sent loc.heap mem.heap hsize]
      rw [handleMsg, hroute]
      simp only [putHandler, hname, Option.map_some, outcome, hfile, hstored]
  | send hsend hid => exact handleMsg_sendmsg server hp hsend hid
  | sd hsend hid => exact handleMsg_sendmsg server hp hsend hid

/-- **PUT**: the frame of `comm_put`, through `parse_msg` and `put_handler`. -/
theorem parseMsg_put {client files : Files} {creates : List Byte → Bool} {fname : Word}
    {file : List Byte} (hfile : client fname.bytes = some file) (hsize : file.length < 2 ^ 31)
    (hcreates : creates fname.bytes = true) (loc : Locals) (mem : Memory) (server : Locals) :
    ∃ p s, parseMsg mem whole ⟨(commPut client loc fname.bytes).1.flatten, 0⟩ = (.ok p, s)
      ∧ handleMsg creates server files p = some (0, Function.update files fname.bytes
          (some (stored loc.heap mem.heap file))) := by
  have hread : Sendable client (.put fname) := ⟨file, hfile, hsize⟩
  obtain ⟨f, sends, hf, -, hsends, hbytes⟩ := callSends_frame loc ⟨[], 0⟩ hread
  have hput : commPut client loc fname.bytes = (sends, true) := hsends
  have hin : (⟨(commPut client loc fname.bytes).1.flatten, 0⟩ : Socket).input
      = f.toParcel.bytes ++ [] := by
    rw [hput, List.append_nil]
    exact hbytes
  obtain ⟨p, hp, hhdr, -, hbody⟩ := parseMsg_whole mem hin
  refine ⟨p, _, hp, ?_⟩
  rw [handleMsg_carries server hf ⟨hhdr, hbody⟩, outcome, if_pos hcreates, hfile]
  rfl

/-- **UPLOAD**: a file that is put is stored as it is, whatever is in memory, exactly when it
    has no remainder. -/
theorem upload_iff {client files : Files} {creates : List Byte → Bool} {fname : Word}
    {file : List Byte} (hfile : client fname.bytes = some file) (hsize : file.length < 2 ^ 31)
    (hcreates : creates fname.bytes = true) (server : Locals) :
    (∀ loc mem, ∃ p s,
      parseMsg mem whole ⟨(commPut client loc fname.bytes).1.flatten, 0⟩ = (.ok p, s)
        ∧ handleMsg creates server files p
          = some (0, Function.update files fname.bytes (some file)))
      ↔ socketioBufferSize ∣ file.length := by
  rw [← stored_eq_iff]
  constructor
  · intro h heap heap'
    let loc : Locals := ⟨blankMessage, 0, 0, heap⟩
    obtain ⟨p, s, hp, hhandled⟩ := h loc ⟨fun _ => 0, 0, heap'⟩
    obtain ⟨p', s', hp', hhandled'⟩ :=
      parseMsg_put hfile hsize hcreates loc ⟨fun _ => 0, 0, heap'⟩ server
    obtain ⟨hpp, -⟩ := Prod.mk.inj (hp.symm.trans hp')
    obtain rfl := Except.ok.inj hpp
    have hfiles := congrArg (fun r => r.map (fun r => r.2 fname.bytes))
      (hhandled.symm.trans hhandled')
    simp only [Option.map_some, Function.update_self, Option.some.injEq] at hfiles
    exact hfiles.symm
  · intro h loc mem
    obtain ⟨p, s, hp, hhandled⟩ := parseMsg_put hfile hsize hcreates loc mem server
    rw [h] at hhandled
    exact ⟨p, s, hp, hhandled⟩

/-- A disk with one file of three letters. -/
def threeLetters : Files := fun name => if name = alice.bytes then some [97, 98, 99] else none

/-- A disk without files. -/
def noFiles : Files := fun _ => none

/-- A call that finds zeros. -/
def zeroLocals : Locals := ⟨blankMessage, 0, 0, fun _ => 0⟩

/-- Three letters are not stored. -/
theorem upload_iff_letters :
    (∀ loc mem, ∃ p s,
      parseMsg mem whole ⟨(commPut threeLetters loc alice.bytes).1.flatten, 0⟩ = (.ok p, s)
        ∧ handleMsg (fun _ => true) zeroLocals noFiles p
          = some (0, Function.update noFiles alice.bytes (some [97, 98, 99])))
      ↔ socketioBufferSize ∣ 3 :=
  upload_iff (if_pos rfl) (by decide) rfl zeroLocals

/-! ## A session -/

/-- The frames of some commands, of which the first is the `k`-th message. -/
inductive Wired (client : Files) (locs : Nat → Locals) :
    Nat → List Typed → List Frame → Prop where
  | nil {k : Nat} : Wired client locs k [] []
  | cons {k : Nat} {cmd : Typed} {cmds : List Typed} {f : Frame} {fs : List Frame}
      (hf : Carries client (locs k) cmd f) (hfs : Wired client locs (k + 1) cmds fs) :
      Wired client locs k (cmd :: cmds) (f :: fs)

/-- **CLIENT**: what is sent for the commands is their frames. -/
theorem sent_wired {client : Files} {locs : Nat → Locals} (user : User) {cmds : List Typed}
    (hread : ∀ cmd ∈ cmds, Sendable client cmd) : ∀ k, ∃ fs, Wired client locs k cmds fs
      ∧ sent client locs user k (cmds.map Typed.call) = stream fs := by
  induction cmds with
  | nil => exact fun k => ⟨[], Wired.nil, rfl⟩
  | cons cmd cmds ih =>
      intro k
      obtain ⟨f, sends, hf, huser, hsends, hbytes⟩ :=
        callSends_frame (locs k) user (hread cmd (List.mem_cons_self ..))
      obtain ⟨fs, hfs, hsent⟩ := ih (fun c hc => hread c (List.mem_cons_of_mem _ hc)) (k + 1)
      refine ⟨f :: fs, Wired.cons hf hfs, ?_⟩
      rw [List.map_cons, sent, huser, hsends]
      show sends.flatten ++ sent client locs user (k + 1) (cmds.map Typed.call) = _
      rw [hbytes, hsent]
      rfl

/-- One message more. -/
theorem handled_snoc (creates : List Byte → Bool) (server : Locals) (files : Files)
    (ps : List Parcel) (p : Parcel) : handled creates server files (ps ++ [p])
      = (handled creates server files ps).bind (fun r => handleMsg creates server r.2 p) := by
  rw [handled, handled, List.foldl_append]
  rfl

/-- **LOOP**: what `clithread` makes of the frames of some commands. -/
theorem clithread_wired {client files : Files} {creates : List Byte → Bool} (server : Locals)
    {locs : Nat → Locals} (mem : Nat → Memory) {k : Nat} {cmds : List Typed} {fs : List Frame}
    (h : Wired client locs k cmds fs) : ∀ (r : Int × Files) (done : List Parcel) (s : Socket)
      (fuel : Nat), done.length = k → handled creates server files done = some r →
      s.input = stream fs → fs.length < fuel →
      ∃ ps ret, clithread (answer creates server files) mem whole fuel done s = some ps
        ∧ handled creates server files (done ++ ps)
          = some (ret, transfer client creates locs mem k r.2 cmds) := by
  induction h with
  | nil =>
      intro r done s fuel _ hdone hin hfuel
      cases fuel with
      | zero => exact absurd hfuel (Nat.not_lt_zero _)
      | succ fuel =>
          refine ⟨[], r.1, ?_, ?_⟩
          · rw [clithread, (parseMsg_nil _ (fun _ => 0) hin).2]
          · rw [List.append_nil, hdone]
            rfl
  | @cons k cmd cmds f fs hf hfs ih =>
      intro r done s fuel hk hdone hin hfuel
      cases fuel with
      | zero => exact absurd hfuel (Nat.not_lt_zero _)
      | succ fuel =>
          obtain ⟨p, s', hp, hin', hround⟩ :=
            clithread_cons (answer creates server files) mem done fuel hin
          rw [hk] at hp
          have hstep : handled creates server files (done ++ [p])
              = some (outcome client creates (locs k) (mem k) r.2 cmd) := by
            rw [handled_snoc, hdone, Option.bind_some, handleMsg_carries server hf hp]
          have hanswer : answer creates server files (done ++ [p])
              = (outcome client creates (locs k) (mem k) r.2 cmd).1 := by
            rw [answer, hstep]
          rw [hround, hanswer, transfer]
          by_cases hret : (outcome client creates (locs k) (mem k) r.2 cmd).1 = 0
          · obtain ⟨ps, ret, hps, hfiles⟩ := ih _ (done ++ [p]) s' fuel
              (by rw [List.length_append, hk]; rfl) hstep hin' (Nat.lt_of_succ_lt_succ hfuel)
            refine ⟨p :: ps, ret, ?_, ?_⟩
            · rw [if_pos hret, hps]
              rfl
            · rw [if_pos hret, ← hfiles, List.append_assoc]
              rfl
          · refine ⟨[p], (outcome client creates (locs k) (mem k) r.2 cmd).1, if_neg hret, ?_⟩
            rw [if_neg hret, hstep]

/-- `comm_conn` announces no body. -/
theorem payload_commConn (user : User) : ([] : List Byte).length = (commConn user).payload := rfl

/-- The frame of `comm_conn`. -/
def connFrame (user : User) : Frame where
  hdr := commConn user
  body := []
  body_length := payload_commConn user

/-- `conn_handler` is called for it. -/
theorem handleMsg_conn {files : Files} {creates : List Byte → Bool} {mem : Memory} {p : Parcel}
    {user : User} (server : Locals) (hid : user.myId.toNat < ChatUserList.maxUserNum)
    (hp : Arrived mem (connFrame user) p) :
    handleMsg creates server files p = some (0, files) := by
  obtain ⟨hcommand, -, hfrom, -⟩ := hp.fields
  have hroute : route p.hdr = some .connHandler := by
    rw [route, hcommand]
    rfl
  have hindex : p.hdr.fromId.toNat < ChatUserList.maxUserNum := by
    rw [hfrom]
    exact hid
  rw [handleMsg, hroute]
  exact if_pos hindex

/-- **SESSION**: whatever is typed at a console, and however the bytes are split as long as
    no request of `parse_msg` is cut short, the files on the server after it are those of
    `transfer`. -/
theorem session_stored (client files : Files) (creates : List Byte → Bool) (server : Locals)
    (locs : Nat → Locals) (mem : Nat → Memory) (myName : Word) (myId : Fin (2 ^ 31))
    (hid : (myId : Nat) < ChatUserList.maxUserNum) (cmds : List Typed)
    (hread : ∀ cmd ∈ cmds, Sendable client cmd) (user : User)
    (comm fname content rest : List Byte) (n : Nat) :
    ∃ fs, sent client locs user 0
        (console (cmds.length + (n + 1)) comm fname content
          (login myName myId ++ (cmds.flatMap Typed.line ++ (quitWord ++ 10 :: rest)))).1
        = stream fs
      ∧ ∀ cuts, Covers (split cuts) 0 (serverRequests fs) →
        ∃ ps ret, served (answer creates server files) mem (split cuts) (stream fs) = some ps
          ∧ handled creates server files ps
            = some (ret, transfer client creates locs mem 1 files cmds) := by
  let me : User := ⟨myName.bytes, BitVec.ofInt 32 ((myId : Nat) : Int)⟩
  obtain ⟨c, hready, hconsole⟩ := console_login myName myId comm fname content
    (cmds.flatMap Typed.line ++ (quitWord ++ 10 :: rest))
  obtain ⟨c', hready', hturns⟩ := turns_lines cmds c hready
  obtain ⟨fs, hfs, hsent⟩ : ∃ fs, Wired client locs 1 cmds fs
      ∧ sent client locs me 1 (cmds.map Typed.call) = stream fs := sent_wired me hread 1
  have hcalls : (console (cmds.length + (n + 1)) comm fname content
      (login myName myId ++ (cmds.flatMap Typed.line ++ (quitWord ++ 10 :: rest)))).1
        = .conn myName.bytes (myId : Nat) :: cmds.map Typed.call := by
    rw [hconsole, hturns, turns_quit hready', List.append_nil]
  refine ⟨connFrame me :: fs, ?_, fun cuts hcov => ?_⟩
  · rw [hcalls, sent]
    show [encode (commConn me)].flatten ++ sent client locs me 1 (cmds.map Typed.call) = _
    rw [hsent, List.flatten_singleton, stream_cons, Parcel.bytes]
    show _ = encode (commConn me) ++ [] ++ stream fs
    rw [List.append_nil]
  · have hin : (⟨stream (connFrame me :: fs), 0⟩ : Socket).input
        = stream (connFrame me :: fs) := rfl
    have hfuel := length_le_stream (connFrame me :: fs)
    have hid' : me.myId.toNat < ChatUserList.maxUserNum :=
      Nat.lt_of_le_of_lt (toNat_ofInt_le myId) hid
    obtain ⟨p, s', hp, hin', hround⟩ := clithread_cons (answer creates server files) mem []
      (stream (connFrame me :: fs)).length hin
    -- the CONN in front stores nothing
    have hstep : handled creates server files ([] ++ [p]) = some (0, files) := by
      rw [handled_snoc]
      exact handleMsg_conn server hid' hp
    obtain ⟨ps, ret, hps, hfiles⟩ := clithread_wired server mem hfs _ ([] ++ [p]) s'
      (stream (connFrame me :: fs)).length rfl hstep hin' (Nat.lt_of_lt_of_le
        (Nat.lt_succ_self _) hfuel)
    refine ⟨p :: ps, ret, ?_, hfiles⟩
    rw [served, clithread_of_covers _ mem cuts _ _ [] _ hin hcov, hround, answer, hstep]
    show (clithread (answer creates server files) mem whole _ ([] ++ [p]) s').map _ = _
    rw [hps]
    rfl

/-- An id that the list has room for. -/
theorem seven_lt : 7 < 2 ^ 31 := by decide

/-- `hi` -/
def hi : Text where
  bytes := [104, 105]
  oneLine := by decide
  nonzero := by decide
  short := by decide

/-- A user puts three letters and says hello to the one with id 8. -/
def putAndSend : List Typed := [.put alice, .send ⟨8, by decide⟩ hi]

/-- Both commands can be followed. -/
theorem sendable_putAndSend : ∀ cmd ∈ putAndSend, Sendable threeLetters cmd := by
  intro cmd hcmd
  rcases List.mem_cons.mp hcmd with rfl | hsend
  · exact ⟨[97, 98, 99], if_pos rfl, by decide⟩
  · obtain rfl := List.mem_singleton.mp hsend
    show 8 < ChatUserList.maxUserNum
    decide

/-- The three letters reach the server, or what is stored of them. -/
theorem session_stored_letters :
    ∃ fs, sent threeLetters (fun _ => zeroLocals) ⟨[], 0⟩ 0
        (console (putAndSend.length + (0 + 1)) [] [] []
          (login alice ⟨7, seven_lt⟩
            ++ (putAndSend.flatMap Typed.line ++ (quitWord ++ 10 :: [])))).1
        = stream fs
      ∧ ∀ cuts, Covers (split cuts) 0 (serverRequests fs) → ∃ ps ret,
        served (answer (fun _ => true) zeroLocals noFiles)
            (fun _ => ⟨fun _ => 0, 0, fun _ => 0⟩)
            (split cuts) (stream fs) = some ps
          ∧ handled (fun _ => true) zeroLocals noFiles ps
            = some (ret, transfer threeLetters (fun _ => true) (fun _ => zeroLocals)
                (fun _ => ⟨fun _ => 0, 0, fun _ => 0⟩) 1 noFiles putAndSend) :=
  session_stored threeLetters noFiles (fun _ => true) zeroLocals (fun _ => zeroLocals)
    (fun _ => ⟨fun _ => 0, 0, fun _ => 0⟩) alice ⟨7, seven_lt⟩ (by decide) putAndSend
    sendable_putAndSend ⟨[], 0⟩ [] [] [] [] 0

end ChatUpload
