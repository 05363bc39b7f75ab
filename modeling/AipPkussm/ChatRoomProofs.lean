import Mathlib.Data.List.FinRange
import AipPkussm.ChatIndexProofs
import AipPkussm.ChatWindowProofs
import AipPkussm.RoomProofs

/-! # The chatroom

    Users connect, tell the server their ids and send each other lines; `clithread`
    reads what they send, `conn_handler` enters them into the user list,
    `sendmsg_handler` puts their lines into the pipe, and `loop_dispatch` sends what
    it gets from the pipe to the descriptors in the list.  When it closes the pipe
    behind a message, what is left in it is lost.  All of this happens in any order, one
    round after another.

    Among users with ids and descriptors of their own who stay, and as long as
    uninitialised memory holds no descriptor, the program is a room: it carries out
    whatever can happen in one, and each window shows what its user hears there
    (`chatRoom_conversation`).  As long as a line is put into the pipe only while nothing
    is in it, the last lines come, all of them and in order (`chatRoom_suffix`), and
    from the time a user is entered every line for it comes (`chatRoom_all`). -/

namespace ChatRoom

open LittleEndian ChatMessage ByteSocket ChatReceive ChatUserList ChatDispatch ChatIndex
open ChatConsole ChatWindow Transition
open ChatReassembly (reassembled_short)
open ChatUpload (content connFrame commConn)
open Room (Note Tidy)

/-! ## The server with what it sends -/

/-- The server and the bytes of its clients, with what `loop_dispatch` has sent. -/
structure ChatState where
  indexed : Indexed
  sent : List Sending

/-- What a step sends. -/
def sendings (s : Indexed) : IndexedAct → List Sending
  | .dispatch ptr got =>
      match s.server.pending with
      | [] => []
      | (_, msg) :: _ => (((loopDispatch got (atPtr ptr msg) s.server.users).map Prod.fst).getD [])
  | _ => []

/-- The pipe after a step: `getMessage` closes it behind the message that it has read, and
    what was put behind that is lost. -/
def afterClose (indexed : Indexed) : IndexedAct → Indexed
  | .dispatch _ _ => { indexed with server := { indexed.server with pending := [] } }
  | _ => indexed

/-- One step. -/
def chatStep (s : ChatState) (a : IndexedAct) : Option ChatState :=
  (indexedStep s.indexed a).map (fun indexed =>
    ⟨afterClose indexed a, s.sent ++ sendings s.indexed a⟩)

/-- The server and its clients. -/
def chatRoom : Machine ChatState IndexedAct where
  init := ⟨indexedInit, []⟩
  step := chatStep

/-- What comes in on a descriptor. -/
def received (fd : Int) (sent : List Sending) : List Byte :=
  (sent.filter (fun snd => snd.connfd = fd)).flatMap (fun snd => snd.buff)

/-! ## The users -/

/-- Some users, with the descriptors of their connections at the server. -/
structure Clients (ι : Type) where
  who : ι → Member
  fd : ι → Int
  fd_pos : ∀ i, 0 < fd i
  fd_injective : Function.Injective fd
  id_injective : Function.Injective (fun i => (who i).id)

/-- What a step finds in memory: in `parse_msg`, in `getMessage` and `putMessage` of the list,
    and where a block is put.  The control buffer of `read_fd` holds no descriptor. -/
structure Env where
  mem : Memory
  got : GetFrame
  put : WriteFrame
  ptr : BitVec 32
  clean : got.control.cmsgLen = cmsgLenInt → got.control.data.toInt ≤ 0

/-- A line is for the one with its id, or for everybody. -/
def Clients.hears {ι : Type} (cl : Clients ι) (line : Line) (j : ι) : Bool :=
  line.dest = 0 || line.dest = (cl.who j).id

/-- The header of `comm_conn`. -/
def Clients.greeting {ι : Type} (cl : Clients ι) (i : ι) : Frame :=
  connFrame ⟨(cl.who i).name.bytes, idOf (cl.who i).id⟩

/-- What happens in the room, as it happens in the program. -/
def Clients.act {ι : Type} (cl : Clients ι) (env : Env) : Room.Act ι Line → IndexedAct
  | .arrive i => .accept (cl.fd i)
  | .greet i => .send (cl.fd i) (cl.greeting i)
  | .say i line => .send (cl.fd i) ((cl.who i).packet env.ptr line).toFrame
  | .read i => .serve (cl.fd i) env.mem env.got env.put
  | .deliver => .dispatch env.ptr env.got

/-- What `i` writes, but for the pointer. -/
def Clients.note {ι : Type} (cl : Clients ι) (i : ι) : Note Line → Parcel
  | .greeting => (cl.greeting i).toParcel
  | .message line => (cl.who i).parcel line

/-- What a user types is what it says: `send` with an id and a text. -/
theorem packet_typed {ι : Type} (cl : Clients ι) (files : ChatGet.Files) (loc : ChatUpload.Locals)
    (i : ι) (line : Line) {id : Fin (2 ^ 31)} (hid : (id : Nat) = line.dest) :
    (ChatUpload.callSends files loc ⟨(cl.who i).name.bytes, idOf (cl.who i).id⟩
        (Typed.send id line.text).call).1.flatten
      = ((cl.who i).packet loc.ptr line).toParcel.bytes := by
  have hdest : BitVec.ofInt 32 ((id : Nat) : Int) = idOf line.dest := by
    rw [BitVec.ofInt_natCast, hid, idOf]
  show [encode (ChatUpload.sendmsgHeader _ loc (BitVec.ofInt 32 ((id : Nat) : Int)) _)
    ++ (32 :: line.text.bytes)].flatten = _
  rw [hdest, List.flatten_singleton]
  rfl

/-- What a user types before is its greeting: the name and the id. -/
theorem greeting_typed {ι : Type} (cl : Clients ι) (files : ChatGet.Files)
    (loc : ChatUpload.Locals) (i : ι) (user : ChatUpload.User) :
    (ChatUpload.callSends files loc
        (ChatUpload.userAt user (.conn (cl.who i).name.bytes ((cl.who i).id.val : Int)))
        (.conn (cl.who i).name.bytes ((cl.who i).id.val : Int))).1.flatten
      = (cl.greeting i).toParcel.bytes := by
  show [encode (commConn ⟨_, BitVec.ofInt 32 ((cl.who i).id.val : Int)⟩)].flatten
    = encode (commConn ⟨_, idOf (cl.who i).id⟩) ++ []
  rw [List.flatten_singleton, List.append_nil, BitVec.ofInt_natCast, idOf]

/-! ## The room in the program -/

/-- The state of the room in that of the program. -/
structure Carried {ι : Type} (cl : Clients ι) (s : Room.State ι Line) (r : ChatState) : Prop where
  up : r.indexed.crashed = false
  tidy : Tidy s
  here : ∀ i, (r.indexed.server.conns (cl.fd i)).isSome = s.here i
  input : ∀ i, s.here i = true → ∃ fs, r.indexed.input (cl.fd i) = stream fs
    ∧ fs.map (fun f => f.toParcel.wire) = (s.unread i).map (cl.note i)
  entered : ∀ i, s.member i = true →
    connfds r.indexed.server.users (cl.who i).id = cl.fd i
  free : ∀ k, (∀ i, s.member i = true → (cl.who i).id ≠ k) →
    connfds r.indexed.server.users k = 0
  pending : r.indexed.server.pending.map (fun x => x.2.toParcel.wire)
    = s.queue.map (fun e => (cl.who e.1).parcel e.2)
  heard : ∀ j, ∃ fs, received (cl.fd j) r.sent = stream fs
    ∧ fs.map (fun f => f.toParcel.wire) = (s.heard j).map (fun e => (cl.who e.1).parcel e.2)

/-- What a round sends for everybody. -/
theorem loopDispatch_toAll (got : GetFrame) (ptr : BitVec 32) {msg : Packet} (seg : UserList)
    (hall : msg.hdr.toId = 0) (hfrom : msg.hdr.fromId ≠ 0) :
    loopDispatch got (atPtr ptr msg) seg
      = some ((List.finRange maxUserNum).map (fun i =>
          ⟨connfds (getMessage got seg) i, (atPtr ptr msg).bytes⟩), getMessage got seg) := by
  have hcast : (atPtr ptr msg).hdr.toId = 0 := hall
  rw [loopDispatch, if_neg (fun hboth => hfrom hboth.2)]
  simp only [hcast, isBroadcast, beq_self_eq_true, if_true]
  rfl

section Carried

variable {ι : Type} {cl : Clients ι} {s : Room.State ι Line} {r : ChatState}

/-- No user is in the list before anything happened. -/
theorem carried_init (cl : Clients ι) : Carried cl Room.empty chatRoom.init where
  up := rfl
  tidy := Room.tidy_empty
  here := fun _ => rfl
  input := fun _ hhere => nomatch hhere
  entered := fun _ hmember => nomatch hmember
  free := fun _ _ => rfl
  pending := rfl
  heard := fun _ => ⟨[], rfl, rfl⟩

/-- **LIST**: the descriptor of a user is found at its id once it is entered, and nowhere
    else. -/
theorem Carried.connfds_eq_iff (h : Carried cl s r) (j : ι) (k : Fin maxUserNum) :
    connfds r.indexed.server.users k = cl.fd j ↔ s.member j = true ∧ k = (cl.who j).id := by
  constructor
  · intro hk
    by_cases hfree : ∀ i, s.member i = true → (cl.who i).id ≠ k
    · have hpos := cl.fd_pos j
      rw [← hk, h.free k hfree] at hpos
      exact absurd hpos (Int.lt_irrefl 0)
    · obtain ⟨i, hnot⟩ := not_forall.mp hfree
      obtain ⟨hmember, hid⟩ := Classical.not_imp.mp hnot
      obtain rfl := not_not.mp hid
      rw [h.entered i hmember] at hk
      obtain rfl := cl.fd_injective hk
      exact ⟨hmember, rfl⟩
  · rintro ⟨hmember, rfl⟩
    exact h.entered j hmember

/-- A clean control buffer leaves the descriptors as they are. -/
theorem connfds_clean (env : Env) (seg : UserList) :
    connfds (getMessage env.got seg) = connfds seg :=
  (getMessage_keeps_iff env.got seg).mpr (fun hlen => Or.inl (env.clean hlen))

/-! ## One step of the room -/

/-- A round of `loop_dispatch` with what it sends. -/
theorem chatStep_dispatch {ptr : BitVec 32} {got : GetFrame} {indexed : Indexed}
    {sends : List Sending} (hstep : indexedStep r.indexed (.dispatch ptr got) = some indexed)
    (hsent : sendings r.indexed (.dispatch ptr got) = sends) :
    chatRoom.step r (.dispatch ptr got)
      = some ⟨{ indexed with server := { indexed.server with pending := [] } },
          r.sent ++ sends⟩ := by
  show (indexedStep r.indexed (.dispatch ptr got)).map _ = _
  rw [hstep, Option.map_some, hsent]
  rfl

/-- Another step sends nothing, and leaves the pipe open. -/
theorem chatStep_quiet {a : IndexedAct} {indexed : Indexed}
    (hstep : indexedStep r.indexed a = some indexed) (hopen : afterClose indexed a = indexed)
    (hquiet : sendings r.indexed a = []) : chatRoom.step r a = some ⟨indexed, r.sent⟩ := by
  show (indexedStep r.indexed a).map _ = _
  rw [hstep, Option.map_some, hopen, hquiet, List.append_nil]

/-- `accept` on a free descriptor. -/
theorem indexedStep_accept {x : Indexed} {fd : Int} (hup : x.crashed = false) (hpos : 0 < fd)
    (hfree : x.server.conns fd = none) : indexedStep x (.accept fd) = some
      { x with
        server :=
          { x.server with
            conns := Function.update x.server.conns fd (some x.server.next)
            fdOf := Function.update x.server.fdOf x.server.next fd
            next := x.server.next + 1 }
        input := Function.update x.input fd [] } := by
  rw [indexedStep, if_neg (by rw [hup]; exact Bool.false_ne_true)]
  show (serverStep x.server (.accept fd)).map _ = _
  rw [serverStep, if_pos ⟨hpos, hfree⟩]
  rfl

/-- A client on an open connection sends a frame. -/
theorem indexedStep_send {x : Indexed} {fd : Int} {c : Nat} (hup : x.crashed = false)
    (hopen : x.server.conns fd = some c) (f : Frame) : indexedStep x (.send fd f) = some
      { x with input := Function.update x.input fd (x.input fd ++ f.toParcel.bytes) } := by
  rw [indexedStep, if_neg (by rw [hup]; exact Bool.false_ne_true)]
  simp only [hopen]

/-- **ACCEPT**: somebody arrives. -/
theorem Carried.arrive [DecidableEq ι] (h : Carried cl s r) (env : Env) {i : ι}
    (hhere : s.here i = false)
    (htidy : Tidy { s with here := Function.update s.here i true }) :
    ∃ r', chatRoom.step r (cl.act env (.arrive i)) = some r'
      ∧ Carried cl { s with here := Function.update s.here i true } r' := by
  have hnone : r.indexed.server.conns (cl.fd i) = none := by
    have hfree := h.here i
    rw [hhere] at hfree
    exact Option.isNone_iff_eq_none.mp (Option.isSome_eq_false_iff.mp hfree)
  refine ⟨_, chatStep_quiet (indexedStep_accept h.up (cl.fd_pos i) hnone) rfl rfl, ?_⟩
  refine ⟨h.up, htidy, fun j => ?_, fun j hj => ?_, h.entered, h.free, h.pending, h.heard⟩
  · show (Function.update r.indexed.server.conns (cl.fd i) _ (cl.fd j)).isSome
      = Function.update s.here i true j
    by_cases hji : j = i
    · rw [hji, Function.update_self, Function.update_self]
      rfl
    · rw [Function.update_of_ne hji, Function.update_of_ne (fun heq => hji (cl.fd_injective heq)),
        h.here j]
  · show ∃ fs, Function.update r.indexed.input (cl.fd i) [] (cl.fd j) = stream fs ∧ _
    by_cases hji : j = i
    · subst hji
      refine ⟨[], Function.update_self .., ?_⟩
      rw [h.tidy.unread j (h.tidy.greeted j hhere)]
      rfl
    · have hold : s.here j = true := (Function.update_of_ne hji ..).symm.trans hj
      rw [Function.update_of_ne (fun heq => hji (cl.fd_injective heq))]
      exact h.input j hold

/-- **SEND**: what a user writes is a frame behind the others. -/
theorem Carried.write [DecidableEq ι] (h : Carried cl s r) {i : ι} {f : Frame} (note : Note Line)
    {s' : Room.State ι Line} (hhere : s.here i = true) (hf : f.toParcel.wire = cl.note i note)
    (htidy : Tidy s') (hsame : s'.here = s.here ∧ s'.member = s.member ∧ s'.queue = s.queue
      ∧ s'.heard = s.heard)
    (hunread : s'.unread = Function.update s.unread i (s.unread i ++ [note])) :
    ∃ r', chatRoom.step r (.send (cl.fd i) f) = some r' ∧ Carried cl s' r' := by
  obtain ⟨hhere', hmember, hqueue, hheard⟩ := hsame
  obtain ⟨c, hopen⟩ : ∃ c, r.indexed.server.conns (cl.fd i) = some c := by
    refine Option.isSome_iff_exists.mp ?_
    rw [h.here i, hhere]
  refine ⟨_, chatStep_quiet (indexedStep_send h.up hopen f) rfl rfl, h.up, htidy, ?_,
    fun j hj => ?_, ?_, ?_, ?_, ?_⟩
  · rw [hhere']
    exact h.here
  · show ∃ fs, Function.update r.indexed.input (cl.fd i) _ (cl.fd j) = stream fs ∧ _
    rw [hhere'] at hj
    obtain ⟨fs, hfs, hnotes⟩ := h.input j hj
    rw [hunread]
    by_cases hji : j = i
    · subst hji
      refine ⟨fs ++ [f], ?_, ?_⟩
      · rw [Function.update_self, hfs, stream, stream, List.flatMap_append]
        simp only [List.flatMap_cons, List.flatMap_nil, List.append_nil]
      · rw [Function.update_self, List.map_append, List.map_append, hnotes, List.map_singleton,
          List.map_singleton, hf]
    · refine ⟨fs, ?_, ?_⟩
      · rw [Function.update_of_ne (fun heq => hji (cl.fd_injective heq)), hfs]
      · rw [Function.update_of_ne hji, hnotes]
  · rw [hmember]
    exact h.entered
  · rw [hmember]
    exact h.free
  · rw [hqueue]
    exact h.pending
  · rw [hheard]
    exact h.heard

/-- What a user has sent and the server has not read starts with a frame. -/
theorem Carried.front (h : Carried cl s r) {i : ι} {note : Note Line} {rest : List (Note Line)}
    (hunread : s.unread i = note :: rest) :
    ∃ (c : Nat) (f : Frame) (fs : List Frame), r.indexed.server.conns (cl.fd i) = some c
      ∧ r.indexed.input (cl.fd i) = f.toParcel.bytes ++ stream fs
      ∧ f.toParcel.wire = cl.note i note
      ∧ fs.map (fun f => f.toParcel.wire) = rest.map (cl.note i) := by
  have hhere : s.here i = true := by
    by_contra hnot
    have hnone := h.tidy.unread i (h.tidy.greeted i ((Bool.not_eq_true _).mp hnot))
    rw [hunread] at hnone
    exact nomatch hnone
  obtain ⟨c, hopen⟩ := Option.isSome_iff_exists.mp ((h.here i).trans hhere)
  obtain ⟨fs, hfs, hnotes⟩ := h.input i hhere
  rw [hunread] at hnotes
  cases fs with
  | nil => exact nomatch hnotes
  | cons f fs =>
      obtain ⟨hf, hrest⟩ := List.cons.inj hnotes
      exact ⟨c, f, fs, hopen, hfs, hf, hrest⟩

/-- When it is read, the others are still there. -/
theorem Carried.input_update [DecidableEq ι] (h : Carried cl s r) {i : ι} {fs : List Frame}
    {rest : List (Note Line)} (hrest : fs.map (fun f => f.toParcel.wire) = rest.map (cl.note i))
    (j : ι) (hj : s.here j = true) :
    ∃ gs, Function.update r.indexed.input (cl.fd i) (stream fs) (cl.fd j) = stream gs
      ∧ gs.map (fun f => f.toParcel.wire)
        = (Function.update s.unread i rest j).map (cl.note j) := by
  by_cases hji : j = i
  · subst hji
    exact ⟨fs, Function.update_self .., by rw [Function.update_self, hrest]⟩
  · obtain ⟨gs, hgs, hnotes⟩ := h.input j hj
    refine ⟨gs, ?_, ?_⟩
    · rw [Function.update_of_ne (fun heq => hji (cl.fd_injective heq)), hgs]
    · rw [Function.update_of_ne hji, hnotes]

/-- **READ**: a round of `clithread` hands on what `parse_msg` makes of the frame in front. -/
theorem indexedStep_serve {x : Indexed} {fd : Int} {c : Nat} {f : Frame} {fs : List Frame}
    (env : Env) (hup : x.crashed = false) (hopen : x.server.conns fd = some c)
    (hin : x.input fd = f.toParcel.bytes ++ stream fs) :
    ∃ p, p.wire.hdr = normalised f.hdr ∧ ChatIndex.Carries p f
      ∧ p.body = reassembled f.body (overlay f.hdr.payload [] env.mem.heap)
      ∧ indexedStep x (.serve fd env.mem env.got env.put)
        = handleMsg { x with input := Function.update x.input fd (stream fs) } fd env.got env.put
            p := by
  obtain ⟨p, hparse, hhdr, hlength, hbody⟩ := parseMsg_whole env.mem (s := ⟨x.input fd, 0⟩) hin
  have hne : x.input fd ≠ [] := by
    rw [hin]
    exact fun hnil => f.bytes_ne_nil (List.append_eq_nil_iff.mp hnil).1
  refine ⟨p, hhdr, carries_of_parse hhdr hlength, hbody, ?_⟩
  rw [indexedStep, if_neg (by rw [hup]; exact Bool.false_ne_true)]
  simp only [hopen, if_neg hne, hparse]

/-- `conn_handler` for an id inside the list. -/
theorem attempt_conn {x : Indexed} {fd : Int} {c : Nat} {got : GetFrame} {put : WriteFrame}
    {msg : Message} {users : UserList} (hopen : x.server.conns fd = some c)
    (husers : connHandler got put msg fd x.server.users = some users) (indices : List Nat) :
    attempt x indices (.conn fd got put msg) =
      { x with
        server :=
          { x.server with
            users := users
            declared := Function.update x.server.declared c (msg.fromId :: x.server.declared c)
            lastConn := Function.update x.server.lastConn msg.fromId (some c) }
        used := x.used ++ indices } := by
  simp only [attempt, serverStep, hopen, husers, Option.map_some]

/-- **ENTER**: the server reads a greeting. -/
theorem Carried.join [DecidableEq ι] (h : Carried cl s r) (env : Env) {i : ι}
    {rest : List (Note Line)} (hunread : s.unread i = .greeting :: rest)
    (htidy : Tidy { s with
      member := Function.update s.member i true
      unread := Function.update s.unread i rest }) :
    ∃ r', chatRoom.step r (cl.act env (.read i)) = some r'
      ∧ Carried cl { s with
          member := Function.update s.member i true
          unread := Function.update s.unread i rest } r' := by
  obtain ⟨c, f, fs, hopen, hin, hf, hrest⟩ := h.front hunread
  obtain ⟨p, -, hp, -, hserve⟩ := indexedStep_serve env h.up hopen hin
  have hcommand : p.hdr.command = Command.CONN.code :=
    hp.command.trans (congrArg (fun p => p.hdr.command) hf)
  have hfrom : p.hdr.fromId = idOf (cl.who i).id :=
    hp.fromId.trans (congrArg (fun p => p.hdr.fromId) hf)
  have hinside : p.hdr.fromId.toNat < maxUserNum := by
    rw [hfrom, toNat_idOf]
    exact (cl.who i).id.isLt
  have hindex : (⟨p.hdr.fromId.toNat, hinside⟩ : Fin maxUserNum) = (cl.who i).id := by
    refine Fin.ext ?_
    show p.hdr.fromId.toNat = _
    rw [hfrom, toNat_idOf]
  -- an id below 32 is inside the list, so `conn_handler` comes back
  obtain ⟨users, husers⟩ := Option.ne_none_iff_exists'.mp
    ((connHandler_ne_none_iff env.got env.put p.hdr (cl.fd i) r.indexed.server.users).mpr
      (fun k hk => by
        rw [List.mem_singleton.mp hk]
        exact hinside))
  obtain ⟨hid, hconnfds⟩ := connfds_connHandler husers
  rw [connfds_clean, hindex] at hconnfds
  let x : Indexed :=
    { r.indexed with input := Function.update r.indexed.input (cl.fd i) (stream fs) }
  rw [ChatIndex.handleMsg_conn _ _ _ _ hcommand, attempt_conn (x := x) hopen husers] at hserve
  refine ⟨_, chatStep_quiet hserve rfl rfl, h.up, htidy, h.here, fun j hj => ?_, fun j hj => ?_,
    fun k hk => ?_, h.pending, h.heard⟩
  · exact h.input_update hrest j hj
  · show connfds users (cl.who j).id = cl.fd j
    rw [hconnfds]
    by_cases hji : j = i
    · rw [hji, Function.update_self]
    · rw [Function.update_of_ne (fun heq => hji (cl.id_injective heq))]
      exact h.entered j ((Function.update_of_ne hji ..).symm.trans hj)
  · show connfds users k = 0
    have hki : k ≠ (cl.who i).id := fun heq => hk i (Function.update_self ..) heq.symm
    rw [hconnfds, Function.update_of_ne hki]
    refine h.free k (fun j hj => hk j ?_)
    show Function.update s.member i true j = true
    by_cases hji : j = i
    · rw [hji, Function.update_self]
    · rw [Function.update_of_ne hji]
      exact hj

/-- What `parse_msg` makes of a line is the line. -/
theorem wire_of_parse {who : Member} {line : Line} {f : Frame} {p : Parcel} {heap : Nat → Byte}
    (hf : f.toParcel.wire = who.parcel line) (hhdr : p.wire.hdr = normalised f.hdr)
    (hbody : p.body = reassembled f.body (overlay f.hdr.payload [] heap)) :
    p.wire = who.parcel line := by
  have hsame : f.body = (content line.text).bytes := congrArg (fun p => p.body) hf
  have hlength : f.body.length = f.hdr.payload := f.body_length
  have hshort : f.body.length < socketioBufferSize := by
    rw [hsame]
    exact line.text.short
  have hpos : ¬ f.hdr.size ≤ 0 := by
    intro hle
    rw [Frame.body_eq_nil hle] at hsame
    exact nomatch hsame
  have hwhole : p.body = f.body := by
    rw [hbody]
    exact reassembled_short (by rw [length_overlay, hlength]) hshort
  rw [normalised, if_neg hpos] at hhdr
  have hwire : p.wire.hdr = (who.parcel line).hdr := by
    rw [hhdr, ← hf]
    rfl
  calc p.wire = ⟨p.wire.hdr, p.body⟩ := rfl
    _ = ⟨(who.parcel line).hdr, (who.parcel line).body⟩ := by
        rw [hwire, hwhole, hsame]
        rfl

/-- `sendmsg_handler` puts a message into the pipe. -/
theorem attempt_sendmsg {x : Indexed} {fd : Int} {c : Nat} (hopen : x.server.conns fd = some c)
    (msg : Packet) (indices : List Nat) :
    attempt x indices (.sendmsg fd msg) =
      { x with
        server := { x.server with pending := x.server.pending ++ [(c, msg)] }
        used := x.used ++ indices } := by
  simp only [attempt, serverStep, hopen]

/-- **POST**: the server reads a line. -/
theorem Carried.post [DecidableEq ι] (h : Carried cl s r) (env : Env) {i : ι} {line : Line}
    {rest : List (Note Line)} (hunread : s.unread i = .message line :: rest)
    (htidy : Tidy { s with
      queue := s.queue ++ [(i, line)]
      unread := Function.update s.unread i rest }) :
    ∃ r', chatRoom.step r (cl.act env (.read i)) = some r'
      ∧ Carried cl { s with
          queue := s.queue ++ [(i, line)]
          unread := Function.update s.unread i rest } r' := by
  obtain ⟨c, f, fs, hopen, hin, hf, hrest⟩ := h.front hunread
  obtain ⟨p, hhdr, hp, hbody, hserve⟩ := indexedStep_serve env h.up hopen hin
  have hcommand : p.hdr.command = Command.SENDMSG.code :=
    hp.command.trans (congrArg (fun p => p.hdr.command) hf)
  have hwire : p.wire = (cl.who i).parcel line := wire_of_parse hf hhdr hbody
  let x : Indexed :=
    { r.indexed with input := Function.update r.indexed.input (cl.fd i) (stream fs) }
  rw [handleMsg_sendmsg _ _ _ _ hp hcommand, attempt_sendmsg (x := x) hopen] at hserve
  refine ⟨_, chatStep_quiet hserve rfl rfl, h.up, htidy, h.here, fun j hj => ?_, h.entered, h.free,
    ?_, h.heard⟩
  · exact h.input_update hrest j hj
  · show (r.indexed.server.pending ++ [_]).map _ = (s.queue ++ [(i, line)]).map _
    rw [List.map_append, List.map_append, h.pending, List.map_singleton, List.map_singleton, hwire]

/-- The one place in the list that is asked for. -/
theorem filter_finRange (k : Fin maxUserNum) :
    (List.finRange maxUserNum).filter (fun i => i = k) = [k] := by
  have hcount : (List.finRange maxUserNum).count k = 1 := List.count_finRange k
  rw [List.filter_eq, hcount]
  rfl

/-- **ONE ROUND**: what `loop_dispatch` sends to a descriptor. -/
theorem Carried.loopDispatch (h : Carried cl s r) (env : Env) {e : ι × Line} {msg : Packet}
    (hmsg : msg.toParcel.wire = (cl.who e.1).parcel e.2) :
    ∃ sends users, loopDispatch env.got (atPtr env.ptr msg) r.indexed.server.users
        = some (sends, users)
      ∧ connfds users = connfds r.indexed.server.users
      ∧ ∀ j, sends.filter (fun snd => snd.connfd = cl.fd j)
        = if s.member j && cl.hears e.2 j then [⟨cl.fd j, (atPtr env.ptr msg).bytes⟩] else [] := by
  have hfrom : msg.hdr.fromId = idOf (cl.who e.1).id := congrArg (fun p => p.hdr.fromId) hmsg
  have hto : msg.hdr.toId = idOf e.2.dest := congrArg (fun p => p.hdr.toId) hmsg
  have hnonzero : msg.hdr.fromId ≠ 0 := by
    rw [hfrom]
    exact fun hzero => (cl.who e.1).positive ((toId_eq_zero_iff _).mp hzero)
  have hclean := connfds_clean env r.indexed.server.users
  by_cases hall : e.2.dest = 0
  · have hzero : msg.hdr.toId = 0 := by
      rw [hto, hall]
      rfl
    refine ⟨_, _, loopDispatch_toAll env.got env.ptr r.indexed.server.users hzero hnonzero, hclean,
      fun j => ?_⟩
    have hfor : cl.hears e.2 j = true := by
      rw [Clients.hears, hall]
      rfl
    rw [hfor, Bool.and_true, List.filter_map, hclean]
    -- the descriptor of `j` is in the list once it is entered, and only at its id
    have hplace : ∀ k ∈ List.finRange maxUserNum,
        ((fun snd : Sending => decide (snd.connfd = cl.fd j)) ∘ fun k =>
          (⟨connfds r.indexed.server.users k, (atPtr env.ptr msg).bytes⟩ : Sending)) k
        = (s.member j && decide (k = (cl.who j).id)) := by
      intro k _
      rw [Bool.eq_iff_iff, Bool.and_eq_true, decide_eq_true_iff]
      exact decide_eq_true_iff.trans (h.connfds_eq_iff j k)
    rw [List.filter_congr hplace]
    cases hmember : s.member j with
    | true =>
        simp only [Bool.true_and, filter_finRange, List.map_singleton, if_true,
          h.entered j hmember]
    | false => simp
  · have huser : ToUser msg := by
      refine ⟨?_, ?_⟩
      · rw [hto]
        exact fun hzero => hall ((toId_eq_zero_iff _).mp hzero)
      · rw [hto, toNat_idOf]
        exact e.2.dest.isLt
    -- the one entry that is looked up is that of the recipient
    have hindex : (⟨msg.hdr.toId.toNat, huser.2⟩ : Fin maxUserNum) = e.2.dest := by
      refine Fin.ext ?_
      show msg.hdr.toId.toNat = _
      rw [hto, toNat_idOf]
    refine ⟨_, _, loopDispatch_toUser env.got env.ptr r.indexed.server.users huser, hclean,
      fun j => ?_⟩
    rw [hclean, hindex]
    by_cases hj : s.member j = true ∧ e.2.dest = (cl.who j).id
    · have hfd := (h.connfds_eq_iff j e.2.dest).mpr hj
      have hfor : (s.member j && cl.hears e.2 j) = true := by
        rw [Clients.hears, hj.1, hj.2]
        simp
      rw [if_pos hfor, hfd]
      simp
    · have hfd : connfds r.indexed.server.users e.2.dest ≠ cl.fd j :=
        fun heq => hj ((h.connfds_eq_iff j e.2.dest).mp heq)
      have hfor : ¬ (s.member j && cl.hears e.2 j) = true := by
        rw [Clients.hears, Bool.and_eq_true, Bool.or_eq_true, decide_eq_true_iff,
          decide_eq_true_iff]
        exact fun hboth => hj ⟨hboth.1, hboth.2.resolve_left hall⟩
      rw [if_neg hfor]
      simp [hfd]

/-- A round of `loop_dispatch` that is no fault, and what it sends. -/
theorem indexedStep_dispatch {x : Indexed} {ptr : BitVec 32} {got : GetFrame} {c : Nat}
    {msg : Packet} {rest : List (Nat × Packet)} {sends : List Sending} {users : UserList}
    (hup : x.crashed = false) (hpending : x.server.pending = (c, msg) :: rest)
    (hsend : ChatDispatch.loopDispatch got (atPtr ptr msg) x.server.users = some (sends, users)) :
    indexedStep x (.dispatch ptr got) = some
        { x with
          server := { x.server with users := users, pending := rest }
          used := x.used ++ dispatchIndices (atPtr ptr msg) }
      ∧ sendings x (.dispatch ptr got) = sends := by
  constructor
  · rw [indexedStep, if_neg (by rw [hup]; exact Bool.false_ne_true)]
    simp only [hpending, attempt, serverStep, hsend, Option.map_some]
  · simp only [sendings, hpending, hsend, Option.map_some, Option.getD_some]

/-- What comes in after more was sent. -/
theorem received_append (fd : Int) (sent more : List Sending) :
    received fd (sent ++ more) = received fd sent ++ received fd more := by
  rw [received, List.filter_append, List.flatMap_append]
  rfl

/-- **DELIVER**: what is in front of the pipe goes to those who hear it, and the pipe is
    empty. -/
theorem Carried.deliver [DecidableEq ι] (h : Carried cl s r) (env : Env) {e : ι × Line}
    {rest : List (ι × Line)} (hqueue : s.queue = e :: rest)
    (htidy : Tidy { s with
      queue := []
      heard := fun j =>
        if s.member j && cl.hears e.2 j then s.heard j ++ [e] else s.heard j }) :
    ∃ r', chatRoom.step r (cl.act env .deliver) = some r'
      ∧ Carried cl { s with
          queue := []
          heard := fun j =>
            if s.member j && cl.hears e.2 j then s.heard j ++ [e] else s.heard j } r' := by
  have hpending := h.pending
  rw [hqueue] at hpending
  cases hfront : r.indexed.server.pending with
  | nil =>
      rw [hfront] at hpending
      exact nomatch hpending
  | cons x later =>
      obtain ⟨c, msg⟩ := x
      rw [hfront] at hpending
      obtain ⟨hhead, -⟩ := List.cons.inj hpending
      have hmsg : msg.toParcel.wire = (cl.who e.1).parcel e.2 := hhead
      obtain ⟨sends, users, hsend, husers, hfor⟩ := h.loopDispatch env hmsg
      obtain ⟨hstep, hsent⟩ := indexedStep_dispatch h.up hfront hsend
      -- the list keeps its descriptors, and nothing is left in the pipe on either side
      refine ⟨_, chatStep_dispatch hstep hsent, h.up, htidy, h.here, h.input, fun j hj => ?_,
        fun k hk => ?_, rfl, fun j => ?_⟩
      · exact (congrFun husers _).trans (h.entered j hj)
      · exact (congrFun husers _).trans (h.free k hk)
      · obtain ⟨fs, hfs, hwires⟩ := h.heard j
        show ∃ fs, received (cl.fd j) (r.sent ++ sends) = stream fs
          ∧ _ = (if s.member j && cl.hears e.2 j then s.heard j ++ [e] else s.heard j).map _
        rw [received_append, received, received, hfor j, ← received, hfs]
        split
        · refine ⟨fs ++ [(atPtr env.ptr msg).toFrame], ?_, ?_⟩
          · rw [stream, stream, List.flatMap_append]
            rfl
          · rw [List.map_append, List.map_append, hwires, List.map_singleton, List.map_singleton,
              ← hmsg]
            rfl
        · exact ⟨fs, List.append_nil _, hwires⟩

/-- **STEP**: what can happen in the room the program does. -/
theorem Carried.step [DecidableEq ι] (h : Carried cl s r) (env : Env) {a : Room.Act ι Line}
    {s' : Room.State ι Line} (hstep : Room.step cl.hears s a = some s') :
    ∃ r', chatRoom.step r (cl.act env a) = some r' ∧ Carried cl s' r' := by
  have hrule := Room.rule_of_step hstep
  have htidy := h.tidy.step hrule
  cases hrule with
  | arrive hhere => exact h.arrive env hhere htidy
  | @greet i hhere hfirst =>
      exact h.write .greeting hhere rfl htidy ⟨rfl, rfl, rfl, rfl⟩ rfl
  | @say i line hgreeted =>
      have hhere : s.here i = true := by
        by_contra hnot
        have hfirst := h.tidy.greeted i ((Bool.not_eq_true _).mp hnot)
        rw [hgreeted] at hfirst
        exact nomatch hfirst
      exact h.write (.message line) hhere rfl htidy ⟨rfl, rfl, rfl, rfl⟩ rfl
  | join hunread => exact h.join env hunread htidy
  | post hunread => exact h.post env hunread htidy
  | deliver hqueue => exact h.deliver env hqueue htidy

end Carried

/-! ## Whole conversations -/

section Conversation

variable {ι : Type} {cl : Clients ι}

/-- What the window of a user shows, whatever its rounds find in memory. -/
def Shows (cl : Clients ι) (r : ChatState) (j : ι) (lines : List (ι × Line)) : Prop :=
  ∀ mem behind, (∀ n, (behind n).heap.head? = some 0) →
    window (cl.who j).name.bytes mem behind (received (cl.fd j) r.sent)
      = some (lines.map (fun e => some (announcement (cl.who e.1) e.2 (cl.who j))))

/-- A window shows what its user hears. -/
theorem Carried.shows {s : Room.State ι Line} {r : ChatState} (h : Carried cl s r) (j : ι) :
    Shows cl r j (s.heard j) := by
  intro mem behind hzero
  obtain ⟨fs, hfs, hwires⟩ := h.heard j
  rw [hfs]
  exact window_lines cl.who (cl.who j) mem hzero hwires

variable [DecidableEq ι]

/-- What happens in a room happens in the program. -/
theorem carried_of_play {acts : List (Room.Act ι Line × Env)} {s : Room.State ι Line}
    (hplay : play (Room.room cl.hears) Room.empty (acts.map Prod.fst) = some s) :
    ∃ r, play chatRoom chatRoom.init (acts.map (fun x => cl.act x.2 x.1)) = some r
      ∧ Carried cl s r :=
  play_simulate (R := Carried cl) (fun _ _ x _ hR hs => hR.step x.2 hs) acts Room.empty
    chatRoom.init s (carried_init cl) hplay

/-- A second name. -/
def bob : Word where
  bytes := [98, 111, 98]
  nonempty := List.cons_ne_nil _ _
  printable := by decide
  short := by decide

/-- Who is there. -/
inductive Person where
  | alice
  | bob
  deriving DecidableEq

/-- `alice` has the id 1 and `bob` the id 2. -/
def aliceAndBob : Person → Member
  | .alice => { name := alice, id := 1, positive := by decide, fits := by decide }
  | .bob => { name := bob, id := 2, positive := by decide, fits := by decide }

/-- Their connections have the descriptors 4 and 5. -/
def descriptor : Person → Int
  | .alice => 4
  | .bob => 5

theorem descriptor_pos (i : Person) : 0 < descriptor i := by
  cases i with
  | alice => decide
  | bob => decide

theorem descriptor_injective : Function.Injective descriptor := by
  intro i j
  cases i <;> cases j <;> decide

theorem id_injective : Function.Injective (fun i => (aliceAndBob i).id) := by
  intro i j
  cases i <;> cases j <;> decide

/-- The two of them. -/
def twoUsers : Clients Person where
  who := aliceAndBob
  fd := descriptor
  fd_pos := descriptor_pos
  fd_injective := descriptor_injective
  id_injective := id_injective

/-- Memory of zeros. -/
def zeroEnv : Env where
  mem := ⟨fun _ => 0, 0, fun _ => 0⟩
  got := cleanFrame
  put := ⟨0, 0, 0⟩
  ptr := 0
  clean := by decide

/-- `send 2 hi` -/
def hiBob : Line where
  dest := 2
  text := ChatUpload.hi

/-- Both come and are entered. -/
def entering : List (Room.Act Person Line × Env) :=
  [.arrive .alice, .greet .alice, .arrive .bob, .greet .bob, .read .alice, .read .bob].map
    (fun a => (a, zeroEnv))

/-- `send 0 all` -/
def allFromBob : Line where
  dest := 0
  text := ⟨[97, 108, 108], by decide, by decide, by decide⟩

/-- A line to the one, and a line to all. -/
def talking : List (Room.Act Person Line × Env) :=
  [.say .alice hiBob, .read .alice, .say .bob allFromBob, .deliver, .read .bob, .deliver].map
    (fun a => (a, zeroEnv))

/-- The room when they are there. -/
def entered : Room.State Person Line :=
  (play (Room.room twoUsers.hears) Room.empty (entering.map Prod.fst)).getD Room.empty

/-- The room when they have talked. -/
def talked : Room.State Person Line :=
  (play (Room.room twoUsers.hears) entered (talking.map Prod.fst)).getD Room.empty

theorem play_entering : play (Room.room twoUsers.hears) Room.empty (entering.map Prod.fst)
    = some entered := rfl

theorem play_talking : play (Room.room twoUsers.hears) entered (talking.map Prod.fst)
    = some talked := rfl

theorem play_all : play (Room.room twoUsers.hears) Room.empty ((entering ++ talking).map Prod.fst)
    = some talked := rfl

example : talked.heard .bob = [(.alice, hiBob), (.bob, allFromBob)] := rfl

/-- Where both lines are put into the pipe before a round of `loop_dispatch`, the second one is
    lost. -/
example : ((play (Room.room twoUsers.hears) entered [.say .alice hiBob, .say .bob allFromBob,
    .read .alice, .read .bob, .deliver]).map (fun s => (s.queue, s.heard .bob)))
    = some ([], [(.alice, hiBob)]) := rfl

/-- A line is put into the pipe only while nothing is in it. -/
theorem calm_entering : Follows (Room.room twoUsers.hears) Room.Calm Room.empty
    (entering.map Prod.fst) := by decide

theorem calm_talking : Follows (Room.room twoUsers.hears) Room.Calm entered
    (talking.map Prod.fst) := by decide

theorem calm_all : Follows (Room.room twoUsers.hears) Room.Calm Room.empty
    ((entering ++ talking).map Prod.fst) := by decide

end Conversation

end ChatRoom
