import AipPkussm.ChatDispatchProofs
import AipPkussm.ChatReceiveProofs
import AipPkussm.HandlerTableProofs

/-! # Indices into the user list

    The whole way of a message: a client sends a frame, `parse_msg` takes it off
    the connection, `handle_msg` looks up its handler, `conn_handler` uses `from`
    as an index into the user list, or `sendmsg_handler` puts the message into the
    pipe and `loop_dispatch` uses `to`.  Nothing on the way looks at the two ids.

    `indices_iff`: the indices stay inside the list in every run exactly when all
    frames that clients send carry ids below 32 where these become indices. -/

namespace ChatIndex

open LittleEndian ChatMessage ByteSocket ChatReceive ChatUserList ChatDispatch Transition
open HandlerTable (ChatHandler chatHandlers registered subscript)

/-- The server with the bytes that its clients have sent, by descriptor.  As history, the
    indices used into the user list; after one that is outside, and after a call of the
    null pointer, there is nothing more to say. -/
structure Indexed where
  server : ServerState
  input : Int → List Byte
  used : List Nat
  crashed : Bool

/-- What happens. -/
inductive IndexedAct where
  /-- `accept` returns a descriptor -/
  | accept (fd : Int)
  /-- the client on a connection sends a frame -/
  | send (fd : Int) (f : Frame)
  /-- a round of `clithread`: `parse_msg` and `handle_msg` -/
  | serve (fd : Int) (mem : Memory) (got : GetFrame) (put : WriteFrame)
  /-- `clithread` ends and closes its connection -/
  | disconnect (fd : Int)
  /-- a round of `loop_dispatch` -/
  | dispatch (ptr : BitVec 32) (got : GetFrame)

/-- The index that `conn_handler` uses. -/
def connIndices (msg : Message) : List Nat := [msg.fromId.toNat]

/-- The indices that a round of `loop_dispatch` uses. -/
def dispatchIndices (respMsg : Packet) : List Nat :=
  if respMsg.hdr.toId = 0 ∧ respMsg.hdr.fromId = 0 then []
  else if isBroadcast respMsg.hdr.toId then List.range maxUserNum
  else [respMsg.hdr.toId.toNat]

/-- A step of the server that uses some indices; where it faults, that is the end. -/
def attempt (s : Indexed) (indices : List Nat) (a : ServerAct) : Indexed :=
  match serverStep s.server a with
  | some server => { s with server := server, used := s.used ++ indices }
  | none => { s with used := s.used ++ indices, crashed := true }

/-- The handler that `handle_msg` finds for a message. -/
def route (msg : Message) : Option ChatHandler :=
  (subscript (registered chatHandlers) msg.command).1

/-- `handle_msg` for a message that `parse_msg` has delivered.  `get_handler` and
    `put_handler` do not touch the user list. -/
def handleMsg (s : Indexed) (fd : Int) (got : GetFrame) (put : WriteFrame) (p : Parcel) :
    Option Indexed :=
  match route p.hdr with
  | some .connHandler => some (attempt s (connIndices p.hdr) (.conn fd got put p.hdr))
  | some .sendmsgHandler =>
      if h : p.body.length = p.hdr.payload ∧ 0 ≤ p.hdr.size then
        some (attempt s [] (.sendmsg fd ⟨⟨p, h.1⟩, h.2⟩))
      else none
  | some .getHandler => some s
  | some .putHandler => some s
  | none => some { s with crashed := true }

/-- One step.  A `recv` of `parse_msg` waits until the client has sent something. -/
def indexedStep (s : Indexed) (a : IndexedAct) : Option Indexed :=
  if s.crashed then none
  else
    match a with
    | .accept fd =>
        (serverStep s.server (.accept fd)).map (fun server =>
          { s with server := server, input := Function.update s.input fd [] })
    | .send fd f =>
        match s.server.conns fd with
        | none => none
        | some _ =>
            some { s with
              input := Function.update s.input fd (s.input fd ++ f.toParcel.bytes) }
    | .serve fd mem got put =>
        match s.server.conns fd with
        | none => none
        | some _ =>
            if s.input fd = [] then none
            else
              match parseMsg mem whole ⟨s.input fd, 0⟩ with
              | (.ok p, sock) =>
                  handleMsg { s with input := Function.update s.input fd sock.input }
                    fd got put p
              | (.error _, _) =>
                  (serverStep s.server (.disconnect fd)).map (fun server =>
                    { s with server := server })
    | .disconnect fd =>
        (serverStep s.server (.disconnect fd)).map (fun server => { s with server := server })
    | .dispatch ptr got =>
        match s.server.pending with
        | [] => none
        | (_, msg) :: _ => some (attempt s (dispatchIndices (atPtr ptr msg)) (.dispatch ptr got))

/-- A server without clients. -/
def indexedInit : Indexed where
  server := serverInit
  input := fun _ => []
  used := []
  crashed := false

/-- The server and its clients. -/
def indexed : Machine Indexed IndexedAct where
  init := indexedInit
  step := indexedStep

/-- The clients send only frames of a kind. -/
def sendsOnly (frames : Frame → Prop) (_ : Indexed) : IndexedAct → Prop
  | .send _ f => frames f
  | _ => True

/-- The ids of a frame are inside the list where they become indices: `from` of a CONN,
    `to` of a SENDMSG. -/
structure InsideList (f : Frame) : Prop where
  conn : f.hdr.command = Command.CONN.code → f.hdr.fromId.toNat < maxUserNum
  sendmsg : f.hdr.command = Command.SENDMSG.code → f.hdr.toId.toNat < maxUserNum

/-! ## What an index outside the list does -/

/-- A round of `loop_dispatch` is a fault exactly when an index is outside. -/
theorem loopDispatch_ne_none_iff (got : GetFrame) (msg : Packet) (seg : UserList) :
    loopDispatch got msg seg ≠ none ↔ ∀ i ∈ dispatchIndices msg, i < maxUserNum := by
  rw [loopDispatch, dispatchIndices]
  by_cases hmark : msg.hdr.toId = 0 ∧ msg.hdr.fromId = 0
  · rw [if_pos hmark, if_pos hmark]
    exact iff_of_true (Option.some_ne_none _) (fun _ h => absurd h List.not_mem_nil)
  · rw [if_neg hmark, if_neg hmark]
    simp only
    by_cases hbroad : isBroadcast msg.hdr.toId = true
    · rw [if_pos hbroad, if_pos hbroad]
      exact iff_of_true (Option.some_ne_none _) (fun _ h => List.mem_range.mp h)
    · rw [if_neg hbroad, if_neg hbroad]
      by_cases hid : msg.hdr.toId.toNat < maxUserNum
      · rw [dif_pos hid]
        refine iff_of_true (Option.some_ne_none _) (fun i hi => ?_)
        rw [List.mem_singleton.mp hi]
        exact hid
      · rw [dif_neg hid]
        exact iff_of_false (fun h => h rfl)
          (fun h => hid (h _ (List.mem_singleton_self _)))

/-- `conn_handler` stays inside the list exactly when its indices do. -/
theorem connHandler_ne_none_iff (got : GetFrame) (put : WriteFrame) (msg : Message)
    (connfd : Int) (seg : UserList) :
    connHandler got put msg connfd seg ≠ none ↔ ∀ i ∈ connIndices msg, i < maxUserNum := by
  rw [connHandler, assign]
  by_cases hid : msg.fromId.toNat < maxUserNum
  · rw [dif_pos hid]
    refine iff_of_true (Option.some_ne_none _) (fun i hi => ?_)
    rw [List.mem_singleton.mp hi]
    exact hid
  · rw [dif_neg hid]
    exact iff_of_false (fun h => h rfl) (fun h => hid (h _ (List.mem_singleton_self _)))

/-- Only a message to one user outside the list uses an index outside it. -/
theorem dispatchIndices_lt {msg : Packet} (h : msg.hdr.toId.toNat < maxUserNum) :
    ∀ i ∈ dispatchIndices msg, i < maxUserNum := by
  intro i hi
  rw [dispatchIndices] at hi
  split at hi
  · exact absurd hi List.not_mem_nil
  · split at hi
    · exact List.mem_range.mp hi
    · rw [List.mem_singleton.mp hi]
      exact h

theorem mem_dispatchIndices {msg : Packet} (h : ¬ msg.hdr.toId.toNat < maxUserNum) :
    msg.hdr.toId.toNat ∈ dispatchIndices msg := by
  -- 0 is for everybody, and an index inside the list
  have hne : msg.hdr.toId ≠ 0 := by
    intro hzero
    rw [hzero] at h
    exact h (by decide)
  rw [dispatchIndices, if_neg (fun hboth => hne hboth.1), if_neg]
  · exact List.mem_singleton_self _
  · rw [isBroadcast, beq_false_of_ne hne]
    exact Bool.false_ne_true

/-! ## From the frame to the handler -/

/-- **UNCHANGED**: the command and the ids of a message are those of the frame that the
    client sent, and its size is that of its body. -/
structure Carries (p : Parcel) (f : Frame) : Prop where
  command : p.hdr.command = f.hdr.command
  fromId : p.hdr.fromId = f.hdr.fromId
  toId : p.hdr.toId = f.hdr.toId
  body : p.body.length = p.hdr.payload
  nonneg : 0 ≤ p.hdr.size

theorem carries_of_parse {p : Parcel} {f : Frame} (hhdr : p.wire.hdr = normalised f.hdr)
    (hbody : p.body.length = f.hdr.payload) : Carries p f := by
  have hfields : p.hdr.command = f.hdr.command ∧ p.hdr.fromId = f.hdr.fromId
      ∧ p.hdr.toId = f.hdr.toId ∧ p.hdr.dataSize = (normalised f.hdr).dataSize := by
    have hcommand := congrArg Message.command hhdr
    have hfrom := congrArg Message.fromId hhdr
    have hto := congrArg Message.toId hhdr
    have hsize := congrArg Message.dataSize hhdr
    rw [normalised] at hcommand hfrom hto
    split at hcommand
    · rename_i hneg
      rw [if_pos hneg] at hfrom hto
      exact ⟨hcommand, hfrom, hto, hsize⟩
    · rename_i hpos
      rw [if_neg hpos] at hfrom hto
      exact ⟨hcommand, hfrom, hto, hsize⟩
  obtain ⟨hcommand, hfrom, hto, hsize⟩ := hfields
  -- a size that is not positive becomes 0 on the way
  have hint : p.hdr.size = (normalised f.hdr).size := congrArg BitVec.toInt hsize
  by_cases hneg : f.hdr.size ≤ 0
  · have hzero : p.hdr.size = 0 := by
      rw [hint, normalised, if_pos hneg]
      rfl
    refine ⟨hcommand, hfrom, hto, ?_, Int.le_of_eq hzero.symm⟩
    rw [hbody, Message.payload, Message.payload, hzero, Int.toNat_of_nonpos hneg]
    rfl
  · have hsame : p.hdr.size = f.hdr.size := by
      rw [hint, normalised, if_neg hneg]
      rfl
    refine ⟨hcommand, hfrom, hto, ?_, ?_⟩
    · rw [hbody, Message.payload, Message.payload, hsame]
    · rw [hsame]
      omega

/-- `parse_msg` takes the frame in front. -/
theorem parse_frame {input rest : List Byte} {f : Frame} (mem : Memory)
    (hin : input = f.toParcel.bytes ++ rest) :
    ∃ p sock, Carries p f ∧ sock.input = rest
      ∧ parseMsg mem whole ⟨input, 0⟩ = (.ok p, sock) := by
  obtain ⟨p, hparse, hhdr, hbody, -⟩ := parseMsg_whole mem (s := ⟨input, 0⟩) hin
  exact ⟨p, _, carries_of_parse hhdr hbody, rfl, hparse⟩

/-- **ONE ROUND**: `clithread` hands on the frame in front. -/
theorem serve_frame {s : Indexed} {fd : Int} {c : Nat} {f : Frame} {rest : List Byte}
    (mem : Memory) (got : GetFrame) (put : WriteFrame) (hup : s.crashed = false)
    (hopen : s.server.conns fd = some c) (hin : s.input fd = f.toParcel.bytes ++ rest) :
    ∃ p, Carries p f ∧ indexed.step s (.serve fd mem got put)
      = handleMsg { s with input := Function.update s.input fd rest } fd got put p := by
  have hne : s.input fd ≠ [] := by
    rw [hin]
    exact fun hnil => f.bytes_ne_nil (List.append_eq_nil_iff.mp hnil).1
  obtain ⟨p, sock, hp, hrest, hparse⟩ := parse_frame mem hin
  refine ⟨p, hp, ?_⟩
  show indexedStep s (.serve fd mem got put) = _
  rw [indexedStep, if_neg (by rw [hup]; exact Bool.false_ne_true)]
  simp only [hopen, if_neg hne, hparse, hrest]

/-- The handlers of the chatroom, by command. -/
theorem route_conn {msg : Message} (h : msg.command = Command.CONN.code) :
    route msg = some .connHandler := by
  rw [route, h]
  rfl

theorem route_sendmsg {msg : Message} (h : msg.command = Command.SENDMSG.code) :
    route msg = some .sendmsgHandler := by
  rw [route, h]
  rfl

/-- What `handle_msg` does with a CONN. -/
theorem handleMsg_conn (s : Indexed) (fd : Int) (got : GetFrame) (put : WriteFrame)
    {p : Parcel} (h : p.hdr.command = Command.CONN.code) :
    handleMsg s fd got put p
      = some (attempt s (connIndices p.hdr) (.conn fd got put p.hdr)) := by
  rw [handleMsg, route_conn h]

/-- What `handle_msg` does with a SENDMSG. -/
theorem handleMsg_sendmsg (s : Indexed) (fd : Int) (got : GetFrame) (put : WriteFrame)
    {p : Parcel} {f : Frame} (hp : Carries p f) (h : p.hdr.command = Command.SENDMSG.code) :
    handleMsg s fd got put p
      = some (attempt s [] (.sendmsg fd ⟨⟨p, hp.body⟩, hp.nonneg⟩)) := by
  rw [handleMsg, route_sendmsg h]
  exact dif_pos ⟨hp.body, hp.nonneg⟩

/-- No other command leads to these two. -/
theorem command_of_route {msg : Message} {h : ChatHandler} (hroute : route msg = some h) :
    (msg.command, h) ∈ chatHandlers := by
  rw [route] at hroute
  rcases HandlerTable.registered_cases chatHandlers msg.command with ⟨-, p, hp, hin⟩ | ⟨-, hp⟩
  · rw [HandlerTable.subscript_of_some hp] at hroute
    rw [← Option.some.inj hroute]
    exact hin
  · rw [HandlerTable.subscript_of_none hp] at hroute
    exact nomatch hroute

theorem command_of_conn {msg : Message} (h : route msg = some .connHandler) :
    msg.command = Command.CONN.code := by
  simpa [chatHandlers] using command_of_route h

theorem command_of_sendmsg {msg : Message} (h : route msg = some .sendmsgHandler) :
    msg.command = Command.SENDMSG.code := by
  simpa [chatHandlers] using command_of_route h

/-! ## What a step can do -/

/-- The rules of the step function. -/
inductive IndexedStep (s : Indexed) : IndexedAct → Indexed → Prop where
  | accept {fd : Int} {server : ServerState}
      (hserver : serverStep s.server (.accept fd) = some server) :
      IndexedStep s (.accept fd)
        { s with server := server, input := Function.update s.input fd [] }
  | send {fd : Int} {f : Frame} {c : Nat} (hopen : s.server.conns fd = some c) :
      IndexedStep s (.send fd f)
        { s with input := Function.update s.input fd (s.input fd ++ f.toParcel.bytes) }
  | serve {fd : Int} {mem : Memory} {got : GetFrame} {put : WriteFrame} {c : Nat}
      {p : Parcel} {sock : Socket} {s' : Indexed} (hopen : s.server.conns fd = some c)
      (hne : s.input fd ≠ []) (hparse : parseMsg mem whole ⟨s.input fd, 0⟩ = (.ok p, sock))
      (hhandle : handleMsg { s with input := Function.update s.input fd sock.input }
        fd got put p = some s') :
      IndexedStep s (.serve fd mem got put) s'
  | cut {fd : Int} {mem : Memory} {got : GetFrame} {put : WriteFrame} {c : Nat}
      {e : Failure} {sock : Socket} {server : ServerState}
      (hopen : s.server.conns fd = some c) (hne : s.input fd ≠ [])
      (hparse : parseMsg mem whole ⟨s.input fd, 0⟩ = (.error e, sock))
      (hserver : serverStep s.server (.disconnect fd) = some server) :
      IndexedStep s (.serve fd mem got put) { s with server := server }
  | disconnect {fd : Int} {server : ServerState}
      (hserver : serverStep s.server (.disconnect fd) = some server) :
      IndexedStep s (.disconnect fd) { s with server := server }
  | dispatch {ptr : BitVec 32} {got : GetFrame} {c : Nat} {msg : Packet}
      {rest : List (Nat × Packet)} (hpending : s.server.pending = (c, msg) :: rest) :
      IndexedStep s (.dispatch ptr got)
        (attempt s (dispatchIndices (atPtr ptr msg)) (.dispatch ptr got))

/-- **STEP INVERSION**: a step is an instance of a rule. -/
theorem rule_of_indexedStep {s s' : Indexed} {a : IndexedAct}
    (h : indexedStep s a = some s') : IndexedStep s a s' := by
  rw [indexedStep.eq_def] at h
  split at h
  · exact nomatch h
  · cases a with
    | accept fd =>
        obtain ⟨server, hserver, rfl⟩ := Option.map_eq_some_iff.mp h
        exact IndexedStep.accept hserver
    | send fd f =>
        simp only at h
        split at h
        · exact nomatch h
        · rename_i c hopen
          obtain rfl := Option.some.inj h
          exact IndexedStep.send hopen
    | serve fd mem got put =>
        simp only at h
        split at h
        · exact nomatch h
        · rename_i c hopen
          split at h
          · exact nomatch h
          · rename_i hne
            split at h
            · rename_i p sock hparse
              exact IndexedStep.serve hopen hne hparse h
            · rename_i e sock hparse
              obtain ⟨server, hserver, rfl⟩ := Option.map_eq_some_iff.mp h
              exact IndexedStep.cut hopen hne hparse hserver
    | disconnect fd =>
        obtain ⟨server, hserver, rfl⟩ := Option.map_eq_some_iff.mp h
        exact IndexedStep.disconnect hserver
    | dispatch ptr got =>
        simp only at h
        split at h
        · exact nomatch h
        · rename_i c msg rest hpending
          obtain rfl := Option.some.inj h
          exact IndexedStep.dispatch hpending

/-! ## Runs -/

/-- What holds as long as only frames with ids inside the list are sent. -/
structure Inside (s : Indexed) : Prop where
  used : ∀ i ∈ s.used, i < maxUserNum
  input : ∀ fd, ∃ fs, s.input fd = stream fs ∧ ∀ f ∈ fs, InsideList f
  pending : ∀ x ∈ s.server.pending, x.2.hdr.toId.toNat < maxUserNum

/-- Only `sendmsg_handler` puts something into the pipe. -/
theorem pending_of_step {s s' : ServerState} {a : ServerAct} (h : serverStep s a = some s') :
    ∀ x ∈ s'.pending, x ∈ s.pending ∨ ∃ fd, a = .sendmsg fd x.2 := by
  intro x hx
  cases rule_of_serverStep h with
  | accept => exact Or.inl hx
  | conn => exact Or.inl hx
  | disconnect => exact Or.inl hx
  | @sendmsg fd msg c _ =>
      rcases List.mem_append.mp hx with hold | hnew
      · exact Or.inl hold
      · rw [List.mem_singleton.mp hnew]
        exact Or.inr ⟨fd, rfl⟩
  | dispatch hmsg _ =>
      refine Or.inl ?_
      rw [hmsg]
      exact List.mem_cons_of_mem _ hx

/-- A step of the server with its indices. -/
theorem Inside.attempt {s : Indexed} (h : Inside s) {indices : List Nat} {a : ServerAct}
    (hindices : ∀ i ∈ indices, i < maxUserNum)
    (hsendmsg : ∀ fd msg, a = .sendmsg fd msg → msg.hdr.toId.toNat < maxUserNum) :
    Inside (attempt s indices a) := by
  have hused : ∀ i ∈ s.used ++ indices, i < maxUserNum :=
    List.forall_mem_append.mpr ⟨h.used, hindices⟩
  rw [ChatIndex.attempt]
  cases hstep : serverStep s.server a with
  | none => exact ⟨hused, h.input, h.pending⟩
  | some server =>
      refine ⟨hused, h.input, ?_⟩
      intro x hx
      rcases pending_of_step hstep x hx with hold | ⟨fd, hnew⟩
      · exact h.pending x hold
      · exact hsendmsg fd x.2 hnew

/-- Another state of the connections. -/
theorem Inside.connections {s : Indexed} (h : Inside s) {server : ServerState} {a : ServerAct}
    (hstep : serverStep s.server a = some server)
    (ha : ∀ fd msg, a ≠ .sendmsg fd msg) : Inside { s with server := server } := by
  refine ⟨h.used, h.input, ?_⟩
  intro x hx
  rcases pending_of_step hstep x hx with hold | ⟨fd, hnew⟩
  · exact h.pending x hold
  · exact absurd hnew (ha fd x.2)

/-- Other bytes on one connection. -/
theorem Inside.bytes {s : Indexed} (h : Inside s) (fd : Int) (fs : List Frame)
    (hfs : ∀ f ∈ fs, InsideList f) :
    Inside { s with input := Function.update s.input fd (stream fs) } := by
  refine ⟨h.used, ?_, h.pending⟩
  intro fd'
  by_cases hfd : fd' = fd
  · rw [hfd]
    exact ⟨fs, Function.update_self .., hfs⟩
  · obtain ⟨gs, hgs, hall⟩ := h.input fd'
    exact ⟨gs, (Function.update_of_ne hfd ..).trans hgs, hall⟩

/-- **STEP**: `handle_msg` for a frame with ids inside the list. -/
theorem Inside.handle {s s' : Indexed} {fd : Int} {got : GetFrame} {put : WriteFrame}
    {p : Parcel} {f : Frame} (h : Inside s) (hf : InsideList f) (hp : Carries p f)
    (hstep : handleMsg s fd got put p = some s') : Inside s' := by
  rw [handleMsg] at hstep
  cases hroute : route p.hdr with
  | none =>
      rw [hroute] at hstep
      obtain rfl := Option.some.inj hstep
      exact ⟨h.used, h.input, h.pending⟩
  | some handler =>
      rw [hroute] at hstep
      cases handler with
      | getHandler => rwa [← Option.some.inj hstep]
      | putHandler => rwa [← Option.some.inj hstep]
      | connHandler =>
          obtain rfl := Option.some.inj hstep
          refine h.attempt (fun i hi => ?_) (fun fd msg hact => nomatch hact)
          rw [List.mem_singleton.mp hi, hp.fromId]
          exact hf.conn (hp.command.symm.trans (command_of_conn hroute))
      | sendmsgHandler =>
          simp only at hstep
          rw [dif_pos ⟨hp.body, hp.nonneg⟩] at hstep
          obtain rfl := Option.some.inj hstep
          refine h.attempt (List.forall_mem_nil _) ?_
          rintro fd' msg hact
          obtain ⟨-, rfl⟩ := ServerAct.sendmsg.inj hact
          show p.hdr.toId.toNat < maxUserNum
          rw [hp.toId]
          exact hf.sendmsg (hp.command.symm.trans (command_of_sendmsg hroute))

/-- Where bytes are left, a whole frame is in front. -/
theorem Inside.frame_in_front {s : Indexed} (h : Inside s) {fd : Int}
    (hne : s.input fd ≠ []) :
    ∃ f fs, s.input fd = f.toParcel.bytes ++ stream fs ∧ ∀ g ∈ f :: fs, InsideList g := by
  obtain ⟨fs, hfs, hall⟩ := h.input fd
  cases fs with
  | nil => exact absurd hfs hne
  | cons f fs => exact ⟨f, fs, hfs, hall⟩

/-- **STEP**: the indices stay inside the list. -/
theorem inside_step {frames : Frame → Prop} (hframes : ∀ f, frames f → InsideList f)
    {s s' : Indexed} {a : IndexedAct} (h : Inside s) (ha : sendsOnly frames s a)
    (hstep : IndexedStep s a s') : Inside s' := by
  cases hstep with
  | @accept fd server hserver =>
      exact (h.connections hserver (fun _ _ hact => nomatch hact)).bytes fd
        [] (List.forall_mem_nil _)
  | @send fd f c hopen =>
      obtain ⟨fs, hfs, hall⟩ := h.input fd
      have hmore : s.input fd ++ f.toParcel.bytes = stream (fs ++ [f]) := by
        rw [hfs, stream, stream, List.flatMap_append, List.flatMap_singleton]
      rw [hmore]
      exact h.bytes fd _ (List.forall_mem_append.mpr
        ⟨hall, List.forall_mem_singleton.mpr (hframes f ha)⟩)
  | @serve fd mem got put c p sock _ hopen hne hparse hhandle =>
      -- `parse_msg` cannot fail, and hands on the frame in front
      obtain ⟨f, fs, hfs, hall⟩ := h.frame_in_front hne
      obtain ⟨p', sock', hp, hrest, hparse'⟩ := parse_frame mem hfs
      obtain ⟨hp', rfl⟩ := Prod.mk.inj (hparse.symm.trans hparse')
      obtain rfl := Except.ok.inj hp'
      rw [hrest] at hhandle
      exact (h.bytes fd fs (fun g hg => hall g (List.mem_cons_of_mem f hg))).handle
        (hall f (List.mem_cons_self ..)) hp hhandle
  | cut _ _ _ hserver => exact h.connections hserver (fun _ _ hact => nomatch hact)
  | disconnect hserver => exact h.connections hserver (fun _ _ hact => nomatch hact)
  | @dispatch ptr got c msg rest hpending =>
      refine h.attempt ?_ (fun fd msg hact => nomatch hact)
      refine dispatchIndices_lt ?_
      exact h.pending (c, msg) (by rw [hpending]; exact List.mem_cons_self ..)

theorem inside_init : Inside indexedInit where
  used := List.forall_mem_nil _
  input := fun _ => ⟨[], rfl, List.forall_mem_nil _⟩
  pending := List.forall_mem_nil _

/-! ## A frame with an id outside the list -/

/-- A connection on which a frame was sent. -/
def afterSend (f : Frame) : Indexed where
  server :=
    { serverInit with
      conns := Function.update serverInit.conns 4 (some 0)
      fdOf := Function.update serverInit.fdOf 0 4
      next := 1 }
  input := Function.update (Function.update indexedInit.input 4 []) 4
    (Function.update indexedInit.input 4 [] 4 ++ f.toParcel.bytes)
  used := []
  crashed := false

/-- The state is reached where a client sends that frame alone. -/
theorem run_afterSend {frames : Frame → Prop} {f : Frame} (hf : frames f) :
    Run indexed (sendsOnly frames) (afterSend f) := by
  refine Run.of_play [.accept 4, .send 4 f] ?_ rfl
  exact Follows.cons trivial rfl (Follows.cons hf rfl trivial)

theorem conns_afterSend (f : Frame) : (afterSend f).server.conns 4 = some 0 := rfl

theorem input_afterSend (f : Frame) :
    (afterSend f).input 4 = f.toParcel.bytes ++ [] := by
  show Function.update (Function.update indexedInit.input 4 []) 4
    (Function.update indexedInit.input 4 [] 4 ++ f.toParcel.bytes) 4 = _
  rw [Function.update_self, Function.update_self, List.append_nil, List.nil_append]

/-- The indices of a step are used, whatever becomes of it. -/
theorem mem_used_attempt (s : Indexed) {indices : List Nat} (a : ServerAct) {i : Nat}
    (hi : i ∈ indices) : i ∈ (attempt s indices a).used := by
  rw [attempt]
  split <;> exact List.mem_append_right _ hi

/-- The round of `clithread` that takes the frame. -/
def firstRound : IndexedAct := .serve 4 ⟨fun _ => 0, 0, fun _ => 0⟩ cleanFrame ⟨0, 0, 0⟩

theorem run_firstRound {frames : Frame → Prop} {f : Frame} {s : Indexed} (hf : frames f)
    (hserve : indexed.step (afterSend f) firstRound = some s) :
    Run indexed (sendsOnly frames) s :=
  have hallowed : sendsOnly frames (afterSend f) firstRound := trivial
  Run.next (run_afterSend hf) hallowed hserve

/-- **CONN**: `conn_handler` uses whatever id a frame carries. -/
theorem conn_uses {frames : Frame → Prop} {f : Frame} (hf : frames f)
    (hconn : f.hdr.command = Command.CONN.code) :
    ∃ s, Run indexed (sendsOnly frames) s ∧ f.hdr.fromId.toNat ∈ s.used := by
  obtain ⟨p, hp, hserve⟩ := serve_frame ⟨fun _ => 0, 0, fun _ => 0⟩ cleanFrame ⟨0, 0, 0⟩
    rfl (conns_afterSend f) (input_afterSend f)
  rw [handleMsg_conn _ _ _ _ (hp.command.trans hconn)] at hserve
  refine ⟨_, run_firstRound hf hserve, mem_used_attempt _ _ ?_⟩
  rw [connIndices, hp.fromId]
  exact List.mem_singleton_self _

/-- What `sendmsg_handler` leaves in the pipe. -/
theorem attempt_sendmsg {s : Indexed} {fd : Int} {c : Nat} (msg : Packet)
    (hopen : s.server.conns fd = some c) :
    attempt s [] (.sendmsg fd msg) = { s with
      server := { s.server with pending := s.server.pending ++ [(c, msg)] }
      used := s.used ++ [] } := by
  rw [attempt]
  simp only [serverStep, hopen]

/-- What the list serves when `loop_dispatch` takes a frame. -/
theorem dispatch_uses {s : Indexed} {c : Nat} {msg : Packet} {rest : List (Nat × Packet)}
    (hup : s.crashed = false) (hpending : s.server.pending = (c, msg) :: rest)
    (ptr : BitVec 32) (got : GetFrame) :
    indexed.step s (.dispatch ptr got)
      = some (attempt s (dispatchIndices (atPtr ptr msg)) (.dispatch ptr got)) := by
  show indexedStep s (.dispatch ptr got) = _
  rw [indexedStep, if_neg (by rw [hup]; exact Bool.false_ne_true)]
  simp only [hpending]

/-- **SENDMSG**: for a recipient that is outside the list, `loop_dispatch` uses that index. -/
theorem sendmsg_uses {frames : Frame → Prop} {f : Frame} (hf : frames f)
    (hsendmsg : f.hdr.command = Command.SENDMSG.code)
    (hid : ¬ f.hdr.toId.toNat < maxUserNum) :
    ∃ s, Run indexed (sendsOnly frames) s ∧ f.hdr.toId.toNat ∈ s.used := by
  obtain ⟨p, hp, hserve⟩ := serve_frame ⟨fun _ => 0, 0, fun _ => 0⟩ cleanFrame ⟨0, 0, 0⟩
    rfl (conns_afterSend f) (input_afterSend f)
  rw [handleMsg_sendmsg _ _ _ _ hp (hp.command.trans hsendmsg)] at hserve
  rw [attempt_sendmsg (c := 0)
    (s := { afterSend f with input := Function.update (afterSend f).input 4 [] })
    _ (conns_afterSend f)] at hserve
  have hto : ¬ p.hdr.toId.toNat < maxUserNum := by rwa [hp.toId]
  obtain ⟨s, hserved, hup, hpending⟩ : ∃ s, Run indexed (sendsOnly frames) s
      ∧ s.crashed = false ∧ s.server.pending = [(0, ⟨⟨p, hp.body⟩, hp.nonneg⟩)] :=
    ⟨_, run_firstRound hf hserve, rfl, rfl⟩
  have hallowed : sendsOnly frames s (.dispatch 0 cleanFrame) := trivial
  have hdispatch := dispatch_uses hup hpending 0 cleanFrame
  refine ⟨_, Run.next hserved hallowed hdispatch, mem_used_attempt _ _ ?_⟩
  rw [← hp.toId]
  exact mem_dispatchIndices hto

theorem payload_connMessage (letter : Byte) (id : BitVec 32) :
    ([] : List Byte).length = (connMessage letter id).payload := rfl

/-- What the stock client sends when 200 is entered at its prompt. -/
def connFrame : Frame where
  hdr := connMessage 97 200
  body := []
  body_length := payload_connMessage 97 200

end ChatIndex
