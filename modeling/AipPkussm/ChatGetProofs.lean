import AipPkussm.ChatDispatchProofs
import AipPkussm.ChatReceiveProofs
import AipPkussm.InterleaveProofs

/-! # `get_handler` and `loop_dispatch` on one connection

    The `clithread` of a connection answers a GET with a header and then one
    `send` for each 512 bytes of the file and one for the remainder, which comes
    from offset `(i - 1) * 512` without the correction that `parse_msg` makes
    for `i == 0`.  Meanwhile the dispatcher sends chat frames on the same
    connection, each with one `send`.  Nothing keeps the two apart.

    Every byte sent is kept with the number of the frame it belongs to.
    `framing_iff` says that what the client gets is whole frames exactly when no
    chat frame is sent between the first and the last byte of a response. -/

namespace ChatGet

open LittleEndian ChatMessage ChatReceive ChatUserList ChatDispatch Interleave Transition

/-- The files that `fopen` opens for reading, by name, with their contents. -/
abbrev Files := List Byte → Option (List Byte)

/-- The string that starts at `msg->fname`.  A name that fills the field goes on in
    the fields after it; with no zero byte up to the end of the struct there is no
    string. -/
def fnameString (msg : Message) : Option (List Byte) :=
  let str := ((encode msg).drop 4).takeWhile (fun b => b ≠ 0)
  if str.length < messageLen - 4 then some str else none

/-- `strcpy (resp_msg.fname, name)`. -/
def copyName (respMsg : Message) (name : List Byte) : Message :=
  decode (patch 4 (name ++ [0]) (encode respMsg))

/-- `error_str`. -/
def openFileError : String := "Open file error"

/-- The block at `buff + off`, where `buff` holds a file and lies in a heap. -/
def bytesAt (heap : Int → Byte) (buff : List Byte) (off : Int) (len : Nat) : List Byte :=
  (List.range len).map (fun k : Nat =>
    if 0 ≤ off + k then buff.getD (off + k).toNat (heap (off + k)) else heap (off + k))

/-- `(i - 1) * SOCKETIO_BUFFER_SIZE` as an `int`. -/
def lastOffset (i : Nat) : Int :=
  (BitVec.ofInt 32 ((i : Int) - 1) * BitVec.ofNat 32 socketioBufferSize).toInt

/-- The sends of the file data: the chunks, and the remainder. -/
def dataSends (heap : Int → Byte) (buff : List Byte) (dataSize : Int) : List (List Byte) :=
  let remNum := (dataSize.tdiv socketioBufferSize).toNat
  let remBytes := (BitVec.ofInt 32 (dataSize.tmod socketioBufferSize)).toNat
  (List.range remNum).map (fun i => bytesAt heap buff (chunkOffset i) socketioBufferSize)
    ++ [bytesAt heap buff (lastOffset remNum) remBytes]

/-- The header of a response, in a `resp_msg` that held `old`. -/
def getReply (old : Message) (name buff : List Byte) : Message :=
  { copyName old name with
    command := Command.GET.code
    dataSize := BitVec.ofNat 32 buff.length }

/-- The header that reports an error. -/
def errorReply (old : Message) : Message :=
  { copyName old [] with
    command := Command.ERROR.code
    dataSize := BitVec.ofNat 32 (openFileError.length + 1) }

/-- `get_handler`, whose `resp_msg` holds `old` and whose `buff` lies in `heap`: the
    value it returns, and the blocks it sends.  A name without an end is a fault. -/
def getHandler (files : Files) (old : Message) (heap : Int → Byte) (msg : Message) :
    Option (Int × List (List Byte)) :=
  (fnameString msg).map (fun name =>
    match files name with
    | none => (-1, [encode (errorReply old)])
    | some buff =>
        (0, encode (getReply old name buff)
          :: dataSends heap buff (getReply old name buff).size))

/-- One connection: the blocks its `clithread` has still to send, how many bytes of
    the response are sent, the blocks the dispatcher has still to send on it, and
    what was sent.  Frames are numbered; `owner` is the number of the response. -/
structure Connection where
  sending : List (List Byte)
  sent : Nat
  owner : Nat
  chats : List (List Byte)
  next : Nat
  output : List (Nat × Byte)

/-- What happens on a connection. -/
inductive ConnectionAct where
  /-- `clithread` has a GET request and calls `get_handler` -/
  | get (files : Files) (old : Message) (heap : Int → Byte) (msg : Message)
  /-- `get_handler` makes its next `send` -/
  | send
  /-- a round of `loop_dispatch` begins, with this user list -/
  | round (got : GetFrame) (respMsg : Packet) (seg : UserList)
  /-- `loop_dispatch` makes its next `send` on the connection -/
  | chat

/-- One step on the connection with descriptor `connfd`. -/
def connectionStep (connfd : Int) (s : Connection) : ConnectionAct → Option Connection
  | .get files old heap msg =>
      if s.sending = [] then
        (getHandler files old heap msg).map (fun r =>
          { s with sending := r.2, sent := 0, owner := s.next, next := s.next + 1 })
      else none
  | .send =>
      match s.sending with
      | [] => none
      | buff :: rest =>
          some { s with
            sending := rest
            sent := s.sent + buff.length
            output := s.output ++ tag s.owner buff }
  | .round got respMsg seg =>
      if s.chats = [] then
        (loopDispatch got respMsg seg).map (fun r =>
          { s with chats := (r.1.filter (fun snd => snd.connfd = connfd)).map Sending.buff })
      else none
  | .chat =>
      match s.chats with
      | [] => none
      | buff :: rest =>
          some { s with
            chats := rest
            next := s.next + 1
            output := s.output ++ tag s.next buff }

/-- A connection on which nothing was sent. -/
def connectionInit : Connection where
  sending := []
  sent := 0
  owner := 0
  chats := []
  next := 0
  output := []

/-- The connection with descriptor `connfd`. -/
def connection (connfd : Int) : Machine Connection ConnectionAct where
  init := connectionInit
  step := connectionStep connfd

/-- A GET request succeeds: its file can be opened and has less than 2^31 bytes. -/
def ConnectionAct.succeeds : ConnectionAct → Prop
  | .get files _ _ msg =>
      ∃ name file, fnameString msg = some name ∧ files name = some file
        ∧ file.length < 2 ^ 31
  | _ => True

/-- No chat frame is sent between the first and the last byte of a response. -/
def uncut (s : Connection) : ConnectionAct → Prop
  | .chat => s.sent = 0 ∨ s.sending.flatten = []
  | _ => True

/-- The code whose words are the frames. -/
def frameBytes (f : Frame) : List Byte := f.toParcel.bytes

/-- What was sent is whole frames, each header followed by its own bytes. -/
def WholeFrames (output : List (Nat × Byte)) : Prop :=
  Whole frameBytes output

/-- Such bytes are a concatenation of frames. -/
theorem WholeFrames.stream {output : List (Nat × Byte)} (h : WholeFrames output) :
    ∃ fs, output.map Prod.snd = ChatMessage.stream fs := Whole.symbols h

/-! ## What `get_handler` sends -/

@[simp] theorem length_bytesAt (heap : Int → Byte) (buff : List Byte) (off : Int)
    (len : Nat) : (bytesAt heap buff off len).length = len := by
  rw [bytesAt, List.length_map, List.length_range]

/-- The number of chunks of `n` bytes, as the code divides. -/
theorem toNat_tdiv_natCast (n : Nat) :
    ((n : Int).tdiv socketioBufferSize).toNat = n / socketioBufferSize := by
  rw [Int.tdiv_eq_ediv_of_nonneg (Int.natCast_nonneg _), ← Int.natCast_ediv]
  rfl

/-- The number of bytes after the chunks, as the code takes the rest. -/
theorem toNat_tmod_natCast (n : Nat) :
    (BitVec.ofInt 32 ((n : Int).tmod socketioBufferSize)).toNat = n % socketioBufferSize := by
  have hlt : n % socketioBufferSize < socketioBufferSize := Nat.mod_lt _ (by decide)
  have hbound : socketioBufferSize < 2 ^ 32 := by decide
  rw [Int.tmod_eq_emod_of_nonneg (Int.natCast_nonneg _), ← Int.natCast_emod,
    BitVec.ofInt_natCast, BitVec.toNat_ofNat, Nat.mod_eq_of_lt (by omega)]

/-- The offset of the remainder is that of the last chunk. -/
theorem lastOffset_succ (i : Nat) : lastOffset (i + 1) = chunkOffset i := by
  rw [lastOffset, chunkOffset, Int.natCast_succ, Int.add_sub_cancel, BitVec.ofInt_natCast]

/-- Without a chunk the offset of the remainder is before the block. -/
theorem lastOffset_zero : lastOffset 0 < 0 := by decide

/-- The chunks and the remainder have the announced length together. -/
theorem length_dataSends (heap : Int → Byte) (buff : List Byte) (n : Nat) :
    (dataSends heap buff n).flatten.length = n := by
  have hchunks : ∀ m, ((List.range m).map (fun i =>
      bytesAt heap buff (chunkOffset i) socketioBufferSize)).flatten.length
        = m * socketioBufferSize := by
    intro m
    induction m with
    | zero => rw [List.range_zero, List.map_nil, List.flatten_nil, Nat.zero_mul]; rfl
    | succ m ih =>
        rw [List.range_succ, List.map_append, List.flatten_append, List.length_append, ih,
          List.map_singleton, List.flatten_singleton, length_bytesAt, Nat.succ_mul]
  rw [dataSends, toNat_tdiv_natCast, toNat_tmod_natCast, List.flatten_append, List.length_append,
    hchunks, List.flatten_singleton, length_bytesAt]
  exact Nat.div_add_mod' ..

/-- A response announces the size of its file. -/
theorem size_getReply (old : Message) (name : List Byte) {buff : List Byte}
    (hsize : buff.length < 2 ^ 31) : (getReply old name buff).size = buff.length :=
  toInt_ofNat32 hsize

/-- **RESPONSE**: the blocks that a successful GET sends are one frame together. -/
theorem getHandler_frame {files : Files} (old : Message) (heap : Int → Byte)
    {msg : Message} {name buff : List Byte} (hname : fnameString msg = some name)
    (hfile : files name = some buff) (hsize : buff.length < 2 ^ 31) :
    ∃ (sends : List (List Byte)) (f : Frame),
      getHandler files old heap msg = some (0, sends) ∧ frameBytes f = sends.flatten
        ∧ f.hdr = getReply old name buff := by
  refine ⟨encode (getReply old name buff)
      :: dataSends heap buff (getReply old name buff).size,
    { hdr := getReply old name buff
      body := (dataSends heap buff (getReply old name buff).size).flatten
      body_length := ?_ }, ?_, rfl, rfl⟩
  · show _ = (getReply old name buff).size.toNat
    rw [size_getReply old name hsize, length_dataSends]
    rfl
  · rw [getHandler, hname, Option.map_some, hfile]

/-- The frames are a code in which no word is the beginning of another. -/
theorem frames_prefixFree : PrefixFree frameBytes where
  nonempty := fun f => f.bytes_ne_nil
  unique := fun _ _ _ heq => Frame.eq_of_bytes heq

/-! ## What is on its way -/

/-- Whole frames, and the part of a response that is sent so far. -/
inductive Framed (s : Connection) : Prop where
  | between (ws : List (Nat × Frame))
      (hout : s.output = words frameBytes ws)
      (hrest : s.sending.flatten = [])
  | during (ws : List (Nat × Frame)) (f : Frame) (u : List Byte)
      (hout : s.output
        = words frameBytes ws ++ tag s.owner u)
      (hsent : u.length = s.sent) (hf : frameBytes f = u ++ s.sending.flatten)
      (hnew : s.owner < s.next)

/-- What holds as long as no response is cut. -/
structure InFrames (s : Connection) : Prop where
  framed : Framed s
  chats : ∀ buff ∈ s.chats, ∃ f : Frame, frameBytes f = buff

/-- A response with a foreign byte in the middle. -/
def Cut (s : Connection) : Prop :=
  ∃ (ws : List (Nat × Frame)) (f : Frame) (u v : List Byte) (n m : Nat) (b : Byte)
    (rest : List (Nat × Byte)),
    frameBytes f = u ++ v ∧ u ≠ [] ∧ v ≠ [] ∧ m ≠ n
      ∧ s.output = words frameBytes ws ++ (tag n u ++ (m, b) :: rest)

/-- The rules of the step function. -/
inductive ConnectionStep (connfd : Int) (s : Connection) :
    ConnectionAct → Connection → Prop where
  | get {files : Files} {old msg : Message} {heap : Int → Byte} {ret : Int}
      {sends : List (List Byte)} (hidle : s.sending = [])
      (hget : getHandler files old heap msg = some (ret, sends)) :
      ConnectionStep connfd s (.get files old heap msg)
        { s with sending := sends, sent := 0, owner := s.next, next := s.next + 1 }
  | send {buff : List Byte} {rest : List (List Byte)} (hsending : s.sending = buff :: rest) :
      ConnectionStep connfd s .send
        { s with
          sending := rest
          sent := s.sent + buff.length
          output := s.output ++ tag s.owner buff }
  | round {got : GetFrame} {respMsg : Packet} {seg seg' : UserList} {sends : List Sending}
      (hidle : s.chats = [])
      (hround : loopDispatch got respMsg seg = some (sends, seg')) :
      ConnectionStep connfd s (.round got respMsg seg)
        { s with chats := (sends.filter (fun snd => snd.connfd = connfd)).map Sending.buff }
  | chat {buff : List Byte} {rest : List (List Byte)} (hchats : s.chats = buff :: rest) :
      ConnectionStep connfd s .chat
        { s with chats := rest, next := s.next + 1, output := s.output ++ tag s.next buff }

/-- **STEP INVERSION**: a step is an instance of a rule. -/
theorem rule_of_connectionStep {connfd : Int} {s s' : Connection} {a : ConnectionAct}
    (h : connectionStep connfd s a = some s') : ConnectionStep connfd s a s' := by
  cases a with
  | get files old heap msg =>
      rw [connectionStep] at h
      split at h
      · rename_i hidle
        obtain ⟨r, hget, rfl⟩ := Option.map_eq_some_iff.mp h
        exact ConnectionStep.get hidle hget
      · exact nomatch h
  | send =>
      rw [connectionStep] at h
      split at h
      · exact nomatch h
      · rename_i buff rest hsending
        obtain rfl := Option.some.inj h
        exact ConnectionStep.send hsending
  | round got respMsg seg =>
      rw [connectionStep] at h
      split at h
      · rename_i hidle
        obtain ⟨r, hround, rfl⟩ := Option.map_eq_some_iff.mp h
        exact ConnectionStep.round hidle hround
      · exact nomatch h
  | chat =>
      rw [connectionStep] at h
      split at h
      · exact nomatch h
      · rename_i buff rest hchats
        obtain rfl := Option.some.inj h
        exact ConnectionStep.chat hchats

/-- A step only appends to what was sent. -/
theorem ConnectionStep.appends {connfd : Int} {s s' : Connection} {a : ConnectionAct}
    (h : ConnectionStep connfd s a s') : ∃ more, s'.output = s.output ++ more := by
  cases h with
  | get => exact ⟨[], (List.append_nil _).symm⟩
  | send => exact ⟨_, rfl⟩
  | round => exact ⟨[], (List.append_nil _).symm⟩
  | chat => exact ⟨_, rfl⟩

/-- **STEP**: a cut response stays cut. -/
theorem cut_step {connfd : Int} {s s' : Connection} {a : ConnectionAct} (h : Cut s)
    (hstep : ConnectionStep connfd s a s') : Cut s' := by
  obtain ⟨ws, f, u, v, n, m, b, rest, hf, hu, hv, hm, hout⟩ := h
  obtain ⟨more, hmore⟩ := hstep.appends
  refine ⟨ws, f, u, v, n, m, b, rest ++ more, hf, hu, hv, hm, ?_⟩
  rw [hmore, hout, List.append_assoc, List.append_assoc, List.cons_append]

theorem not_whole_of_cut {s : Connection} (h : Cut s) : ¬ WholeFrames s.output := by
  obtain ⟨ws, f, u, v, n, m, b, rest, hf, hu, hv, hm, hout⟩ := h
  rw [hout]
  exact frames_prefixFree.not_whole_of_cut hf hu hv hm

/-- Nothing of a response is missing: whole frames. -/
theorem Framed.whole {s : Connection} (h : Framed s) (hrest : s.sending.flatten = []) :
    ∃ ws, s.output = words frameBytes ws := by
  cases h with
  | between ws hout _ => exact ⟨ws, hout⟩
  | during ws f u hout _ hf _ =>
      rw [hrest, List.append_nil] at hf
      exact ⟨ws ++ [(s.owner, f)], by rw [words_snoc, hf, hout]⟩

/-- **STEP**: a response goes on. -/
theorem Framed.send {s : Connection} {buff : List Byte} {rest : List (List Byte)}
    (h : Framed s) (hsending : s.sending = buff :: rest) :
    Framed { s with
      sending := rest
      sent := s.sent + buff.length
      output := s.output ++ tag s.owner buff } := by
  have hflat : s.sending.flatten = buff ++ rest.flatten := by
    rw [hsending, List.flatten_cons]
  cases h with
  | between ws hout hrest =>
      -- only empty blocks are left
      rw [hflat] at hrest
      obtain ⟨hbuff, hrest'⟩ := List.append_eq_nil_iff.mp hrest
      refine Framed.between ws ?_ hrest'
      show s.output ++ tag s.owner buff = _
      rw [hbuff, tag_nil, List.append_nil, hout]
  | during ws f u hout hsent hf hnew =>
      refine Framed.during ws f (u ++ buff) ?_ ?_ ?_ hnew
      · show s.output ++ tag s.owner buff = _
        rw [hout, tag_append, List.append_assoc]
      · rw [List.length_append, hsent]
      · rw [hf, hflat, List.append_assoc]

/-- **STEP**: a chat frame is sent where it cuts nothing. -/
theorem Framed.chat {s : Connection} {g : Frame} {rest : List (List Byte)} (h : Framed s)
    (huncut : s.sent = 0 ∨ s.sending.flatten = []) :
    Framed { s with
      chats := rest
      next := s.next + 1
      output := s.output ++ tag s.next (frameBytes g) } := by
  by_cases hrest : s.sending.flatten = []
  · obtain ⟨ws, hout⟩ := h.whole hrest
    refine Framed.between (ws ++ [(s.next, g)]) ?_ hrest
    rw [words_snoc, ← hout]
  · cases h with
    | between _ _ hrest' => exact absurd hrest' hrest
    | during ws f u hout hsent hf hnew =>
        -- the response has not begun: the chat frame comes before it
        have hu : u = [] := by
          rcases huncut with hzero | hnil
          · exact List.eq_nil_of_length_eq_zero (hsent.trans hzero)
          · exact absurd hnil hrest
        rw [hu, tag_nil, List.append_nil] at hout
        refine Framed.during (ws ++ [(s.next, g)]) f u ?_ hsent hf (Nat.lt_succ_of_lt hnew)
        rw [hu, tag_nil, List.append_nil, words_snoc, ← hout]

/-- A chat frame in the middle of a response cuts it. -/
theorem Framed.cut {s : Connection} {g : Frame} {rest : List (List Byte)} (h : Framed s)
    (hcut : ¬ (s.sent = 0 ∨ s.sending.flatten = [])) :
    Cut { s with
      chats := rest
      next := s.next + 1
      output := s.output ++ tag s.next (frameBytes g) } := by
  rw [not_or] at hcut
  obtain ⟨hsome, hmissing⟩ := hcut
  cases h with
  | between _ _ hrest => exact absurd hrest hmissing
  | during ws f u hout hsent hf hnew =>
      obtain ⟨b, bs, hb⟩ := List.exists_cons_of_ne_nil (frames_prefixFree.nonempty g)
      refine ⟨ws, f, u, s.sending.flatten, s.owner, s.next, b, tag s.next bs, hf, ?_,
        hmissing, Nat.ne_of_gt hnew, ?_⟩
      · rintro rfl
        exact hsome hsent.symm
      · show s.output ++ tag s.next (frameBytes g) = _
        rw [hout, hb, List.append_assoc]
        rfl

/-- **STEP**: whole frames stay whole frames as long as no response is cut. -/
theorem inFrames_step {connfd : Int} {s s' : Connection} {a : ConnectionAct}
    (h : InFrames s) (hget : a.succeeds) (huncut : uncut s a)
    (hstep : ConnectionStep connfd s a s') : InFrames s' := by
  obtain ⟨hframed, hchats⟩ := h
  cases hstep with
  | @get files old msg heap ret sends hidle hrun =>
      obtain ⟨name, buff, hname, hfile, hsize⟩ := hget
      obtain ⟨sends', f, hrun', hf, -⟩ := getHandler_frame old heap hname hfile hsize
      rw [hrun'] at hrun
      obtain ⟨-, rfl⟩ := Prod.mk.inj (Option.some.inj hrun)
      obtain ⟨ws, hout⟩ := hframed.whole (by rw [hidle, List.flatten_nil])
      refine ⟨Framed.during ws f [] ?_ rfl hf (Nat.lt_succ_self _), hchats⟩
      rw [tag_nil, List.append_nil, ← hout]
  | send hsending => exact ⟨hframed.send hsending, hchats⟩
  | @round got respMsg seg seg' sends _ hround =>
      refine ⟨?_, ?_⟩
      · cases hframed with
        | between ws hout hrest => exact Framed.between ws hout hrest
        | during ws f u hout hsent hf hnew => exact Framed.during ws f u hout hsent hf hnew
      · intro buff hbuff
        obtain ⟨snd, hsnd, rfl⟩ := List.mem_map.mp hbuff
        exact ⟨respMsg.toFrame,
          (loopDispatch_buff hround snd (List.mem_of_mem_filter hsnd)).symm⟩
  | @chat buff rest hqueue =>
      obtain ⟨g, rfl⟩ := hchats buff (by rw [hqueue]; exact List.mem_cons_self ..)
      refine ⟨hframed.chat huncut, ?_⟩
      intro buff hbuff
      exact hchats buff (by rw [hqueue]; exact List.mem_cons_of_mem _ hbuff)

/-- **STEP**: the other steps cut a response. -/
theorem cut_of_step {connfd : Int} {s s' : Connection} {a : ConnectionAct}
    (h : InFrames s) (hcut : ¬ uncut s a) (hstep : ConnectionStep connfd s a s') :
    Cut s' := by
  cases hstep with
  | get => exact absurd trivial hcut
  | send => exact absurd trivial hcut
  | round => exact absurd trivial hcut
  | @chat buff rest hqueue =>
      obtain ⟨g, rfl⟩ := h.chats buff (by rw [hqueue]; exact List.mem_cons_self ..)
      exact h.framed.cut hcut

theorem inFrames_init : InFrames connectionInit where
  framed := Framed.between [] rfl rfl
  chats := fun _ hbuff => absurd hbuff List.not_mem_nil

/-- **WHOLE FRAMES, EXACTLY**: after steps in which every GET succeeds and is
    answered to the end, what was sent is whole frames if and only if no chat frame
    was sent between the first and the last byte of a response. -/
theorem framing_iff (connfd : Int) (as : List ConnectionAct) {t : Connection}
    (hget : ∀ a ∈ as, a.succeeds)
    (hplay : play (connection connfd) connectionInit as = some t)
    (hdone : t.sending = []) :
    WholeFrames t.output ↔ Follows (connection connfd) uncut connectionInit as := by
  have hends := play_follows (M := connection connfd) (I := InFrames) (B := Cut)
    (g := ConnectionAct.succeeds) (p := uncut)
    (fun _ _ _ hs ha hu hstep => inFrames_step hs ha hu (rule_of_connectionStep hstep))
    (fun _ _ _ hs _ hu hstep => cut_of_step hs hu (rule_of_connectionStep hstep))
    (fun _ _ _ hs hstep => cut_step hs (rule_of_connectionStep hstep))
    as connectionInit t inFrames_init hget hplay
  rcases hends with ⟨hfollows, ht⟩ | ⟨hnot, ht⟩
  · exact iff_of_true (ht.framed.whole (by rw [hdone, List.flatten_nil])) hfollows
  · exact iff_of_false (not_whole_of_cut ht) hnot

/-- A request for a file with a name of one letter. -/
def getRequest : Message :=
  { blankMessage with
    command := Command.GET.code
    fname := 102 :: List.replicate 31 0
    fname_length := rfl }

/-- The call of `get_handler` for it; the file has three bytes. -/
def getCall : ConnectionAct :=
  .get (fun _ => some [97, 98, 99]) blankMessage (fun _ => 7) getRequest

/-- A chat line for user 2, who is on descriptor 4. -/
def chatRound : ConnectionAct :=
  .round cleanFrame textPacket (fun _ => { zeroed 0 with connfd := 4 })

theorem getCall_succeeds : getCall.succeeds := ⟨[102], [97, 98, 99], by decide, rfl, by decide⟩

theorem framing_quietRun :
    ∃ t, play (connection 4) connectionInit [getCall, .send, .send, chatRound, .chat] = some t
      ∧ (WholeFrames t.output ↔ Follows (connection 4) uncut connectionInit
          [getCall, .send, .send, chatRound, .chat]) := by
  refine ⟨_, rfl, framing_iff 4 [getCall, .send, .send, chatRound, .chat] ?_ rfl rfl⟩
  simp only [List.forall_mem_cons]
  exact ⟨getCall_succeeds, trivial, trivial, trivial, trivial, fun _ h => nomatch h⟩

/-- **A CUT RESPONSE**: with the chat line between the header and the data, what was
    sent is no concatenation of frames at all. -/
theorem chat_cuts_response :
    ¬ ∀ (connfd : Int) (as : List ConnectionAct) (t : Connection),
      (∀ a ∈ as, a.succeeds) → play (connection connfd) connectionInit as = some t →
      t.sending = [] → ∃ fs, t.output.map Prod.snd = stream fs := by
  intro h
  obtain ⟨fs, hfs⟩ := h 4 [getCall, .send, chatRound, .chat, .send] _ (by
    simp only [List.forall_mem_cons]
    exact ⟨getCall_succeeds, trivial, trivial, trivial, trivial, fun _ h => nomatch h⟩) rfl rfl
  -- the data of the response are taken from the chat frame, and two bytes are left over
  rcases stream_unpack hfs with hnil | ⟨-, gs, hgs⟩
  · exact absurd hnil (by decide)
  · rcases stream_unpack hgs with hnil | ⟨-, gs', hgs'⟩
    · exact absurd hnil (by decide)
    · rcases stream_unpack hgs' with hnil | ⟨hlen, -⟩
      · exact absurd hnil (by decide)
      · exact absurd hlen (by decide)

end ChatGet
