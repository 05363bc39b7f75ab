import AipPkussm.ChatPipeSoundProofs

/-! # The pipe refines a mailbox

    Whenever nobody is inside the lock the FIFO holds a concatenation of whole
    frames, and a thread inside the lock is somewhere in the middle of exactly
    one (`Linked`).  A completed `write` is a send, the first `read` of
    `getMessage` is a receive, and the close of the last descriptor empties the
    mailbox (`mailbox_step`).  What `getMessage` returns is therefore, but for
    `data_ptr`, a subsequence of what was written, in the order of the writes
    (`returned_sublist`). -/

namespace ChatPipeFrame

open LittleEndian ChatMessage Transition Channel ChatPipe ChatPipeLock ChatPipeSound

variable {Tid : Type} [DecidableEq Tid]

/-- The bytes of the frames of a queue. -/
def queueBytes (q : List Packet) : List Byte := q.flatMap (fun msg => msg.bytes)

@[simp] theorem queueBytes_nil : queueBytes [] = [] := rfl

@[simp] theorem queueBytes_cons (msg : Packet) (q : List Packet) :
    queueBytes (msg :: q) = msg.bytes ++ queueBytes q := rfl

theorem queueBytes_append (q q' : List Packet) :
    queueBytes (q ++ q') = queueBytes q ++ queueBytes q' := List.flatMap_append

/-- Messages up to `data_ptr`. -/
def wires (q : List Packet) : List Parcel := q.map (fun msg => msg.wire)

theorem wires_append (q q' : List Packet) : wires (q ++ q') = wires q ++ wires q' :=
  List.map_append

/-- How the bytes in the FIFO and the returned messages match the mailbox, by the
    place of the thread inside the lock. -/
def Linked (p : Pc) (fifo : List Byte) (ret : List Parcel) (m : Mail Packet) : Prop :=
  match p with
  | .writing msg rest =>
      (∃ w, w ++ rest = msg.bytes ∧ fifo = queueBytes m.queue ++ w) ∧ rest ≠ []
        ∧ wires m.received = ret.map Parcel.wire
  | .readingBody hdr =>
      ∃ msg : Packet, msg.hdr = hdr ∧ fifo = msg.body ++ queueBytes m.queue
        ∧ wires m.received = ret.map Parcel.wire ++ [msg.wire]
  | .closing (.got r) =>
      fifo = queueBytes m.queue ∧ wires m.received = ret.map Parcel.wire ++ [r.wire]
  | .unlocking (.got r) =>
      fifo = queueBytes m.queue ∧ wires m.received = ret.map Parcel.wire ++ [r.wire]
  | _ => fifo = queueBytes m.queue ∧ wires m.received = ret.map Parcel.wire

/-- Everything returned was received. -/
theorem Linked.returned {p : Pc} {fifo : List Byte} {ret : List Parcel} {m : Mail Packet}
    (h : Linked p fifo ret m) : (ret.map Parcel.wire).Sublist (wires m.received) := by
  have heq : wires m.received = ret.map Parcel.wire →
      (ret.map Parcel.wire).Sublist (wires m.received) :=
    fun he => he ▸ List.Sublist.refl _
  have hlast : ∀ r : Parcel, wires m.received = ret.map Parcel.wire ++ [r] →
      (ret.map Parcel.wire).Sublist (wires m.received) :=
    fun r he => he ▸ List.sublist_append_left _ _
  cases p with
  | writing msg rest => exact heq h.2.2
  | readingBody hdr =>
      obtain ⟨msg, -, -, he⟩ := h
      exact hlast _ he
  | closing d =>
      cases d with
      | put msg => exact heq h.2
      | got r => exact hlast _ h.2
  | unlocking d =>
      cases d with
      | put msg => exact heq h.2
      | got r => exact hlast _ h.2
  | _ => exact heq h.2

/-- The place of the thread inside the lock; `idle` when there is none. -/
def holderPc (s : PipeState Tid) : Option Tid → Pc
  | none => .idle
  | some t => s.pc t

/-- A live pipe and a mailbox that match. -/
structure Refines (disp : Tid) (s : PipeState Tid) (m : Mail Packet)
    (o : Option Tid) : Prop where
  sound : Sound disp s o
  linked : Linked (holderPc s o) s.fifo s.returned m
  sent : m.sent = s.written

/-- The process is gone; the history stays. -/
structure Gone (s : PipeState Tid) (m : Mail Packet) : Prop where
  dead : ∀ t, s.pc t = .dead
  returned : (s.returned.map Parcel.wire).Sublist (wires m.received)
  sent : m.sent = s.written

/-- The refinement relation. -/
def Mailed (disp : Tid) (s : PipeState Tid) (m : Mail Packet) : Prop :=
  (∃ o, Refines disp s m o) ∨ Gone s m

omit [DecidableEq Tid] in
/-- What is in the history of a dying process stays there. -/
theorem Refines.dies {disp : Tid} {s : PipeState Tid} {m : Mail Packet} {o : Option Tid}
    (h : Refines disp s m o) : Gone s.terminate m where
  dead := fun _ => rfl
  returned := h.linked.returned
  sent := h.sent

omit [DecidableEq Tid] in
/-- The owner of the lock is unique. -/
theorem owner_unique {s : PipeState Tid} {o o' : Option Tid} (h : OwnedBy s o)
    (h' : OwnedBy s o') : o' = o := by
  cases o with
  | some t => exact (h'.owner t).mp ((h.owner t).mpr rfl)
  | none => exact h'.free h.bit

/-- A thread outside the lock that moves outside the lock leaves the holder where
    it is. -/
theorem holder_outside {s r : PipeState Tid} {o o' : Option Tid} {t : Tid} {p : Pc}
    (h : OwnedBy s o) (h' : OwnedBy (r.goto t p) o') (ht : holds (s.pc t) = false)
    (hp : holds p = false) (hpc : r.pc = s.pc) (hlock : r.lock = s.lock) :
    holderPc (r.goto t p) o' = holderPc s o := by
  obtain rfl : o' = o := owner_unique (h.goto hlock hpc (hp.trans ht.symm)) h'
  cases ho : o' with
  | none => rfl
  | some u =>
      have hut : u ≠ t := by
        rintro rfl
        have hin : holds (s.pc u) = true := (h.owner u).mpr ho
        rw [hin] at ht
        exact nomatch ht
      show (r.goto t p).pc u = s.pc u
      rw [PipeState.goto_pc_of_ne _ _ hut, hpc]

/-- Such a move changes nothing for the mailbox. -/
theorem Refines.outside {disp t : Tid} {s r : PipeState Tid} {m : Mail Packet}
    {o o' : Option Tid} {p : Pc} (h : Refines disp s m o)
    (hs' : Sound disp (r.goto t p) o') (ht : holds (s.pc t) = false)
    (hp : holds p = false) (hpc : r.pc = s.pc) (hlock : r.lock = s.lock)
    (hfifo : r.fifo = s.fifo) (hret : r.returned = s.returned)
    (hwritten : r.written = s.written) : Refines disp (r.goto t p) m o' where
  sound := hs'
  linked := by
    rw [holder_outside h.sound.owned hs'.owned ht hp hpc hlock, PipeState.goto_fifo,
      hfifo, PipeState.goto_returned, hret]
    exact h.linked
  sent := h.sent.trans hwritten.symm

/-- A thread that is inside the lock after its move is the holder. -/
theorem Sound.holder_goto {disp t : Tid} {r : PipeState Tid} {o' : Option Tid} {p : Pc}
    (hs' : Sound disp (r.goto t p) o') (hp : holds p = true) :
    holderPc (r.goto t p) o' = p := by
  obtain rfl : o' = some t := hs'.owned.of_pc (PipeState.goto_pc_self ..) hp
  exact PipeState.goto_pc_self ..

omit [DecidableEq Tid] in
/-- A thread inside the lock is the holder. -/
theorem holder_at {s : PipeState Tid} {o : Option Tid} {t : Tid} {p : Pc}
    (h : OwnedBy s o) (hpc : s.pc t = p) (hp : holds p = true) : holderPc s o = p := by
  obtain rfl : o = some t := h.of_pc hpc hp
  exact hpc

omit [DecidableEq Tid] in
/-- The bytes and the returned messages match from where the holder is. -/
theorem Refines.linked_at {disp t : Tid} {s : PipeState Tid} {m : Mail Packet}
    {o : Option Tid} {p : Pc} (h : Refines disp s m o) (hpc : s.pc t = p)
    (hp : holds p = true) : Linked p s.fifo s.returned m := by
  have hl := h.linked
  rw [holder_at h.sound.owned hpc hp] at hl
  exact hl

/-! ## One step -/

/-- The descriptor of thread `t` is the last one. -/
def lastClose (s : PipeState Tid) (t : Tid) : Prop :=
  s.readers.erase t = ∅ ∧ s.writers.erase t = ∅

omit [DecidableEq Tid] in
/-- A reader that need not block at its first `read` finds bytes: an end of file
    is never what wakes it. -/
theorem Sound.fifo_ne_nil {disp t : Tid} {s : PipeState Tid} {o : Option Tid}
    (h : Sound disp s o) (hpc : s.pc t = .readingHeader) (hst : ¬ s.starved) :
    s.fifo ≠ [] := by
  have hpending : pending s :=
    h.fed t ⟨by rw [hpc]; rfl, fun hp => by rw [hpc] at hp; exact nomatch hp⟩
  intro hnil
  rcases hpending with hf | ⟨u, hu⟩
  · exact hf hnil
  · have hw : u ∈ s.writers := by
      refine (h.ends.writers u).mpr ?_
      cases hpu : s.pc u with
      | opening c => rw [hpu] at hu; cases c <;> first | rfl | exact nomatch hu
      | spinning c => rw [hpu] at hu; cases c <;> first | rfl | exact nomatch hu
      | writing msg rest => rfl
      | _ => rw [hpu] at hu; exact nomatch hu
    refine hst ⟨hnil, ?_⟩
    intro hempty
    rw [hempty] at hw
    exact Finset.notMem_empty u hw

/-- The first `read` gets exactly the header of the frame in front. -/
theorem header_in_front (msg : Packet) (l : List Byte) (junk : Nat → Byte) :
    decode (overlay messageLen ((msg.bytes ++ l).take messageLen) junk) = msg.hdr
      ∧ (msg.bytes ++ l).drop messageLen = msg.body ++ l := by
  rw [Parcel.take_bytes, decode_overlay]
  exact ⟨rfl, Parcel.drop_bytes ..⟩

omit [DecidableEq Tid] in
/-- The queue behind a dispatcher that reads a header is not empty. -/
theorem Refines.front {disp t : Tid} {s : PipeState Tid} {m : Mail Packet}
    {o : Option Tid} (h : Refines disp s m o) (hpc : s.pc t = .readingHeader)
    (hst : ¬ s.starved) :
    ∃ msg q, m.queue = msg :: q ∧ s.fifo = msg.bytes ++ queueBytes q := by
  have hfifo : s.fifo = queueBytes m.queue := (h.linked_at hpc rfl).1
  cases hq : m.queue with
  | nil =>
      rw [hq] at hfifo
      exact absurd hfifo (Sound.fifo_ne_nil h.sound hpc hst)
  | cons msg q =>
      rw [hq] at hfifo
      exact ⟨msg, q, rfl, hfifo⟩

/-- The second `read` completes the frame whose header came with the first. -/
theorem body_in_front (msg : Packet) (l : List Byte) (junk : Nat → Byte) :
    overlay msg.hdr.payload ((msg.body ++ l).take msg.hdr.payload) junk = msg.body
      ∧ (msg.body ++ l).drop msg.hdr.payload = l := by
  rw [← msg.body_length, List.take_left, List.drop_left]
  exact ⟨overlay_full rfl, rfl⟩

/-- **STEP**: with one dispatcher, a step of the pipe is a step of the mailbox or
    nothing to it, and the mailbox is emptied by the close of the last
    descriptor only. -/
theorem mailbox_step {capacity : Nat} {disp t : Tid} {s s' : PipeState Tid}
    {m : Mail Packet} {o : Option Tid} {a : Act} (h : Refines disp s m o)
    (hd : oneDispatcher disp s (t, a)) (hstep : PipeStep capacity s t a s') :
    Mailed disp s' m ∨ ∃ b m', mailbox.step m b = some m' ∧ Mailed disp s' m'
      ∧ (b = .discard → a = .close ∧ lastClose s t ∧ s.fifo = queueBytes m.queue) := by
  obtain ⟨o', hs'⟩ := sound_step h.sound hd hstep
  cases hstep with
  | call hpc =>
      exact Or.inl (Or.inl ⟨o', h.outside hs' (by rw [hpc]; rfl) rfl rfl rfl rfl rfl rfl⟩)
  | openEnter hpc =>
      exact Or.inl (Or.inl ⟨o', h.outside hs' (by rw [hpc]; rfl) rfl
        (PipeState.enroll_pc ..) (PipeState.enroll_lock ..) (PipeState.enroll_fifo ..)
        (PipeState.enroll_returned ..) (PipeState.enroll_written ..)⟩)
  | openReturn hpc =>
      exact Or.inl (Or.inl ⟨o', h.outside hs' (by rw [hpc]; rfl) rfl rfl rfl rfl rfl rfl⟩)
  | badAlloc => exact Or.inl (Or.inr h.dies)
  | failEntry => exact hd.elim
  | failOpening => exact hd.elim
  | errorStore => exact hd.elim
  | spin => exact Or.inl (Or.inl ⟨o, h⟩)
  | @acquire c hpc hl =>
      obtain rfl := h.sound.owned.free hl
      have hfree : s.fifo = queueBytes m.queue
          ∧ wires m.received = s.returned.map Parcel.wire := h.linked
      refine Or.inl (Or.inl ⟨o', hs', ?_, h.sent⟩)
      rw [Sound.holder_goto hs' (holds_locked c)]
      cases c with
      | putMessage msg =>
          exact ⟨⟨[], rfl, by rw [List.append_nil]; exact hfree.1⟩, msg.bytes_ne_nil, hfree.2⟩
      | getMessage => exact hfree
  | sigpipe => exact Or.inl (Or.inr h.dies)
  | @writeSome msg rest k hpc hr hk hlt hcap =>
      obtain ⟨⟨w, hw, hfifo⟩, -, hrec⟩ := h.linked_at hpc rfl
      refine Or.inl (Or.inl ⟨o', hs', ?_, h.sent⟩)
      rw [Sound.holder_goto hs' rfl]
      refine ⟨⟨w ++ rest.take k, ?_, ?_⟩, ?_, hrec⟩
      · rw [List.append_assoc, List.take_append_drop, hw]
      · show s.fifo ++ rest.take k = queueBytes m.queue ++ (w ++ rest.take k)
        rw [hfifo, List.append_assoc]
      · intro hnil
        have := List.drop_eq_nil_iff.mp hnil
        omega
  | @writeAll msg rest hpc hr hk hcap =>
      obtain ⟨⟨w, hw, hfifo⟩, -, hrec⟩ := h.linked_at hpc rfl
      refine Or.inr ⟨.send msg, _, rfl, Or.inl ⟨o', hs', ?_, ?_⟩, fun hb => nomatch hb⟩
      · rw [Sound.holder_goto hs' rfl]
        refine ⟨?_, hrec⟩
        show s.fifo ++ rest = queueBytes (m.queue ++ [msg])
        rw [hfifo, List.append_assoc, hw, queueBytes_append, queueBytes_cons,
          queueBytes_nil, List.append_nil]
      · show m.sent ++ [msg] = s.written ++ [msg]
        rw [h.sent]
  | @readHeader junk hdr hpc hst hh hn =>
      obtain ⟨msg, q, hq, hfifo⟩ := h.front hpc hst
      obtain ⟨hhdr, hdrop⟩ := header_in_front msg (queueBytes q) junk
      have hrec : wires m.received = s.returned.map Parcel.wire := (h.linked_at hpc rfl).2
      have hrecv : mailbox.step m .receive = some ⟨q, m.sent, m.received ++ [msg]⟩ := by
        obtain ⟨queue, snt, rcv⟩ := m
        obtain rfl : queue = msg :: q := hq
        rfl
      refine Or.inr ⟨.receive, _, hrecv, Or.inl ⟨o', hs', ?_, h.sent⟩, fun hb => nomatch hb⟩
      rw [Sound.holder_goto hs' rfl]
      refine ⟨msg, ?_, ?_, ?_⟩
      · rw [hh, hfifo, hhdr]
      · show s.fifo.drop messageLen = msg.body ++ queueBytes q
        rw [hfifo, hdrop]
      · show wires (m.received ++ [msg]) = s.returned.map Parcel.wire ++ [msg.wire]
        rw [wires_append, hrec]
        rfl
  | @badLength junk hdr hpc hst hh hn =>
      -- the header in front is that of a packet, whose length is not negative
      obtain ⟨msg, q, hq, hfifo⟩ := h.front hpc hst
      rw [hfifo, (header_in_front msg (queueBytes q) junk).1] at hh
      rw [hh] at hn
      exact absurd msg.nonneg (Int.not_le.mpr hn)
  | @readBody ptr junk hdr hpc hst =>
      obtain ⟨msg, rfl, hfifo, hrec⟩ := h.linked_at hpc rfl
      obtain ⟨hbody, hdrop⟩ := body_in_front msg (queueBytes m.queue) junk
      refine Or.inl (Or.inl ⟨o', hs', ?_, h.sent⟩)
      rw [Sound.holder_goto hs' rfl]
      refine ⟨?_, ?_⟩
      · show s.fifo.drop msg.hdr.payload = queueBytes m.queue
        rw [hfifo, hdrop]
      · show wires m.received = s.returned.map Parcel.wire ++ [_]
        rw [hrec, hfifo, hbody]
        rfl
  | @close d hpc =>
      have hl : Linked (.unlocking d) s.fifo s.returned m := by
        have hat := h.linked_at hpc rfl
        cases d with
        | put msg => exact hat
        | got r => exact hat
      have hfifo : s.fifo = queueBytes m.queue := by
        cases d with
        | put msg => exact hl.1
        | got r => exact hl.1
      by_cases hlast : lastClose s t
      · refine Or.inr ⟨.discard, ⟨[], m.sent, m.received⟩, ?_, Or.inl ⟨o', hs', ?_, h.sent⟩,
          fun _ => ⟨rfl, hlast, hfifo⟩⟩
        · obtain ⟨queue, snt, rcv⟩ := m
          cases queue <;> rfl
        · rw [Sound.holder_goto hs' rfl]
          have hempty : (s.hangup t).fifo = [] := if_pos hlast
          cases d with
          | put msg => exact ⟨hempty, hl.2⟩
          | got r => exact ⟨hempty, hl.2⟩
      · refine Or.inl (Or.inl ⟨o', hs', ?_, h.sent⟩)
        have hkept : (s.hangup t).fifo = s.fifo := if_neg hlast
        rw [Sound.holder_goto hs' rfl, PipeState.goto_fifo, hkept]
        exact hl
  | @store d hpc =>
      have hat := h.linked_at hpc rfl
      obtain rfl : o' = none := hs'.owned.free rfl
      refine Or.inl (Or.inl ⟨none, hs', ?_, ?_⟩)
      · cases d with
        | put msg => exact hat
        | got r =>
            refine ⟨hat.1, ?_⟩
            show wires m.received = (s.returned ++ [r]).map Parcel.wire
            rw [hat.2, List.map_append]
            rfl
      · show m.sent = (s.finish d).written
        rw [PipeState.finish_written]
        exact h.sent

omit [DecidableEq Tid] in
/-- The empty pipe and the empty mailbox match. -/
theorem refines_init (disp : Tid) :
    Refines disp (pipeInit : PipeState Tid) mailbox.init none where
  sound := sound_init disp
  linked := ⟨rfl, rfl⟩
  sent := rfl

/-- A process that is gone takes no step. -/
theorem Gone.no_step {capacity : Nat} {s s' : PipeState Tid} {m : Mail Packet}
    {l : Tid × Act} (h : Gone s m) (hstep : pipeStep capacity s l = some s') : False := by
  obtain ⟨t, a⟩ := l
  have hpc := h.dead t
  cases pipeStep_iff.mp hstep <;> simp_all

/-! ## Whole runs -/

/-- **REFINEMENT**: a run with one dispatcher is a run of the mailbox. -/
theorem mailed_run {capacity : Nat} {disp : Tid} {s : PipeState Tid}
    (h : Run (pipe capacity) (oneDispatcher disp) s) :
    ∃ m, Run mailbox anyStep m ∧ Mailed disp s m := by
  refine Run.simulate (R := Mailed disp) (Or.inl ⟨none, refines_init disp⟩) ?_ h
  rintro s m l s' (⟨o, hR⟩ | hgone) hd hstep
  · obtain ⟨t, a⟩ := l
    rcases mailbox_step hR hd (pipeStep_iff.mp hstep) with hkeep | ⟨b, m', hb, hR', -⟩
    · exact Or.inl hkeep
    · exact Or.inr ⟨b, m', trivial, hb, hR'⟩
  · exact (hgone.no_step hstep).elim

omit [DecidableEq Tid] in
/-- In every matched state, what was returned is part of what was received and
    what was sent is what was written. -/
theorem Mailed.history {disp : Tid} {s : PipeState Tid} {m : Mail Packet}
    (h : Mailed disp s m) :
    (s.returned.map Parcel.wire).Sublist (wires m.received) ∧ m.sent = s.written := by
  rcases h with ⟨o, hR⟩ | hgone
  · exact ⟨hR.linked.returned, hR.sent⟩
  · exact ⟨hgone.returned, hgone.sent⟩

/-- **NO CORRUPTION, NO DUPLICATE, NO REORDERING**: but for `data_ptr`, what
    `getMessage` returned is a subsequence of what was written, in the order of
    the writes. -/
theorem returned_sublist {capacity : Nat} {disp : Tid} {s : PipeState Tid}
    (h : Run (pipe capacity) (oneDispatcher disp) s) :
    (s.returned.map Parcel.wire).Sublist (wires s.written) := by
  obtain ⟨m, hm, hR⟩ := mailed_run h
  obtain ⟨hret, hsent⟩ := hR.history
  have hrecv : m.received.Sublist m.sent :=
    (List.sublist_append_left m.received m.queue).trans (received_sublist hm)
  rw [← hsent]
  exact hret.trans (hrecv.map (fun msg : Packet => msg.wire))

/-- One line goes through the pipe, and its write takes two pieces. -/
def lineRun : List (Pair × Act) :=
  [(.sender, .call (.putMessage textPacket)), (.sender, .openEnter),
   (.dispatcher, .call .getMessage), (.dispatcher, .openEnter), (.sender, .openReturn),
   (.dispatcher, .openReturn), (.sender, .exchange), (.sender, .write 50),
   (.dispatcher, .exchange), (.sender, .write 4), (.sender, .close), (.sender, .store),
   (.dispatcher, .exchange), (.dispatcher, .readHeader (fun _ => 255)),
   (.dispatcher, .readBody 4096 (fun _ => 255)), (.dispatcher, .close), (.dispatcher, .store)]

theorem returned_sublist_lineRun :
    ∃ s, play (pipe 65536) pipeInit lineRun = some s ∧ s.returned.length = 1
      ∧ (s.returned.map Parcel.wire).Sublist (wires s.written) :=
  have hrun : Follows (pipe 65536) (oneDispatcher .dispatcher) pipeInit lineRun := by decide
  ⟨_, rfl, rfl, returned_sublist (Run.of_play lineRun hrun rfl)⟩

end ChatPipeFrame
