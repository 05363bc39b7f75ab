import AipPkussm.ChatPipeFrameProofs
import AipPkussm.ChatPipeWaitProofs

/-! # What the pipe loses, and when it loses nothing

    `getMessage` opens and closes the FIFO for every single message.  A second
    frame that is in the FIFO when the last descriptor is closed is dropped, and
    a sender that takes the lock between the dispatcher's `close` and its next
    `open` writes to a FIFO without a reader (`dispatcher_loses_messages`).

    A run in which the last descriptor is only ever closed on an empty FIFO
    (`keepsBytes`) and senders take the lock only while the dispatcher has the
    FIFO open (`keepsReader`) refines the mailbox without loss: every message
    whose `putMessage` returned has come out of `getMessage` once the pipe is
    quiet (`losesNothing_of_careful`). -/

namespace ChatPipeLoss

open LittleEndian ChatMessage Transition Channel ChatPipe ChatPipeLock ChatPipeSound
open ChatPipeFrame ChatPipeWait

variable {Tid : Type} [DecidableEq Tid]

/-- The `close` of a descriptor. -/
def isClose : Act → Bool
  | .close => true
  | _ => false

/-- A sender on its way to the lock. -/
def sendsNext : Pc → Bool
  | .spinning (.putMessage _) => true
  | _ => false

instance (s : PipeState Tid) (t : Tid) : Decidable (lastClose s t) :=
  inferInstanceAs (Decidable (s.readers.erase t = ∅ ∧ s.writers.erase t = ∅))

/-- The last descriptor is closed on an empty FIFO only. -/
def keepsBytes (s : PipeState Tid) (l : Tid × Act) : Prop :=
  isClose l.2 = true → lastClose s l.1 → s.fifo = []

/-- A sender takes the lock only while somebody has the FIFO open for reading. -/
def keepsReader (s : PipeState Tid) (l : Tid × Act) : Prop :=
  sendsNext (s.pc l.1) = true → s.lock = false → s.readers ≠ ∅

/-- One dispatcher, and both conditions. -/
def careful (disp : Tid) (s : PipeState Tid) (l : Tid × Act) : Prop :=
  oneDispatcher disp s l ∧ keepsBytes s l ∧ keepsReader s l

instance (disp : Tid) (s : PipeState Tid) (l : Tid × Act) :
    Decidable (careful disp s l) :=
  inferInstanceAs (Decidable (oneDispatcher disp s l
    ∧ (isClose l.2 = true → lastClose s l.1 → s.fifo = [])
    ∧ (sendsNext (s.pc l.1) = true → s.lock = false → s.readers ≠ ∅)))

/-- Nobody is at a `write` that would find no reader. -/
def Heard (s : PipeState Tid) : Prop :=
  ∀ t msg rest, s.pc t = .writing msg rest → s.readers ≠ ∅

/-- The dispatcher waits in `open` and no `putMessage` is in progress. -/
def Quiet (disp : Tid) (s : PipeState Tid) : Prop :=
  s.pc disp = .opening .getMessage ∧ disp ∉ s.woken ∧ ∀ t, putting (s.pc t) = false

/-- What was returned by `getMessage` is, each message once, what `putMessage`
    returned for. -/
def Delivered (s : PipeState Tid) : Prop :=
  (s.returned.map Parcel.wire).Perm (wires s.putDone)

/-- The pipe loses nothing. -/
def LosesNothing (disp : Tid) (s : PipeState Tid) : Prop :=
  Heard s ∧ (Quiet disp s → Delivered s)

/-- The message of a sender that has written and not returned yet. -/
def unacked : Pc → List Packet
  | .closing (.put msg) => [msg]
  | .unlocking (.put msg) => [msg]
  | _ => []

/-- What holds in every state of a careful run; `o` is the thread inside the
    lock. -/
structure Calm (disp : Tid) (s : PipeState Tid) (o : Option Tid) : Prop where
  sound : Sound disp s o
  waits : Waits disp s
  heard : Heard s
  acked : ∀ t, s.pc t ≠ .dead → s.written = s.putDone ++ unacked (holderPc s o)

/-- **STEP**: a sender that took the lock under `keepsReader` keeps its reader. -/
theorem heard_step {capacity : Nat} {disp t : Tid} {s s' : PipeState Tid}
    {o : Option Tid} {a : Act} (h : Calm disp s o) (hd : oneDispatcher disp s (t, a))
    (hk : keepsReader s (t, a)) (hstep : PipeStep capacity s t a s') : Heard s' := by
  -- a move of `t` to a place that is not a `write`
  have hmove : ∀ (r : PipeState Tid) (p : Pc), r.pc = s.pc →
      (∀ msg rest, p ≠ .writing msg rest) →
      (∀ u msg rest, s.pc u = .writing msg rest → r.readers ≠ ∅) → Heard (r.goto t p) := by
    intro r p hpc hp hrest
    exact PipeState.goto_forall
      (fun _ q => ∀ msg rest, q = .writing msg rest → r.readers ≠ ∅) hpc
      (fun msg rest hu => absurd hu (hp msg rest)) (fun u _ => hrest u)
  have hdead : Heard s.terminate := fun _ _ _ hu => nomatch hu
  -- the closing thread holds the lock, so nobody else writes
  have hclosing : ∀ d, s.pc t = .closing d →
      ∀ u msg rest, s.pc u = .writing msg rest → (s.hangup t).readers ≠ ∅ := by
    intro d hpc u msg rest hu
    obtain rfl := h.sound.same_holder hu rfl hpc rfl
    rw [hu] at hpc
    exact nomatch hpc
  cases hstep with
  | call => exact hmove _ _ rfl (fun _ _ hp => nomatch hp) h.heard
  | @openEnter c =>
      refine hmove _ _ (PipeState.enroll_pc ..) (fun _ _ hp => nomatch hp) ?_
      cases c with
      | putMessage _ => exact h.heard
      | getMessage => exact fun _ _ _ _ => Finset.insert_ne_empty t _
  | openReturn => exact hmove _ _ rfl (fun _ _ hp => nomatch hp) h.heard
  | badAlloc => exact hdead
  | failEntry => exact hd.elim
  | failOpening => exact hd.elim
  | errorStore => exact hd.elim
  | spin => exact h.heard
  | @acquire c hpc hl =>
      cases c with
      | putMessage msg =>
          intro u _ _ _
          exact hk (by rw [hpc]; rfl) hl
      | getMessage => exact hmove _ _ rfl (fun _ _ hp => nomatch hp) h.heard
  | sigpipe => exact hdead
  | writeSome _ hr => exact fun _ _ _ _ => hr
  | writeAll => exact hmove _ _ rfl (fun _ _ hp => nomatch hp) h.heard
  | readHeader => exact hmove _ _ rfl (fun _ _ hp => nomatch hp) h.heard
  | badLength => exact hdead
  | readBody => exact hmove _ _ rfl (fun _ _ hp => nomatch hp) h.heard
  | close hpc => exact hmove _ _ rfl (fun _ _ hp => nomatch hp) (hclosing _ hpc)
  | store =>
      refine hmove _ _ (PipeState.finish_pc ..) (fun _ _ hp => nomatch hp) ?_
      intro u msg rest hu
      show (s.finish _).readers ≠ ∅
      rw [PipeState.finish_readers]
      exact h.heard u msg rest hu

/-- **STEP**: what was written is what `putMessage` returned for, and the message
    of the sender that still has the lock. -/
theorem acked_step {capacity : Nat} {disp t : Tid} {s s' : PipeState Tid}
    {o o' : Option Tid} {a : Act} (h : Calm disp s o) (hs' : Sound disp s' o')
    (hd : oneDispatcher disp s (t, a)) (hstep : PipeStep capacity s t a s') :
    ∀ u, s'.pc u ≠ .dead → s'.written = s'.putDone ++ unacked (holderPc s' o') := by
  have hown : OwnedBy s o := h.sound.owned
  have hacked : ∀ {p : Pc}, s.pc t = p → p ≠ .dead →
      s.written = s.putDone ++ unacked (holderPc s o) :=
    fun hpc hp => h.acked t (hpc ▸ hp)
  -- the one that holds the lock is in the place that decides
  have hheld : ∀ {p : Pc}, s.pc t = p → p ≠ .dead → holds p = true →
      s.written = s.putDone ++ unacked p := by
    intro p hpc hlive hp
    have hw := hacked hpc hlive
    rwa [holder_at hown hpc hp] at hw
  -- a thread outside the lock moves outside the lock
  have houtside : ∀ (r : PipeState Tid) (p q : Pc), s.pc t = q → q ≠ .dead →
      holds q = false → holds p = false → r.pc = s.pc → r.lock = s.lock →
      r.written = s.written → r.putDone = s.putDone → OwnedBy (r.goto t p) o' →
      r.written = r.putDone ++ unacked (holderPc (r.goto t p) o') := by
    intro r p q hpc hlive hq hp hpcs hlock hwr hput hown'
    rw [holder_outside hown hown' (by rw [hpc, hq]) hp hpcs hlock, hwr, hput]
    exact hacked hpc hlive
  cases hstep with
  | call hpc =>
      exact fun _ _ => houtside s _ _ hpc (fun hp => nomatch hp) rfl rfl rfl rfl rfl rfl
        hs'.owned
  | openEnter hpc =>
      exact fun _ _ => houtside _ _ _ hpc (fun hp => nomatch hp) rfl rfl
        (PipeState.enroll_pc ..) (PipeState.enroll_lock ..) (PipeState.enroll_written ..)
        (PipeState.enroll_putDone ..) hs'.owned
  | openReturn hpc =>
      exact fun _ _ => houtside s _ _ hpc (fun hp => nomatch hp) rfl rfl rfl rfl rfl rfl
        hs'.owned
  | badAlloc => exact fun _ hu => absurd rfl hu
  | failEntry => exact hd.elim
  | failOpening => exact hd.elim
  | errorStore => exact hd.elim
  | spin hpc =>
      intro _ _
      obtain rfl := owner_unique hown hs'.owned
      exact hacked hpc (fun hp => nomatch hp)
  | @acquire c hpc hl =>
      intro _ _
      obtain rfl := hown.free hl
      rw [Sound.holder_goto hs' (holds_locked c)]
      have hnone : unacked c.locked = [] := by cases c <;> rfl
      rw [hnone]
      exact hacked hpc (fun hp => nomatch hp)
  | sigpipe => exact fun _ hu => absurd rfl hu
  | writeSome hpc =>
      intro _ _
      have hw := hheld hpc (fun hp => nomatch hp) rfl
      rw [Sound.holder_goto hs' rfl]
      exact hw
  | @writeAll msg rest hpc =>
      intro _ _
      have hw := hheld hpc (fun hp => nomatch hp) rfl
      rw [Sound.holder_goto hs' rfl]
      show s.written ++ [msg] = s.putDone ++ [msg]
      rw [hw, show unacked (.writing msg rest) = [] from rfl, List.append_nil]
  | readHeader hpc =>
      intro _ _
      have hw := hheld hpc (fun hp => nomatch hp) rfl
      rw [Sound.holder_goto hs' rfl]
      exact hw
  | badLength => exact fun _ hu => absurd rfl hu
  | readBody hpc =>
      intro _ _
      have hw := hheld hpc (fun hp => nomatch hp) rfl
      rw [Sound.holder_goto hs' rfl]
      exact hw
  | @close d hpc =>
      intro _ _
      have hw := hheld hpc (fun hp => nomatch hp) rfl
      rw [Sound.holder_goto hs' rfl]
      cases d <;> exact hw
  | @store d hpc =>
      intro _ _
      obtain rfl : o' = none := hs'.owned.free rfl
      have hw := hheld hpc (fun hp => nomatch hp) rfl
      show (s.finish d).written = (s.finish d).putDone ++ []
      rw [List.append_nil, PipeState.finish_written]
      cases d with
      | put msg => exact hw
      | got r =>
          show s.written = s.putDone
          rw [hw]
          exact List.append_nil _

/-- **STEP**: a careful run stays calm. -/
theorem calm_step {capacity : Nat} {disp t : Tid} {s s' : PipeState Tid}
    {o : Option Tid} {a : Act} (h : Calm disp s o) (hc : careful disp s (t, a))
    (hstep : PipeStep capacity s t a s') : ∃ o', Calm disp s' o' := by
  obtain ⟨hd, -, hk⟩ := hc
  obtain ⟨o', hs'⟩ := sound_step h.sound hd hstep
  exact ⟨o',
    { sound := hs'
      waits := waits_step h.sound h.waits hd hstep
      heard := heard_step h hd hk hstep
      acked := acked_step h hs' hd hstep }⟩

/-- **RUN**: every state of a careful run is calm. -/
theorem calm_run {capacity : Nat} {disp : Tid} {s : PipeState Tid}
    (h : Run (pipe capacity) (careful disp) s) : ∃ o, Calm disp s o := by
  refine Run.invariant (I := fun s => ∃ o, Calm disp s o) ?_ ?_ h
  · exact ⟨none,
      { sound := sound_init disp
        waits := waits_init disp
        heard := fun _ _ _ hu => nomatch hu
        acked := fun _ _ => rfl }⟩
  · rintro s ⟨t, a⟩ s' ⟨o, ho⟩ hc hstep
    exact calm_step ho hc (pipeStep_iff.mp hstep)

/-- A queue without bytes is empty. -/
theorem queue_of_bytes_nil {q : List Packet} (h : queueBytes q = []) : q = [] := by
  cases q with
  | nil => rfl
  | cons msg q => exact absurd (List.append_eq_nil_iff.mp h).1 msg.bytes_ne_nil

/-- **REFINEMENT WITHOUT LOSS**: a careful run is a run of the mailbox that never
    empties a queue with messages in it. -/
theorem mailed_lossless {capacity : Nat} {disp : Tid} {s : PipeState Tid}
    (h : Run (pipe capacity) (careful disp) s) :
    ∃ m, Run mailbox lossless m ∧ Mailed disp s m := by
  refine Run.simulate (R := Mailed disp) (Or.inl ⟨none, refines_init disp⟩) ?_ h
  rintro s m ⟨t, a⟩ s' (⟨o, hR⟩ | hgone) ⟨hd, hbytes, -⟩ hstep
  · rcases mailbox_step hR hd (pipeStep_iff.mp hstep) with
      hkeep | ⟨b, m', hb, hR', hdiscard⟩
    · exact Or.inl hkeep
    · refine Or.inr ⟨b, m', ?_, hb, hR'⟩
      cases b with
      | send msg => trivial
      | receive => trivial
      | discard =>
          obtain ⟨rfl, hlast, hfifo⟩ := hdiscard rfl
          have hnil : s.fifo = [] := hbytes rfl hlast
          exact queue_of_bytes_nil (hfifo.symm.trans hnil)
  · exact (hgone.no_step hstep).elim

omit [DecidableEq Tid] in
/-- In a quiet pipe nobody is inside the lock. -/
theorem Quiet.unowned {disp : Tid} {s : PipeState Tid} {o : Option Tid}
    (hq : Quiet disp s) (h : Sound disp s o) : o = none := by
  obtain ⟨hopen, -, hput⟩ := hq
  cases o with
  | none => rfl
  | some t =>
      have hholds : holds (s.pc t) = true := (h.owned.owner t).mpr rfl
      have hget : getting (s.pc t) = true := by
        have hnot := hput t
        cases hpc : s.pc t with
        | writing msg rest => rw [hpc] at hnot; exact nomatch hnot
        | readingHeader => rfl
        | readingBody hdr => rfl
        | closing d =>
            cases d with
            | put msg => rw [hpc] at hnot; exact nomatch hnot
            | got r => rfl
        | unlocking d =>
            cases d with
            | put msg => rw [hpc] at hnot; exact nomatch hnot
            | got r => rfl
        | _ => rw [hpc] at hholds; exact nomatch hholds
      obtain rfl := h.role t hget
      rw [hopen] at hholds
      exact nomatch hholds

/-- When a careful run gets quiet, what was returned is what was put, in order. -/
theorem Quiet.returned_eq {capacity : Nat} {disp : Tid} {s : PipeState Tid}
    (hq : Quiet disp s) (h : Run (pipe capacity) (careful disp) s) :
    s.returned.map Parcel.wire = wires s.putDone := by
  obtain ⟨o, hcalm⟩ := calm_run h
  obtain ⟨m, hm, ⟨o', hR⟩ | hgone⟩ := mailed_lossless h
  · obtain rfl := hq.unowned hcalm.sound
    obtain rfl := hq.unowned hR.sound
    obtain ⟨hopen, hin, -⟩ := hq
    have hlinked : s.fifo = queueBytes m.queue
        ∧ wires m.received = s.returned.map Parcel.wire := hR.linked
    have hempty : m.queue = [] :=
      queue_of_bytes_nil (hlinked.1.symm.trans (hcalm.waits.reader hopen hin).2)
    have hacked : s.written = s.putDone ++ [] :=
      hcalm.acked disp (hopen ▸ fun hp => nomatch hp)
    have hall : m.received = m.sent := by
      have := received_all hm
      rwa [hempty, List.append_nil] at this
    rw [← hlinked.2, hall, hR.sent, hacked, List.append_nil]
  · have := hgone.dead disp
    rw [hq.1] at this
    exact nomatch this

/-- **NOTHING IS LOST** in a run in which the last descriptor is closed on an
    empty FIFO only and senders take the lock only while the dispatcher has the
    FIFO open. -/
theorem losesNothing_of_careful {capacity : Nat} {disp : Tid} {s : PipeState Tid}
    (h : Run (pipe capacity) (careful disp) s) : LosesNothing disp s := by
  obtain ⟨o, hcalm⟩ := calm_run h
  refine ⟨hcalm.heard, ?_⟩
  intro hq
  show (s.returned.map Parcel.wire).Perm (wires s.putDone)
  rw [hq.returned_eq h]

/-- One line from the sender, and the dispatcher is back in `open`. -/
def quietRun : List (Pair × Act) :=
  lineRun ++ [(.dispatcher, .call .getMessage), (.dispatcher, .openEnter)]

theorem losesNothing_quietRun :
    ∃ s, play (pipe 65536) pipeInit quietRun = some s ∧ Quiet .dispatcher s
      ∧ LosesNothing .dispatcher s :=
  have hrun : Follows (pipe 65536) (careful .dispatcher) pipeInit quietRun := by decide
  ⟨_, rfl, ⟨rfl, by decide, fun t => by cases t <;> rfl⟩,
    losesNothing_of_careful (Run.of_play quietRun hrun rfl)⟩

/-- Two senders are both past their `open` when the dispatcher, the third thread, comes, and
    the first one sends. -/
def firstLine : List (Trio × Act) :=
  [(.first, .call (.putMessage textPacket)), (.first, .openEnter),
   (.second, .call (.putMessage blankPacket)), (.second, .openEnter), (.third, .call .getMessage),
   (.third, .openEnter), (.first, .openReturn), (.second, .openReturn), (.third, .openReturn),
   (.first, .exchange), (.first, .write 54), (.first, .close), (.first, .store)]

/-- The dispatcher takes one message. -/
def takeLine : List (Trio × Act) :=
  [(.third, .exchange), (.third, .readHeader (fun _ => 0)), (.third, .readBody 0 (fun _ => 0)),
   (.third, .close), (.third, .store)]

/-- Both lines are in the FIFO when the dispatcher closes it. -/
def droppedLine : List (Trio × Act) :=
  firstLine ++ [(.second, .exchange), (.second, .write 52), (.second, .close), (.second, .store)]
    ++ takeLine ++ [(.third, .call .getMessage), (.third, .openEnter)]

/-- The dispatcher has closed the FIFO when the second sender takes the lock. -/
def brokenPipe : List (Trio × Act) :=
  firstLine ++ takeLine ++ [(.second, .exchange)]

/-- **LOSS**: with two senders a `write` can find no reader, and a message can be
    put and never come out. -/
theorem dispatcher_loses_messages :
    (¬ ∀ s : PipeState Trio, Run (pipe 65536) (oneDispatcher .third) s → Heard s)
      ∧ ¬ ∀ s : PipeState Trio, Run (pipe 65536) (oneDispatcher .third) s →
          Quiet .third s → Delivered s := by
  constructor
  · intro h
    have hrun : Follows (pipe 65536) (oneDispatcher .third) pipeInit brokenPipe := by decide
    exact h _ (Run.of_play brokenPipe hrun rfl) .second blankPacket _ rfl rfl
  · intro h
    have hrun : Follows (pipe 65536) (oneDispatcher .third) pipeInit droppedLine := by decide
    have hperm := h _ (Run.of_play droppedLine hrun rfl)
      ⟨rfl, by decide, fun t => by cases t <;> rfl⟩
    exact absurd hperm.length_eq (by decide)

end ChatPipeLoss
