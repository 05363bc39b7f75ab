import AipPkussm.ChatPipeFrameProofs
import AipPkussm.ChatPipeWaitProofs

/-! # When the pipe gets stuck

    Both operations keep the spin lock across a blocking system call.  A
    dispatcher that takes the lock while the FIFO is still empty blocks in
    `read`, and the sender it waits for spins on the lock for ever
    (`reader_blocks_writer`); a sender whose frame does not fit into what is
    left of the FIFO blocks in `write`, and the dispatcher that would make room
    spins.

    When the lock is only ever taken by a thread whose transfer can go through
    at once (`Fits`), there is always a thread that can go on while a
    `putMessage` is in progress (`canStep_of_prompt`). -/

namespace ChatPipeProgress

open LittleEndian ChatMessage Transition Channel ChatPipe ChatPipeLock ChatPipeSound
open ChatPipeFrame ChatPipeWait

variable {Tid : Type} [DecidableEq Tid]

/-- The thread can only spin: it wants the lock and somebody has it. -/
def Spins (s : PipeState Tid) (t : Tid) : Prop :=
  ∃ c, s.pc t = .spinning c ∧ s.lock = true

/-- A new call of `putMessage`. -/
def startsPut : Act → Bool
  | .call (.putMessage _) => true
  | _ => false

/-- Some thread can go on: a call in progress, or the dispatcher, has a step
    other than spinning. -/
def CanStep (capacity : Nat) (disp : Tid) (s : PipeState Tid) : Prop :=
  ∃ t a s', oneDispatcher disp s (t, a) ∧ startsPut a = false ∧ ¬ Spins s t
    ∧ pipeStep capacity s (t, a) = some s'

/-- The transfer of a thread that is about to take the lock can go through: there
    is something to read, or room for the whole frame. -/
def Fits (capacity : Nat) (s : PipeState Tid) : Pc → Prop
  | .spinning .getMessage => s.fifo ≠ []
  | .spinning (.putMessage msg) => s.fifo.length + msg.bytes.length ≤ capacity
  | _ => True

instance (capacity : Nat) (s : PipeState Tid) (p : Pc) : Decidable (Fits capacity s p) :=
  match p with
  | .spinning .getMessage => inferInstanceAs (Decidable (s.fifo ≠ []))
  | .spinning (.putMessage _) => inferInstanceAs (Decidable (_ ≤ _))
  | .idle => isTrue trivial
  | .entry _ => isTrue trivial
  | .opening _ => isTrue trivial
  | .failed _ => isTrue trivial
  | .writing _ _ => isTrue trivial
  | .readingHeader => isTrue trivial
  | .readingBody _ => isTrue trivial
  | .closing _ => isTrue trivial
  | .unlocking _ => isTrue trivial
  | .dead => isTrue trivial

/-- One dispatcher, and nobody takes a free lock before its transfer fits. -/
def prompt (capacity : Nat) (disp : Tid) (s : PipeState Tid) (l : Tid × Act) : Prop :=
  oneDispatcher disp s l ∧ (s.lock = false → Fits capacity s (s.pc l.1))

instance (capacity : Nat) (disp : Tid) (s : PipeState Tid) (l : Tid × Act) :
    Decidable (prompt capacity disp s l) :=
  inferInstanceAs (Decidable (oneDispatcher disp s l
    ∧ (s.lock = false → Fits capacity s (s.pc l.1))))

/-- The transfer of the thread inside the lock can go through. -/
structure Able (capacity : Nat) (s : PipeState Tid) : Prop where
  room : ∀ t msg rest, s.pc t = .writing msg rest →
    s.fifo.length + rest.length ≤ capacity
  bytes : ∀ t, s.pc t = .readingHeader → s.fifo ≠ []

/-- **STEP**: what fitted when the lock was taken goes on fitting. -/
theorem able_step {capacity : Nat} {disp t : Tid} {s s' : PipeState Tid}
    {o : Option Tid} {a : Act} (hs : Sound disp s o) (h : Able capacity s)
    (hp : prompt capacity disp s (t, a)) (hstep : PipeStep capacity s t a s') :
    Able capacity s' := by
  obtain ⟨hd, hfits⟩ := hp
  -- `t` is outside the lock before and after, and the bytes stay
  have hmove : ∀ (r : PipeState Tid) (p : Pc), r.pc = s.pc → r.fifo = s.fifo →
      (∀ msg rest, p ≠ .writing msg rest) → p ≠ .readingHeader →
      Able capacity (r.goto t p) := by
    intro r p hpc hfifo hw hr
    constructor
    · rw [PipeState.goto_fifo, hfifo]
      exact PipeState.goto_forall (fun _ q => ∀ msg rest, q = .writing msg rest →
          s.fifo.length + rest.length ≤ capacity) hpc
        (fun msg rest hu => absurd hu (hw msg rest)) (fun u _ => h.room u)
    · rw [PipeState.goto_fifo, hfifo]
      exact PipeState.goto_forall (fun _ q => q = .readingHeader → s.fifo ≠ []) hpc
        (fun hu => absurd hu hr) (fun u _ => h.bytes u)
  -- `t` is the holder, so nobody else is inside the lock
  have hholder : ∀ (r : PipeState Tid) (p q : Pc), s.pc t = q → holds q = true →
      r.pc = s.pc →
      (∀ msg rest, p = .writing msg rest → r.fifo.length + rest.length ≤ capacity) →
      p ≠ .readingHeader → Able capacity (r.goto t p) := by
    intro r p q hq hh hpc hw hr
    constructor
    · exact PipeState.goto_forall (fun _ q => ∀ msg rest, q = .writing msg rest →
          r.fifo.length + rest.length ≤ capacity) hpc hw
        (fun u hut msg rest hu => absurd (hs.same_holder hu rfl hq hh) hut)
    · exact PipeState.goto_forall (fun _ q => q = .readingHeader → r.fifo ≠ []) hpc
        (fun hu => absurd hu hr)
        (fun u hut hu => absurd (hs.same_holder hu rfl hq hh) hut)
  have hdead : Able capacity s.terminate :=
    ⟨fun _ _ _ hu => (nomatch hu), fun _ hu => (nomatch hu)⟩
  cases hstep with
  | call => exact hmove _ _ rfl rfl (fun _ _ hq => nomatch hq) (fun hq => nomatch hq)
  | openEnter =>
      exact hmove _ _ (PipeState.enroll_pc ..) (PipeState.enroll_fifo ..)
        (fun _ _ hq => nomatch hq) (fun hq => nomatch hq)
  | openReturn =>
      exact hmove _ _ rfl rfl (fun _ _ hq => nomatch hq) (fun hq => nomatch hq)
  | badAlloc => exact hdead
  | failEntry => exact hd.elim
  | failOpening => exact hd.elim
  | errorStore => exact hd.elim
  | spin => exact h
  | @acquire c hpc hl =>
      have hfit := hfits hl
      rw [hpc] at hfit
      obtain rfl := hs.owned.free hl
      have hnone : ∀ u, holds (s.pc u) = false := by
        intro u
        rw [Bool.eq_false_iff]
        intro hu
        exact nomatch (hs.owned.2 u).mp hu
      have hpcs : ({ s with lock := true } : PipeState Tid).pc = s.pc := rfl
      constructor
      · refine PipeState.goto_forall (fun _ q => ∀ msg rest, q = .writing msg rest →
          s.fifo.length + rest.length ≤ capacity) hpcs ?_ ?_
        · intro msg rest hu
          cases c with
          | putMessage msg' =>
              obtain ⟨rfl, rfl⟩ := Pc.writing.inj hu
              exact hfit
          | getMessage => exact nomatch hu
        · intro u _ msg rest hu
          have hno := hnone u
          rw [hu] at hno
          exact nomatch hno
      · refine PipeState.goto_forall (fun _ q => q = .readingHeader → s.fifo ≠ []) hpcs
          ?_ ?_
        · intro hu
          cases c with
          | putMessage msg' => exact nomatch hu
          | getMessage => exact hfit
        · intro u _ hu
          have hno := hnone u
          rw [hu] at hno
          exact nomatch hno
  | sigpipe => exact hdead
  | @writeSome msg rest k hpc hr hk hlt =>
      refine hholder _ _ _ hpc rfl rfl ?_ (fun hq => nomatch hq)
      intro msg' rest' hq
      obtain ⟨rfl, rfl⟩ := Pc.writing.inj hq
      have hroom := h.room t msg rest hpc
      show (s.fifo ++ rest.take k).length + (rest.drop k).length ≤ capacity
      rw [List.length_append, List.length_take, List.length_drop]
      omega
  | writeAll hpc =>
      exact hholder _ _ _ hpc rfl rfl (fun _ _ hq => nomatch hq) (fun hq => nomatch hq)
  | readHeader hpc =>
      exact hholder _ _ _ hpc rfl rfl (fun _ _ hq => nomatch hq) (fun hq => nomatch hq)
  | badLength => exact hdead
  | readBody hpc =>
      exact hholder _ _ _ hpc rfl rfl (fun _ _ hq => nomatch hq) (fun hq => nomatch hq)
  | close hpc =>
      exact hholder _ _ _ hpc rfl rfl (fun _ _ hq => nomatch hq) (fun hq => nomatch hq)
  | store =>
      exact hmove _ _ (PipeState.finish_pc ..) (PipeState.finish_fifo ..)
        (fun _ _ hq => nomatch hq) (fun hq => nomatch hq)

/-! ## Somebody can go on -/

/-- A step that is not a call and starts from a place where nobody spins. -/
theorem canStep_of_rule {capacity : Nat} {disp t : Tid} {s s' : PipeState Tid} {a : Act}
    {p : Pc} (hpc : s.pc t = p) (hp : ∀ c, p ≠ .spinning c)
    (hstep : PipeStep capacity s t a s') (hd : oneDispatcher disp s (t, a))
    (ha : startsPut a = false) : CanStep capacity disp s := by
  refine ⟨t, a, s', hd, ha, ?_, pipeStep_iff.mpr hstep⟩
  rintro ⟨c, hc, -⟩
  exact hp c (hpc.symm.trans hc)

/-- The thread inside the lock can go on. -/
theorem canStep_of_holder {capacity : Nat} {disp t : Tid} {s : PipeState Tid}
    {m : Mail Packet} {o : Option Tid} (hR : Refines disp s m o) (h : Able capacity s)
    (ht : holds (s.pc t) = true) : CanStep capacity disp s := by
  cases hpc : s.pc t with
  | writing msg rest =>
      by_cases hr : s.readers = ∅
      · have hstep : PipeStep capacity s t (.write 1) _ := PipeStep.sigpipe hpc hr
        exact canStep_of_rule hpc (fun _ hq => nomatch hq) hstep trivial rfl
      · have hne : rest ≠ [] := (hR.linked_at hpc rfl).2.1
        have hpos : 0 < rest.length := List.length_pos_of_ne_nil hne
        exact canStep_of_rule hpc (fun _ hq => nomatch hq)
          (PipeStep.writeAll hpc hr hpos (h.room t msg rest hpc)) trivial rfl
  | readingHeader =>
      have hst : ¬ s.starved := fun hs => h.bytes t hpc hs.1
      by_cases hn : 0 ≤ (decode (overlay messageLen (s.fifo.take messageLen)
          (fun _ => 0))).size
      · exact canStep_of_rule hpc (fun _ hq => nomatch hq)
          (PipeStep.readHeader hpc hst rfl hn) trivial rfl
      · exact canStep_of_rule hpc (fun _ hq => nomatch hq)
          (PipeStep.badLength hpc hst rfl (Int.not_le.mp hn)) trivial rfl
  | readingBody hdr =>
      obtain ⟨msg, rfl, hfifo, -⟩ := hR.linked_at hpc rfl
      have hst : ¬ (0 < msg.hdr.payload ∧ s.starved) := by
        rintro ⟨hpos, hnil, -⟩
        rw [hfifo] at hnil
        have hbody : msg.body = [] := (List.append_eq_nil_iff.mp hnil).1
        have hlen := msg.body_length
        rw [hbody] at hlen
        exact absurd hlen (Nat.ne_of_lt hpos)
      have hstep : PipeStep capacity s t (.readBody 0 (fun _ => 0)) _ :=
        PipeStep.readBody hpc hst
      exact canStep_of_rule hpc (fun _ hq => nomatch hq) hstep trivial rfl
  | closing d =>
      exact canStep_of_rule hpc (fun _ hq => nomatch hq)
        (PipeStep.close hpc) trivial rfl
  | unlocking d =>
      exact canStep_of_rule hpc (fun _ hq => nomatch hq)
        (PipeStep.store hpc) trivial rfl
  | _ =>
      rw [hpc] at ht
      exact nomatch ht

/-- A thread whose `open` is over or whose `open` need not wait can go on. -/
theorem canStep_of_woken {capacity : Nat} {disp t : Tid} {s : PipeState Tid} {c : Call}
    (hpc : s.pc t = .opening c) (hw : t ∈ s.woken) : CanStep capacity disp s := by
  cases ha : c.allocates with
  | true =>
      exact canStep_of_rule hpc (fun _ hq => nomatch hq)
        (PipeStep.openReturn hpc hw ha) trivial rfl
  | false =>
      exact canStep_of_rule hpc (fun _ hq => nomatch hq)
        (PipeStep.badAlloc hpc hw ha) trivial rfl

/-- With the lock free, the dispatcher can go on, or it waits in `open` and then
    the sender can. -/
theorem canStep_of_free {capacity : Nat} {disp t : Tid} {s : PipeState Tid}
    (hs : Sound disp s none) (h : Waits disp s) (ht : putting (s.pc t) = true) :
    CanStep capacity disp s := by
  have hfree : s.lock = false := hs.owned.1
  have hnone : ∀ {u : Tid} {p : Pc}, s.pc u = p → holds p = true → False := by
    intro u p hpc hp
    exact nomatch hs.owned.of_pc hpc hp
  have halive : s.pc t ≠ .dead := by
    intro hdead
    rw [hdead] at ht
    exact nomatch ht
  have hproper := h.proper halive
  have hdisp := hproper disp
  cases hpc : s.pc disp with
  | idle =>
      exact canStep_of_rule hpc (fun _ hq => nomatch hq)
        (PipeStep.call (c := .getMessage) hpc) rfl rfl
  | entry c =>
      exact canStep_of_rule hpc (fun _ hq => nomatch hq)
        (PipeStep.openEnter hpc) trivial rfl
  | opening c =>
      by_cases hw : disp ∈ s.woken
      · exact canStep_of_woken hpc hw
      · cases c with
        | putMessage msg =>
            rw [hpc] at hdisp
            exact absurd rfl (hdisp rfl)
        | getMessage =>
            -- nobody has the FIFO open for writing: the sender is before its open
            have hwr : s.writers = ∅ := (h.reader hpc hw).1
            cases hpt : s.pc t with
            | entry c =>
                exact canStep_of_rule hpt (fun _ hq => nomatch hq)
                  (PipeStep.openEnter hpt) trivial rfl
            | opening c =>
                rw [hpt] at ht
                cases c with
                | putMessage msg => exact absurd hwr (writers_ne_empty hs.ends hpt rfl)
                | getMessage => exact nomatch ht
            | spinning c =>
                rw [hpt] at ht
                cases c with
                | putMessage msg => exact absurd hwr (writers_ne_empty hs.ends hpt rfl)
                | getMessage => exact nomatch ht
            | failed c =>
                have hprop := hproper t
                rw [hpt] at hprop
                exact hprop.elim
            | writing msg rest => exact (hnone hpt rfl).elim
            | closing d => exact (hnone hpt rfl).elim
            | unlocking d => exact (hnone hpt rfl).elim
            | _ =>
                rw [hpt] at ht
                exact nomatch ht
  | spinning c =>
      refine ⟨disp, .exchange, _, trivial, rfl, ?_, pipeStep_iff.mpr
        (PipeStep.acquire hpc hfree)⟩
      rintro ⟨c', -, hl⟩
      rw [hfree] at hl
      exact nomatch hl
  | writing msg rest => exact (hnone hpc rfl).elim
  | readingHeader => exact (hnone hpc rfl).elim
  | readingBody hdr => exact (hnone hpc rfl).elim
  | closing d => exact (hnone hpc rfl).elim
  | unlocking d => exact (hnone hpc rfl).elim
  | failed c =>
      rw [hpc] at hdisp
      exact hdisp.elim
  | dead =>
      rw [hpc] at hdisp
      exact hdisp.elim

/-- **RUN**: in a prompt run the invariants of the pipe hold, and what is under
    way fits. -/
theorem able_run {capacity : Nat} {disp : Tid} {s : PipeState Tid}
    (h : Run (pipe capacity) (prompt capacity disp) s) :
    (∃ o, Sound disp s o) ∧ Waits disp s ∧ Able capacity s := by
  refine Run.invariant
    (I := fun s => (∃ o, Sound disp s o) ∧ Waits disp s ∧ Able capacity s) ?_ ?_ h
  · exact ⟨⟨none, sound_init disp⟩, waits_init disp,
      ⟨fun _ _ _ hu => (nomatch hu), fun _ hu => (nomatch hu)⟩⟩
  · rintro s ⟨t, a⟩ s' ⟨⟨o, hs⟩, hw, hable⟩ hp hstep
    have hrule := pipeStep_iff.mp hstep
    exact ⟨sound_step hs hp.1 hrule, waits_step hs hw hp.1 hrule,
      able_step hs hable hp hrule⟩

/-- **PROGRESS**: when nobody takes a free lock before its transfer fits, some
    thread can go on as long as a `putMessage` is in progress. -/
theorem canStep_of_prompt {capacity : Nat} {disp : Tid} {s : PipeState Tid}
    (h : Run (pipe capacity) (prompt capacity disp) s)
    (hput : ∃ t, putting (s.pc t) = true) : CanStep capacity disp s := by
  obtain ⟨⟨o, hs⟩, hw, hable⟩ := able_run h
  obtain ⟨t, ht⟩ := hput
  obtain ⟨m, -, ⟨o', hR⟩ | hgone⟩ := mailed_run (h.mono (fun _ _ hp => hp.1))
  · cases o with
    | none => exact canStep_of_free hs hw ht
    | some u => exact canStep_of_holder hR hable ((hs.owned.2 u).mpr rfl)
  · rw [hgone.dead t] at ht
    exact nomatch ht

/-- The sender is in its `write`, its frame partly in the FIFO. -/
def halfRun : List (Pair × Act) :=
  [(.sender, .call (.putMessage textPacket)), (.sender, .openEnter),
   (.dispatcher, .call .getMessage), (.dispatcher, .openEnter), (.sender, .openReturn),
   (.dispatcher, .openReturn), (.sender, .exchange), (.sender, .write 50)]

theorem canStep_halfRun :
    ∃ s, play (pipe 65536) pipeInit halfRun = some s ∧ CanStep 65536 .dispatcher s :=
  have hrun : Follows (pipe 65536) (prompt 65536 .dispatcher) pipeInit halfRun := by decide
  ⟨_, rfl, canStep_of_prompt (Run.of_play halfRun hrun rfl) ⟨.sender, rfl⟩⟩

/-! ## The dispatcher takes the lock too early -/

/-- A dispatcher that is blocked in its first `read` with the lock, and senders
    that all want the lock: nobody can go on. -/
theorem stuck_of_blocked_reader {capacity : Nat} {disp : Tid} {s : PipeState Tid}
    (hlock : s.lock = true) (hpc : s.pc disp = .readingHeader) (hst : s.starved)
    (hspin : ∀ t, t ≠ disp → ∃ c, s.pc t = .spinning c) : ¬ CanStep capacity disp s := by
  rintro ⟨t, a, s', -, -, hnot, hstep⟩
  by_cases ht : t = disp
  · subst ht
    cases pipeStep_iff.mp hstep with
    | readHeader _ hns => exact hns hst
    | badLength _ hns => exact hns hst
    | call hq => rw [hpc] at hq; exact nomatch hq
    | openEnter hq => rw [hpc] at hq; exact nomatch hq
    | openReturn hq => rw [hpc] at hq; exact nomatch hq
    | badAlloc hq => rw [hpc] at hq; exact nomatch hq
    | failEntry hq => rw [hpc] at hq; exact nomatch hq
    | failOpening hq => rw [hpc] at hq; exact nomatch hq
    | errorStore hq => rw [hpc] at hq; exact nomatch hq
    | spin hq => rw [hpc] at hq; exact nomatch hq
    | acquire hq => rw [hpc] at hq; exact nomatch hq
    | sigpipe hq => rw [hpc] at hq; exact nomatch hq
    | writeSome hq => rw [hpc] at hq; exact nomatch hq
    | writeAll hq => rw [hpc] at hq; exact nomatch hq
    | readBody hq => rw [hpc] at hq; exact nomatch hq
    | close hq => rw [hpc] at hq; exact nomatch hq
    | store hq => rw [hpc] at hq; exact nomatch hq
  · obtain ⟨c, hc⟩ := hspin t ht
    exact hnot ⟨c, hc, hlock⟩

/-- The dispatcher wins the lock after the rendezvous in `open`. -/
def earlyReader : List (Pair × Act) :=
  [(.sender, .call (.putMessage blankPacket)), (.sender, .openEnter),
   (.dispatcher, .call .getMessage), (.dispatcher, .openEnter), (.sender, .openReturn),
   (.dispatcher, .openReturn), (.dispatcher, .exchange)]

/-- **DEADLOCK**: the sender spins for ever on the lock of a dispatcher that waits
    for the sender's bytes. -/
theorem reader_blocks_writer :
    ¬ ∀ s : PipeState Pair, Run (pipe 65536) (oneDispatcher .dispatcher) s →
        (∃ t, putting (s.pc t) = true) → CanStep 65536 .dispatcher s := by
  intro h
  have hrun : Follows (pipe 65536) (oneDispatcher .dispatcher) pipeInit earlyReader := by decide
  refine stuck_of_blocked_reader rfl rfl ⟨rfl, by decide⟩ ?_
    (h _ (Run.of_play earlyReader hrun rfl) ⟨.sender, rfl⟩)
  intro t ht
  cases t with
  | sender => exact ⟨_, rfl⟩
  | dispatcher => exact absurd rfl ht

end ChatPipeProgress
