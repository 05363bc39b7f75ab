import AipPkussm.ChatPipeLockProofs

/-! # One dispatcher, any number of senders: what always holds

    The server has one thread that repeats `getMessage` and any number of
    threads that call `putMessage` (`oneDispatcher`; no `open` fails).  `Sound`
    collects what holds in every state of such runs (`sound_run`): the lock has
    an owner, the two descriptor counts are those of the threads' places, only
    the dispatcher reads, a writer that is about to close left its bytes in the
    FIFO, and, the fact that keeps `getMessage` from reading an end of file, a
    dispatcher whose `open` is over finds bytes in the FIFO or a writer that
    has not written yet. -/

namespace ChatPipeSound

open LittleEndian ChatMessage Transition Channel ChatPipe ChatPipeLock

variable {Tid : Type} [DecidableEq Tid]

/-- Only `disp` reads, and it does nothing else; no `open` fails. -/
def oneDispatcher (disp : Tid) (_ : PipeState Tid) (l : Tid × Act) : Prop :=
  match l.2 with
  | .call (.putMessage _) => l.1 ≠ disp
  | .call .getMessage => l.1 = disp
  | .openFail => False
  | .errorStore _ => False
  | _ => True

instance (disp : Tid) (s : PipeState Tid) (l : Tid × Act) :
    Decidable (oneDispatcher disp s l) :=
  match l with
  | (_, .call (.putMessage _)) => inferInstanceAs (Decidable (_ ≠ _))
  | (_, .call .getMessage) => inferInstanceAs (Decidable (_ = _))
  | (_, .openFail) => isFalse (fun h => h)
  | (_, .errorStore _) => isFalse (fun h => h)
  | (_, .openEnter) => isTrue trivial
  | (_, .openReturn) => isTrue trivial
  | (_, .exchange) => isTrue trivial
  | (_, .write _) => isTrue trivial
  | (_, .readHeader _) => isTrue trivial
  | (_, .readBody _ _) => isTrue trivial
  | (_, .close) => isTrue trivial
  | (_, .store) => isTrue trivial

/-- The thread has the FIFO open for reading, or waits for that. -/
def atReadEnd : Pc → Bool
  | .opening .getMessage => true
  | .spinning .getMessage => true
  | .readingHeader => true
  | .readingBody _ => true
  | .closing (.got _) => true
  | _ => false

/-- The thread has the FIFO open for writing, or waits for that. -/
def atWriteEnd : Pc → Bool
  | .opening (.putMessage _) => true
  | .spinning (.putMessage _) => true
  | .writing _ _ => true
  | .closing (.put _) => true
  | _ => false

/-- The thread is on its way to its `write`, or in it. -/
def unwritten : Pc → Bool
  | .opening (.putMessage _) => true
  | .spinning (.putMessage _) => true
  | .writing _ _ => true
  | _ => false

/-- The thread is inside `getMessage`. -/
def getting : Pc → Bool
  | .entry .getMessage => true
  | .opening .getMessage => true
  | .failed .getMessage => true
  | .spinning .getMessage => true
  | .readingHeader => true
  | .readingBody _ => true
  | .closing (.got _) => true
  | .unlocking (.got _) => true
  | _ => false

/-- The thread is inside `putMessage`. -/
def putting : Pc → Bool
  | .entry (.putMessage _) => true
  | .opening (.putMessage _) => true
  | .failed (.putMessage _) => true
  | .spinning (.putMessage _) => true
  | .writing _ _ => true
  | .closing (.put _) => true
  | .unlocking (.put _) => true
  | _ => false

/-! ## The descriptor counts -/

/-- The ends the FIFO counts are those of the threads' places. -/
structure Ends (s : PipeState Tid) : Prop where
  readers : ∀ t, t ∈ s.readers ↔ atReadEnd (s.pc t) = true
  writers : ∀ t, t ∈ s.writers ↔ atWriteEnd (s.pc t) = true

/-- A thread that moves without opening or closing. -/
theorem Ends.move {s r : PipeState Tid} {t : Tid} {p : Pc} (h : Ends s)
    (hrd : r.readers = s.readers) (hwr : r.writers = s.writers) (hpc : r.pc = s.pc)
    (hp : atReadEnd p = atReadEnd (s.pc t)) (hq : atWriteEnd p = atWriteEnd (s.pc t)) :
    Ends (r.goto t p) := by
  constructor
  · rw [PipeState.goto_readers, hrd]
    refine PipeState.goto_forall (fun u q => u ∈ s.readers ↔ atReadEnd q = true) hpc ?_
      (fun u _ => h.readers u)
    rw [hp]
    exact h.readers t
  · rw [PipeState.goto_writers, hwr]
    refine PipeState.goto_forall (fun u q => u ∈ s.writers ↔ atWriteEnd q = true) hpc ?_
      (fun u _ => h.writers u)
    rw [hq]
    exact h.writers t

/-- A thread enters `open`. -/
theorem Ends.enroll {s : PipeState Tid} {t : Tid} {c : Call} (h : Ends s)
    (hpc : s.pc t = .entry c) : Ends ((s.enroll t c).goto t (.opening c)) := by
  have hr : t ∉ s.readers := by
    intro ht
    have := (h.readers t).mp ht
    rw [hpc] at this
    exact nomatch this
  have hw : t ∉ s.writers := by
    intro ht
    have := (h.writers t).mp ht
    rw [hpc] at this
    exact nomatch this
  have hpcs : (s.enroll t c).pc = s.pc := PipeState.enroll_pc ..
  constructor
  · rw [PipeState.goto_readers]
    cases c with
    | putMessage msg =>
        exact PipeState.goto_forall (fun u q => u ∈ s.readers ↔ atReadEnd q = true)
          hpcs (iff_of_false hr Bool.false_ne_true)
          (fun u _ => h.readers u)
    | getMessage =>
        exact PipeState.goto_forall
          (fun u q => u ∈ insert t s.readers ↔ atReadEnd q = true) hpcs
          (iff_of_true (Finset.mem_insert_self ..) rfl)
          (fun u hu => (Finset.mem_insert.trans (or_iff_right hu)).trans (h.readers u))
  · rw [PipeState.goto_writers]
    cases c with
    | putMessage msg =>
        exact PipeState.goto_forall
          (fun u q => u ∈ insert t s.writers ↔ atWriteEnd q = true) hpcs
          (iff_of_true (Finset.mem_insert_self ..) rfl)
          (fun u hu => (Finset.mem_insert.trans (or_iff_right hu)).trans (h.writers u))
    | getMessage =>
        exact PipeState.goto_forall (fun u q => u ∈ s.writers ↔ atWriteEnd q = true)
          hpcs (iff_of_false hw Bool.false_ne_true)
          (fun u _ => h.writers u)

/-- A thread closes its descriptor. -/
theorem Ends.hangup {s : PipeState Tid} {t : Tid} {p : Pc} (h : Ends s)
    (hp : atReadEnd p = false) (hq : atWriteEnd p = false) :
    Ends ((s.hangup t).goto t p) := by
  have hpcs : (s.hangup t).pc = s.pc := rfl
  constructor
  · rw [PipeState.goto_readers, PipeState.hangup_readers]
    refine PipeState.goto_forall (fun u q => u ∈ s.readers.erase t ↔ atReadEnd q = true)
      hpcs ?_
      (fun u hu => (Finset.mem_erase.trans (and_iff_right hu)).trans (h.readers u))
    rw [hp]
    exact iff_of_false (Finset.notMem_erase t _) Bool.false_ne_true
  · rw [PipeState.goto_writers, PipeState.hangup_writers]
    refine PipeState.goto_forall (fun u q => u ∈ s.writers.erase t ↔ atWriteEnd q = true)
      hpcs ?_
      (fun u hu => (Finset.mem_erase.trans (and_iff_right hu)).trans (h.writers u))
    rw [hq]
    exact iff_of_false (Finset.notMem_erase t _) Bool.false_ne_true

omit [DecidableEq Tid] in
/-- In a dead process nothing is open. -/
theorem ends_terminate (s : PipeState Tid) : Ends s.terminate :=
  ⟨fun _ => iff_of_false (Finset.notMem_empty _) Bool.false_ne_true,
   fun _ => iff_of_false (Finset.notMem_empty _) Bool.false_ne_true⟩

/-- **STEP**: the descriptor counts stay right. -/
theorem ends_step {capacity : Nat} {s s' : PipeState Tid} {t : Tid} {a : Act}
    (h : Ends s) (hstep : PipeStep capacity s t a s') : Ends s' := by
  cases hstep with
  | call hpc => exact h.move rfl rfl rfl (by rw [hpc]; rfl) (by rw [hpc]; rfl)
  | openEnter hpc => exact h.enroll hpc
  | @openReturn c hpc =>
      exact h.move rfl rfl rfl (by rw [hpc]; cases c <;> rfl) (by rw [hpc]; cases c <;> rfl)
  | badAlloc => exact ends_terminate s
  | failEntry hpc => exact h.move rfl rfl rfl (by rw [hpc]; rfl) (by rw [hpc]; rfl)
  | failOpening => exact h.hangup rfl rfl
  | @errorStore c junk hpc =>
      cases c with
      | putMessage msg => exact h.move rfl rfl rfl (by rw [hpc]; rfl) (by rw [hpc]; rfl)
      | getMessage => exact h.move rfl rfl rfl (by rw [hpc]; rfl) (by rw [hpc]; rfl)
  | spin => exact h
  | @acquire c hpc =>
      exact h.move rfl rfl rfl (by rw [hpc]; cases c <;> rfl) (by rw [hpc]; cases c <;> rfl)
  | sigpipe => exact ends_terminate s
  | writeSome hpc => exact h.move rfl rfl rfl (by rw [hpc]; rfl) (by rw [hpc]; rfl)
  | writeAll hpc => exact h.move rfl rfl rfl (by rw [hpc]; rfl) (by rw [hpc]; rfl)
  | readHeader hpc => exact h.move rfl rfl rfl (by rw [hpc]; rfl) (by rw [hpc]; rfl)
  | badLength => exact ends_terminate s
  | readBody hpc => exact h.move rfl rfl rfl (by rw [hpc]; rfl) (by rw [hpc]; rfl)
  | close => exact h.hangup rfl rfl
  | store hpc =>
      exact h.move (PipeState.finish_readers ..) (PipeState.finish_writers ..)
        (PipeState.finish_pc ..) (by rw [hpc]; rfl) (by rw [hpc]; rfl)

/-! ## What a reader can count on -/

/-- Something can be read, now or after a writer under way has written. -/
def pending (s : PipeState Tid) : Prop :=
  s.fifo ≠ [] ∨ ∃ u, unwritten (s.pc u) = true

/-- The places of a reader that has not read yet. -/
def awaits : Pc → Bool
  | .opening .getMessage => true
  | .spinning .getMessage => true
  | .readingHeader => true
  | _ => false

/-- A reader whose `open` is over, or need not wait, and that has not read yet. -/
def awaiting (s : PipeState Tid) (t : Tid) : Prop :=
  awaits (s.pc t) = true ∧ (s.pc t = .opening .getMessage → t ∈ s.woken)

theorem atReadEnd_of_awaits {p : Pc} (h : awaits p = true) : atReadEnd p = true := by
  cases p with
  | opening c => cases c <;> first | rfl | exact nomatch h
  | spinning c => cases c <;> first | rfl | exact nomatch h
  | readingHeader => rfl
  | _ => exact nomatch h

theorem getting_of_atReadEnd {p : Pc} (h : atReadEnd p = true) : getting p = true := by
  cases p with
  | opening c => cases c <;> first | rfl | exact nomatch h
  | spinning c => cases c <;> first | rfl | exact nomatch h
  | readingHeader => rfl
  | readingBody _ => rfl
  | closing d => cases d <;> first | rfl | exact nomatch h
  | _ => exact nomatch h

/-- What holds in every state of a run with one dispatcher; `o` is the thread
    inside the lock. -/
structure Sound (disp : Tid) (s : PipeState Tid) (o : Option Tid) : Prop where
  owned : OwnedBy s o
  ends : Ends s
  role : ∀ t, getting (s.pc t) = true → t = disp
  shut : ∀ t msg, s.pc t = .closing (.put msg) → s.fifo ≠ []
  fed : ∀ t, awaiting s t → pending s

omit [DecidableEq Tid] in
/-- Two threads inside the lock are one. -/
theorem Sound.same_holder {disp t u : Tid} {s : PipeState Tid} {o : Option Tid}
    {p q : Pc} (h : Sound disp s o) (ht : s.pc t = p) (hp : holds p = true)
    (hu : s.pc u = q) (hq : holds q = true) : t = u :=
  h.owned.exclusive ((congrArg holds ht).trans hp) ((congrArg holds hu).trans hq)

/-- **STEP**: only the dispatcher is ever inside `getMessage`. -/
theorem role_step {capacity : Nat} {disp t : Tid} {s s' : PipeState Tid} {a : Act}
    (h : ∀ u, getting (s.pc u) = true → u = disp)
    (hd : oneDispatcher disp s (t, a)) (hstep : PipeStep capacity s t a s') :
    ∀ u, getting (s'.pc u) = true → u = disp := by
  -- a move of one thread: the others stay, and its new place decides
  have hmove : ∀ (r : PipeState Tid) (p : Pc), r.pc = s.pc →
      (getting p = true → t = disp) →
      ∀ u, getting ((r.goto t p).pc u) = true → u = disp :=
    fun r p hpc hp => PipeState.goto_forall (fun u q => getting q = true → u = disp) hpc hp
      (fun u _ => h u)
  have hdead : ∀ u, getting (s.terminate.pc u) = true → u = disp :=
    fun _ hu => nomatch hu
  cases hstep with
  | @call c hpc =>
      cases c with
      | putMessage msg => exact hmove s _ rfl (fun hp => nomatch hp)
      | getMessage => exact hmove s _ rfl (fun _ => hd)
  | @openEnter c hpc =>
      refine hmove _ _ (PipeState.enroll_pc ..) (fun hp => h t ?_)
      rw [hpc]
      cases c <;> first | rfl | exact nomatch hp
  | @openReturn c hpc =>
      refine hmove s _ rfl (fun hp => h t ?_)
      rw [hpc]
      cases c <;> first | rfl | exact nomatch hp
  | badAlloc => exact hdead
  | failEntry => exact hd.elim
  | failOpening => exact hd.elim
  | errorStore => exact hd.elim
  | spin => exact h
  | @acquire c hpc =>
      refine hmove _ _ rfl (fun hp => h t ?_)
      rw [hpc]
      cases c <;> first | rfl | exact nomatch hp
  | sigpipe => exact hdead
  | writeSome => exact hmove _ _ rfl (fun hp => nomatch hp)
  | writeAll => exact hmove _ _ rfl (fun hp => nomatch hp)
  | readHeader hpc => exact hmove _ _ rfl (fun _ => h t (by rw [hpc]; rfl))
  | badLength => exact hdead
  | readBody hpc => exact hmove _ _ rfl (fun _ => h t (by rw [hpc]; rfl))
  | @close d hpc =>
      refine hmove _ _ rfl (fun hp => h t ?_)
      rw [hpc]
      cases d <;> first | rfl | exact nomatch hp
  | store => exact hmove _ _ (PipeState.finish_pc ..) (fun hp => nomatch hp)

/-- While another thread has the FIFO open, closing a descriptor keeps the
    unread bytes. -/
theorem hangup_fifo_of_reader {s : PipeState Tid} {t u : Tid} (hu : u ∈ s.readers)
    (hne : u ≠ t) : (s.hangup t).fifo = s.fifo := by
  refine if_neg ?_
  rintro ⟨hr, -⟩
  have : u ∈ s.readers.erase t := Finset.mem_erase.mpr ⟨hne, hu⟩
  rw [hr] at this
  exact Finset.notMem_empty u this

theorem hangup_fifo_of_writer {s : PipeState Tid} {t u : Tid} (hu : u ∈ s.writers)
    (hne : u ≠ t) : (s.hangup t).fifo = s.fifo := by
  refine if_neg ?_
  rintro ⟨-, hw⟩
  have : u ∈ s.writers.erase t := Finset.mem_erase.mpr ⟨hne, hu⟩
  rw [hw] at this
  exact Finset.notMem_empty u this

/-- **STEP**: a writer that is about to close finds its bytes in the FIFO. -/
theorem shut_step {capacity : Nat} {disp t : Tid} {s s' : PipeState Tid}
    {o : Option Tid} {a : Act} (h : Sound disp s o)
    (hstep : PipeStep capacity s t a s') :
    ∀ u msg, s'.pc u = .closing (.put msg) → s'.fifo ≠ [] := by
  -- a move of `t` to a place that is not that of a closing writer
  have hmove : ∀ (r : PipeState Tid) (p : Pc), r.pc = s.pc →
      (∀ msg, p ≠ .closing (.put msg)) →
      (∀ u, u ≠ t → ∀ msg, s.pc u = .closing (.put msg) → r.fifo ≠ []) →
      ∀ u msg, (r.goto t p).pc u = .closing (.put msg) → (r.goto t p).fifo ≠ [] := by
    intro r p hpc hp hrest
    exact PipeState.goto_forall (fun _ q => ∀ msg, q = .closing (.put msg) → r.fifo ≠ [])
      hpc (fun msg hu => absurd hu (hp msg)) hrest
  have hkeep : ∀ u, u ≠ t → ∀ msg, s.pc u = .closing (.put msg) → s.fifo ≠ [] :=
    fun u _ msg hu => h.shut u msg hu
  have hdead : ∀ u msg, s.terminate.pc u = .closing (.put msg) → s.terminate.fifo ≠ [] :=
    fun _ _ hu => nomatch hu
  cases hstep with
  | call => exact hmove s _ rfl (fun _ hp => nomatch hp) hkeep
  | openEnter =>
      refine hmove _ _ (PipeState.enroll_pc ..) (fun _ hp => nomatch hp) ?_
      rw [PipeState.enroll_fifo]
      exact hkeep
  | openReturn => exact hmove s _ rfl (fun _ hp => nomatch hp) hkeep
  | badAlloc => exact hdead
  | failEntry => exact hmove s _ rfl (fun _ hp => nomatch hp) hkeep
  | failOpening =>
      refine hmove _ _ rfl (fun _ hp => nomatch hp) ?_
      intro u hut msg hu
      rw [hangup_fifo_of_writer ((h.ends.writers u).mpr (by rw [hu]; rfl)) hut]
      exact h.shut u msg hu
  | @errorStore c junk hpc =>
      refine hmove _ _ (errorExit_pc ..) (fun _ hp => nomatch hp) ?_
      cases c with
      | putMessage msg => exact hkeep
      | getMessage => exact hkeep
  | spin => exact h.shut
  | @acquire c =>
      refine hmove _ _ rfl (fun msg hp => ?_) hkeep
      cases c <;> exact nomatch hp
  | sigpipe => exact hdead
  | writeSome hpc hr hk hlt =>
      refine hmove _ _ rfl (fun _ hp => nomatch hp) ?_
      intro u hut msg hu
      exact absurd (h.same_holder hu rfl hpc rfl) hut
  | @writeAll msg rest hpc hr hk =>
      intro u msg' _
      show s.fifo ++ rest ≠ []
      intro hnil
      have hrest : rest = [] := (List.append_eq_nil_iff.mp hnil).2
      rw [hrest] at hk
      exact absurd hk (Nat.lt_irrefl 0)
  | readHeader hpc =>
      refine hmove _ _ rfl (fun _ hp => nomatch hp) ?_
      intro u hut msg hu
      exact absurd (h.same_holder hu rfl hpc rfl) hut
  | badLength => exact hdead
  | readBody hpc =>
      refine hmove _ _ rfl (fun _ hp => nomatch hp) ?_
      intro u hut msg hu
      exact absurd (h.same_holder hu rfl hpc rfl) hut
  | close hpc =>
      refine hmove _ _ rfl (fun _ hp => nomatch hp) ?_
      intro u hut msg hu
      exact absurd (h.same_holder hu rfl hpc rfl) hut
  | store =>
      refine hmove _ _ (PipeState.finish_pc ..) (fun _ hp => nomatch hp) ?_
      intro u hut msg hu
      show (s.finish _).fifo ≠ []
      rw [PipeState.finish_fifo]
      exact h.shut u msg hu

/-- A move that keeps the bytes and does not leave the way to `write`. -/
theorem pending_move {s r : PipeState Tid} {t : Tid} {p : Pc} (h : pending s)
    (hfifo : r.fifo = s.fifo) (hpc : r.pc = s.pc)
    (hp : unwritten (s.pc t) = true → unwritten p = true) : pending (r.goto t p) := by
  rcases h with hf | ⟨u, hu⟩
  · exact Or.inl (by rw [PipeState.goto_fifo, hfifo]; exact hf)
  · refine Or.inr ⟨u, ?_⟩
    by_cases hut : u = t
    · rw [hut, PipeState.goto_pc_self]
      rw [hut] at hu
      exact hp hu
    · rw [PipeState.goto_pc_of_ne _ _ hut, hpc]
      exact hu

/-- After a move of `t`, another thread awaits what it awaited before. -/
theorem awaiting_of_ne {s r : PipeState Tid} {t u : Tid} {p : Pc} (hut : u ≠ t)
    (hpc : r.pc = s.pc) (hw : r.woken = s.woken) (h : awaiting (r.goto t p) u) :
    awaiting s u := by
  obtain ⟨hu, hin⟩ := h
  rw [PipeState.goto_pc_of_ne _ _ hut, hpc] at hu hin
  rw [PipeState.goto_woken, hw] at hin
  exact ⟨hu, hin⟩

/-- A thread that awaits after `t` moved to a place where nobody does is not `t`. -/
theorem ne_of_awaiting_goto {r : PipeState Tid} {t u : Tid} {p : Pc}
    (hp : awaits p = false) (h : awaiting (r.goto t p) u) : u ≠ t := by
  rintro rfl
  have hu := h.1
  rw [PipeState.goto_pc_self, hp] at hu
  exact nomatch hu

/-- When the dispatcher itself moves to such a place, nobody awaits anything. -/
theorem not_awaiting_of_role {disp t : Tid} {s r : PipeState Tid} {p : Pc}
    (hrole : ∀ u, getting (s.pc u) = true → u = disp) (ht : getting (s.pc t) = true)
    (hpc : r.pc = s.pc) (hp : awaits p = false) (u : Tid) :
    ¬ awaiting (r.goto t p) u := by
  intro h
  have hut := ne_of_awaiting_goto hp h
  have hu := h.1
  rw [PipeState.goto_pc_of_ne _ _ hut, hpc] at hu
  have hdu := hrole u (getting_of_atReadEnd (atReadEnd_of_awaits hu))
  exact hut (hdu.trans (hrole t ht).symm)

/-- A dispatcher that enters `open` and need not wait has a writer to wait for. -/
theorem fed_enroll_get {disp t : Tid} {s : PipeState Tid} {o : Option Tid}
    (h : Sound disp s o) (hpc : s.pc t = .entry .getMessage)
    (hin : t ∈ (s.enroll t .getMessage).woken) :
    pending ((s.enroll t .getMessage).goto t (.opening .getMessage)) := by
  have hne : s.writers ≠ ∅ := by
    intro hw
    have hin' : t ∈ (if s.writers = ∅ then (s.woken ∪ s.writers).erase t
        else insert t (s.woken ∪ s.writers)) := hin
    rw [if_pos hw] at hin'
    exact Finset.notMem_erase t _ hin'
  obtain ⟨u, hu⟩ := Finset.nonempty_iff_ne_empty.mpr hne
  have hend : atWriteEnd (s.pc u) = true := (h.ends.writers u).mp hu
  have hbytes : pending s := by
    cases hpu : s.pc u with
    | closing d =>
        cases d with
        | put msg => exact Or.inl (h.shut u msg hpu)
        | got r => rw [hpu] at hend; exact nomatch hend
    | opening c =>
        rw [hpu] at hend
        cases c with
        | putMessage msg => exact Or.inr ⟨u, by rw [hpu]; rfl⟩
        | getMessage => exact nomatch hend
    | spinning c =>
        rw [hpu] at hend
        cases c with
        | putMessage msg => exact Or.inr ⟨u, by rw [hpu]; rfl⟩
        | getMessage => exact nomatch hend
    | writing msg rest => exact Or.inr ⟨u, by rw [hpu]; rfl⟩
    | _ => rw [hpu] at hend; exact nomatch hend
  exact pending_move hbytes rfl rfl (by rw [hpc]; exact fun hp => nomatch hp)

/-- **STEP**: a dispatcher past its `open` finds bytes or a writer on its way. -/
theorem fed_step {capacity : Nat} {disp t : Tid} {s s' : PipeState Tid}
    {o : Option Tid} {a : Act} (h : Sound disp s o) (hd : oneDispatcher disp s (t, a))
    (hstep : PipeStep capacity s t a s') : ∀ u, awaiting s' u → pending s' := by
  have hdead : ∀ u, awaiting s.terminate u → pending s.terminate :=
    fun _ hu => nomatch hu.1
  cases hstep with
  | call hpc =>
      intro u hu
      have hut := ne_of_awaiting_goto rfl hu
      exact pending_move (h.fed u (awaiting_of_ne hut rfl rfl hu)) rfl rfl
        (by rw [hpc]; exact fun hp => nomatch hp)
  | @openEnter c hpc =>
      intro u hu
      cases c with
      | putMessage msg =>
          -- the thread itself is a writer now
          exact Or.inr ⟨t, by rw [PipeState.goto_pc_self]; rfl⟩
      | getMessage =>
          -- there is one dispatcher, so the reader that waits has just come
          have hut : u = t := by
            by_contra hne
            have hrd := hu.1
            rw [PipeState.goto_pc_of_ne _ _ hne, PipeState.enroll_pc] at hrd
            have hdu := h.role u (getting_of_atReadEnd (atReadEnd_of_awaits hrd))
            have hdt := h.role t (by rw [hpc]; rfl)
            exact hne (hdu.trans hdt.symm)
          subst hut
          exact fed_enroll_get h hpc (hu.2 (PipeState.goto_pc_self ..))
  | @openReturn c hpc hw =>
      intro u hu
      have hs : awaiting s u := by
        by_cases hut : u = t
        · subst hut
          cases c with
          | putMessage msg => exact absurd rfl (ne_of_awaiting_goto rfl hu)
          | getMessage => exact ⟨by rw [hpc]; rfl, fun _ => hw⟩
        · exact awaiting_of_ne hut rfl rfl hu
      refine pending_move (h.fed u hs) rfl rfl ?_
      rw [hpc]
      cases c <;> exact fun hp => hp
  | badAlloc => exact hdead
  | failEntry => exact hd.elim
  | failOpening => exact hd.elim
  | errorStore => exact hd.elim
  | spin => exact h.fed
  | @acquire c hpc =>
      intro u hu
      have hs : awaiting s u := by
        by_cases hut : u = t
        · subst hut
          cases c with
          | putMessage msg => exact absurd rfl (ne_of_awaiting_goto rfl hu)
          | getMessage => exact ⟨by rw [hpc]; rfl, fun hp => by rw [hpc] at hp; exact nomatch hp⟩
        · exact awaiting_of_ne (r := { s with lock := true }) hut rfl rfl hu
      refine pending_move (r := { s with lock := true }) (h.fed u hs) rfl rfl ?_
      rw [hpc]
      cases c with
      | putMessage msg => exact fun _ => rfl
      | getMessage => exact fun hp => nomatch hp
  | sigpipe => exact hdead
  | writeSome => exact fun _ _ => Or.inr ⟨t, by rw [PipeState.goto_pc_self]; rfl⟩
  | @writeAll msg rest hpc hr hk =>
      intro u _
      refine Or.inl ?_
      show s.fifo ++ rest ≠ []
      intro hnil
      rw [(List.append_eq_nil_iff.mp hnil).2] at hk
      exact absurd hk (Nat.lt_irrefl 0)
  | readHeader hpc =>
      intro u hu
      exact absurd hu (not_awaiting_of_role h.role (by rw [hpc]; rfl) rfl rfl u)
  | badLength => exact hdead
  | readBody hpc =>
      intro u hu
      exact absurd hu (not_awaiting_of_role h.role (by rw [hpc]; rfl) rfl rfl u)
  | close hpc =>
      intro u hu
      have hut := ne_of_awaiting_goto rfl hu
      have hs : awaiting s u := awaiting_of_ne hut rfl rfl hu
      -- another reader has the FIFO open, so its bytes stay
      have hrd : u ∈ s.readers := (h.ends.readers u).mpr (atReadEnd_of_awaits hs.1)
      exact pending_move (h.fed u hs) (hangup_fifo_of_reader hrd hut) rfl
        (by rw [hpc]; exact fun hp => nomatch hp)
  | store hpc =>
      intro u hu
      have hut := ne_of_awaiting_goto rfl hu
      have hs : awaiting s u :=
        awaiting_of_ne hut (PipeState.finish_pc ..) (PipeState.finish_woken ..) hu
      exact pending_move (h.fed u hs) (PipeState.finish_fifo ..) (PipeState.finish_pc ..)
        (by rw [hpc]; exact fun hp => nomatch hp)

omit [DecidableEq Tid] in
theorem noErrorStore_of_oneDispatcher {disp t : Tid} {s : PipeState Tid} {a : Act}
    (h : oneDispatcher disp s (t, a)) : isErrorStore a = false := by
  cases a with
  | errorStore _ => exact h.elim
  | _ => rfl

/-- **STEP**: a run with one dispatcher stays sound. -/
theorem sound_step {capacity : Nat} {disp t : Tid} {s s' : PipeState Tid}
    {o : Option Tid} {a : Act} (h : Sound disp s o) (hd : oneDispatcher disp s (t, a))
    (hstep : PipeStep capacity s t a s') : ∃ o', Sound disp s' o' := by
  have hrest : ∀ o', OwnedBy s' o' → Sound disp s' o' := fun o' ho =>
    { owned := ho
      ends := ends_step h.ends hstep
      role := role_step h.role hd hstep
      shut := shut_step h hstep
      fed := fed_step h hd hstep }
  rcases owned_step h.owned (noErrorStore_of_oneDispatcher hd) hstep with
    hkeep | ⟨_, o', -, ho'⟩
  · exact ⟨o, hrest o hkeep⟩
  · exact ⟨o', hrest o' ho'⟩

omit [DecidableEq Tid] in
/-- The pipe that nobody uses yet is sound. -/
theorem sound_init (disp : Tid) : Sound disp (pipeInit : PipeState Tid) none where
  owned := Guards.start
  ends :=
    ⟨fun _ => iff_of_false (Finset.notMem_empty _) Bool.false_ne_true,
     fun _ => iff_of_false (Finset.notMem_empty _) Bool.false_ne_true⟩
  role := fun _ h => nomatch h
  shut := fun _ _ h => nomatch h
  fed := fun _ h => nomatch h.1

end ChatPipeSound
