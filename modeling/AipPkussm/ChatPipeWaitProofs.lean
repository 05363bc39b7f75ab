import AipPkussm.ChatPipeSoundProofs

/-! # Who waits in `open`, and for whom

    The second half of what always holds with one dispatcher (`Waits`).  While the
    dispatcher waits inside `open` nobody has the FIFO open for writing and it is
    empty, and a FIFO that nobody has open is empty. -/

namespace ChatPipeWait

open LittleEndian ChatMessage Transition Channel ChatPipe ChatPipeLock ChatPipeSound

variable {Tid : Type} [DecidableEq Tid]

/-- The places a thread of a live process can be in when no `open` fails and the
    dispatcher is not a sender. -/
def proper (disp t : Tid) : Pc → Prop
  | .failed _ => False
  | .dead => False
  | p => putting p = true → t ≠ disp

/-- What the ends of the FIFO say about the dispatcher inside `open`. -/
structure Waits (disp : Tid) (s : PipeState Tid) : Prop where
  places : (∀ t, proper disp t (s.pc t)) ∨ ∀ t, s.pc t = .dead
  drained : s.readers = ∅ → s.writers = ∅ → s.fifo = []
  reader : s.pc disp = .opening .getMessage → disp ∉ s.woken →
    s.writers = ∅ ∧ s.fifo = []

omit [DecidableEq Tid] in
/-- A live thread is in a proper place. -/
theorem Waits.proper {disp t : Tid} {s : PipeState Tid} (h : Waits disp s)
    (ht : s.pc t ≠ .dead) : ∀ u, ChatPipeWait.proper disp u (s.pc u) := by
  rcases h.places with hp | hdead
  · exact hp
  · exact absurd (hdead t) ht

/-- **STEP**: the threads stay in proper places, or the process dies. -/
theorem places_step {capacity : Nat} {disp t : Tid} {s s' : PipeState Tid} {a : Act}
    (h : Waits disp s) (hd : oneDispatcher disp s (t, a))
    (hstep : PipeStep capacity s t a s') :
    (∀ u, proper disp u (s'.pc u)) ∨ ∀ u, s'.pc u = .dead := by
  -- a thread that moves keeps its part, and the others stay where they are
  have hmove : ∀ (r : PipeState Tid) (p : Pc), r.pc = s.pc → s.pc t ≠ .dead →
      (proper disp t (s.pc t) → proper disp t p) →
      (∀ u, proper disp u ((r.goto t p).pc u)) ∨ ∀ u, (r.goto t p).pc u = .dead := by
    intro r p hpc halive hp
    have hall := h.proper halive
    exact Or.inl (PipeState.goto_forall (proper disp) hpc (hp (hall t)) (fun u _ => hall u))
  have hdead : (∀ u, proper disp u (s.terminate.pc u))
      ∨ ∀ u, s.terminate.pc u = .dead := Or.inr (fun _ => rfl)
  have halive : ∀ {p : Pc}, s.pc t = p → p ≠ .dead → s.pc t ≠ .dead :=
    fun hpc hp => hpc ▸ hp
  cases hstep with
  | @call c hpc =>
      refine hmove _ _ rfl (halive hpc (fun hp => nomatch hp)) (fun _ => ?_)
      cases c with
      | putMessage msg => exact fun _ => hd
      | getMessage => exact fun hp => nomatch hp
  | @openEnter c hpc =>
      refine hmove _ _ (PipeState.enroll_pc ..) (halive hpc (fun hp => nomatch hp)) ?_
      rw [hpc]
      cases c <;> exact fun hp => hp
  | @openReturn c hpc =>
      refine hmove _ _ rfl (halive hpc (fun hp => nomatch hp)) ?_
      rw [hpc]
      cases c <;> exact fun hp => hp
  | badAlloc => exact hdead
  | failEntry => exact hd.elim
  | failOpening => exact hd.elim
  | errorStore => exact hd.elim
  | spin => exact h.places
  | @acquire c hpc =>
      refine hmove _ _ rfl (halive hpc (fun hp => nomatch hp)) ?_
      rw [hpc]
      cases c <;> exact fun hp => hp
  | sigpipe => exact hdead
  | writeSome hpc =>
      refine hmove _ _ rfl (halive hpc (fun hp => nomatch hp)) ?_
      rw [hpc]
      exact fun hp => hp
  | writeAll hpc =>
      refine hmove _ _ rfl (halive hpc (fun hp => nomatch hp)) ?_
      rw [hpc]
      exact fun hp => hp
  | readHeader hpc =>
      refine hmove _ _ rfl (halive hpc (fun hp => nomatch hp)) ?_
      rw [hpc]
      exact fun hp => hp
  | badLength => exact hdead
  | readBody hpc =>
      refine hmove _ _ rfl (halive hpc (fun hp => nomatch hp)) ?_
      rw [hpc]
      exact fun hp => hp
  | @close d hpc =>
      refine hmove _ _ rfl (halive hpc (fun hp => nomatch hp)) ?_
      rw [hpc]
      cases d <;> exact fun hp => hp
  | store hpc =>
      exact hmove _ _ (PipeState.finish_pc ..) (halive hpc (fun hp => nomatch hp))
        (fun _ hp => nomatch hp)

omit [DecidableEq Tid] in
/-- A thread at the write end: somebody has the FIFO open for writing. -/
theorem writers_ne_empty {s : PipeState Tid} {t : Tid} {p : Pc} (h : Ends s)
    (hpc : s.pc t = p) (hp : atWriteEnd p = true) : s.writers ≠ ∅ := by
  intro hempty
  have ht : t ∈ s.writers := (h.writers t).mpr (by rw [hpc, hp])
  rw [hempty] at ht
  exact Finset.notMem_empty t ht

omit [DecidableEq Tid] in
/-- A thread at the read end: somebody has the FIFO open for reading. -/
theorem readers_ne_empty {s : PipeState Tid} {t : Tid} {p : Pc} (h : Ends s)
    (hpc : s.pc t = p) (hp : atReadEnd p = true) : s.readers ≠ ∅ := by
  intro hempty
  have ht : t ∈ s.readers := (h.readers t).mpr (by rw [hpc, hp])
  rw [hempty] at ht
  exact Finset.notMem_empty t ht

/-- **STEP**: a FIFO that nobody has open is empty. -/
theorem drained_step {capacity : Nat} {disp t : Tid} {s s' : PipeState Tid}
    {o : Option Tid} {a : Act} (hs : Sound disp s o) (h : Waits disp s)
    (hstep : PipeStep capacity s t a s') :
    s'.readers = ∅ → s'.writers = ∅ → s'.fifo = [] := by
  cases hstep with
  | call => exact h.drained
  | @openEnter c =>
      intro hr hw
      cases c with
      | putMessage msg => exact absurd hw (Finset.insert_ne_empty t _)
      | getMessage => exact absurd hr (Finset.insert_ne_empty t _)
  | openReturn => exact h.drained
  | badAlloc => exact fun _ _ => rfl
  | failEntry => exact h.drained
  | failOpening => exact fun hr hw => if_pos ⟨hr, hw⟩
  | @errorStore c =>
      cases c with
      | putMessage msg => exact h.drained
      | getMessage => exact h.drained
  | spin => exact h.drained
  | acquire => exact h.drained
  | sigpipe => exact fun _ _ => rfl
  | writeSome hpc => exact fun _ hw => (writers_ne_empty hs.ends hpc rfl hw).elim
  | writeAll hpc => exact fun _ hw => (writers_ne_empty hs.ends hpc rfl hw).elim
  | readHeader hpc => exact fun hr _ => (readers_ne_empty hs.ends hpc rfl hr).elim
  | badLength => exact fun _ _ => rfl
  | readBody hpc => exact fun hr _ => (readers_ne_empty hs.ends hpc rfl hr).elim
  | close => exact fun hr hw => if_pos ⟨hr, hw⟩
  | @store d =>
      cases d with
      | put msg => exact h.drained
      | got r => exact h.drained

/-- A sender that enters `open` wakes the reader that waits there. -/
theorem woken_enroll_put {s : PipeState Tid} {t u : Tid} (msg : Packet) (hu : u ∈ s.readers) :
    u ∈ (s.enroll t (.putMessage msg)).woken := by
  show u ∈ if s.readers = ∅ then (s.woken ∪ s.readers).erase t
    else insert t (s.woken ∪ s.readers)
  rw [if_neg (Finset.ne_empty_of_mem hu)]
  exact Finset.mem_insert_of_mem (Finset.mem_union_right _ hu)

/-- A reader that enters `open` need not wait when there is a sender. -/
theorem woken_enroll_get {s : PipeState Tid} {t : Tid} (hne : s.writers ≠ ∅) :
    t ∈ (s.enroll t .getMessage).woken := by
  show t ∈ if s.writers = ∅ then (s.woken ∪ s.writers).erase t
    else insert t (s.woken ∪ s.writers)
  rw [if_neg hne]
  exact Finset.mem_insert_self ..

omit [DecidableEq Tid] in
/-- Only the dispatcher can have the FIFO open for reading. -/
theorem readers_eq_empty {disp : Tid} {s : PipeState Tid} {o : Option Tid}
    (h : Sound disp s o) (hp : atReadEnd (s.pc disp) = false) : s.readers = ∅ := by
  rw [Finset.eq_empty_iff_forall_notMem]
  intro u hu
  have hend := (h.ends.readers u).mp hu
  obtain rfl := h.role u (getting_of_atReadEnd hend)
  rw [hp] at hend
  exact nomatch hend

/-- **STEP**: while the dispatcher waits in `open`, nobody has the FIFO open for
    writing and it is empty. -/
theorem reader_step {capacity : Nat} {disp t : Tid} {s s' : PipeState Tid}
    {o : Option Tid} {a : Act} (hs : Sound disp s o) (h : Waits disp s)
    (hd : oneDispatcher disp s (t, a)) (hstep : PipeStep capacity s t a s') :
    s'.pc disp = .opening .getMessage → disp ∉ s'.woken →
      s'.writers = ∅ ∧ s'.fifo = [] := by
  -- a step that is not the dispatcher's entry into `open`
  have hmove : ∀ (r : PipeState Tid) (p : Pc), r.pc = s.pc → r.woken = s.woken →
      p ≠ .opening .getMessage →
      (s.writers = ∅ ∧ s.fifo = [] → r.writers = ∅ ∧ r.fifo = []) →
      (r.goto t p).pc disp = .opening .getMessage → disp ∉ (r.goto t p).woken →
      (r.goto t p).writers = ∅ ∧ (r.goto t p).fifo = [] := by
    intro r p hpc hw hp hkeep hopen hin
    by_cases hut : disp = t
    · rw [← hut, PipeState.goto_pc_self] at hopen
      exact absurd hopen hp
    · rw [PipeState.goto_pc_of_ne _ _ hut, hpc] at hopen
      rw [PipeState.goto_woken, hw] at hin
      exact hkeep (h.reader hopen hin)
  cases hstep with
  | call => exact hmove _ _ rfl rfl (fun hp => nomatch hp) (fun hk => hk)
  | @openEnter c hpc =>
      intro hopen hin
      cases c with
      | putMessage msg =>
          by_cases hut : disp = t
          · rw [← hut, PipeState.goto_pc_self] at hopen
            exact nomatch hopen
          · rw [PipeState.goto_pc_of_ne _ _ hut, PipeState.enroll_pc] at hopen
            have hdisp : disp ∈ s.readers := (hs.ends.readers disp).mpr (by rw [hopen]; rfl)
            exact (hin (woken_enroll_put msg hdisp)).elim
      | getMessage =>
          obtain rfl := hs.role t (by rw [hpc]; rfl)
          have hw : s.writers = ∅ := by
            by_contra hne
            exact hin (woken_enroll_get hne)
          have hr : s.readers = ∅ := readers_eq_empty hs (by rw [hpc]; rfl)
          exact ⟨hw, h.drained hr hw⟩
  | @openReturn c => exact hmove _ _ rfl rfl (fun hp => nomatch hp) (fun hk => hk)
  | badAlloc => exact fun hopen => nomatch hopen
  | failEntry => exact hd.elim
  | failOpening => exact hd.elim
  | errorStore => exact hd.elim
  | spin => exact h.reader
  | @acquire c =>
      refine hmove _ _ rfl rfl ?_ (fun hk => hk)
      cases c <;> exact fun hp => nomatch hp
  | sigpipe => exact fun hopen => nomatch hopen
  | writeSome hpc =>
      exact hmove _ _ rfl rfl (fun hp => nomatch hp)
        (fun hk => (writers_ne_empty hs.ends hpc rfl hk.1).elim)
  | writeAll hpc =>
      exact hmove _ _ rfl rfl (fun hp => nomatch hp)
        (fun hk => (writers_ne_empty hs.ends hpc rfl hk.1).elim)
  | readHeader =>
      refine hmove _ _ rfl rfl (fun hp => nomatch hp) (fun hk => ⟨hk.1, ?_⟩)
      show s.fifo.drop messageLen = []
      rw [hk.2, List.drop_nil]
  | badLength => exact fun hopen => nomatch hopen
  | @readBody _ _ hdr =>
      refine hmove _ _ rfl rfl (fun hp => nomatch hp) (fun hk => ⟨hk.1, ?_⟩)
      show s.fifo.drop hdr.payload = []
      rw [hk.2, List.drop_nil]
  | close =>
      refine hmove _ _ rfl rfl (fun hp => nomatch hp) (fun hk => ⟨?_, ?_⟩)
      · show s.writers.erase t = ∅
        rw [hk.1, Finset.erase_empty]
      · show (if s.readers.erase t = ∅ ∧ s.writers.erase t = ∅ then [] else s.fifo) = []
        rw [hk.2, ite_self]
  | store =>
      refine hmove _ _ (PipeState.finish_pc ..) (PipeState.finish_woken ..)
        (fun hp => nomatch hp) (fun hk => ⟨?_, ?_⟩)
      · show (s.finish _).writers = ∅
        rw [PipeState.finish_writers, hk.1]
      · show (s.finish _).fifo = []
        rw [PipeState.finish_fifo, hk.2]

/-- **STEP**: all three together. -/
theorem waits_step {capacity : Nat} {disp t : Tid} {s s' : PipeState Tid}
    {o : Option Tid} {a : Act} (hs : Sound disp s o) (h : Waits disp s)
    (hd : oneDispatcher disp s (t, a)) (hstep : PipeStep capacity s t a s') :
    Waits disp s' where
  places := places_step h hd hstep
  drained := drained_step hs h hstep
  reader := reader_step hs h hd hstep

omit [DecidableEq Tid] in
theorem waits_init (disp : Tid) : Waits disp (pipeInit : PipeState Tid) where
  places := Or.inl (fun _ hp => nomatch hp)
  drained := fun _ _ => rfl
  reader := fun hopen => nomatch hopen

end ChatPipeWait
