import AipPkussm.ChannelProofs
import AipPkussm.ChatPipeProofs

/-! # The pipe's lock

    Both operations of `MessagePipe` take `lock` after their `open` succeeded
    and give it back at their end, but their error exits store `false` into it
    too, without having taken it.  As long as no error exit gets that far, the
    lock refines the abstract mutex (`owned_run`): the thread inside the lock is
    the owner, and only the owner gives it back.  `lockDiscipline_iff` says that
    the error exits are the only thing that can go wrong. -/

namespace ChatPipeLock

open LittleEndian ChatMessage Transition Channel ChatPipe

variable {Tid : Type} [DecidableEq Tid]

/-- Between the successful `atomic_exchange` and the thread's own release. -/
def holds : Pc → Bool
  | .writing _ _ => true
  | .readingHeader => true
  | .readingBody _ => true
  | .closing _ => true
  | .unlocking _ => true
  | _ => false

/-- The threads inside the lock. -/
def inside (s : PipeState Tid) : Tid → Bool := fun t => holds (s.pc t)

/-- The lock bit and the threads' places agree with the owner `o`. -/
abbrev OwnedBy (s : PipeState Tid) (o : Option Tid) : Prop := Guards s.lock (inside s) o

/-- At most one thread is inside the lock. -/
def Exclusive (s : PipeState Tid) : Prop :=
  ∀ t u, holds (s.pc t) = true → holds (s.pc u) = true → t = u

@[simp] theorem holds_locked (c : Call) : holds c.locked = true := by cases c <;> rfl

theorem inside_goto (s : PipeState Tid) (t : Tid) (p : Pc) :
    inside (s.goto t p) = Function.update (inside s) t (holds p) :=
  Function.comp_update holds s.pc t p

omit [DecidableEq Tid] in
theorem inside_congr {s r : PipeState Tid} (h : r.pc = s.pc) : inside r = inside s :=
  congrArg (fun pc t => holds (pc t)) h

/-- A thread that moves without crossing the lock's border leaves it as it is. -/
theorem OwnedBy.goto {s r : PipeState Tid} {o : Option Tid} {t : Tid} {p : Pc}
    (h : OwnedBy s o) (hlock : r.lock = s.lock) (hpc : r.pc = s.pc)
    (hp : holds p = holds (s.pc t)) : OwnedBy (r.goto t p) o := by
  show Guards r.lock (inside (r.goto t p)) o
  rw [hlock, inside_goto, inside_congr hpc]
  exact h.move hp

omit [DecidableEq Tid] in
/-- In a dead process nobody is inside the lock. -/
theorem ownedBy_terminate (s : PipeState Tid) : OwnedBy s.terminate none := Guards.start

omit [DecidableEq Tid] in
/-- The thread inside the lock is the owner. -/
theorem OwnedBy.of_pc {s : PipeState Tid} {o : Option Tid} {t : Tid} {p : Pc}
    (h : OwnedBy s o) (hpc : s.pc t = p) (hp : holds p = true) : o = some t :=
  (h.owner t).mp ((congrArg holds hpc).trans hp)

/-- The steps that store `false` into the lock. -/
def storesFalse : Act → Bool
  | .errorStore _ => true
  | .store => true
  | _ => false

/-- The store of an error exit. -/
def isErrorStore : Act → Bool
  | .errorStore _ => true
  | _ => false

/-- No error exit gets to its store. -/
def noErrorStore (_ : PipeState Tid) (l : Tid × Act) : Prop :=
  isErrorStore l.2 = false

/-- **STEP**: apart from the error exits' store, a step keeps the owner or is a
    step of the abstract mutex. -/
theorem owned_step {capacity : Nat} {s s' : PipeState Tid} {o : Option Tid} {t : Tid}
    {a : Act} (h : OwnedBy s o) (hno : isErrorStore a = false)
    (hstep : PipeStep capacity s t a s') :
    OwnedBy s' o ∨ ∃ b o', mutex.step o b = some o' ∧ OwnedBy s' o' := by
  have hdies : OwnedBy s.terminate o
      ∨ ∃ b o', mutex.step o b = some o' ∧ OwnedBy s.terminate o' := by
    cases o with
    | none => exact Or.inl (ownedBy_terminate s)
    | some u => exact Or.inr ⟨.release u, none, mutex_release u, ownedBy_terminate s⟩
  cases hstep with
  | call hpc => exact Or.inl (h.goto rfl rfl (by rw [hpc]; rfl))
  | openEnter hpc =>
      exact Or.inl (h.goto (PipeState.enroll_lock ..) (PipeState.enroll_pc ..)
        (by rw [hpc]; rfl))
  | openReturn hpc => exact Or.inl (h.goto rfl rfl (by rw [hpc]; rfl))
  | badAlloc => exact hdies
  | failEntry hpc => exact Or.inl (h.goto rfl rfl (by rw [hpc]; rfl))
  | failOpening hpc => exact Or.inl (h.goto rfl rfl (by rw [hpc]; rfl))
  | errorStore => exact nomatch hno
  | spin => exact Or.inl h
  | acquire hpc hl =>
      refine Or.inr ⟨.acquire t, some t, by rw [h.free hl, mutex_acquire], ?_⟩
      rw [OwnedBy, hl] at h
      rw [OwnedBy, inside_goto, holds_locked]
      exact h.take
  | sigpipe => exact hdies
  | writeSome hpc => exact Or.inl (h.goto rfl rfl (by rw [hpc]; rfl))
  | writeAll hpc => exact Or.inl (h.goto rfl rfl (by rw [hpc]; rfl))
  | readHeader hpc => exact Or.inl (h.goto rfl rfl (by rw [hpc]; rfl))
  | badLength => exact hdies
  | readBody hpc => exact Or.inl (h.goto rfl rfl (by rw [hpc]; rfl))
  | close hpc => exact Or.inl (h.goto rfl rfl (by rw [hpc]; rfl))
  | @store d hpc =>
      obtain rfl := h.of_pc hpc rfl
      refine Or.inr ⟨.release t, none, mutex_release t, ?_⟩
      have hpcs : ({ s.finish d with lock := false } : PipeState Tid).pc = s.pc :=
        PipeState.finish_pc ..
      rw [OwnedBy, inside_goto, inside_congr hpcs]
      exact h.give ((h.owner t).mpr rfl)

/-- **REFINEMENT**: without error exits the lock is a mutex. -/
theorem owned_run {capacity : Nat} {s : PipeState Tid}
    (h : Run (pipe capacity) noErrorStore s) :
    ∃ o, Run mutex anyStep o ∧ OwnedBy s o := by
  refine Run.simulate (R := OwnedBy) ?_ ?_ h
  · exact Guards.start
  · intro s o l s' hR hno hstep
    obtain ⟨t, a⟩ := l
    rcases owned_step hR hno (pipeStep_iff.mp hstep) with hkeep | ⟨b, o', hb, hR'⟩
    · exact Or.inl hkeep
    · exact Or.inr ⟨b, o', trivial, hb, hR'⟩

/-- Along a list of steps: after each of them at most one thread is inside the
    lock, and a step that stores `false` into the lock is made by the thread
    that holds it. -/
def LockDiscipline (capacity : Nat) (ls : List (Tid × Act)) : Prop :=
  ∀ p l q s s', ls = p ++ l :: q → play (pipe capacity) pipeInit p = some s →
    pipeStep capacity s l = some s' →
    Exclusive s' ∧ (storesFalse l.2 = true → holds (s.pc l.1) = true)

/-- A step that stores `false` is at the place where its operation does so. -/
theorem storesFalse_pc {capacity : Nat} {s s' : PipeState Tid} {t : Tid} {a : Act}
    (ha : storesFalse a = true) (hstep : PipeStep capacity s t a s') :
    holds (s.pc t) = !isErrorStore a := by
  cases hstep with
  | errorStore hpc => rw [hpc]; rfl
  | store hpc => rw [hpc]; rfl
  | _ => exact nomatch ha

/-- **MUTUAL EXCLUSION, EXACTLY**: a run keeps the lock's discipline if and only
    if no error exit in it stores `false` into the lock. -/
theorem lockDiscipline_iff (capacity : Nat) (ls : List (Tid × Act))
    (hrun : (play (pipe capacity) pipeInit ls).isSome = true) :
    LockDiscipline capacity ls ↔ ∀ l ∈ ls, isErrorStore l.2 = false := by
  constructor
  · intro hd l hl
    obtain ⟨p, q, rfl⟩ := List.append_of_mem hl
    obtain ⟨t, ht⟩ := Option.isSome_iff_exists.mp hrun
    obtain ⟨s, s', hs, hstep⟩ := play_split ht
    cases he : isErrorStore l.2 with
    | false => rfl
    | true =>
        have hstores : storesFalse l.2 = true := by
          cases hl2 : l.2 <;> rw [hl2] at he <;> first | rfl | exact nomatch he
        have hholds := (hd p l q s s' rfl hs hstep).2 hstores
        rw [storesFalse_pc hstores (pipeStep_iff.mp hstep), he] at hholds
        exact nomatch hholds
  · intro hno p l q s s' hls hs hstep
    have hmem : ∀ l' ∈ p ++ [l], ∀ r : PipeState Tid, noErrorStore r l' := by
      intro l' hl' _
      refine hno l' ?_
      rw [hls]
      rcases List.mem_append.mp hl' with hp | hlast
      · exact List.mem_append_left _ hp
      · rw [List.mem_singleton.mp hlast]
        exact List.mem_append_right _ (List.mem_cons_self ..)
    have hplay : play (pipe capacity) pipeInit (p ++ [l]) = some s' := by
      rw [play_append, hs]
      show (pipeStep capacity s l).bind (fun r => some r) = some s'
      rw [hstep]
      rfl
    obtain ⟨o, -, ho⟩ := owned_run
      (Run.of_play (p ++ [l]) (follows_of_forall _ hmem _) hplay)
    refine ⟨fun _ _ => ho.exclusive, ?_⟩
    intro hstores
    rw [storesFalse_pc hstores (pipeStep_iff.mp hstep)]
    rw [hno l (hls ▸ List.mem_append_right p (List.mem_cons_self ..))]
    rfl

/-- A thread that sends, and the dispatcher. -/
inductive Pair where
  | sender
  | dispatcher
  deriving DecidableEq

/-- Three threads. -/
inductive Trio where
  | first
  | second
  | third
  deriving DecidableEq

/-- The first thread writes and is inside the lock, the second waits for the lock, and the
    failed `open` of the third lets the second in. -/
def failedOpenRun : List (Trio × Act) :=
  [(.first, .call (.putMessage blankPacket)), (.first, .openEnter), (.second, .call .getMessage),
   (.second, .openEnter), (.first, .openReturn), (.second, .openReturn), (.first, .exchange),
   (.third, .call .getMessage), (.third, .openFail), (.third, .errorStore blankPacket.hdr)]

/-- A run without a failed `open`, up to the reader's own release. -/
def plainRun : List (Pair × Act) :=
  [(.sender, .call (.putMessage blankPacket)), (.sender, .openEnter),
   (.dispatcher, .call .getMessage), (.dispatcher, .openEnter), (.sender, .openReturn),
   (.dispatcher, .openReturn), (.sender, .exchange), (.sender, .write 52), (.sender, .close),
   (.sender, .store), (.dispatcher, .exchange), (.dispatcher, .readHeader (fun _ => 0)),
   (.dispatcher, .readBody 0 (fun _ => 0)), (.dispatcher, .close), (.dispatcher, .store)]

theorem lockDiscipline_plainRun :
    LockDiscipline 65536 plainRun ↔ ∀ l ∈ plainRun, isErrorStore l.2 = false :=
  lockDiscipline_iff 65536 plainRun rfl

/-- **THE ERROR EXIT BREAKS THE LOCK**: two threads end up inside it. -/
theorem failedOpen_breaks_lock :
    ¬ ∀ ls : List (Trio × Act),
      (play (pipe 65536) pipeInit ls).isSome = true → LockDiscipline 65536 ls := by
  intro h
  have hd := h (failedOpenRun ++ [(.second, .exchange)]) rfl
  have hboth := (hd failedOpenRun (.second, .exchange) [] _ _ rfl rfl rfl).1 .first .second rfl rfl
  exact absurd hboth (by decide)

end ChatPipeLock
