import Mathlib.Data.Finset.Basic
import AipPkussm.ChatMessageProofs
import AipPkussm.TransitionProofs

/-! # `MessagePipe` — the FIFO and the threads that use it

    `MessagePipe.cc`, one atomic step at a time, for any set of threads that
    call `putMessage` and `getMessage` on one pipe object.  A step is one system
    call, one atomic operation on `lock`, or the call or return of `open`.

    The FIFO is the operating system's, and its rules are part of the step:

    * an `open` registers its end at once and returns when the other end is
      open or has been opened since (`woken`);
    * `read` blocks while the FIFO is empty and someone has it open for writing,
      returns 0 when nobody has, and otherwise the smaller of the requested and
      the available byte counts;
    * `write` moves bytes while there is room below `capacity` and blocks when
      there is none; with no reader it kills the process (SIGPIPE);
    * the unread bytes are dropped when the last descriptor is closed.

    `pipeStep_iff` turns the step function into a relation with one rule for
    each thing a step can do; every invariant is a case analysis on it. -/

namespace ChatPipe

open LittleEndian ChatMessage Transition

/-- The two operations, with the argument of `putMessage`. -/
inductive Call where
  | putMessage (msg : Packet)
  | getMessage

/-- `int total_size = sizeof(T) + msg.data_size`, in 32-bit arithmetic. -/
def totalSize (msg : Packet) : Int :=
  (BitVec.ofNat 32 messageLen + msg.hdr.dataSize).toInt

/-- Whether `new char[...]` before the lock gets its size: a negative one makes
    it throw, and nothing catches that. -/
def Call.allocates : Call → Bool
  | .putMessage msg => decide (0 ≤ totalSize msg)
  | .getMessage => true

/-- What an operation that has done its reading or writing will return. -/
inductive Done where
  | put (msg : Packet)
  | got (r : Parcel)

/-- Where a thread is in `MessagePipe.cc`. -/
inductive Pc where
  /-- outside both operations -/
  | idle
  /-- called, before `open` -/
  | entry (c : Call)
  /-- inside `open` -/
  | opening (c : Call)
  /-- in the error exit: `open` returned a negative value -/
  | failed (c : Call)
  /-- at `while (atomic_exchange_explicit(&lock, true, ...));` -/
  | spinning (c : Call)
  /-- in `write`, with the bytes not yet accepted -/
  | writing (msg : Packet) (rest : List Byte)
  /-- at the first `read` -/
  | readingHeader
  /-- at the second `read`, its buffer allocated -/
  | readingBody (hdr : Message)
  /-- at `close` -/
  | closing (d : Done)
  /-- at the last `atomic_store_explicit(&lock, false, ...)` -/
  | unlocking (d : Done)
  /-- gone with the process -/
  | dead

/-- The threads' places, the lock, the FIFO and, as history, what was written,
    what `putMessage` returned for and what `getMessage` returned. -/
structure PipeState (Tid : Type) where
  pc : Tid → Pc
  lock : Bool
  readers : Finset Tid
  writers : Finset Tid
  woken : Finset Tid
  fifo : List Byte
  written : List Packet
  putDone : List Packet
  returned : List Parcel

/-- The atomic steps.  `junk` is what uninitialised memory holds, `ptr` what the
    allocator returns, and the argument of `write` is how many bytes it moves. -/
inductive Act where
  | call (c : Call)
  | openEnter
  | openReturn
  | openFail
  | errorStore (junk : Message)
  | exchange
  | write (k : Nat)
  | readHeader (junk : Nat → Byte)
  | readBody (ptr : BitVec 32) (junk : Nat → Byte)
  | close
  | store

variable {Tid : Type}

namespace PipeState

/-- The process dies, and its descriptors with it. -/
def terminate (s : PipeState Tid) : PipeState Tid :=
  { s with
    pc := fun _ => .dead
    lock := false
    readers := ∅
    writers := ∅
    woken := ∅
    fifo := [] }

/-- A call returns: what it leaves in the history. -/
def finish (s : PipeState Tid) : Done → PipeState Tid
  | .put msg => { s with putDone := s.putDone ++ [msg] }
  | .got r => { s with returned := s.returned ++ [r] }


@[simp] theorem finish_pc (s : PipeState Tid) (d : Done) :
    (s.finish d).pc = s.pc := by cases d <;> rfl
@[simp] theorem finish_readers (s : PipeState Tid) (d : Done) :
    (s.finish d).readers = s.readers := by cases d <;> rfl
@[simp] theorem finish_writers (s : PipeState Tid) (d : Done) :
    (s.finish d).writers = s.writers := by cases d <;> rfl
@[simp] theorem finish_woken (s : PipeState Tid) (d : Done) :
    (s.finish d).woken = s.woken := by cases d <;> rfl
@[simp] theorem finish_fifo (s : PipeState Tid) (d : Done) :
    (s.finish d).fifo = s.fifo := by cases d <;> rfl
@[simp] theorem finish_written (s : PipeState Tid) (d : Done) :
    (s.finish d).written = s.written := by cases d <;> rfl

end PipeState

/-- The first place inside the lock. -/
def Call.locked : Call → Pc
  | .putMessage msg => .writing msg msg.bytes
  | .getMessage => .readingHeader

/-- What the error exit of an operation returns: `getMessage` makes up a message
    with `to = from = 0`. -/
def Call.errorExit (s : PipeState Tid) (junk : Message) : Call → PipeState Tid
  | .putMessage _ => s
  | .getMessage =>
      { s with returned :=
          s.returned ++ [⟨{ junk with fromId := 0, toId := 0 }, []⟩] }

@[simp] theorem errorExit_pc (s : PipeState Tid) (junk : Message) (c : Call) :
    (c.errorExit s junk).pc = s.pc := by cases c <;> rfl

variable [DecidableEq Tid]

namespace PipeState

/-- Thread `t` moves on. -/
def goto (s : PipeState Tid) (t : Tid) (p : Pc) : PipeState Tid :=
  { s with pc := Function.update s.pc t p }

/-- Thread `t` enters `open`: its end counts from now on, whoever waits for that
    end wakes up, and `t` need not wait when the other end is there. -/
def enroll (s : PipeState Tid) (t : Tid) : Call → PipeState Tid
  | .putMessage _ =>
      { s with
        writers := insert t s.writers
        woken := if s.readers = ∅ then (s.woken ∪ s.readers).erase t
          else insert t (s.woken ∪ s.readers) }
  | .getMessage =>
      { s with
        readers := insert t s.readers
        woken := if s.writers = ∅ then (s.woken ∪ s.writers).erase t
          else insert t (s.woken ∪ s.writers) }

/-- The descriptor of thread `t` is closed; with the last one the unread bytes
    go. -/
def hangup (s : PipeState Tid) (t : Tid) : PipeState Tid :=
  { s with
    readers := s.readers.erase t
    writers := s.writers.erase t
    fifo := if s.readers.erase t = ∅ ∧ s.writers.erase t = ∅ then [] else s.fifo }

/-- `read` would block: nothing to read, and a writer that may still come. -/
def starved (s : PipeState Tid) : Prop := s.fifo = [] ∧ s.writers ≠ ∅

instance (s : PipeState Tid) : Decidable s.starved :=
  inferInstanceAs (Decidable (s.fifo = [] ∧ s.writers ≠ ∅))

end PipeState

/-- One atomic step of thread `l.1`. -/
def pipeStep (capacity : Nat) (s : PipeState Tid) (l : Tid × Act) :
    Option (PipeState Tid) :=
  match l.2, s.pc l.1 with
  | .call c, .idle => some (s.goto l.1 (.entry c))
  | .openEnter, .entry c => some ((s.enroll l.1 c).goto l.1 (.opening c))
  | .openReturn, .opening c =>
      if l.1 ∈ s.woken then
        if c.allocates then some (s.goto l.1 (.spinning c)) else some s.terminate
      else none
  | .openFail, .entry c => some (s.goto l.1 (.failed c))
  | .openFail, .opening c => some ((s.hangup l.1).goto l.1 (.failed c))
  -- the error exits store `false` without having taken the lock
  | .errorStore junk, .failed c =>
      some ({ c.errorExit s junk with lock := false }.goto l.1 .idle)
  | .exchange, .spinning c =>
      if s.lock then some s else some ({ s with lock := true }.goto l.1 c.locked)
  | .write k, .writing msg rest =>
      if s.readers = ∅ then some s.terminate
      else if 0 < k ∧ k ≤ rest.length ∧ s.fifo.length + k ≤ capacity then
        if k = rest.length then
          some ({ s with fifo := s.fifo ++ rest, written := s.written ++ [msg] }.goto
            l.1 (.closing (.put msg)))
        else
          some ({ s with fifo := s.fifo ++ rest.take k }.goto
            l.1 (.writing msg (rest.drop k)))
      else none
  | .readHeader junk, .readingHeader =>
      if s.starved then none
      else
        let hdr := decode (overlay messageLen (s.fifo.take messageLen) junk)
        if 0 ≤ hdr.size then
          some ({ s with fifo := s.fifo.drop messageLen }.goto l.1 (.readingBody hdr))
        else some s.terminate
  | .readBody ptr junk, .readingBody hdr =>
      if 0 < hdr.payload ∧ s.starved then none
      else
        some ({ s with fifo := s.fifo.drop hdr.payload }.goto l.1 (.closing (.got
          { hdr := { hdr with dataPtr := ptr }
            body := overlay hdr.payload (s.fifo.take hdr.payload) junk })))
  | .close, .closing d => some ((s.hangup l.1).goto l.1 (.unlocking d))
  | .store, .unlocking d => some ({ s.finish d with lock := false }.goto l.1 .idle)
  | _, _ => none

/-- A pipe that nobody uses yet. -/
def pipeInit : PipeState Tid where
  pc := fun _ => .idle
  lock := false
  readers := ∅
  writers := ∅
  woken := ∅
  fifo := []
  written := []
  putDone := []
  returned := []

/-- The pipe and its threads. -/
def pipe (capacity : Nat) : Machine (PipeState Tid) (Tid × Act) where
  init := pipeInit
  step := pipeStep capacity

/-! ## What the parts of a step leave alone -/

namespace PipeState

variable (s : PipeState Tid) (t : Tid) (p : Pc)

@[simp] theorem goto_pc_self : (s.goto t p).pc t = p := Function.update_self ..

theorem goto_pc_of_ne {t u : Tid} (h : u ≠ t) : (s.goto t p).pc u = s.pc u :=
  Function.update_of_ne h ..

/-- A fact about every thread's place after thread `t` moved: it holds at the new
    place, and at the places where the others were. -/
theorem goto_forall {s r : PipeState Tid} {t : Tid} {p : Pc} (P : Tid → Pc → Prop)
    (hpc : r.pc = s.pc) (hself : P t p) (hrest : ∀ u, u ≠ t → P u (s.pc u)) :
    ∀ u, P u ((r.goto t p).pc u) := by
  intro u
  by_cases hut : u = t
  · rw [hut, goto_pc_self]
    exact hself
  · rw [goto_pc_of_ne _ _ hut, hpc]
    exact hrest u hut

@[simp] theorem goto_readers : (s.goto t p).readers = s.readers := rfl
@[simp] theorem goto_writers : (s.goto t p).writers = s.writers := rfl
@[simp] theorem goto_woken : (s.goto t p).woken = s.woken := rfl
@[simp] theorem goto_fifo : (s.goto t p).fifo = s.fifo := rfl
@[simp] theorem goto_returned : (s.goto t p).returned = s.returned := rfl

@[simp] theorem enroll_pc (c : Call) : (s.enroll t c).pc = s.pc := by cases c <;> rfl
@[simp] theorem enroll_lock (c : Call) : (s.enroll t c).lock = s.lock := by
  cases c <;> rfl
@[simp] theorem enroll_fifo (c : Call) : (s.enroll t c).fifo = s.fifo := by
  cases c <;> rfl
@[simp] theorem enroll_written (c : Call) : (s.enroll t c).written = s.written := by
  cases c <;> rfl
@[simp] theorem enroll_putDone (c : Call) : (s.enroll t c).putDone = s.putDone := by
  cases c <;> rfl
@[simp] theorem enroll_returned (c : Call) : (s.enroll t c).returned = s.returned := by
  cases c <;> rfl

@[simp] theorem hangup_readers : (s.hangup t).readers = s.readers.erase t := rfl
@[simp] theorem hangup_writers : (s.hangup t).writers = s.writers.erase t := rfl

end PipeState

/-! ## What a step can do

    One rule for each outcome of a step; `pipeStep_iff` is the only place that
    looks into `pipeStep`. -/

/-- The rules of the step function. -/
inductive PipeStep (capacity : Nat) (s : PipeState Tid) (t : Tid) :
    Act → PipeState Tid → Prop where
  | call {c : Call} (hpc : s.pc t = .idle) :
      PipeStep capacity s t (.call c) (s.goto t (.entry c))
  | openEnter {c : Call} (hpc : s.pc t = .entry c) :
      PipeStep capacity s t .openEnter ((s.enroll t c).goto t (.opening c))
  | openReturn {c : Call} (hpc : s.pc t = .opening c) (hw : t ∈ s.woken)
      (ha : c.allocates = true) :
      PipeStep capacity s t .openReturn (s.goto t (.spinning c))
  | badAlloc {c : Call} (hpc : s.pc t = .opening c) (hw : t ∈ s.woken)
      (ha : c.allocates = false) : PipeStep capacity s t .openReturn s.terminate
  | failEntry {c : Call} (hpc : s.pc t = .entry c) :
      PipeStep capacity s t .openFail (s.goto t (.failed c))
  | failOpening {c : Call} (hpc : s.pc t = .opening c) :
      PipeStep capacity s t .openFail ((s.hangup t).goto t (.failed c))
  | errorStore {c : Call} {junk : Message} (hpc : s.pc t = .failed c) :
      PipeStep capacity s t (.errorStore junk)
        ({ c.errorExit s junk with lock := false }.goto t .idle)
  | spin {c : Call} (hpc : s.pc t = .spinning c) (hl : s.lock = true) :
      PipeStep capacity s t .exchange s
  | acquire {c : Call} (hpc : s.pc t = .spinning c) (hl : s.lock = false) :
      PipeStep capacity s t .exchange ({ s with lock := true }.goto t c.locked)
  | sigpipe {msg : Packet} {rest : List Byte} {k : Nat}
      (hpc : s.pc t = .writing msg rest) (hr : s.readers = ∅) :
      PipeStep capacity s t (.write k) s.terminate
  | writeSome {msg : Packet} {rest : List Byte} {k : Nat}
      (hpc : s.pc t = .writing msg rest) (hr : s.readers ≠ ∅) (hk : 0 < k)
      (hlt : k < rest.length) (hcap : s.fifo.length + k ≤ capacity) :
      PipeStep capacity s t (.write k)
        ({ s with fifo := s.fifo ++ rest.take k }.goto t (.writing msg (rest.drop k)))
  | writeAll {msg : Packet} {rest : List Byte}
      (hpc : s.pc t = .writing msg rest) (hr : s.readers ≠ ∅) (hk : 0 < rest.length)
      (hcap : s.fifo.length + rest.length ≤ capacity) :
      PipeStep capacity s t (.write rest.length)
        ({ s with fifo := s.fifo ++ rest, written := s.written ++ [msg] }.goto t
          (.closing (.put msg)))
  | readHeader {junk : Nat → Byte} {hdr : Message} (hpc : s.pc t = .readingHeader)
      (hst : ¬ s.starved)
      (hh : hdr = decode (overlay messageLen (s.fifo.take messageLen) junk))
      (hn : 0 ≤ hdr.size) :
      PipeStep capacity s t (.readHeader junk)
        ({ s with fifo := s.fifo.drop messageLen }.goto t (.readingBody hdr))
  | badLength {junk : Nat → Byte} {hdr : Message} (hpc : s.pc t = .readingHeader)
      (hst : ¬ s.starved)
      (hh : hdr = decode (overlay messageLen (s.fifo.take messageLen) junk))
      (hn : hdr.size < 0) :
      PipeStep capacity s t (.readHeader junk) s.terminate
  | readBody {ptr : BitVec 32} {junk : Nat → Byte} {hdr : Message}
      (hpc : s.pc t = .readingBody hdr) (hst : ¬ (0 < hdr.payload ∧ s.starved)) :
      PipeStep capacity s t (.readBody ptr junk)
        ({ s with fifo := s.fifo.drop hdr.payload }.goto t (.closing (.got
          { hdr := { hdr with dataPtr := ptr }
            body := overlay hdr.payload (s.fifo.take hdr.payload) junk })))
  | close {d : Done} (hpc : s.pc t = .closing d) :
      PipeStep capacity s t .close ((s.hangup t).goto t (.unlocking d))
  | store {d : Done} (hpc : s.pc t = .unlocking d) :
      PipeStep capacity s t .store
        ({ s.finish d with lock := false }.goto t .idle)

/-- Every rule is a step. -/
theorem pipeStep_of_rule {capacity : Nat} {s s' : PipeState Tid} {t : Tid} {a : Act}
    (h : PipeStep capacity s t a s') : pipeStep capacity s (t, a) = some s' := by
  cases h with
  | call hpc => simp only [pipeStep, hpc]
  | openEnter hpc => simp only [pipeStep, hpc]
  | openReturn hpc hw ha => simp only [pipeStep, hpc, hw, ha, if_true]
  | badAlloc hpc hw ha =>
      simp only [pipeStep, hpc, hw, ha, if_true, Bool.false_eq_true, if_false]
  | failEntry hpc => simp only [pipeStep, hpc]
  | failOpening hpc => simp only [pipeStep, hpc]
  | errorStore hpc => simp only [pipeStep, hpc]
  | spin hpc hl => simp only [pipeStep, hpc, hl, if_true]
  | acquire hpc hl => simp only [pipeStep, hpc, hl, Bool.false_eq_true, if_false]
  | sigpipe hpc hr => simp only [pipeStep, hpc, hr, if_true]
  | writeSome hpc hr hk hlt hcap =>
      simp only [pipeStep, hpc, hr, if_false]
      rw [if_pos ⟨hk, Nat.le_of_lt hlt, hcap⟩, if_neg (Nat.ne_of_lt hlt)]
  | writeAll hpc hr hk hcap =>
      simp only [pipeStep, hpc, hr, if_false]
      simp only [hk, hcap, Nat.le_refl, and_self, if_true]
  | readHeader hpc hst hh hn =>
      subst hh
      simp only [pipeStep, hpc, hst, if_false]
      rw [if_pos hn]
  | badLength hpc hst hh hn =>
      subst hh
      simp only [pipeStep, hpc, hst, if_false]
      rw [if_neg (by omega)]
  | readBody hpc hst =>
      simp only [pipeStep, hpc]
      rw [if_neg hst]
  | close hpc => simp only [pipeStep, hpc]
  | store hpc => simp only [pipeStep, hpc]

/-- Every step is a rule. -/
theorem rule_of_pipeStep {capacity : Nat} {s s' : PipeState Tid} {t : Tid} {a : Act}
    (h : pipeStep capacity s (t, a) = some s') : PipeStep capacity s t a s' := by
  simp only [pipeStep] at h
  split at h
  case h_1 _ _ c hpc =>
      obtain rfl := Option.some.inj h
      exact PipeStep.call hpc
  case h_2 _ _ c hpc =>
      obtain rfl := Option.some.inj h
      exact PipeStep.openEnter hpc
  case h_3 _ _ c hpc =>
      by_cases hw : t ∈ s.woken
      · rw [if_pos hw] at h
        by_cases ha : c.allocates = true
        · rw [if_pos ha] at h
          obtain rfl := Option.some.inj h
          exact PipeStep.openReturn hpc hw ha
        · rw [if_neg ha] at h
          obtain rfl := Option.some.inj h
          exact PipeStep.badAlloc hpc hw (Bool.eq_false_iff.mpr ha)
      · rw [if_neg hw] at h
        exact nomatch h
  case h_4 _ _ c hpc =>
      obtain rfl := Option.some.inj h
      exact PipeStep.failEntry hpc
  case h_5 _ _ c hpc =>
      obtain rfl := Option.some.inj h
      exact PipeStep.failOpening hpc
  case h_6 _ _ junk c hpc =>
      obtain rfl := Option.some.inj h
      exact PipeStep.errorStore hpc
  case h_7 _ _ c hpc =>
      by_cases hl : s.lock = true
      · rw [if_pos hl] at h
        obtain rfl := Option.some.inj h
        exact PipeStep.spin hpc hl
      · rw [if_neg hl] at h
        obtain rfl := Option.some.inj h
        exact PipeStep.acquire hpc (Bool.eq_false_iff.mpr hl)
  case h_8 _ _ k msg rest hpc =>
      by_cases hr : s.readers = ∅
      · rw [if_pos hr] at h
        obtain rfl := Option.some.inj h
        exact PipeStep.sigpipe hpc hr
      · rw [if_neg hr] at h
        by_cases hk : 0 < k ∧ k ≤ rest.length ∧ s.fifo.length + k ≤ capacity
        · rw [if_pos hk] at h
          obtain ⟨hpos, hle, hcap⟩ := hk
          by_cases hall : k = rest.length
          · rw [if_pos hall] at h
            obtain rfl := Option.some.inj h
            subst hall
            exact PipeStep.writeAll hpc hr hpos hcap
          · rw [if_neg hall] at h
            obtain rfl := Option.some.inj h
            exact PipeStep.writeSome hpc hr hpos (Nat.lt_of_le_of_ne hle hall) hcap
        · rw [if_neg hk] at h
          exact nomatch h
  case h_9 _ _ junk hpc =>
      by_cases hst : s.starved
      · rw [if_pos hst] at h
        exact nomatch h
      · rw [if_neg hst] at h
        by_cases hn :
            0 ≤ (decode (overlay messageLen (s.fifo.take messageLen) junk)).size
        · rw [if_pos hn] at h
          obtain rfl := Option.some.inj h
          exact PipeStep.readHeader hpc hst rfl hn
        · rw [if_neg hn] at h
          obtain rfl := Option.some.inj h
          exact PipeStep.badLength hpc hst rfl (Int.not_le.mp hn)
  case h_10 _ _ ptr junk hdr hpc =>
      by_cases hst : 0 < hdr.payload ∧ s.starved
      · rw [if_pos hst] at h
        exact nomatch h
      · rw [if_neg hst] at h
        obtain rfl := Option.some.inj h
        exact PipeStep.readBody hpc hst
  case h_11 _ _ d hpc =>
      obtain rfl := Option.some.inj h
      exact PipeStep.close hpc
  case h_12 _ _ d hpc =>
      obtain rfl := Option.some.inj h
      exact PipeStep.store hpc
  case h_13 => exact nomatch h

/-- **STEP INVERSION**: a step is exactly an instance of a rule. -/
theorem pipeStep_iff {capacity : Nat} {s s' : PipeState Tid} {t : Tid} {a : Act} :
    pipeStep capacity s (t, a) = some s' ↔ PipeStep capacity s t a s' :=
  ⟨rule_of_pipeStep, pipeStep_of_rule⟩

end ChatPipe
