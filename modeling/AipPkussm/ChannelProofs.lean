import Mathlib.Logic.Function.Basic
import AipPkussm.TransitionProofs

/-! # Two abstract components: a mutex and a mailbox

    What a message pipe is for, in its own terms.  The MUTEX is owned by at most
    one party and is given back by its owner only; a lock bit that threads set
    when they enter and clear when they leave is one (`Guards`).  The MAILBOX is a queue that
    may be emptied without notice; whatever is received comes out in the order
    it was sent (`received_sublist`), and nothing is missing when it is only
    ever emptied while it holds nothing (`received_all`). -/

namespace Channel

open Transition

/-! ## The mutex -/

section Mutex

variable {Tid : Type} [DecidableEq Tid]

/-- Taking the mutex, and giving it back. -/
inductive MutexAct (Tid : Type) where
  | acquire (t : Tid)
  | release (t : Tid)

/-- The mutex: its state is its owner. -/
def mutex : Machine (Option Tid) (MutexAct Tid) where
  init := none
  step
    | none, .acquire t => some (some t)
    | some u, .release t => if t = u then some none else none
    | _, _ => none

theorem mutex_acquire (t : Tid) : mutex.step none (.acquire t) = some (some t) := rfl

theorem mutex_release (t : Tid) : mutex.step (some t) (.release t) = some none := by
  show (if t = t then some none else none) = some none
  rw [if_pos rfl]

/-- A lock bit and the threads between taking it and giving it back agree with
    the owner `o`. -/
structure Guards (lock : Bool) (inside : Tid → Bool) (o : Option Tid) : Prop where
  bit : lock = o.isSome
  owner : ∀ t, inside t = true ↔ o = some t

namespace Guards

variable {lock : Bool} {inside : Tid → Bool} {o : Option Tid} {t u : Tid}

omit [DecidableEq Tid] in
/-- At most one thread is inside. -/
theorem exclusive (h : Guards lock inside o) (ht : inside t = true) (hu : inside u = true) :
    t = u :=
  Option.some.inj (((h.owner t).mp ht).symm.trans ((h.owner u).mp hu))

omit [DecidableEq Tid] in
/-- A thread inside keeps the bit set. -/
theorem locked (h : Guards lock inside o) (ht : inside t = true) : lock = true := by
  rw [h.bit, (h.owner t).mp ht]
  rfl

omit [DecidableEq Tid] in
/-- A lock whose bit is clear has no owner. -/
theorem free (h : Guards lock inside o) (hbit : lock = false) : o = none := by
  cases o with
  | none => rfl
  | some u =>
      have hset := h.bit
      rw [hbit] at hset
      cases hset

omit [DecidableEq Tid] in
/-- Nobody has taken the lock. -/
theorem start : Guards false (fun _ : Tid => false) none :=
  ⟨rfl, fun _ => iff_of_false Bool.false_ne_true (fun h => by cases h)⟩

/-- A thread that moves without crossing the lock's border keeps the owner. -/
theorem move (h : Guards lock inside o) {b : Bool} (hb : b = inside t) :
    Guards lock (Function.update inside t b) o := by
  rw [hb, Function.update_eq_self]
  exact h

/-- Taking a free lock. -/
theorem take (h : Guards false inside o) :
    Guards true (Function.update inside t true) (some t) := by
  refine ⟨rfl, fun u => ?_⟩
  by_cases hu : u = t
  · rw [hu, Function.update_self]
    exact iff_of_true rfl rfl
  · rw [Function.update_of_ne hu]
    refine iff_of_false ?_ (fun heq => hu (Option.some.inj heq).symm)
    intro hin
    exact Bool.false_ne_true (h.locked hin)

/-- The owner gives the lock back. -/
theorem give (h : Guards lock inside o) (ht : inside t = true) :
    Guards false (Function.update inside t false) none := by
  refine ⟨rfl, fun u => iff_of_false ?_ (fun heq => by cases heq)⟩
  by_cases hu : u = t
  · rw [hu, Function.update_self]
    exact Bool.false_ne_true
  · rw [Function.update_of_ne hu]
    exact fun hin => hu (h.exclusive hin ht)

end Guards

end Mutex

/-! ## The mailbox -/

section Mailbox

variable {α : Type}

/-- The messages waiting, all those sent so far and all those received so far. -/
structure Mail (α : Type) where
  queue : List α
  sent : List α
  received : List α

/-- A message is sent, the oldest one is received, or the queue is emptied. -/
inductive MailAct (α : Type) where
  | send (x : α)
  | receive
  | discard

/-- The mailbox. -/
def mailbox : Machine (Mail α) (MailAct α) where
  init := ⟨[], [], []⟩
  step
    | m, .send x => some ⟨m.queue ++ [x], m.sent ++ [x], m.received⟩
    | ⟨x :: q, snt, rcv⟩, .receive => some ⟨q, snt, rcv ++ [x]⟩
    | ⟨[], _, _⟩, .receive => none
    | m, .discard => some ⟨[], m.sent, m.received⟩

/-- The queue is emptied only when it is empty. -/
def lossless : Mail α → MailAct α → Prop
  | m, .discard => m.queue = []
  | _, _ => True

/-- **ORDER**: what was received, followed by what waits, is a subsequence of
    what was sent. -/
theorem received_sublist {allowed : Mail α → MailAct α → Prop} {m : Mail α}
    (h : Run mailbox allowed m) : (m.received ++ m.queue).Sublist m.sent := by
  refine Run.invariant (I := fun m => (m.received ++ m.queue).Sublist m.sent)
    (List.Sublist.refl []) ?_ h
  intro m a m' hm _ hs
  obtain ⟨q, snt, rcv⟩ := m
  cases a with
  | send x =>
      rw [← Option.some.inj hs]
      show (rcv ++ (q ++ [x])).Sublist (snt ++ [x])
      rw [← List.append_assoc]
      exact List.Sublist.append hm (List.Sublist.refl [x])
  | receive =>
      cases q with
      | nil => exact nomatch hs
      | cons x q =>
          rw [← Option.some.inj hs]
          show (rcv ++ [x] ++ q).Sublist snt
          rw [List.append_assoc]
          exact hm
  | discard =>
      rw [← Option.some.inj hs]
      show (rcv ++ []).Sublist snt
      rw [List.append_nil]
      exact (List.sublist_append_left rcv q).trans hm

/-- **NO LOSS**: when only an empty queue is ever emptied, what was received
    followed by what waits is exactly what was sent. -/
theorem received_all {m : Mail α} (h : Run mailbox lossless m) :
    m.received ++ m.queue = m.sent := by
  refine Run.invariant (I := fun m => m.received ++ m.queue = m.sent) rfl ?_ h
  intro m a m' hm ha hs
  obtain ⟨q, snt, rcv⟩ := m
  cases a with
  | send x =>
      rw [← Option.some.inj hs]
      show rcv ++ (q ++ [x]) = snt ++ [x]
      rw [← List.append_assoc, show rcv ++ q = snt from hm]
  | receive =>
      cases q with
      | nil => exact nomatch hs
      | cons x q =>
          rw [← Option.some.inj hs]
          show rcv ++ [x] ++ q = snt
          rw [List.append_assoc]
          exact hm
  | discard =>
      have hq : q = [] := ha
      rw [← Option.some.inj hs]
      show rcv ++ [] = snt
      rw [← hq]
      exact hm

end Mailbox

end Channel
