import Mathlib.Data.Fintype.Sigma
import Mathlib.Data.Fintype.Sum
import Mathlib.Tactic.DeriveFintype
import AipPkussm.ChannelProofs
import AipPkussm.ChatUserListProofs
import AipPkussm.SharedCellsProofs

/-! # The user list between the threads of the server

    Every `clithread` runs `conn_handler`, and one thread runs `loop_dispatch`,
    on the same shared segment, each step of one between steps of the others.
    `getMessage` and `putMessage` take the spin lock of `clilist_shm`;
    `conn_handler` writes its entry between the two without it, and
    `loop_dispatch` reads the descriptors without it.  `putMessage` maps the
    segment a second time and copies it onto itself, cell by cell.

    A cell is what one instruction writes: a number, one character of a name, or
    the `msghdr`, which nobody reads back. -/

namespace ChatListThreads

open LittleEndian ChatMessage ChatUserList Transition Channel SharedCells

/-! ## The segment, cell by cell -/

/-- The parts of a user. -/
inductive Field where
  | id
  | connfd
  | name (k : Fin maxUserNameLen)
  | fdhdr
  deriving DecidableEq, Fintype

/-- What a part holds. -/
abbrev Field.Value : Field → Type
  | .id => BitVec 32
  | .connfd => Int
  | .name _ => Byte
  | .fdhdr => Msghdr

/-- A part of a user of the list. -/
structure Cell where
  user : Fin maxUserNum
  field : Field
  deriving DecidableEq, Fintype

/-- What a cell holds. -/
abbrev Cell.Value (c : Cell) : Type := c.field.Value

/-- The shared segment. -/
abbrev Segment := (c : Cell) → c.Value

/-- The segment as an array of users. -/
def users (seg : Segment) : UserList := fun i =>
  { id := seg ⟨i, .id⟩
    connfd := seg ⟨i, .connfd⟩
    name := List.ofFn (fun k => seg ⟨i, .name k⟩)
    fdhdr := seg ⟨i, .fdhdr⟩ }

/-- A segment of zeros. -/
def zeroSegment : Segment
  | ⟨_, .id⟩ => 0
  | ⟨_, .connfd⟩ => 0
  | ⟨_, .name _⟩ => 0
  | ⟨_, .fdhdr⟩ => ⟨0, 0, 0, 0, 0, 0, 0⟩

/-- An assignment to a cell. -/
abbrev Write := (c : Cell) × c.Value

/-- The segment after an assignment. -/
def Write.run (w : Write) (seg : Segment) : Segment := Function.update seg w.1 w.2

/-- What `conn_handler` writes to the user `i`, in its order. -/
def assignments (msg : Message) (connfd : Int) (i : Fin maxUserNum) : List Write :=
  ⟨⟨i, .id⟩, msg.fromId⟩ :: ⟨⟨i, .connfd⟩, connfd⟩ ::
    (List.finRange maxUserNameLen).map (fun k =>
      ⟨⟨i, .name k⟩, (strncpy maxUserNameLen msg.fname).getD k 0⟩)

/-- The users that `loop_dispatch` looks up for a message to `toId`, in its order;
    an id past the end of the list is a fault. -/
def lookups (toId : BitVec 32) : Option (List (Fin maxUserNum)) :=
  if isBroadcast toId then some (List.finRange maxUserNum)
  else if h : toId.toNat < maxUserNum then some [⟨toId.toNat, h⟩] else none

/-! ## The threads -/

/-- The thread of a connection, or the dispatcher. -/
inductive Thread (ι : Type) where
  | clithread (i : ι)
  | dispatcher
  deriving DecidableEq

/-- What a thread uses the list for. -/
inductive Task where
  /-- `conn_handler` -/
  | conn (msg : Message) (connfd : Int)
  /-- a round of `loop_dispatch` for a message to `toId` -/
  | dispatch (toId : BitVec 32)

/-- Where a thread is. -/
inductive Pc where
  /-- outside -/
  | idle
  /-- at the `atomic_exchange` of `getMessage` -/
  | getLock (task : Task)
  /-- before `read_fd` and the assignment to `temp_msg->connfd` -/
  | readFd (task : Task)
  /-- at the `atomic_store` of `getMessage` -/
  | getUnlock (task : Task)
  /-- in `conn_handler`, with assignments to go -/
  | assigning (rest : List Write)
  /-- in the loop of `loop_dispatch`, with users to look up -/
  | sending (rest : List (Fin maxUserNum))
  /-- at the `atomic_exchange` of `putMessage` -/
  | putLock
  /-- before the assignment of `write_fd` -/
  | writeFd
  /-- in `memcpy`, then at the `atomic_store` of `putMessage` -/
  | copying (copy : Copy Cell.Value)
  /-- past the end of the list -/
  | fault

/-- The steps of a thread. -/
inductive Act where
  | begin (task : Task)
  | exchange
  | readFd (got : GetFrame)
  | getStore
  | assign
  | send
  | writeFd (put : WriteFrame)
  | load (c : Cell)
  | store (c : Cell)
  | putStore

/-- The segment, the lock and the threads; as history, the descriptors that
    `conn_handler` assigned, newest first, and those that `loop_dispatch` sent
    to, each with its user. -/
structure ListState (ι : Type) where
  seg : Segment
  lock : Bool
  pc : Thread ι → Pc
  assigned : List (Fin maxUserNum × Int)
  sent : List (Fin maxUserNum × Int)

variable {ι : Type} [DecidableEq ι]

/-- A thread moves. -/
def ListState.goto (s : ListState ι) (t : Thread ι) (p : Pc) : ListState ι :=
  { s with pc := Function.update s.pc t p }

/-- Whose tasks these are. -/
def Task.by : Task → Thread ι → Bool
  | .conn _ _, .clithread _ => true
  | .dispatch _, .dispatcher => true
  | _, _ => false

/-- In `conn_handler`, with these assignments to go. -/
def Pc.assign : List Write → Pc
  | [] => .putLock
  | w :: rest => .assigning (w :: rest)

/-- In `loop_dispatch`, with these users to go. -/
def Pc.send : List (Fin maxUserNum) → Pc
  | [] => .idle
  | i :: rest => .sending (i :: rest)

/-- The end of `getMessage`: what the caller does with the list. -/
def Task.after : Task → Pc
  | .conn msg connfd =>
      if h : msg.fromId.toNat < maxUserNum then
        Pc.assign (assignments msg connfd ⟨msg.fromId.toNat, h⟩)
      else .fault
  | .dispatch toId =>
      match lookups toId with
      | some ids => Pc.send ids
      | none => .fault

/-- The user and the descriptor of an assignment to a `connfd`. -/
def Write.registers : Write → List (Fin maxUserNum × Int)
  | ⟨⟨i, .connfd⟩, fd⟩ => [(i, fd)]
  | _ => []

/-- The segment after `read_fd` and the `if` after it. -/
def afterReadFd (got : GetFrame) (seg : Segment) : Segment :=
  let connfd := ChatUserList.readFd got.locals got.control (seg ⟨0, .fdhdr⟩)
  if 0 < connfd then Function.update seg ⟨0, .connfd⟩ connfd else seg

/-- The segment after the assignment of `write_fd`'s result. -/
def afterWriteFd (put : WriteFrame) (seg : Segment) : Segment :=
  Function.update seg ⟨0, .fdhdr⟩ (ChatUserList.writeFd put (seg ⟨0, .connfd⟩))

/-- One step of a thread. -/
def listStep (s : ListState ι) (l : Thread ι × Act) : Option (ListState ι) :=
  match l.2, s.pc l.1 with
  | .begin task, .idle => if task.by l.1 then some (s.goto l.1 (.getLock task)) else none
  | .exchange, .getLock task =>
      if s.lock then some s else some ({ s with lock := true }.goto l.1 (.readFd task))
  | .readFd got, .readFd task =>
      some ({ s with seg := afterReadFd got s.seg }.goto l.1 (.getUnlock task))
  | .getStore, .getUnlock task => some ({ s with lock := false }.goto l.1 task.after)
  | .assign, .assigning (w :: rest) =>
      some ({ s with seg := w.run s.seg, assigned := w.registers ++ s.assigned }.goto
        l.1 (Pc.assign rest))
  | .send, .sending (i :: rest) =>
      some ({ s with sent := (i, s.seg ⟨i, .connfd⟩) :: s.sent }.goto
        l.1 (Pc.send rest))
  | .exchange, .putLock =>
      if s.lock then some s else some ({ s with lock := true }.goto l.1 .writeFd)
  | .writeFd put, .writeFd =>
      some ({ s with seg := afterWriteFd put s.seg }.goto l.1 (.copying Copy.start))
  | .load c, .copying copy =>
      (load s.seg copy c).map (fun copy' => s.goto l.1 (.copying copy'))
  | .store c, .copying copy =>
      (store s.seg copy c).map (fun r => { s with seg := r.1 }.goto l.1 (.copying r.2))
  | .putStore, .copying copy =>
      if copy.Finished then some ({ s with lock := false }.goto l.1 .idle) else none
  | _, _ => none

/-- A zeroed segment that nobody uses yet. -/
def listInit : ListState ι where
  seg := zeroSegment
  lock := false
  pc := fun _ => .idle
  assigned := []
  sent := []

/-- The list and its threads. -/
def listThreads : Machine (ListState ι) (Thread ι × Act) where
  init := listInit
  step := listStep

/-! ## What a step can do -/

namespace ListState

variable (s : ListState ι) (t : Thread ι) (p : Pc)

@[simp] theorem goto_pc_self : (s.goto t p).pc t = p := Function.update_self ..

theorem goto_pc_of_ne {t u : Thread ι} (h : u ≠ t) : (s.goto t p).pc u = s.pc u :=
  Function.update_of_ne h ..

/-- A fact about every thread's place after thread `t` moved: it holds at the new
    place, and at the places where the others were. -/
theorem goto_forall {s r : ListState ι} {t : Thread ι} {p : Pc} (P : Thread ι → Pc → Prop)
    (hpc : r.pc = s.pc) (hself : P t p) (hrest : ∀ u, u ≠ t → P u (s.pc u)) :
    ∀ u, P u ((r.goto t p).pc u) := by
  intro u
  by_cases hut : u = t
  · rw [hut, goto_pc_self]
    exact hself
  · rw [goto_pc_of_ne _ _ hut, hpc]
    exact hrest u hut

@[simp] theorem goto_lock : (s.goto t p).lock = s.lock := rfl

end ListState

/-- The rules of the step function. -/
inductive ListStep (s : ListState ι) (t : Thread ι) : Act → ListState ι → Prop where
  | begin {task : Task} (hpc : s.pc t = .idle) (hby : task.by t = true) :
      ListStep s t (.begin task) (s.goto t (.getLock task))
  | spin (hpc : s.pc t = .putLock ∨ ∃ task, s.pc t = .getLock task) (hl : s.lock = true) :
      ListStep s t .exchange s
  | getLock {task : Task} (hpc : s.pc t = .getLock task) (hl : s.lock = false) :
      ListStep s t .exchange ({ s with lock := true }.goto t (.readFd task))
  | readFd {task : Task} (got : GetFrame) (hpc : s.pc t = .readFd task) :
      ListStep s t (.readFd got)
        ({ s with seg := afterReadFd got s.seg }.goto t (.getUnlock task))
  | getStore {task : Task} (hpc : s.pc t = .getUnlock task) :
      ListStep s t .getStore ({ s with lock := false }.goto t task.after)
  | assign {w : Write} {rest : List Write} (hpc : s.pc t = .assigning (w :: rest)) :
      ListStep s t .assign
        ({ s with seg := w.run s.seg, assigned := w.registers ++ s.assigned }.goto
          t (Pc.assign rest))
  | send {i : Fin maxUserNum} {rest : List (Fin maxUserNum)}
      (hpc : s.pc t = .sending (i :: rest)) :
      ListStep s t .send
        ({ s with sent := (i, s.seg ⟨i, .connfd⟩) :: s.sent }.goto t (Pc.send rest))
  | putLock (hpc : s.pc t = .putLock) (hl : s.lock = false) :
      ListStep s t .exchange ({ s with lock := true }.goto t .writeFd)
  | writeFd (put : WriteFrame) (hpc : s.pc t = .writeFd) :
      ListStep s t (.writeFd put)
        ({ s with seg := afterWriteFd put s.seg }.goto t (.copying Copy.start))
  | load {c : Cell} {copy copy' : Copy Cell.Value} (hpc : s.pc t = .copying copy)
      (hl : load s.seg copy c = some copy') :
      ListStep s t (.load c) (s.goto t (.copying copy'))
  | store {c : Cell} {copy copy' : Copy Cell.Value} {seg : Segment}
      (hpc : s.pc t = .copying copy) (hs : store s.seg copy c = some (seg, copy')) :
      ListStep s t (.store c) ({ s with seg := seg }.goto t (.copying copy'))
  | putStore {copy : Copy Cell.Value} (hpc : s.pc t = .copying copy)
      (hdone : copy.Finished) :
      ListStep s t .putStore ({ s with lock := false }.goto t .idle)

/-- **STEP INVERSION**: a step is an instance of a rule. -/
theorem rule_of_listStep {s s' : ListState ι} {t : Thread ι} {a : Act}
    (h : listStep s (t, a) = some s') : ListStep s t a s' := by
  rw [listStep] at h
  split at h
  next task ha hpc =>
    obtain rfl : a = _ := ha
    split at h
    · rename_i hby
      obtain rfl := Option.some.inj h
      exact ListStep.begin hpc hby
    · cases h
  next task ha hpc =>
    obtain rfl : a = _ := ha
    split at h
    · rename_i hl
      obtain rfl := Option.some.inj h
      exact ListStep.spin (Or.inr ⟨task, hpc⟩) hl
    · rename_i hl
      obtain rfl := Option.some.inj h
      exact ListStep.getLock hpc (Bool.eq_false_iff.mpr hl)
  next got task ha hpc =>
    obtain rfl : a = _ := ha
    obtain rfl := Option.some.inj h
    exact ListStep.readFd got hpc
  next task ha hpc =>
    obtain rfl : a = _ := ha
    obtain rfl := Option.some.inj h
    exact ListStep.getStore hpc
  next w rest ha hpc =>
    obtain rfl : a = _ := ha
    obtain rfl := Option.some.inj h
    exact ListStep.assign hpc
  next i rest ha hpc =>
    obtain rfl : a = _ := ha
    obtain rfl := Option.some.inj h
    exact ListStep.send hpc
  next ha hpc =>
    obtain rfl : a = _ := ha
    split at h
    · rename_i hl
      obtain rfl := Option.some.inj h
      exact ListStep.spin (Or.inl hpc) hl
    · rename_i hl
      obtain rfl := Option.some.inj h
      exact ListStep.putLock hpc (Bool.eq_false_iff.mpr hl)
  next put ha hpc =>
    obtain rfl : a = _ := ha
    obtain rfl := Option.some.inj h
    exact ListStep.writeFd put hpc
  next c copy ha hpc =>
    obtain rfl : a = _ := ha
    obtain ⟨copy', hl, rfl⟩ := Option.map_eq_some_iff.mp h
    exact ListStep.load hpc hl
  next c copy ha hpc =>
    obtain rfl : a = _ := ha
    obtain ⟨⟨seg, copy'⟩, hs, rfl⟩ := Option.map_eq_some_iff.mp h
    exact ListStep.store hpc hs
  next copy ha hpc =>
    obtain rfl : a = _ := ha
    split at h
    · rename_i hdone
      obtain rfl := Option.some.inj h
      exact ListStep.putStore hpc hdone
    · cases h
  next => cases h

/-- A step of one thread leaves the others where they are. -/
theorem pc_of_ne {s s' : ListState ι} {t u : Thread ι} {a : Act} (hu : u ≠ t)
    (hstep : ListStep s t a s') : s'.pc u = s.pc u := by
  cases hstep with
  | spin => rfl
  | _ => exact ListState.goto_pc_of_ne _ _ hu

/-! ## The lock -/

/-- Between a successful `atomic_exchange` and the `atomic_store` after it. -/
def holds : Pc → Bool
  | .readFd _ => true
  | .getUnlock _ => true
  | .writeFd => true
  | .copying _ => true
  | _ => false

@[simp] theorem holds_assign (rest : List Write) : holds (Pc.assign rest) = false := by
  cases rest <;> rfl

@[simp] theorem holds_send (rest : List (Fin maxUserNum)) :
    holds (Pc.send rest) = false := by
  cases rest <;> rfl

@[simp] theorem holds_after (task : Task) : holds task.after = false := by
  cases task with
  | conn msg connfd =>
      rw [Task.after]
      split
      · exact holds_assign _
      · rfl
  | dispatch toId =>
      rw [Task.after]
      split
      · exact holds_send _
      · rfl

/-- The threads inside the lock. -/
def inside (s : ListState ι) : Thread ι → Bool := fun t => holds (s.pc t)

theorem inside_goto (s : ListState ι) (t : Thread ι) (p : Pc) :
    inside (s.goto t p) = Function.update (inside s) t (holds p) :=
  Function.comp_update holds s.pc t p

omit [DecidableEq ι] in
theorem inside_congr {s r : ListState ι} (h : r.pc = s.pc) : inside r = inside s :=
  congrArg (fun pc t => holds (pc t)) h

/-- **STEP**: a step keeps the owner of the lock or is a step of the abstract mutex. -/
theorem guards_step {s s' : ListState ι} {t : Thread ι} {a : Act} {o : Option (Thread ι)}
    (h : Guards s.lock (inside s) o) (hstep : ListStep s t a s') :
    Guards s'.lock (inside s') o
      ∨ ∃ b o', mutex.step o b = some o' ∧ Guards s'.lock (inside s') o' := by
  have hmove : ∀ (r : ListState ι) (p : Pc), r.lock = s.lock → r.pc = s.pc →
      holds p = holds (s.pc t) → Guards (r.goto t p).lock (inside (r.goto t p)) o := by
    intro r p hl hpc hp
    rw [inside_goto, inside_congr hpc, ListState.goto_lock, hl]
    exact h.move hp
  have htake : ∀ (r : ListState ι) (p : Pc), s.lock = false → r.lock = true → r.pc = s.pc →
      holds p = true → ∃ b o', mutex.step o b = some o'
        ∧ Guards (r.goto t p).lock (inside (r.goto t p)) o' := by
    intro r p hfree hl hpc hp
    rw [hfree] at h
    refine ⟨.acquire t, some t, by rw [h.free rfl, mutex_acquire], ?_⟩
    rw [inside_goto, inside_congr hpc, ListState.goto_lock, hl, hp]
    exact h.take
  have hgive : ∀ (r : ListState ι) (p : Pc), holds (s.pc t) = true → r.lock = false →
      r.pc = s.pc → holds p = false → ∃ b o', mutex.step o b = some o'
        ∧ Guards (r.goto t p).lock (inside (r.goto t p)) o' := by
    intro r p hheld hl hpc hp
    refine ⟨.release t, none, by rw [(h.owner t).mp hheld, mutex_release], ?_⟩
    rw [inside_goto, inside_congr hpc, ListState.goto_lock, hl, hp]
    exact h.give hheld
  cases hstep with
  | begin hpc => exact Or.inl (hmove s _ rfl rfl (by rw [hpc]; rfl))
  | spin => exact Or.inl h
  | getLock hpc hl => exact Or.inr (htake _ _ hl rfl rfl rfl)
  | readFd got hpc => exact Or.inl (hmove _ _ rfl rfl (by rw [hpc]; rfl))
  | getStore hpc => exact Or.inr (hgive _ _ (by rw [hpc]; rfl) rfl rfl (holds_after _))
  | assign hpc => exact Or.inl (hmove _ _ rfl rfl (by rw [hpc]; exact holds_assign _))
  | send hpc => exact Or.inl (hmove _ _ rfl rfl (by rw [hpc]; exact holds_send _))
  | putLock hpc hl => exact Or.inr (htake _ _ hl rfl rfl rfl)
  | writeFd put hpc => exact Or.inl (hmove _ _ rfl rfl (by rw [hpc]; rfl))
  | load hpc => exact Or.inl (hmove s _ rfl rfl (by rw [hpc]; rfl))
  | store hpc => exact Or.inl (hmove _ _ rfl rfl (by rw [hpc]; rfl))
  | putStore hpc => exact Or.inr (hgive _ _ (by rw [hpc]; rfl) rfl rfl rfl)

/-- **RUN**: the spin lock refines the abstract mutex. -/
theorem guards_run {allowed : ListState ι → Thread ι × Act → Prop} {s : ListState ι}
    (h : Run listThreads allowed s) :
    ∃ o, Run mutex anyStep o ∧ Guards s.lock (inside s) o := by
  refine Run.simulate (N := mutex) (R := fun s o => Guards s.lock (inside s) o)
    Guards.start ?_ h
  rintro s o ⟨t, a⟩ s' hs - hstep
  rcases guards_step hs (rule_of_listStep hstep) with hkeep | ⟨b, o', hb, ho'⟩
  · exact Or.inl hkeep
  · exact Or.inr ⟨b, o', trivial, hb, ho'⟩

/-! ## Where the descriptors come from -/

/-- Where the value of a cell may come from, when `passed` are the messages and
    descriptors of the `conn_handler` calls: nothing but a call for that id,
    except for the first user's descriptor. -/
def Origin (passed : Message → Int → Prop) : (c : Cell) → c.Value → Prop
  | ⟨i, .id⟩, v => v = 0 ∨ ∃ msg fd, passed msg fd ∧ msg.fromId.toNat = i ∧ v = msg.fromId
  | ⟨i, .connfd⟩, fd => i = 0 ∨ fd = 0 ∨ ∃ msg, passed msg fd ∧ msg.fromId.toNat = i
  | ⟨i, .name k⟩, b => b = 0 ∨ ∃ msg fd, passed msg fd ∧ msg.fromId.toNat = i
      ∧ b = (strncpy maxUserNameLen msg.fname).getD k 0
  | ⟨_, .fdhdr⟩, _ => True

/-- What a thread holds on to comes from such a call. -/
def Task.From (passed : Message → Int → Prop) : Task → Prop
  | .conn msg connfd => passed msg connfd
  | .dispatch _ => True

/-- What a thread holds on to comes from such a call. -/
def Pc.From (passed : Message → Int → Prop) : Pc → Prop
  | .getLock task => task.From passed
  | .readFd task => task.From passed
  | .getUnlock task => task.From passed
  | .assigning rest => ∀ w ∈ rest, Origin passed w.1 w.2
  | .copying copy => copy.Sourced (Origin passed)
  | _ => True

/-- Everything in the state comes from such a call. -/
structure AllFrom (passed : Message → Int → Prop) (s : ListState ι) : Prop where
  seg : Sourced (Origin passed) s.seg
  pcs : ∀ t, (s.pc t).From passed
  sent : ∀ i fd, (i, fd) ∈ s.sent → Origin passed ⟨i, .connfd⟩ fd

/-- Steps whose `conn_handler` calls are among `passed`. -/
def Passes (passed : Message → Int → Prop) (_ : ListState ι) (l : Thread ι × Act) : Prop :=
  match l.2 with
  | .begin (.conn msg connfd) => passed msg connfd
  | _ => True

section From

variable {passed : Message → Int → Prop}

theorem origin_zeroSegment : Sourced (Origin passed) zeroSegment := by
  rintro ⟨i, field⟩
  cases field with
  | id => exact Or.inl rfl
  | connfd => exact Or.inr (Or.inl rfl)
  | name k => exact Or.inl rfl
  | fdhdr => trivial

/-- What `conn_handler` assigns comes from its call. -/
theorem origin_assignments {msg : Message} {connfd : Int} (hp : passed msg connfd)
    {i : Fin maxUserNum} (hi : msg.fromId.toNat = i) :
    ∀ w ∈ assignments msg connfd i, Origin passed w.1 w.2 := by
  intro w hw
  rw [assignments, List.mem_cons, List.mem_cons, List.mem_map] at hw
  rcases hw with rfl | rfl | ⟨k, -, rfl⟩
  · exact Or.inr ⟨msg, connfd, hp, hi, rfl⟩
  · exact Or.inr (Or.inr ⟨msg, hp, hi⟩)
  · exact Or.inr ⟨msg, connfd, hp, hi, rfl⟩

theorem from_assign {rest : List Write} (h : ∀ w ∈ rest, Origin passed w.1 w.2) :
    (Pc.assign rest).From passed := by
  cases rest with
  | nil => trivial
  | cons w rest => exact h

theorem from_send (rest : List (Fin maxUserNum)) : (Pc.send rest).From passed := by
  cases rest <;> trivial

/-- What the caller of `getMessage` goes on with comes from its call. -/
theorem Task.From.after {task : Task} (h : task.From passed) : task.after.From passed := by
  cases task with
  | conn msg connfd =>
      rw [Task.after]
      split
      · exact from_assign (origin_assignments h rfl)
      · trivial
  | dispatch toId =>
      rw [Task.after]
      split
      · exact from_send _
      · trivial

/-- `read_fd` stores in the first user's `connfd` only. -/
theorem sourced_afterReadFd {seg : Segment} (got : GetFrame)
    (h : Sourced (Origin passed) seg) : Sourced (Origin passed) (afterReadFd got seg) := by
  rw [afterReadFd]
  split
  · exact h.write (Or.inl rfl)
  · exact h

/-- **STEP**: everything keeps coming from a `conn_handler` call. -/
theorem allFrom_step {s s' : ListState ι} {t : Thread ι} {a : Act} (h : AllFrom passed s)
    (hp : Passes passed s (t, a)) (hstep : ListStep s t a s') : AllFrom passed s' := by
  have hpcs : ∀ (r : ListState ι) (p : Pc), r.pc = s.pc → p.From passed →
      ∀ u, ((r.goto t p).pc u).From passed := by
    intro r p hpc hself
    exact ListState.goto_forall (fun _ q => q.From passed) hpc hself (fun u _ => h.pcs u)
  have hat : ∀ {p : Pc}, s.pc t = p → p.From passed := by
    intro p hpc
    rw [← hpc]
    exact h.pcs t
  cases hstep with
  | begin hpc =>
      refine ⟨h.seg, hpcs s _ rfl ?_, h.sent⟩
      rename_i task _
      cases task with
      | conn msg connfd => exact hp
      | dispatch toId => trivial
  | spin => exact h
  | getLock hpc =>
      have hfrom : Task.From passed _ := hat hpc
      exact ⟨h.seg, hpcs _ _ rfl hfrom, h.sent⟩
  | readFd got hpc =>
      have hfrom : Task.From passed _ := hat hpc
      exact ⟨sourced_afterReadFd _ h.seg, hpcs _ _ rfl hfrom, h.sent⟩
  | getStore hpc =>
      have hfrom : Task.From passed _ := hat hpc
      exact ⟨h.seg, hpcs _ _ rfl hfrom.after, h.sent⟩
  | assign hpc =>
      have hws := hat hpc
      exact ⟨h.seg.write (hws _ (List.mem_cons_self ..)),
        hpcs _ _ rfl (from_assign fun w hw => hws w (List.mem_cons_of_mem _ hw)), h.sent⟩
  | send hpc =>
      refine ⟨h.seg, hpcs _ _ rfl (from_send _), ?_⟩
      intro i fd hmem
      rcases List.mem_cons.mp hmem with heq | hmem'
      · obtain ⟨rfl, rfl⟩ := Prod.mk.inj heq
        exact h.seg ⟨i, .connfd⟩
      · exact h.sent i fd hmem'
  | putLock => exact ⟨h.seg, hpcs _ _ rfl trivial, h.sent⟩
  | writeFd => exact ⟨h.seg.write trivial, hpcs _ _ rfl Copy.sourced_start, h.sent⟩
  | load hpc hl =>
      have hcopy : Copy.Sourced (Origin passed) _ := hat hpc
      exact ⟨h.seg, hpcs s _ rfl (h.seg.load hcopy hl), h.sent⟩
  | store hpc hs =>
      have hcopy : Copy.Sourced (Origin passed) _ := hat hpc
      obtain ⟨hseg, hcopy'⟩ := h.seg.store hcopy hs
      exact ⟨hseg, hpcs _ _ rfl hcopy', h.sent⟩
  | putStore => exact ⟨h.seg, hpcs _ _ rfl trivial, h.sent⟩

/-- **RUN**: in every run everything comes from a `conn_handler` call. -/
theorem allFrom_run {s : ListState ι} (h : Run listThreads (Passes passed) s) :
    AllFrom passed s := by
  refine Run.invariant (I := AllFrom passed) ?_ ?_ h
  · exact ⟨origin_zeroSegment, fun _ => trivial,
      fun _ _ hmem => absurd hmem List.not_mem_nil⟩
  · rintro s ⟨t, a⟩ s' hs hp hstep
    exact allFrom_step hs hp (rule_of_listStep hstep)

end From

/-- The `conn_handler` calls of a list of steps. -/
def Called (acts : List (Thread ι × Act)) (msg : Message) (connfd : Int) : Prop :=
  ∃ t, (t, .begin (.conn msg connfd)) ∈ acts

/-- **AUTHENTICITY**: in every interleaving the list holds, and the dispatcher
    uses, for an id other than 0 no descriptor but one that a CONN message for
    that id came in on, or 0. -/
theorem origin_of_play {acts : List (Thread ι × Act)} {s : ListState ι}
    (h : play listThreads listInit acts = some s) :
    (∀ c, Origin (Called acts) c (s.seg c))
      ∧ ∀ i fd, (i, fd) ∈ s.sent → Origin (Called acts) ⟨i, .connfd⟩ fd := by
  have hpasses : ∀ l ∈ acts, ∀ s, Passes (Called acts) s l := by
    rintro ⟨t, a⟩ hmem s
    rw [Passes]
    split
    · rename_i msg connfd heq
      obtain rfl : a = _ := heq
      exact ⟨t, hmem⟩
    · trivial
  have hall := allFrom_run (Run.of_play acts (follows_of_forall acts hpasses _) h)
  exact ⟨hall.seg, hall.sent⟩

/-- A message to user 1 is dispatched while the CONN message of user 1 is handled. -/
def lookedUp : List (Thread Nat × Act) :=
  [(.dispatcher, .begin (.dispatch 1)), (.dispatcher, .exchange),
    (.dispatcher, .readFd cleanFrame), (.dispatcher, .getStore),
    (.clithread 0, .begin (.conn blankMessage 7)), (.clithread 0, .exchange),
    (.clithread 0, .readFd cleanFrame), (.clithread 0, .getStore),
    (.clithread 0, .assign), (.clithread 0, .assign), (.dispatcher, .send)]

theorem origin_lookedUp :
    ∃ s, play listThreads listInit lookedUp = some s ∧ s.sent = [(1, 7)]
      ∧ (∀ c, Origin (Called lookedUp) c (s.seg c))
      ∧ ∀ i fd, (i, fd) ∈ s.sent → Origin (Called lookedUp) ⟨i, .connfd⟩ fd :=
  ⟨_, rfl, rfl, origin_of_play rfl⟩

/-! ## The map from id to descriptor, and lost registrations -/

/-- The map that assignments make, the newest of them first. -/
def registry : List (Fin maxUserNum × Int) → Registry
  | [] => fun _ => 0
  | (i, fd) :: older => Function.update (registry older) i fd

/-- The list holds what was assigned last. -/
def Agrees (s : ListState ι) : Prop := connfds (users s.seg) = registry s.assigned

/-- The step keeps what was assigned: a `read_fd` whose control buffer is harmless,
    or a store that puts a descriptor back where it still is. -/
def Keeps (s : ListState ι) (l : Thread ι × Act) : Prop :=
  match l.2 with
  | .readFd got => got.control.Harmless (s.seg ⟨0, .connfd⟩)
  | .store ⟨i, .connfd⟩ => ∀ copy fd, s.pc l.1 = .copying copy →
      copy ⟨i, .connfd⟩ = .loaded fd → fd = s.seg ⟨i, .connfd⟩
  | _ => True

/-- A write to one user leaves the others. -/
theorem users_update_of_ne (seg : Segment) (c : Cell) (v : c.Value) {i : Fin maxUserNum}
    (hi : i ≠ c.user) : users (Function.update seg c v) i = users seg i := by
  have hne : ∀ field : Field, (⟨i, field⟩ : Cell) ≠ c := fun _ h => hi (congrArg Cell.user h)
  simp only [users, Function.update_of_ne (hne _)]

/-- A write of an id. -/
theorem users_update_id (seg : Segment) (i : Fin maxUserNum) (id : BitVec 32) :
    users (Function.update seg ⟨i, .id⟩ id)
      = Function.update (users seg) i { users seg i with id := id } := by
  funext j
  by_cases hj : j = i
  · subst hj
    rw [Function.update_self]
    simp [users]
  · rw [Function.update_of_ne hj, users_update_of_ne seg ⟨i, .id⟩ id hj]

/-- A write of a descriptor. -/
theorem users_update_connfd (seg : Segment) (i : Fin maxUserNum) (fd : Int) :
    users (Function.update seg ⟨i, .connfd⟩ fd)
      = Function.update (users seg) i { users seg i with connfd := fd } := by
  funext j
  by_cases hj : j = i
  · subst hj
    rw [Function.update_self]
    simp [users]
  · rw [Function.update_of_ne hj, users_update_of_ne seg ⟨i, .connfd⟩ fd hj]

/-- A write of a `msghdr`. -/
theorem users_update_fdhdr (seg : Segment) (i : Fin maxUserNum) (fdhdr : Msghdr) :
    users (Function.update seg ⟨i, .fdhdr⟩ fdhdr)
      = Function.update (users seg) i { users seg i with fdhdr := fdhdr } := by
  funext j
  by_cases hj : j = i
  · subst hj
    rw [Function.update_self]
    simp [users]
  · rw [Function.update_of_ne hj, users_update_of_ne seg ⟨i, .fdhdr⟩ fdhdr hj]

/-- `getMessage` on the cells is `getMessage` on the users. -/
theorem users_afterReadFd (got : GetFrame) (seg : Segment) :
    users (afterReadFd got seg) = getMessage got (users seg) := by
  have hget : getMessage got (users seg)
      = if 0 < ChatUserList.readFd got.locals got.control (seg ⟨0, .fdhdr⟩) then
          Function.update (users seg) 0 { users seg 0 with
            connfd := ChatUserList.readFd got.locals got.control (seg ⟨0, .fdhdr⟩) }
        else users seg := rfl
  rw [afterReadFd, hget]
  split
  · exact users_update_connfd seg 0 _
  · rfl

/-- `write_fd` on the cells is `putMessage` on the users. -/
theorem users_afterWriteFd (put : WriteFrame) (seg : Segment) :
    users (afterWriteFd put seg) = putMessage put (users seg) :=
  users_update_fdhdr seg 0 _

/-- A write to another part than a `connfd` leaves the descriptors. -/
theorem connfds_update_of_ne (seg : Segment) (c : Cell) (v : c.Value)
    (hc : c.field ≠ .connfd) :
    connfds (users (Function.update seg c v)) = connfds (users seg) := by
  funext i
  have hne : (⟨i, .connfd⟩ : Cell) ≠ c := fun h => hc (congrArg Cell.field h).symm
  exact Function.update_of_ne hne ..

/-- A write of a descriptor. -/
theorem connfds_update_connfd (seg : Segment) (i : Fin maxUserNum) (fd : Int) :
    connfds (users (Function.update seg ⟨i, .connfd⟩ fd))
      = Function.update (connfds (users seg)) i fd := by
  funext j
  by_cases hj : j = i
  · rw [connfds, hj, users_update_connfd, Function.update_self, Function.update_self]
  · rw [connfds, users_update_connfd, Function.update_of_ne hj, Function.update_of_ne hj]
    rfl

/-- An assignment does to the list what it does to the map. -/
theorem connfds_run (w : Write) (seg : Segment) {assigned : List (Fin maxUserNum × Int)}
    (h : connfds (users seg) = registry assigned) :
    connfds (users (w.run seg)) = registry (w.registers ++ assigned) := by
  obtain ⟨⟨i, field⟩, v⟩ := w
  cases field with
  | connfd =>
      refine (connfds_update_connfd seg i v).trans ?_
      rw [h]
      rfl
  | id => exact (connfds_update_of_ne seg ⟨i, .id⟩ v Field.noConfusion).trans h
  | name k => exact (connfds_update_of_ne seg ⟨i, .name k⟩ v Field.noConfusion).trans h
  | fdhdr => exact (connfds_update_of_ne seg ⟨i, .fdhdr⟩ v Field.noConfusion).trans h

/-- **STEP**: a step keeps what was assigned exactly when it is one that `Keeps`. -/
theorem agrees_step_iff {s s' : ListState ι} {t : Thread ι} {a : Act} (h : Agrees s)
    (hstep : ListStep s t a s') : Keeps s (t, a) ↔ Agrees s' := by
  have hsame : ∀ (r : ListState ι), connfds (users r.seg) = connfds (users s.seg) →
      r.assigned = s.assigned → Agrees r := by
    intro r hseg hassigned
    rw [Agrees, hseg, hassigned]
    exact h
  -- only a write of a descriptor can change the descriptors
  have hother : ∀ (c : Cell) (v : c.Value), c.field ≠ .connfd → ∀ r : ListState ι,
      r.seg = Function.update s.seg c v → r.assigned = s.assigned → Agrees r := by
    intro c v hc r hseg
    exact hsame r (by rw [hseg, connfds_update_of_ne s.seg c v hc])
  cases hstep with
  | begin => exact iff_of_true trivial (hsame _ rfl rfl)
  | spin => exact iff_of_true trivial h
  | getLock => exact iff_of_true trivial (hsame _ rfl rfl)
  | readFd got hpc =>
      show got.control.Harmless (connfds (users s.seg) 0)
        ↔ connfds (users (afterReadFd got s.seg)) = registry s.assigned
      rw [users_afterReadFd, ← show connfds (users s.seg) = _ from h]
      exact (getMessage_keeps_iff got (users s.seg)).symm
  | getStore => exact iff_of_true trivial (hsame _ rfl rfl)
  | assign => exact iff_of_true trivial (connfds_run _ s.seg h)
  | send => exact iff_of_true trivial (hsame _ rfl rfl)
  | putLock => exact iff_of_true trivial (hsame _ rfl rfl)
  | writeFd => exact iff_of_true trivial (hother ⟨0, .fdhdr⟩ _ Field.noConfusion _ rfl rfl)
  | load => exact iff_of_true trivial (hsame _ rfl rfl)
  | store hpc hs =>
      rename_i c copy copy' seg
      obtain ⟨v, hv, rfl, -⟩ := store_eq_some hs
      obtain ⟨i, field⟩ := c
      cases field with
      | connfd =>
          show (∀ copy fd, s.pc t = .copying copy → copy ⟨i, .connfd⟩ = .loaded fd →
              fd = s.seg ⟨i, .connfd⟩)
            ↔ connfds (users (Function.update s.seg ⟨i, .connfd⟩ v)) = registry s.assigned
          -- the store keeps the list exactly when it brings back what is there
          rw [connfds_update_connfd, ← show connfds (users s.seg) = _ from h,
            Function.update_eq_self_iff]
          constructor
          · intro hkeep
            exact hkeep copy v hpc hv
          · rintro rfl copy₁ fd hpc₁ hfd
            obtain rfl : copy = copy₁ := Pc.copying.inj (hpc.symm.trans hpc₁)
            exact (Progress.loaded.inj (hv.symm.trans hfd)).symm
      | id => exact iff_of_true trivial (hother ⟨i, .id⟩ v Field.noConfusion _ rfl rfl)
      | name k => exact iff_of_true trivial (hother ⟨i, .name k⟩ v Field.noConfusion _ rfl rfl)
      | fdhdr => exact iff_of_true trivial (hother ⟨i, .fdhdr⟩ v Field.noConfusion _ rfl rfl)
  | putStore => exact iff_of_true trivial (hsame _ rfl rfl)

/-- **LOST REGISTRATIONS**: along an interleaving the list holds for each id the
    descriptor that was assigned to it last, in every state, exactly when every
    control buffer of a `read_fd` is harmless and every `memcpy` puts a descriptor
    back where it still is. -/
theorem agrees_iff_keeps {acts : List (Thread ι × Act)} {s : ListState ι}
    (h : play listThreads listInit acts = some s) :
    (Follows listThreads (fun s _ => Agrees s) listInit acts ∧ Agrees s)
      ↔ Follows listThreads Keeps listInit acts := by
  refine always_iff_follows ?_ acts listInit s rfl h
  rintro s₁ ⟨t, a⟩ s₂ hs hstep
  exact agrees_step_iff hs (rule_of_listStep hstep)

/-- The CONN message of user 1 on descriptor 7, up to its `memcpy`. -/
def upToCopy {ι : Type} (t : Thread ι) : List (Thread ι × Act) :=
  [(t, .begin (.conn blankMessage 7)), (t, .exchange), (t, .readFd cleanFrame), (t, .getStore)]
    ++ List.replicate 18 (t, .assign) ++ [(t, .exchange), (t, .writeFd ⟨0, 0, 0⟩)]

/-- User 2 registers on descriptor 8 between the load and the store of another
    thread's `memcpy`. -/
def lostActs : List (Thread Nat × Act) :=
  [(.clithread 1, .begin (.conn { blankMessage with fromId := 2 } 8)),
    (.clithread 1, .exchange), (.clithread 1, .readFd cleanFrame), (.clithread 1, .getStore)]
    ++ upToCopy (.clithread 0)
    ++ [(.clithread 0, .load ⟨2, .connfd⟩), (.clithread 1, .assign), (.clithread 1, .assign),
      (.clithread 0, .store ⟨2, .connfd⟩)]

theorem agrees_lostActs :
    ∃ s, play listThreads listInit lostActs = some s ∧ connfds (users s.seg) 2 = 0
      ∧ s.assigned = [(2, 8), (1, 7)]
      ∧ ((Follows listThreads (fun s _ => Agrees s) listInit lostActs ∧ Agrees s)
        ↔ Follows listThreads Keeps listInit lostActs) :=
  ⟨_, rfl, rfl, rfl, agrees_iff_keeps rfl⟩

/-! ## What the lock is good for

    The copies of two `putMessage` calls never overlap, and no `read_fd` falls into
    a copy.  What can fall into a copy is an assignment of `conn_handler`, which is
    made without the lock. -/

/-- The step is not an assignment to a cell that a `memcpy` has loaded and not yet
    stored, unless it is of the value loaded. -/
def Misses (s : ListState ι) (l : Thread ι × Act) : Prop :=
  l.2 = .assign → ∀ w rest, s.pc l.1 = .assigning (w :: rest) →
    ∀ u copy v, s.pc u = .copying copy → copy w.1 = .loaded v → v = w.2

/-- What every `memcpy` under way has loaded is still there. -/
def CopiesCurrent (s : ListState ι) : Prop :=
  ∀ u copy, s.pc u = .copying copy → Current s.seg copy

theorem assign_ne_copying {rest : List Write} {copy : Copy Cell.Value} :
    Pc.assign rest ≠ .copying copy := by
  intro h
  have hh := congrArg holds h
  rw [holds_assign] at hh
  cases hh

theorem send_ne_copying {rest : List (Fin maxUserNum)} {copy : Copy Cell.Value} :
    Pc.send rest ≠ .copying copy := by
  intro h
  have hh := congrArg holds h
  rw [holds_send] at hh
  cases hh

theorem after_ne_copying {task : Task} {copy : Copy Cell.Value} :
    task.after ≠ .copying copy := by
  intro h
  have hh := congrArg holds h
  rw [holds_after] at hh
  cases hh

/-- **STEP**: the copies stay current. -/
theorem copiesCurrent_step {s s' : ListState ι} {t : Thread ι} {a : Act}
    {o : Option (Thread ι)} (hg : Guards s.lock (inside s) o) (h : CopiesCurrent s)
    (hm : Misses s (t, a)) (hstep : ListStep s t a s') : CopiesCurrent s' := by
  -- a step that leaves the segment
  have hquiet : ∀ (r : ListState ι) (p : Pc), r.pc = s.pc → r.seg = s.seg →
      (∀ copy, p = .copying copy → Current s.seg copy) → CopiesCurrent (r.goto t p) := by
    intro r p hpc hseg hp
    refine ListState.goto_forall
      (fun _ q => ∀ copy, q = .copying copy → Current r.seg copy) hpc ?_ ?_
    · rw [hseg]
      exact hp
    · intro u _
      rw [hseg]
      exact h u
  -- a step inside the lock: nobody else is at a copy
  have hlocked : ∀ (r : ListState ι) (p : Pc), holds (s.pc t) = true → r.pc = s.pc →
      (∀ copy, p = .copying copy → Current r.seg copy) → CopiesCurrent (r.goto t p) := by
    intro r p hheld hpc hp
    refine ListState.goto_forall
      (fun _ q => ∀ copy, q = .copying copy → Current r.seg copy) hpc hp ?_
    intro u hu copy hcopy
    have hin : inside s u = true := by
      show holds (s.pc u) = true
      rw [hcopy]
      rfl
    exact absurd (hg.exclusive hin hheld) hu
  cases hstep with
  | begin => exact hquiet s _ rfl rfl (fun _ h => by cases h)
  | spin => exact h
  | getLock => exact hquiet _ _ rfl rfl (fun _ h => by cases h)
  | readFd got hpc => exact hlocked _ _ (by rw [hpc]; rfl) rfl (fun _ h => by cases h)
  | getStore => exact hquiet _ _ rfl rfl (fun _ h => absurd h after_ne_copying)
  | assign hpc =>
      refine ListState.goto_forall (fun _ q => ∀ copy, q = .copying copy → Current _ copy) rfl
        (fun copy heq => absurd heq assign_ne_copying) ?_
      intro u _ copy hcopy
      exact (h u copy hcopy).write (fun v hv => hm rfl _ _ hpc u copy v hcopy hv)
  | send => exact hquiet _ _ rfl rfl (fun _ h => absurd h send_ne_copying)
  | putLock => exact hquiet _ _ rfl rfl (fun _ h => by cases h)
  | writeFd put hpc =>
      refine hlocked _ _ (by rw [hpc]; rfl) rfl ?_
      rintro copy heq
      rw [← Pc.copying.inj heq]
      exact current_start _
  | load hpc hl =>
      refine hquiet s _ rfl rfl ?_
      rintro copy heq
      rw [← Pc.copying.inj heq]
      exact (h t _ hpc).load hl
  | store hpc hs =>
      refine hlocked _ _ (by rw [hpc]; rfl) rfl ?_
      rintro copy heq
      rw [← Pc.copying.inj heq]
      exact (h t _ hpc).store hs
  | putStore => exact hquiet _ _ rfl rfl (fun _ h => by cases h)

/-- **RUN**: without an assignment into a copy the copies stay current. -/
theorem copiesCurrent_run {s : ListState ι} (h : Run listThreads Misses s) :
    CopiesCurrent s := by
  have hboth : (∃ o, Guards s.lock (inside s) o) ∧ CopiesCurrent s := by
    refine Run.invariant
      (I := fun s => (∃ o, Guards s.lock (inside s) o) ∧ CopiesCurrent s) ?_ ?_ h
    · exact ⟨⟨none, Guards.start⟩, fun _ _ heq => by cases heq⟩
    · rintro s ⟨t, a⟩ s' ⟨⟨o, ho⟩, hs⟩ hm hstep
      have hrule := rule_of_listStep hstep
      refine ⟨?_, copiesCurrent_step ho hs hm hrule⟩
      rcases guards_step ho hrule with hkeep | ⟨-, o', -, ho'⟩
      · exact ⟨o, hkeep⟩
      · exact ⟨o', ho'⟩
  exact hboth.2

/-- **THE LOCK**: in a run where no assignment of a `conn_handler` falls between the
    load and the store of its cell, `memcpy` changes nothing. -/
theorem store_seg_of_misses {s s' : ListState ι} {t : Thread ι} {c : Cell}
    (h : Run listThreads Misses s) (hstep : listStep s (t, .store c) = some s') :
    s'.seg = s.seg := by
  cases rule_of_listStep hstep with
  | store hpc hs => exact (copiesCurrent_run h t _ hpc).store_mem hs

/-- The threads of a server with two connections. -/
def threads : List (Thread Bool) := [.clithread false, .clithread true, .dispatcher]

/-- No `memcpy` has loaded the cell and not stored it yet. -/
def noneLoaded (s : ListState Bool) (c : Cell) : Bool :=
  threads.all (fun t =>
    match s.pc t with
    | .copying copy =>
        match copy c with
        | .loaded _ => false
        | _ => true
    | _ => true)

/-- Whoever is at an assignment makes it to a cell that nobody has loaded. -/
def missesAll (s : ListState Bool) (l : Thread Bool × Act) : Bool :=
  match s.pc l.1 with
  | .assigning (w :: _) => noneLoaded s w.1
  | _ => true

theorem mem_threads : ∀ u : Thread Bool, u ∈ threads
  | .clithread i => by
      revert i
      decide
  | .dispatcher => by decide

theorem misses_of_missesAll {s : ListState Bool} {l : Thread Bool × Act}
    (h : missesAll s l = true) : Misses s l := by
  intro _ w rest hpc u copy v hcopy hv
  rw [missesAll, hpc] at h
  have hall := List.all_eq_true.mp h u (mem_threads u)
  simp only [hcopy, hv] at hall
  cases hall

/-- User 2 is entered while the other thread copies: between the load and the store of a cell
    of user 1 the new id is assigned. -/
def besideCopy : List (Thread Bool × Act) :=
  [(.clithread true, .begin (.conn { blankMessage with fromId := 2 } 8)),
    (.clithread true, .exchange), (.clithread true, .readFd cleanFrame),
    (.clithread true, .getStore)]
    ++ upToCopy (.clithread false)
    ++ [(.clithread false, .load ⟨1, .connfd⟩), (.clithread true, .assign)]

theorem store_seg_besideCopy :
    ∃ s s' : ListState Bool, Run listThreads Misses s ∧ s.seg ⟨2, .id⟩ = 2
      ∧ listStep s (.clithread false, .store ⟨1, .connfd⟩) = some s' ∧ s'.seg = s.seg := by
  obtain ⟨s, hs, hid, hsome⟩ : ∃ s, play listThreads listInit besideCopy = some s
      ∧ s.seg ⟨2, .id⟩ = 2
      ∧ (listStep s (.clithread false, .store ⟨1, .connfd⟩)).isSome = true :=
    ⟨_, rfl, rfl, rfl⟩
  obtain ⟨s', hstep⟩ := Option.isSome_iff_exists.mp hsome
  have hfollows : Follows listThreads (fun s l => missesAll s l = true) listInit besideCopy := by
    decide +kernel
  have hrun : Run listThreads Misses s :=
    Run.of_play _ (hfollows.imp (fun _ _ => misses_of_missesAll)) hs
  exact ⟨s, s', hrun, hid, hstep, store_seg_of_misses hrun hstep⟩

end ChatListThreads
