import AipPkussm.ChatListThreadsProofs

/-! # A call on the user list that runs without the others

    `conn_handler_of_alone` connects the two levels of the model: a `conn_handler`
    whose steps no other thread interrupts, its `memcpy` in any order, leaves the
    list that `connHandler` describes.

    `exists_return` is about the spin lock: whatever the threads have done, each
    of them can still get back from its call. -/

namespace ChatListSolo

open LittleEndian ChatMessage ChatUserList Transition Channel SharedCells ChatListThreads

variable {ι : Type} [DecidableEq ι]

/-- Steps of one thread that goes on with its call. -/
def Alone (t : Thread ι) (_ : ListState ι) (l : Thread ι × Act) : Prop :=
  l.1 = t ∧ ∀ task, l.2 ≠ .begin task

/-- The list and its threads, from a state. -/
abbrev listFrom (s : ListState ι) : Machine (ListState ι) (Thread ι × Act) := ⟨s, listStep⟩

/-- A rule is a step. -/
theorem listStep_of_rule {s s' : ListState ι} {t : Thread ι} {a : Act}
    (h : ListStep s t a s') : listStep s (t, a) = some s' := by
  cases h with
  | begin hpc hby => simp only [listStep, hpc, hby, if_true]
  | spin hpc hl =>
      rcases hpc with hpc | ⟨task, hpc⟩
      · simp only [listStep, hpc, hl, if_true]
      · simp only [listStep, hpc, hl, if_true]
  | getLock hpc hl => simp only [listStep, hpc, hl, Bool.false_eq_true, if_false]
  | readFd got hpc => simp only [listStep, hpc]
  | getStore hpc => simp only [listStep, hpc]
  | assign hpc => simp only [listStep, hpc]
  | send hpc => simp only [listStep, hpc]
  | putLock hpc hl => simp only [listStep, hpc, hl, Bool.false_eq_true, if_false]
  | writeFd put hpc => simp only [listStep, hpc]
  | load hpc hl => simp only [listStep, hpc, hl, Option.map_some]
  | store hpc hs => simp only [listStep, hpc, hs, Option.map_some]
  | putStore hpc hdone => simp only [listStep, hpc, if_pos hdone]

/-! ## The assignments, one after another -/

/-- The segment after some assignments. -/
def runs (ws : List Write) (seg : Segment) : Segment := ws.foldl (fun s w => w.run s) seg

theorem runs_append (ws ws' : List Write) (seg : Segment) :
    runs (ws ++ ws') seg = runs ws' (runs ws seg) :=
  List.foldl_append ..

/-- A cell that no assignment is about. -/
theorem runs_of_forall_ne (ws : List Write) (seg : Segment) (c : Cell)
    (h : ∀ w ∈ ws, c ≠ w.1) : runs ws seg c = seg c := by
  induction ws generalizing seg with
  | nil => rfl
  | cons w ws ih =>
      refine (ih (w.run seg) (fun w' hw' => h w' (List.mem_cons_of_mem w hw'))).trans ?_
      exact Function.update_of_ne (h w (List.mem_cons_self ..)) ..

/-- Assignments of a name, character by character. -/
def nameWrites (i : Fin maxUserNum) (f : Fin maxUserNameLen → Byte)
    (ks : List (Fin maxUserNameLen)) : List Write :=
  ks.map (fun k => ⟨⟨i, .name k⟩, f k⟩)

/-- Each character assigned is there. -/
theorem runs_nameWrites (i : Fin maxUserNum) (f : Fin maxUserNameLen → Byte)
    (ks : List (Fin maxUserNameLen)) (seg : Segment) {k : Fin maxUserNameLen} (hk : k ∈ ks) :
    runs (nameWrites i f ks) seg ⟨i, .name k⟩ = f k := by
  induction ks generalizing seg with
  | nil => exact absurd hk List.not_mem_nil
  | cons k' ks ih =>
      by_cases hin : k ∈ ks
      · exact ih _ hin
      · obtain rfl : k = k' := (List.mem_cons.mp hk).resolve_right hin
        refine (runs_of_forall_ne (nameWrites i f ks) _ ⟨i, .name k⟩ ?_).trans
          (Function.update_self ..)
        intro w hw heq
        obtain ⟨k', hk', rfl⟩ := List.mem_map.mp hw
        obtain rfl := Field.name.inj (congrArg Cell.field heq)
        exact hin hk'

theorem assignments_eq (msg : Message) (connfd : Int) (i : Fin maxUserNum) :
    assignments msg connfd i = [⟨⟨i, .id⟩, msg.fromId⟩, ⟨⟨i, .connfd⟩, connfd⟩]
      ++ nameWrites i (fun k => (strncpy maxUserNameLen msg.fname).getD k 0)
          (List.finRange maxUserNameLen) := rfl

theorem length_strncpy (n : Nat) (src : List Byte) : (strncpy n src).length = n := by
  rw [strncpy, List.length_append, List.length_replicate]
  have hle : ((src.takeWhile (fun b => b ≠ 0)).take n).length ≤ n := by
    rw [List.length_take]
    exact Nat.min_le_left ..
  omega

/-- The characters of a name, one by one. -/
theorem ofFn_getD {l : List Byte} {n : Nat} (h : l.length = n) :
    List.ofFn (fun k : Fin n => l.getD k 0) = l := by
  refine List.ext_getElem (by rw [List.length_ofFn, h]) ?_
  intro k h₁ h₂
  rw [List.getElem_ofFn, List.getD_eq_getElem _ _ h₂]

/-- A name assigned character by character. -/
theorem users_nameWrites (i : Fin maxUserNum) (f : Fin maxUserNameLen → Byte) (seg : Segment) :
    users (runs (nameWrites i f (List.finRange maxUserNameLen)) seg)
      = Function.update (users seg) i { users seg i with name := List.ofFn f } := by
  have hkeep : ∀ c : Cell, (c.user = i → ∀ k, c.field ≠ .name k) →
      runs (nameWrites i f (List.finRange maxUserNameLen)) seg c = seg c := by
    intro c hc
    refine runs_of_forall_ne _ seg c ?_
    rintro w hw rfl
    obtain ⟨k, -, heq⟩ := List.mem_map.mp hw
    exact hc (by rw [← heq]) k (by rw [← heq])
  funext j
  by_cases hj : j = i
  · subst hj
    rw [Function.update_self]
    have hname : ∀ k, runs (nameWrites j f (List.finRange maxUserNameLen)) seg ⟨j, .name k⟩ = f k :=
      fun k => runs_nameWrites j f _ seg (List.mem_finRange k)
    simp only [users, hname, hkeep ⟨j, .id⟩ (fun _ _ h => by cases h),
      hkeep ⟨j, .connfd⟩ (fun _ _ h => by cases h),
      hkeep ⟨j, .fdhdr⟩ (fun _ _ h => by cases h)]
  · rw [Function.update_of_ne hj]
    simp only [users, hkeep ⟨j, _⟩ (fun h => absurd h hj)]

/-- **ASSIGNMENTS**: what `conn_handler` assigns, cell by cell, is what `assign` does
    to the user. -/
theorem users_assignments {msg : Message} {connfd : Int} {i : Fin maxUserNum}
    (hi : msg.fromId.toNat = i) (seg : Segment) :
    assign (users seg) msg connfd = some (users (runs (assignments msg connfd i) seg)) := by
  have hlt : msg.fromId.toNat < maxUserNum := hi ▸ i.isLt
  obtain rfl : i = ⟨msg.fromId.toNat, hlt⟩ := Fin.ext hi.symm
  generalize hi' : (⟨msg.fromId.toNat, hlt⟩ : Fin maxUserNum) = i
  have hids : users (runs [⟨⟨i, .id⟩, msg.fromId⟩, ⟨⟨i, .connfd⟩, connfd⟩] seg)
      = Function.update (users seg) i
          { users seg i with id := msg.fromId, connfd := connfd } := by
    refine (users_update_connfd (Function.update seg ⟨i, .id⟩ msg.fromId) i connfd).trans ?_
    rw [users_update_id, Function.update_idem, Function.update_self]
  rw [assign, dif_pos hlt, hi', assignments_eq, runs_append, users_nameWrites, hids,
    Function.update_idem, Function.update_self, ofFn_getD (length_strncpy ..)]

/-! ## A `conn_handler` without interruption -/

/-- How far a `conn_handler` that began with the list `base` has got when its thread
    is at this place: what the segment holds by then. -/
def Stage (base : UserList) (msg : Message) (connfd : Int) (seg : Segment) : Pc → Prop
  | .getLock task => task = .conn msg connfd ∧ users seg = base
  | .readFd task => task = .conn msg connfd ∧ users seg = base
  | .getUnlock task => task = .conn msg connfd ∧ ∃ got, users seg = getMessage got base
  | .assigning rest => ∃ (got : GetFrame) (i : Fin maxUserNum) (before : List Write)
      (seg₀ : Segment), msg.fromId.toNat = i ∧ assignments msg connfd i = before ++ rest
        ∧ users seg₀ = getMessage got base ∧ seg = runs before seg₀
  | .putLock => ∃ got, assign (getMessage got base) msg connfd = some (users seg)
  | .writeFd => ∃ got, assign (getMessage got base) msg connfd = some (users seg)
  | .copying copy => (∃ got put, connHandler got put msg connfd base = some (users seg))
      ∧ Current seg copy
  | .idle => ∃ got put, connHandler got put msg connfd base = some (users seg)
  | .sending _ => False
  | .fault => True

section Solo

variable {base : UserList} {msg : Message} {connfd : Int} {seg : Segment}

/-- The end of `getMessage`. -/
theorem stage_after {got : GetFrame} (h : users seg = getMessage got base) :
    Stage base msg connfd seg (Task.conn msg connfd).after := by
  rw [Task.after]
  split
  · rename_i hid
    exact ⟨got, ⟨msg.fromId.toNat, hid⟩, [], seg, rfl, rfl, h, rfl⟩
  · trivial

/-- An assignment. -/
theorem stage_assign {w : Write} {rest : List Write}
    (h : Stage base msg connfd seg (.assigning (w :: rest))) :
    Stage base msg connfd (w.run seg) (Pc.assign rest) := by
  obtain ⟨got, i, before, seg₀, hi, hws, hseg₀, rfl⟩ := h
  have hrun : w.run (runs before seg₀) = runs (before ++ [w]) seg₀ := by
    rw [runs_append]
    rfl
  rw [List.append_cons] at hws
  cases rest with
  | nil =>
      rw [List.append_nil] at hws
      refine ⟨got, ?_⟩
      rw [hrun, ← hws, ← hseg₀]
      exact users_assignments hi seg₀
  | cons w' rest => exact ⟨got, i, before ++ [w], seg₀, hi, hws, hseg₀, hrun⟩

/-- **STEP**: a step of the thread goes on to the next stage. -/
theorem stage_step {s s' : ListState ι} {t : Thread ι} {a : Act}
    (h : Stage base msg connfd s.seg (s.pc t)) (ha : Alone t s (t, a))
    (hstep : ListStep s t a s') : Stage base msg connfd s'.seg (s'.pc t) := by
  have hto : ∀ (r : ListState ι) (p : Pc), Stage base msg connfd r.seg p →
      Stage base msg connfd (r.goto t p).seg ((r.goto t p).pc t) := by
    intro r p hp
    rw [ListState.goto_pc_self]
    exact hp
  cases hstep with
  | begin => exact absurd rfl (ha.2 _)
  | spin => exact h
  | getLock hpc =>
      rw [hpc] at h
      exact hto _ _ h
  | readFd got hpc =>
      rw [hpc] at h
      obtain ⟨htask, hbase⟩ := h
      refine hto _ _ ⟨htask, got, ?_⟩
      rw [← hbase]
      exact users_afterReadFd got s.seg
  | getStore hpc =>
      rw [hpc] at h
      obtain ⟨rfl, got, hget⟩ := h
      exact hto _ _ (stage_after hget)
  | assign hpc =>
      rw [hpc] at h
      exact hto _ _ (stage_assign h)
  | send hpc =>
      rw [hpc] at h
      exact h.elim
  | putLock hpc =>
      rw [hpc] at h
      exact hto _ _ h
  | writeFd put hpc =>
      rw [hpc] at h
      obtain ⟨got, hassign⟩ := h
      refine hto _ _ ⟨⟨got, put, ?_⟩, current_start _⟩
      rw [connHandler, hassign, Option.map_some]
      exact congrArg some (users_afterWriteFd put s.seg).symm
  | load hpc hl =>
      rw [hpc] at h
      obtain ⟨hconn, hcur⟩ := h
      exact hto _ _ ⟨hconn, hcur.load hl⟩
  | store hpc hs =>
      rw [hpc] at h
      obtain ⟨⟨got, put, hconn⟩, hcur⟩ := h
      refine hto _ _ ⟨⟨got, put, ?_⟩, hcur.store hs⟩
      rw [hconn]
      exact congrArg (fun m => some (users m)) (hcur.store_mem hs).symm
  | putStore hpc =>
      rw [hpc] at h
      exact hto _ _ h.1

end Solo

/-- **REFINEMENT**: a `conn_handler` that no other thread interrupts returns with a
    list that `connHandler` leaves, whatever the order of its `memcpy`. -/
theorem connHandler_of_alone {s s' : ListState ι} {t : Thread ι} {msg : Message} {connfd : Int}
    (hrun : Run (listFrom (s.goto t (.getLock (.conn msg connfd)))) (Alone t) s')
    (hret : s'.pc t = .idle) :
    ∃ got put, connHandler got put msg connfd (users s.seg) = some (users s'.seg) := by
  have hstage : Stage (users s.seg) msg connfd s'.seg (s'.pc t) := by
    refine Run.invariant
      (I := fun s' => Stage (users s.seg) msg connfd s'.seg (s'.pc t)) ?_ ?_ hrun
    · show Stage _ msg connfd s.seg ((s.goto t _).pc t)
      rw [ListState.goto_pc_self]
      exact ⟨rfl, rfl⟩
    · rintro s₁ ⟨u, a⟩ s₂ h ha hstep
      obtain rfl : u = t := ha.1
      exact stage_step h ha (rule_of_listStep hstep)
  rw [hret] at hstage
  exact hstage

/-! ## Every call can return -/

/-- The id of the task is within the list. -/
def TaskInRange : Task → Prop
  | .conn msg _ => msg.fromId.toNat < maxUserNum
  | .dispatch toId => toId.toNat < maxUserNum

/-- No id past the end of the list. -/
def InRange (_ : ListState ι) (l : Thread ι × Act) : Prop :=
  ∀ task, l.2 = .begin task → TaskInRange task

/-- The thread is not past the end of the list and will not get there. -/
def PcInRange : Pc → Prop
  | .getLock task => TaskInRange task
  | .readFd task => TaskInRange task
  | .getUnlock task => TaskInRange task
  | .assigning [] => False
  | .sending [] => False
  | .fault => False
  | _ => True

/-- The thread can get back from its call, and leaves the lock free. -/
def CanReturn (s : ListState ι) (t : Thread ι) : Prop :=
  ∃ s', Run (listFrom s) (Alone t) s' ∧ s'.pc t = .idle ∧ s'.lock = false

/-- A step ahead of the way back. -/
theorem CanReturn.of_step {s s' : ListState ι} {t : Thread ι} {a : Act}
    (ha : ∀ task, a ≠ .begin task) (hstep : ListStep s t a s') (h : CanReturn s' t) :
    CanReturn s t := by
  obtain ⟨s'', hrun, hret, hfree⟩ := h
  exact ⟨s'', (Run.single ⟨rfl, ha⟩ (listStep_of_rule hstep)).trans hrun, hret, hfree⟩

/-- From where it is idle already. -/
theorem canReturn_idle {s : ListState ι} {t : Thread ι} (hpc : s.pc t = .idle)
    (hl : s.lock = false) : CanReturn s t :=
  ⟨s, Run.start, hpc, hl⟩

/-- **LOOP**: `memcpy` goes on to its end, and the lock is given back. -/
theorem canReturn_of_copying {t : Thread ι} {mem mem' : Segment}
    {copy copy' : Copy Cell.Value} (h : Copying mem copy mem' copy') (hfin : copy'.Finished) :
    ∀ s : ListState ι, s.seg = mem → s.pc t = .copying copy → CanReturn s t := by
  induction h with
  | refl mem copy =>
      intro s _ hpc
      exact CanReturn.of_step (fun _ h => by cases h) (ListStep.putStore hpc hfin)
        (canReturn_idle (ListState.goto_pc_self ..) rfl)
  | load l hl _ ih =>
      rintro s rfl hpc
      exact CanReturn.of_step (fun _ h => by cases h) (ListStep.load hpc hl)
        (ih hfin _ rfl (ListState.goto_pc_self ..))
  | store l hs _ ih =>
      rintro s rfl hpc
      exact CanReturn.of_step (fun _ h => by cases h) (ListStep.store hpc hs)
        (ih hfin _ rfl (ListState.goto_pc_self ..))

theorem canReturn_copying {s : ListState ι} {t : Thread ι} {copy : Copy Cell.Value}
    (hpc : s.pc t = .copying copy) : CanReturn s t := by
  obtain ⟨mem', copy', h, hfin⟩ := exists_finish s.seg copy
  exact canReturn_of_copying h hfin s rfl hpc

theorem canReturn_writeFd {s : ListState ι} {t : Thread ι} (hpc : s.pc t = .writeFd) :
    CanReturn s t :=
  CanReturn.of_step (fun _ h => by cases h) (ListStep.writeFd ⟨0, 0, 0⟩ hpc)
    (canReturn_copying (ListState.goto_pc_self ..))

theorem canReturn_putLock {s : ListState ι} {t : Thread ι} (hpc : s.pc t = .putLock)
    (hl : s.lock = false) : CanReturn s t :=
  CanReturn.of_step (fun _ h => by cases h) (ListStep.putLock hpc hl)
    (canReturn_writeFd (ListState.goto_pc_self ..))

/-- **LOOP**: the assignments that are left are made. -/
theorem canReturn_assign {t : Thread ι} (rest : List Write) :
    ∀ s : ListState ι, s.pc t = Pc.assign rest → s.lock = false → CanReturn s t := by
  induction rest with
  | nil => exact fun s hpc hl => canReturn_putLock hpc hl
  | cons w rest ih =>
      intro s hpc hl
      exact CanReturn.of_step (fun _ h => by cases h) (ListStep.assign hpc)
        (ih _ (ListState.goto_pc_self ..) hl)

/-- **LOOP**: the users that are left are looked up. -/
theorem canReturn_send {t : Thread ι} (rest : List (Fin maxUserNum)) :
    ∀ s : ListState ι, s.pc t = Pc.send rest → s.lock = false → CanReturn s t := by
  induction rest with
  | nil => exact fun s hpc hl => canReturn_idle hpc hl
  | cons i rest ih =>
      intro s hpc hl
      exact CanReturn.of_step (fun _ h => by cases h) (ListStep.send hpc)
        (ih _ (ListState.goto_pc_self ..) hl)

/-- The users of an id within the list. -/
theorem lookups_of_inRange {toId : BitVec 32} (h : toId.toNat < maxUserNum) :
    ∃ ids, lookups toId = some ids := by
  by_cases hb : isBroadcast toId = true
  · exact ⟨_, if_pos hb⟩
  · exact ⟨_, (if_neg hb).trans (dif_pos h)⟩

theorem canReturn_getUnlock {s : ListState ι} {t : Thread ι} {task : ChatListThreads.Task}
    (hpc : s.pc t = .getUnlock task) (htask : TaskInRange task) : CanReturn s t := by
  refine CanReturn.of_step (fun _ h => by cases h) (ListStep.getStore hpc) ?_
  cases task with
  | conn msg connfd =>
      have hid : msg.fromId.toNat < maxUserNum := htask
      refine canReturn_assign (assignments msg connfd ⟨_, hid⟩) _ ?_ rfl
      rw [ListState.goto_pc_self, Task.after, dif_pos hid]
  | dispatch toId =>
      obtain ⟨ids, hids⟩ := lookups_of_inRange htask
      refine canReturn_send ids _ ?_ rfl
      rw [ListState.goto_pc_self, Task.after, hids]

theorem canReturn_readFd {s : ListState ι} {t : Thread ι} {task : ChatListThreads.Task}
    (hpc : s.pc t = .readFd task) (htask : TaskInRange task) : CanReturn s t :=
  CanReturn.of_step (fun _ h => by cases h) (ListStep.readFd cleanFrame hpc)
    (canReturn_getUnlock (ListState.goto_pc_self ..) htask)

theorem canReturn_getLock {s : ListState ι} {t : Thread ι} {task : ChatListThreads.Task}
    (hpc : s.pc t = .getLock task) (htask : TaskInRange task) (hl : s.lock = false) :
    CanReturn s t :=
  CanReturn.of_step (fun _ h => by cases h) (ListStep.getLock hpc hl)
    (canReturn_readFd (ListState.goto_pc_self ..) htask)

/-- A thread that is inside the lock, or finds it free, can return. -/
theorem canReturn {s : ListState ι} {t : Thread ι} (hpc : PcInRange (s.pc t))
    (hl : holds (s.pc t) = true ∨ s.lock = false) : CanReturn s t := by
  have hfree : holds (s.pc t) = false → s.lock = false := by
    intro h
    rw [h] at hl
    exact hl.resolve_left Bool.false_ne_true
  cases h : s.pc t with
  | idle => exact canReturn_idle h (hfree (by rw [h]; rfl))
  | getLock task =>
      rw [h] at hpc
      exact canReturn_getLock h hpc (hfree (by rw [h]; rfl))
  | readFd task =>
      rw [h] at hpc
      exact canReturn_readFd h hpc
  | getUnlock task =>
      rw [h] at hpc
      exact canReturn_getUnlock h hpc
  | assigning rest =>
      rw [h] at hpc
      cases rest with
      | nil => exact hpc.elim
      | cons w rest => exact canReturn_assign (w :: rest) s h (hfree (by rw [h]; rfl))
  | sending rest =>
      rw [h] at hpc
      cases rest with
      | nil => exact hpc.elim
      | cons i rest => exact canReturn_send (i :: rest) s h (hfree (by rw [h]; rfl))
  | putLock => exact canReturn_putLock h (hfree (by rw [h]; rfl))
  | writeFd => exact canReturn_writeFd h
  | copying copy => exact canReturn_copying h
  | fault =>
      rw [h] at hpc
      exact hpc.elim

theorem pcInRange_assign (rest : List Write) : PcInRange (Pc.assign rest) := by
  cases rest <;> trivial

theorem pcInRange_send (rest : List (Fin maxUserNum)) : PcInRange (Pc.send rest) := by
  cases rest <;> trivial

/-- An id within the list is no fault. -/
theorem pcInRange_after {task : ChatListThreads.Task} (h : TaskInRange task) :
    PcInRange task.after := by
  cases task with
  | conn msg connfd =>
      have hid : msg.fromId.toNat < maxUserNum := h
      rw [Task.after, dif_pos hid]
      exact pcInRange_assign _
  | dispatch toId =>
      obtain ⟨ids, hids⟩ := lookups_of_inRange h
      rw [Task.after, hids]
      exact pcInRange_send ids

/-- **STEP**: no thread gets past the end of the list. -/
theorem pcInRange_step {s s' : ListState ι} {t : Thread ι} {a : Act}
    (h : ∀ u, PcInRange (s.pc u)) (ha : InRange s (t, a)) (hstep : ListStep s t a s') :
    ∀ u, PcInRange (s'.pc u) := by
  have hto : ∀ (r : ListState ι) (p : Pc), r.pc = s.pc → PcInRange p →
      ∀ u, PcInRange ((r.goto t p).pc u) := by
    intro r p hpc hp
    exact ListState.goto_forall (fun _ q => PcInRange q) hpc hp (fun u _ => h u)
  have hat : ∀ {p : Pc}, s.pc t = p → PcInRange p := by
    intro p hpc
    rw [← hpc]
    exact h t
  cases hstep with
  | begin hpc => exact hto s _ rfl (ha _ rfl)
  | spin => exact h
  | getLock hpc =>
      have htask : TaskInRange _ := hat hpc
      exact hto _ _ rfl htask
  | readFd got hpc =>
      have htask : TaskInRange _ := hat hpc
      exact hto _ _ rfl htask
  | getStore hpc => exact hto _ _ rfl (pcInRange_after (hat hpc))
  | assign => exact hto _ _ rfl (pcInRange_assign _)
  | send => exact hto _ _ rfl (pcInRange_send _)
  | putLock => exact hto _ _ rfl trivial
  | writeFd => exact hto _ _ rfl trivial
  | load => exact hto s _ rfl trivial
  | store => exact hto _ _ rfl trivial
  | putStore => exact hto _ _ rfl trivial

/-- **RUN**: no thread gets past the end of the list. -/
theorem pcInRange_run {s : ListState ι} (h : Run listThreads InRange s) :
    ∀ t, PcInRange (s.pc t) := by
  refine Run.invariant (M := listThreads) (I := fun s => ∀ t, PcInRange (s.pc t))
    (fun _ => trivial) ?_ h
  rintro s ⟨t, a⟩ s' hs ha hstep
  exact pcInRange_step hs ha (rule_of_listStep hstep)

/-- A thread that runs alone leaves the others where they are. -/
theorem pc_of_alone {s s' : ListState ι} {t u : Thread ι} (hu : u ≠ t)
    (h : Run (listFrom s) (Alone t) s') : s'.pc u = s.pc u := by
  refine Run.invariant (I := fun s' => s'.pc u = s.pc u) rfl ?_ h
  rintro s₁ ⟨v, a⟩ s₂ hs ha hstep
  obtain rfl : v = t := ha.1
  rw [pc_of_ne hu (rule_of_listStep hstep), hs]

/-- **NO DEADLOCK**: in every state that threads with ids within the list can get to,
    each of them can still come back from its call. -/
theorem exists_return {s : ListState ι} (h : Run listThreads InRange s) (t : Thread ι) :
    ∃ s', Run (listFrom s) anyStep s' ∧ s'.pc t = .idle := by
  have hpcs := pcInRange_run h
  have hany : ∀ {u : Thread ι} {s₁ s₂ : ListState ι}, Run (listFrom s₁) (Alone u) s₂ →
      Run (listFrom s₁) anyStep s₂ := fun hrun => hrun.mono (fun _ _ _ => trivial)
  obtain ⟨o, -, ho⟩ := guards_run h
  -- the owner of the lock, if there is one, goes first
  obtain ⟨s₁, hrun₁, hpc₁, hl₁⟩ : ∃ s₁, Run (listFrom s) anyStep s₁
      ∧ PcInRange (s₁.pc t) ∧ s₁.lock = false := by
    cases o with
    | none => exact ⟨s, Run.start, hpcs t, ho.bit⟩
    | some u =>
        have hin : holds (s.pc u) = true := (ho.owner u).mpr rfl
        obtain ⟨s₁, hrun, hidle, hfree⟩ := canReturn (hpcs u) (Or.inl hin)
        refine ⟨s₁, hany hrun, ?_, hfree⟩
        by_cases htu : t = u
        · rw [htu, hidle]
          trivial
        · rw [pc_of_alone htu hrun]
          exact hpcs t
  obtain ⟨s₂, hrun₂, hidle, -⟩ := canReturn hpc₁ (Or.inr hl₁)
  exact ⟨s₂, hrun₁.trans (hany hrun₂), hidle⟩

theorem inRange_blankMessage : TaskInRange (.conn blankMessage 7) := by
  show (1 : BitVec 32).toNat < maxUserNum
  decide

theorem connHandler_alone_blank :
    ∃ (s' : ListState Nat) (got : GetFrame) (put : WriteFrame),
      connHandler got put blankMessage 7 (users (listInit : ListState Nat).seg)
        = some (users s'.seg) := by
  obtain ⟨s', hrun, hret, -⟩ := canReturn (t := Thread.clithread 0)
    (s := (listInit : ListState Nat).goto (.clithread 0) (.getLock (.conn blankMessage 7)))
    (by rw [ListState.goto_pc_self]; exact inRange_blankMessage) (Or.inr rfl)
  exact ⟨s', connHandler_of_alone hrun hret⟩

theorem inRange_upToCopy (t : Thread Nat) :
    ∀ l ∈ upToCopy t, ∀ s, InRange s l := by
  intro l hl s task htask
  rw [upToCopy, List.mem_append, List.mem_append] at hl
  simp only [List.mem_cons, List.not_mem_nil, or_false] at hl
  rcases hl with ((rfl | rfl | rfl | rfl) | hrep) | rfl | rfl
  · cases htask
    exact inRange_blankMessage
  · cases htask
  · cases htask
  · cases htask
  · rw [List.eq_of_mem_replicate hrep] at htask
    cases htask
  · cases htask
  · cases htask

theorem exists_return_upToCopy :
    ∃ s s' : ListState Nat, play listThreads listInit (upToCopy (.clithread 0)) = some s
      ∧ s.lock = true ∧ Run (listFrom s) anyStep s' ∧ s'.pc (.clithread 0) = .idle := by
  obtain ⟨s, hs, hl⟩ : ∃ s, play listThreads listInit (upToCopy (.clithread 0)) = some s
      ∧ s.lock = true := ⟨_, rfl, rfl⟩
  obtain ⟨s', hrun, hret⟩ := exists_return
    (Run.of_play _ (follows_of_forall _ (inRange_upToCopy _) _) hs) (.clithread 0)
  exact ⟨s, s', hs, hl, hrun, hret⟩

end ChatListSolo
