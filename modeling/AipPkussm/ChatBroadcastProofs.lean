import Mathlib.Data.List.Nodup
import AipPkussm.ChatDispatchProofs

/-! # Who gets a message

    Runs in which nobody disconnects and every connection registers at most once,
    under an id of its own (`orderly`).  `dispatch_iff` says exactly which
    messages of registered users reach exactly the connections they are
    addressed to.  The three conventions of `loop_dispatch` that get in the way:
    a message from user 0 to everybody is taken for the error sentinel of the
    pipe, an entry without a connection holds descriptor 0 and is sent to like
    any other, and `read_fd` may have put a stray descriptor into entry 0. -/

namespace ChatBroadcast

open LittleEndian ChatMessage ChatUserList ChatDispatch Transition

/-! ## Exactly once -/

/-- Every descriptor with the property stands in the list once, no other does. -/
def ExactlyOnce (l : List Int) (P : Int → Prop) : Prop :=
  ∀ fd, (P fd → l.count fd = 1) ∧ (¬ P fd → l.count fd = 0)

theorem exactlyOnce_iff {l : List Int} {P : Int → Prop} :
    ExactlyOnce l P ↔ l.Nodup ∧ ∀ fd, fd ∈ l ↔ P fd := by
  constructor
  · intro h
    refine ⟨List.nodup_iff_count_le_one.mpr ?_, ?_⟩
    · intro fd
      by_cases hP : P fd
      · exact Nat.le_of_eq ((h fd).1 hP)
      · rw [(h fd).2 hP]
        exact Nat.zero_le 1
    · intro fd
      constructor
      · intro hmem
        by_contra hP
        exact List.count_eq_zero.mp ((h fd).2 hP) hmem
      · intro hP
        refine List.count_pos_iff.mp ?_
        rw [(h fd).1 hP]
        exact Nat.one_pos
  · rintro ⟨hnodup, hmem⟩ fd
    exact ⟨fun hP => List.count_eq_one_of_mem hnodup ((hmem fd).mpr hP),
      fun hP => List.count_eq_zero.mpr (fun hin => hP ((hmem fd).mp hin))⟩

/-! ## Orderly runs -/

/-- Nobody disconnects, a connection registers at most once, and ids are
    distinct. -/
def orderly (s : ServerState) : ServerAct → Prop
  | .disconnect _ => False
  | .conn fd _ _ msg =>
      (∀ c, s.conns fd = some c → s.declared c = []) ∧ s.lastConn msg.fromId = none
  | _ => True

/-- What holds in every orderly run. -/
structure Settled (s : ServerState) : Prop where
  tracked : Tracked s
  stays : ∀ c, c < s.next → s.conns (s.fdOf c) = some c
  ids : ∀ id c, id ∈ s.declared c → s.lastConn id = some c ∧ id.toNat < maxUserNum
  single : ∀ c id id', id ∈ s.declared c → id' ∈ s.declared c → id = id'

/-- **STEP**: an orderly step keeps it. -/
theorem settled_step {s s' : ServerState} {a : ServerAct} (h : Settled s)
    (ho : orderly s a) (hstep : ServerStep s a s') : Settled s' := by
  have htracked : Tracked s' := tracked_step h.tracked hstep
  cases hstep with
  | @accept fd hpos hfree =>
      refine ⟨htracked, ?_, h.ids, h.single⟩
      intro c hc
      show Function.update s.conns fd (some s.next) (Function.update s.fdOf s.next fd c)
        = some c
      by_cases hlt : c < s.next
      · have hopen := h.stays c hlt
        -- `accept` returns no descriptor that is open
        have hne : s.fdOf c ≠ fd := by
          intro heq
          rw [heq, hfree] at hopen
          exact nomatch hopen
        rw [Function.update_of_ne (Nat.ne_of_lt hlt), Function.update_of_ne hne, hopen]
      · have hc' : c < s.next + 1 := hc
        obtain rfl : c = s.next := by omega
        rw [Function.update_self, Function.update_self]
  | @conn fd got put msg c users hopen hconn =>
      obtain ⟨hfirst, hnew⟩ := ho
      obtain ⟨hid, -⟩ := connfds_connHandler hconn
      have hnone : s.declared c = [] := hfirst c hopen
      have hself : Function.update s.declared c (msg.fromId :: s.declared c) c
          = [msg.fromId] := by
        rw [Function.update_self, hnone]
      refine ⟨htracked, h.stays, ?_, ?_⟩
      · intro id c' hmem
        have hmem' : id ∈ Function.update s.declared c (msg.fromId :: s.declared c) c' :=
          hmem
        show Function.update s.lastConn msg.fromId (some c) id = some c' ∧ _
        by_cases hcc : c' = c
        · rw [hcc, hself] at hmem'
          obtain rfl := List.mem_singleton.mp hmem'
          rw [hcc, Function.update_self]
          exact ⟨rfl, hid⟩
        · rw [Function.update_of_ne hcc] at hmem'
          obtain ⟨hlast, hlt⟩ := h.ids id c' hmem'
          -- nobody has declared the id before
          have hne : id ≠ msg.fromId := by
            rintro rfl
            rw [hnew] at hlast
            exact nomatch hlast
          rw [Function.update_of_ne hne]
          exact ⟨hlast, hlt⟩
      · intro c' id id' hmem hmem'
        have h₁ : id ∈ Function.update s.declared c (msg.fromId :: s.declared c) c' := hmem
        have h₂ : id' ∈ Function.update s.declared c (msg.fromId :: s.declared c) c' :=
          hmem'
        by_cases hcc : c' = c
        · rw [hcc, hself] at h₁ h₂
          rw [List.mem_singleton.mp h₁, List.mem_singleton.mp h₂]
        · rw [Function.update_of_ne hcc] at h₁ h₂
          exact h.single c' id id' h₁ h₂
  | sendmsg => exact ⟨htracked, h.stays, h.ids, h.single⟩
  | disconnect => exact ho.elim
  | dispatch => exact ⟨htracked, h.stays, h.ids, h.single⟩

theorem settled_init : Settled serverInit where
  tracked := tracked_init
  stays := fun c hc => absurd hc (Nat.not_lt_zero c)
  ids := fun _ _ hmem => absurd hmem List.not_mem_nil
  single := fun _ _ _ hmem => absurd hmem List.not_mem_nil

/-! ## What should happen, and when it does -/

/-- The descriptor of a connection the message is addressed to: of any registered
    user's for a message to everybody, else of the one registered under `dest`. -/
def addressed (s : ServerState) (dest : BitVec 32) (fd : Int) : Prop :=
  ∃ c, s.conns fd = some c ∧
    if dest = 0 then s.declared c ≠ [] else dest ∈ s.declared c

/-- A message to everybody is addressed to each connection that declared an id. -/
theorem addressed_all {s : ServerState} {fd : Int} {c : Nat} (hopen : s.conns fd = some c)
    (hdecl : s.declared c ≠ []) : addressed s 0 fd :=
  ⟨c, hopen, by rw [if_pos rfl]; exact hdecl⟩

/-- A message of a registered user is sent, whole, exactly once to each connection
    it is addressed to and to no other descriptor. -/
def reachesAddressees (s : ServerState) : ServerAct → Prop
  | .dispatch ptr got =>
      ∀ c msg rest, s.pending = (c, msg) :: rest → msg.hdr.fromId ∈ s.declared c →
        msg.hdr.toId.toNat < maxUserNum →
        ∃ sends users, loopDispatch got (atPtr ptr msg) s.users = some (sends, users)
          ∧ (∀ snd ∈ sends, snd.buff = (atPtr ptr msg).bytes)
          ∧ ExactlyOnce (sends.map Sending.connfd) (addressed s msg.hdr.toId)
  | _ => True

/-- What entry 0 of the list says by the time `loop_dispatch` reads it, given the
    control buffer of its `read_fd`. -/
def entryZero (s : ServerState) (control : ControlBlock) : Int :=
  if control.cmsgLen = cmsgLenInt ∧ 0 < control.data.toInt then control.data.toInt
  else (s.users 0).connfd

/-- The recipient is registered; a message to everybody is not from user 0, all ids
    are registered, and entry 0 has no stray descriptor. -/
def canReach (s : ServerState) : ServerAct → Prop
  | .dispatch _ got =>
      ∀ c msg rest, s.pending = (c, msg) :: rest → msg.hdr.fromId ∈ s.declared c →
        msg.hdr.toId.toNat < maxUserNum →
        if msg.hdr.toId = 0 then
          msg.hdr.fromId ≠ 0 ∧ (∀ i, ∃ c', s.lastConn (idOf i) = some c')
            ∧ entryZero s got.control = regFd s 0
        else ∃ c', s.lastConn msg.hdr.toId = some c'
  | _ => True

theorem connfds_getMessage_zero (got : GetFrame) (s : ServerState) :
    connfds (getMessage got s.users) 0 = entryZero s got.control := by
  rw [connfds_getMessage, readFd_eq, entryZero]
  by_cases hlen : got.control.cmsgLen = cmsgLenInt
  · rw [if_pos hlen]
    by_cases hpos : 0 < got.control.data.toInt
    · rw [if_pos hpos, if_pos ⟨hlen, hpos⟩, Function.update_self]
    · rw [if_neg hpos, if_neg (fun h => hpos h.2)]
      rfl
  · rw [if_neg hlen, if_neg (by decide), if_neg (fun h => hlen h.1)]
    rfl

/-- A registered id has an open connection of its own. -/
theorem Settled.registered {s : ServerState} (h : Settled s) {id : BitVec 32} {c : Nat}
    (hlast : s.lastConn id = some c) :
    regFd s id = s.fdOf c ∧ s.conns (s.fdOf c) = some c ∧ id ∈ s.declared c := by
  obtain ⟨hlt, hmem⟩ := h.tracked.last id c hlast
  refine ⟨?_, h.stays c hlt, hmem⟩
  rw [regFd, hlast]

/-- No connection is open on the descriptor of an id that is not registered. -/
theorem Settled.closed {s : ServerState} (h : Settled s) {id : BitVec 32} {c : Nat}
    (hlast : s.lastConn id = none) : s.conns (regFd s id) ≠ some c := by
  intro hopen
  rw [regFd, hlast] at hopen
  exact absurd (h.tracked.only 0 c hopen).2.2 (Int.lt_irrefl 0)

/-- **ONE RECIPIENT**: the line reaches its addressee exactly when the addressee is
    registered. -/
theorem reaches_user_iff {s : ServerState} (h : Settled s) {dest : BitVec 32}
    (hto : dest ≠ 0) :
    ExactlyOnce [regFd s dest] (addressed s dest) ↔ ∃ c, s.lastConn dest = some c := by
  rw [exactlyOnce_iff]
  constructor
  · rintro ⟨-, hmem⟩
    obtain ⟨c, hopen, -⟩ := (hmem (regFd s dest)).mp (List.mem_singleton.mpr rfl)
    cases hlast : s.lastConn dest with
    | none => exact absurd hopen (h.closed hlast)
    | some c' => exact ⟨c', rfl⟩
  · rintro ⟨c, hlast⟩
    obtain ⟨hfd, hopen, hdecl⟩ := h.registered hlast
    refine ⟨List.nodup_singleton _, ?_⟩
    intro fd
    rw [List.mem_singleton, hfd]
    constructor
    · rintro rfl
      exact ⟨c, hopen, by rw [if_neg hto]; exact hdecl⟩
    · rintro ⟨c', hopen', hdecl'⟩
      rw [if_neg hto] at hdecl'
      have hlast' := (h.ids dest c' hdecl').1
      obtain rfl := Option.some.inj (hlast.symm.trans hlast')
      exact (h.tracked.only fd c hopen').2.1.symm

/-- Past entry 0 the list has the descriptors of the registered users. -/
theorem connfds_getMessage_regFd {s : ServerState} (h : Settled s) (got : GetFrame)
    {i : Fin maxUserNum} (hi : i ≠ 0) :
    connfds (getMessage got s.users) i = regFd s (idOf i) := by
  rw [connfds_getMessage_of_ne got s.users hi]
  exact h.tracked.table i hi

/-- A registered connection has the descriptor of its own id. -/
theorem Settled.own {s : ServerState} (h : Settled s) {c : Nat} (hne : s.declared c ≠ []) :
    ∃ i : Fin maxUserNum, s.lastConn (idOf i) = some c := by
  obtain ⟨id, hid⟩ := List.exists_mem_of_ne_nil _ hne
  obtain ⟨hlast, hlt⟩ := h.ids id c hid
  exact ⟨⟨id.toNat, hlt⟩, by rw [(idOf_eq_iff hlt).mpr rfl]; exact hlast⟩

/-- A list that reaches everybody once has all ids registered, and entry 0 is right. -/
theorem registered_of_reaches_all {s : ServerState} (h : Settled s) (got : GetFrame)
    (hreaches : ExactlyOnce ((List.finRange maxUserNum).map (connfds (getMessage got s.users)))
      (addressed s 0)) :
    (∀ i, ∃ c, s.lastConn (idOf i) = some c) ∧ entryZero s got.control = regFd s 0 := by
  obtain ⟨hnodup, hmem⟩ := exactlyOnce_iff.mp hreaches
  have hinj : ∀ i j, connfds (getMessage got s.users) i
      = connfds (getMessage got s.users) j → i = j :=
    fun i j heq => List.inj_on_of_nodup_map hnodup (List.mem_finRange i)
      (List.mem_finRange j) heq
  have hreach : ∀ i, ∃ c, s.conns (connfds (getMessage got s.users) i) = some c
      ∧ s.declared c ≠ [] := by
    intro i
    obtain ⟨c, hopen, hne⟩ := (hmem _).mp
      (List.mem_map.mpr ⟨i, List.mem_finRange i, rfl⟩)
    exact ⟨c, hopen, by rwa [if_pos rfl] at hne⟩
  -- entry 0 belongs to id 0: the descriptor of any other id stands elsewhere
  obtain ⟨c₀, hopen₀, hne₀⟩ := hreach 0
  obtain ⟨j, hj⟩ := h.own hne₀
  have hfd₀ : s.fdOf c₀ = connfds (getMessage got s.users) 0 :=
    (h.tracked.only _ c₀ hopen₀).2.1
  have hj₀ : j = 0 := by
    by_contra hne
    refine hne (hinj j 0 ?_)
    rw [connfds_getMessage_regFd h got hne, (h.registered hj).1, hfd₀]
  subst hj₀
  refine ⟨?_, ?_⟩
  · intro i
    by_cases hi : i = 0
    · rw [hi]
      exact ⟨c₀, hj⟩
    · obtain ⟨c, hopen, -⟩ := hreach i
      rw [connfds_getMessage_regFd h got hi] at hopen
      cases hlast : s.lastConn (idOf i) with
      | none => exact absurd hopen (h.closed hlast)
      | some c' => exact ⟨c', rfl⟩
  · have hzero : idOf 0 = 0 := rfl
    rw [← connfds_getMessage_zero, ← hfd₀, ← hzero]
    exact (h.registered hj).1.symm

/-- With all ids registered and entry 0 right the list reaches everybody once. -/
theorem reaches_all_of_registered {s : ServerState} (h : Settled s) (got : GetFrame)
    (hall : ∀ i, ∃ c, s.lastConn (idOf i) = some c)
    (hentry : entryZero s got.control = regFd s 0) :
    ExactlyOnce ((List.finRange maxUserNum).map (connfds (getMessage got s.users)))
      (addressed s 0) := by
  have hfds : ∀ i, connfds (getMessage got s.users) i = regFd s (idOf i) := by
    intro i
    by_cases hi : i = 0
    · have hzero : idOf 0 = 0 := rfl
      rw [hi, connfds_getMessage_zero, hentry, hzero]
    · exact connfds_getMessage_regFd h got hi
  refine exactlyOnce_iff.mpr ⟨?_, ?_⟩
  · refine List.Nodup.map ?_ (List.nodup_finRange _)
    intro i j heq
    obtain ⟨c, hc⟩ := hall i
    obtain ⟨c', hc'⟩ := hall j
    obtain ⟨hfd, hopen, hdecl⟩ := h.registered hc
    obtain ⟨hfd', hopen', hdecl'⟩ := h.registered hc'
    rw [hfds, hfds, hfd, hfd'] at heq
    rw [heq, hopen'] at hopen
    obtain rfl := Option.some.inj hopen
    have hid := h.single c' _ _ hdecl hdecl'
    have hval := congrArg BitVec.toNat hid
    rw [toNat_idOf, toNat_idOf] at hval
    exact Fin.ext hval
  · intro fd
    constructor
    · intro hmem
      obtain ⟨i, -, rfl⟩ := List.mem_map.mp hmem
      obtain ⟨c, hc⟩ := hall i
      obtain ⟨hfd, hopen, hdecl⟩ := h.registered hc
      rw [hfds, hfd]
      exact addressed_all hopen (List.ne_nil_of_mem hdecl)
    · rintro ⟨c, hopen, hne⟩
      rw [if_pos rfl] at hne
      obtain ⟨i, hi⟩ := h.own hne
      refine List.mem_map.mpr ⟨i, List.mem_finRange i, ?_⟩
      rw [hfds, (h.registered hi).1]
      exact (h.tracked.only fd c hopen).2.1

/-- **EVERYBODY**: the descriptors of the list are those of the registered users
    exactly when all ids are registered and entry 0 is right. -/
theorem reaches_all_iff {s : ServerState} (h : Settled s) (got : GetFrame) :
    ExactlyOnce ((List.finRange maxUserNum).map (connfds (getMessage got s.users)))
        (addressed s 0)
      ↔ (∀ i, ∃ c, s.lastConn (idOf i) = some c)
        ∧ entryZero s got.control = regFd s 0 :=
  ⟨registered_of_reaches_all h got, fun hreg => reaches_all_of_registered h got hreg.1 hreg.2⟩

/-- **STEP**: a message reaches exactly its addressees exactly when it can. -/
theorem reachesAddressees_iff {s : ServerState} (h : Settled s) (a : ServerAct) :
    reachesAddressees s a ↔ canReach s a := by
  cases a with
  | dispatch ptr got =>
      refine forall_congr' fun c => forall_congr' fun msg => forall_congr' fun rest =>
        forall_congr' fun _ => forall_congr' fun hfrom => forall_congr' fun hlt => ?_
      by_cases hto : msg.hdr.toId = 0
      · rw [if_pos hto, hto]
        by_cases hzero : msg.hdr.fromId = 0
        · -- taken for the sentinel of the pipe: the sender itself gets nothing
          rw [hzero] at hfrom
          refine iff_of_false ?_ (fun hcan => hcan.1 hzero)
          rintro ⟨sends, users, hrun, -, honce⟩
          rw [loopDispatch, if_pos ⟨hto, hzero⟩] at hrun
          obtain ⟨rfl, -⟩ := Prod.mk.inj (Option.some.inj hrun)
          obtain ⟨-, hopen, -⟩ := h.registered (h.ids 0 c hfrom).1
          have haddr : addressed s 0 (s.fdOf c) :=
            addressed_all hopen (List.ne_nil_of_mem hfrom)
          exact absurd ((honce _).1 haddr) (Nat.zero_ne_one)
        · have hrun : loopDispatch got (atPtr ptr msg) s.users
              = some ((List.finRange maxUserNum).map (fun i =>
                  (⟨(getMessage got s.users i).connfd, (atPtr ptr msg).bytes⟩ : Sending)),
                getMessage got s.users) := by
            have hcast : (atPtr ptr msg).hdr.toId = 0 := hto
            rw [loopDispatch, if_neg (fun hboth => hzero hboth.2)]
            simp only [hcast, isBroadcast, beq_self_eq_true, if_true]
          have hmap : ((List.finRange maxUserNum).map (fun i =>
              (⟨(getMessage got s.users i).connfd, (atPtr ptr msg).bytes⟩ : Sending))).map
                Sending.connfd
              = (List.finRange maxUserNum).map (connfds (getMessage got s.users)) := by
            rw [List.map_map]
            rfl
          constructor
          · rintro ⟨sends, users, hrun', -, honce⟩
            rw [hrun] at hrun'
            obtain ⟨rfl, -⟩ := Prod.mk.inj (Option.some.inj hrun')
            rw [hmap] at honce
            exact ⟨hzero, (reaches_all_iff h got).mp honce⟩
          · rintro ⟨-, hcan⟩
            refine ⟨_, _, hrun, ?_, ?_⟩
            · exact loopDispatch_buff hrun
            · rw [hmap]
              exact (reaches_all_iff h got).mpr hcan
      · rw [if_neg hto]
        have huser : ToUser msg := ⟨hto, hlt⟩
        have hi : (⟨msg.hdr.toId.toNat, hlt⟩ : Fin maxUserNum) ≠ 0 := by
          intro hz
          have hval : msg.hdr.toId.toNat = 0 := congrArg Fin.val hz
          exact hto (BitVec.eq_of_toNat_eq hval)
        have hrun := loopDispatch_toUser got ptr s.users huser
        rw [connfds_getMessage_of_ne got s.users hi, h.tracked.table _ hi,
          (idOf_eq_iff hlt).mpr rfl] at hrun
        constructor
        · rintro ⟨sends, users, hrun', -, honce⟩
          rw [hrun] at hrun'
          obtain ⟨rfl, -⟩ := Prod.mk.inj (Option.some.inj hrun')
          exact (reaches_user_iff h hto).mp honce
        · intro hcan
          exact ⟨_, _, hrun, loopDispatch_buff hrun, (reaches_user_iff h hto).mpr hcan⟩
  | _ => exact Iff.rfl

/-- **DISPATCH, EXACTLY**: along an orderly list of steps every message of a
    registered user reaches exactly its addressees if and only if each recipient
    is registered when its message is dispatched, and each message to everybody is
    not from user 0, finds all ids registered and no stray descriptor in
    entry 0. -/
theorem dispatch_iff (as : List ServerAct) (h : Follows server orderly serverInit as) :
    Follows server reachesAddressees serverInit as
      ↔ Follows server canReach serverInit as :=
  follows_congr (fun _ _ _ hs ho hstep => settled_step hs ho (rule_of_serverStep hstep))
    (fun _ a hs _ => reachesAddressees_iff hs a) as serverInit settled_init h

/-- Users 1 and 2 connect and user 1 sends a line. -/
def chatRun (sender dest : BitVec 32) : List ServerAct :=
  [.accept 4, .conn 4 cleanFrame ⟨0, 0, 0⟩ (connMessage 97 sender), .accept 5,
   .conn 5 cleanFrame ⟨0, 0, 0⟩ (connMessage 98 2),
   .sendmsg 4 (blankLine sender dest),
   .dispatch 0 cleanFrame]

theorem dispatch_chatRun :
    Follows server reachesAddressees serverInit (chatRun 1 2)
      ↔ Follows server canReach serverInit (chatRun 1 2) :=
  dispatch_iff (chatRun 1 2)
    ⟨trivial, ⟨fun _ hc => Option.some.inj hc ▸ rfl, rfl⟩, trivial,
      ⟨fun _ hc => Option.some.inj hc ▸ rfl, rfl⟩, trivial, trivial, trivial⟩

/-- **THE SENTINEL**: a message from user 0 to everybody reaches nobody. -/
theorem sentinel_swallows :
    ¬ ∀ as, Follows server orderly serverInit as →
      Follows server reachesAddressees serverInit as := by
  intro h
  obtain ⟨-, -, -, -, -, hreach, -⟩ := h (chatRun 0 0)
    ⟨trivial, ⟨fun _ hc => Option.some.inj hc ▸ rfl, rfl⟩, trivial,
      ⟨fun _ hc => Option.some.inj hc ▸ rfl, rfl⟩, trivial, trivial, trivial⟩
  obtain ⟨sends, users, hrun, -, honce⟩ := hreach 0
    (blankLine 0 0) [] rfl (by decide) (by decide)
  obtain ⟨rfl, -⟩ := Prod.mk.inj (Option.some.inj hrun)
  exact absurd ((honce 4).1 (addressed_all rfl (List.cons_ne_nil _ _))) Nat.zero_ne_one

end ChatBroadcast
