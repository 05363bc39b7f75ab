import AipPkussm.ChatUserListProofs
import AipPkussm.TransitionProofs

/-! # The server's connections and `loop_dispatch`

    Clients come and go on descriptors that the operating system reuses, tell
    the server their ids with CONN messages and send each other lines; the
    dispatcher looks up descriptors in the user list and sends.  Nothing removes
    an entry of the list when its connection is closed.

    As history the state has a serial number for each connection, the ids that
    the CONN messages of a connection declared, and for each id the connection
    of the last CONN for it.  `misdelivery_iff` says that a line goes astray
    exactly when the connection that its addressee declared its id on is closed
    and the descriptor is in use again. -/

namespace ChatDispatch

open LittleEndian ChatMessage ChatUserList Transition

/-- A call of `send`: the descriptor and the bytes. -/
structure Sending where
  connfd : Int
  buff : List Byte
  deriving DecidableEq

/-- One round of `loop_dispatch` with the message that the pipe returned: what it
    sends, and the list after it.  A recipient past the end of the list is a
    fault. -/
def loopDispatch (got : GetFrame) (respMsg : Packet) (seg : UserList) :
    Option (List Sending × UserList) :=
  if respMsg.hdr.toId = 0 ∧ respMsg.hdr.fromId = 0 then some ([], seg)
  else
    let clilist := getMessage got seg
    let buff := respMsg.bytes
    if isBroadcast respMsg.hdr.toId then
      some ((List.finRange maxUserNum).map (fun i => ⟨(clilist i).connfd, buff⟩), clilist)
    else if h : respMsg.hdr.toId.toNat < maxUserNum then
      some ([⟨(clilist ⟨respMsg.hdr.toId.toNat, h⟩).connfd, buff⟩], clilist)
    else none

/-- The user list, the open connections, the messages on their way through the
    pipe with the connections that put them, and the history. -/
structure ServerState where
  users : UserList
  conns : Int → Option Nat
  next : Nat
  fdOf : Nat → Int
  declared : Nat → List (BitVec 32)
  lastConn : BitVec 32 → Option Nat
  pending : List (Nat × Packet)

/-- What happens at the server.  Descriptor 0 is its standard input. -/
inductive ServerAct where
  /-- `accept` returns a descriptor -/
  | accept (fd : Int)
  /-- `conn_handler` runs for a message of a connection -/
  | conn (fd : Int) (got : GetFrame) (put : WriteFrame) (msg : Message)
  /-- `sendmsg_handler` runs for a message of a connection -/
  | sendmsg (fd : Int) (msg : Packet)
  /-- `clithread` ends and closes its connection -/
  | disconnect (fd : Int)
  /-- a round of `loop_dispatch`; the pipe puts the body at `ptr` -/
  | dispatch (ptr : BitVec 32) (got : GetFrame)

/-- A message as the pipe returns it. -/
def atPtr (ptr : BitVec 32) (msg : Packet) : Packet where
  hdr := { msg.hdr with dataPtr := ptr }
  body := msg.body
  body_length := msg.body_length
  nonneg := msg.nonneg

/-- One step of the server.  The pipe keeps every message here: each that is lost when it is
    closed takes one round of `loop_dispatch` away, and nothing else. -/
def serverStep (s : ServerState) : ServerAct → Option ServerState
  | .accept fd =>
      if 0 < fd ∧ s.conns fd = none then
        some { s with
          conns := Function.update s.conns fd (some s.next)
          fdOf := Function.update s.fdOf s.next fd
          next := s.next + 1 }
      else none
  | .conn fd got put msg =>
      match s.conns fd with
      | none => none
      | some c =>
          (connHandler got put msg fd s.users).map (fun users =>
            { s with
              users := users
              declared := Function.update s.declared c (msg.fromId :: s.declared c)
              lastConn := Function.update s.lastConn msg.fromId (some c) })
  | .sendmsg fd msg =>
      match s.conns fd with
      | none => none
      | some c => some { s with pending := s.pending ++ [(c, msg)] }
  | .disconnect fd =>
      match s.conns fd with
      | none => none
      | some _ => some { s with conns := Function.update s.conns fd none }
  | .dispatch ptr got =>
      match s.pending with
      | [] => none
      | (_, msg) :: rest =>
          (loopDispatch got (atPtr ptr msg) s.users).map (fun r =>
            { s with users := r.2, pending := rest })

/-- A server without clients, its user list zeroed. -/
def serverInit : ServerState where
  users := zeroed
  conns := fun _ => none
  next := 0
  fdOf := fun _ => 0
  declared := fun _ => []
  lastConn := fun _ => none
  pending := []

/-- The server. -/
def server : Machine ServerState ServerAct where
  init := serverInit
  step := serverStep

/-! ## What a step can do -/

/-- The rules of the step function. -/
inductive ServerStep (s : ServerState) : ServerAct → ServerState → Prop where
  | accept {fd : Int} (hpos : 0 < fd) (hfree : s.conns fd = none) :
      ServerStep s (.accept fd)
        { s with
          conns := Function.update s.conns fd (some s.next)
          fdOf := Function.update s.fdOf s.next fd
          next := s.next + 1 }
  | conn {fd : Int} {got : GetFrame} {put : WriteFrame} {msg : Message} {c : Nat}
      {users : UserList} (hopen : s.conns fd = some c)
      (hconn : connHandler got put msg fd s.users = some users) :
      ServerStep s (.conn fd got put msg)
        { s with
          users := users
          declared := Function.update s.declared c (msg.fromId :: s.declared c)
          lastConn := Function.update s.lastConn msg.fromId (some c) }
  | sendmsg {fd : Int} {msg : Packet} {c : Nat} (hopen : s.conns fd = some c) :
      ServerStep s (.sendmsg fd msg) { s with pending := s.pending ++ [(c, msg)] }
  | disconnect {fd : Int} {c : Nat} (hopen : s.conns fd = some c) :
      ServerStep s (.disconnect fd) { s with conns := Function.update s.conns fd none }
  | dispatch {ptr : BitVec 32} {got : GetFrame} {c : Nat} {msg : Packet}
      {rest : List (Nat × Packet)} {sends : List Sending} {users : UserList}
      (hmsg : s.pending = (c, msg) :: rest)
      (hsend : loopDispatch got (atPtr ptr msg) s.users = some (sends, users)) :
      ServerStep s (.dispatch ptr got) { s with users := users, pending := rest }

/-- **STEP INVERSION**: a step is an instance of a rule. -/
theorem rule_of_serverStep {s s' : ServerState} {a : ServerAct}
    (h : serverStep s a = some s') : ServerStep s a s' := by
  cases a with
  | accept fd =>
      rw [serverStep] at h
      split at h
      · rename_i hfree
        obtain rfl := Option.some.inj h
        exact ServerStep.accept hfree.1 hfree.2
      · exact nomatch h
  | conn fd got put msg =>
      rw [serverStep] at h
      cases hc : s.conns fd with
      | none =>
          rw [hc] at h
          exact nomatch h
      | some c =>
          rw [hc] at h
          obtain ⟨users, husers, rfl⟩ := Option.map_eq_some_iff.mp h
          exact ServerStep.conn hc husers
  | sendmsg fd msg =>
      rw [serverStep] at h
      cases hc : s.conns fd with
      | none =>
          rw [hc] at h
          exact nomatch h
      | some c =>
          rw [hc] at h
          obtain rfl := Option.some.inj h
          exact ServerStep.sendmsg hc
  | disconnect fd =>
      rw [serverStep] at h
      cases hc : s.conns fd with
      | none =>
          rw [hc] at h
          exact nomatch h
      | some c =>
          rw [hc] at h
          obtain rfl := Option.some.inj h
          exact ServerStep.disconnect hc
  | dispatch ptr got =>
      rw [serverStep] at h
      rcases hp : s.pending with _ | ⟨⟨c, msg⟩, rest⟩
      · rw [hp] at h
        exact nomatch h
      · rw [hp] at h
        obtain ⟨⟨sends, users⟩, hr, rfl⟩ := Option.map_eq_some_iff.mp h
        exact ServerStep.dispatch hp hr

/-- The list after a round of `loop_dispatch` has gone through at most one
    `getMessage`. -/
theorem loopDispatch_users {got : GetFrame} {msg : Packet} {seg seg' : UserList}
    {sends : List Sending} (h : loopDispatch got msg seg = some (sends, seg')) :
    seg' = seg ∨ seg' = getMessage got seg := by
  rw [loopDispatch] at h
  split at h
  · obtain ⟨-, rfl⟩ := Prod.mk.inj (Option.some.inj h)
    exact Or.inl rfl
  · simp only at h
    split at h
    · obtain ⟨-, rfl⟩ := Prod.mk.inj (Option.some.inj h)
      exact Or.inr rfl
    · split at h
      · obtain ⟨-, rfl⟩ := Prod.mk.inj (Option.some.inj h)
        exact Or.inr rfl
      · exact nomatch h

/-- Every `send` of a round carries the whole frame. -/
theorem loopDispatch_buff {got : GetFrame} {msg : Packet} {seg seg' : UserList}
    {sends : List Sending} (h : loopDispatch got msg seg = some (sends, seg')) :
    ∀ snd ∈ sends, snd.buff = msg.bytes := by
  intro snd hsnd
  rw [loopDispatch] at h
  split at h
  · obtain ⟨rfl, -⟩ := Prod.mk.inj (Option.some.inj h)
    exact absurd hsnd List.not_mem_nil
  · simp only at h
    split at h
    · obtain ⟨rfl, -⟩ := Prod.mk.inj (Option.some.inj h)
      obtain ⟨i, -, rfl⟩ := List.mem_map.mp hsnd
      rfl
    · split at h
      · obtain ⟨rfl, -⟩ := Prod.mk.inj (Option.some.inj h)
        rw [List.mem_singleton.mp hsnd]
      · exact nomatch h

/-! ## What the list knows -/

/-- The id of an entry. -/
def idOf (i : Fin maxUserNum) : BitVec 32 := BitVec.ofNat 32 i.val

theorem toNat_idOf (i : Fin maxUserNum) : (idOf i).toNat = i.val := by
  have hlt : i.val < 32 := i.isLt
  rw [idOf, BitVec.toNat_ofNat]
  exact Nat.mod_eq_of_lt (by omega)

theorem idOf_eq_iff {i : Fin maxUserNum} {id : BitVec 32} (h : id.toNat < maxUserNum) :
    idOf i = id ↔ i = ⟨id.toNat, h⟩ := by
  constructor
  · rintro rfl
    exact Fin.ext (toNat_idOf i).symm
  · rintro rfl
    exact BitVec.eq_of_toNat_eq (toNat_idOf _)

/-- The descriptor on which an id was last declared, 0 when it never was. -/
def regFd (s : ServerState) (id : BitVec 32) : Int :=
  match s.lastConn id with
  | none => 0
  | some c => s.fdOf c

/-- What holds in every run. -/
structure Tracked (s : ServerState) : Prop where
  only : ∀ fd c, s.conns fd = some c → c < s.next ∧ s.fdOf c = fd ∧ 0 < fd
  table : ∀ i, i ≠ 0 → connfds s.users i = regFd s (idOf i)
  last : ∀ id c, s.lastConn id = some c → c < s.next ∧ id ∈ s.declared c
  unborn : ∀ c, s.next ≤ c → s.declared c = []
  reuse : ∀ id c c', s.lastConn id = some c → s.conns (s.fdOf c) = some c' → c' ≠ c →
    id ∉ s.declared c'

/-- **STEP**: a new connection. -/
theorem Tracked.accept {s : ServerState} {fd : Int} (h : Tracked s) (hpos : 0 < fd) :
    Tracked { s with
      conns := Function.update s.conns fd (some s.next)
      fdOf := Function.update s.fdOf s.next fd
      next := s.next + 1 } := by
  -- connections with a number keep their descriptor
  have hold : ∀ c, c < s.next → Function.update s.fdOf s.next fd c = s.fdOf c :=
    fun c hc => Function.update_of_ne (Nat.ne_of_lt hc) ..
  constructor
  · intro fd' c hc
    have hc' : Function.update s.conns fd (some s.next) fd' = some c := hc
    by_cases hfd : fd' = fd
    · rw [hfd, Function.update_self] at hc'
      obtain rfl := Option.some.inj hc'
      rw [hfd]
      exact ⟨Nat.lt_succ_self _, Function.update_self .., hpos⟩
    · rw [Function.update_of_ne hfd] at hc'
      obtain ⟨hlt, heq, hp⟩ := h.only fd' c hc'
      exact ⟨Nat.lt_succ_of_lt hlt, (hold c hlt).trans heq, hp⟩
  · intro i hi
    rw [h.table i hi, regFd, regFd]
    cases hl : s.lastConn (idOf i) with
    | none => rfl
    | some c => exact (hold c (h.last _ c hl).1).symm
  · intro id c hc
    obtain ⟨hlt, hmem⟩ := h.last id c hc
    exact ⟨Nat.lt_succ_of_lt hlt, hmem⟩
  · intro c hc
    exact h.unborn c (Nat.le_of_succ_le hc)
  · intro id c c' hc hopen hne
    have hlt := (h.last id c hc).1
    have hopen' : Function.update s.conns fd (some s.next)
        (Function.update s.fdOf s.next fd c) = some c' := hopen
    rw [hold c hlt] at hopen'
    by_cases hfd : s.fdOf c = fd
    · -- the descriptor was free: the new connection has declared nothing
      rw [hfd, Function.update_self] at hopen'
      obtain rfl := Option.some.inj hopen'
      show id ∉ s.declared s.next
      rw [h.unborn s.next (Nat.le_refl _)]
      exact List.not_mem_nil
    · rw [Function.update_of_ne hfd] at hopen'
      exact h.reuse id c c' hc hopen' hne

/-- **STEP**: a connection declares an id. -/
theorem Tracked.conn {s : ServerState} {fd : Int} {got : GetFrame} {put : WriteFrame}
    {msg : Message} {c : Nat} {users : UserList} (h : Tracked s)
    (hopen : s.conns fd = some c)
    (hconn : connHandler got put msg fd s.users = some users) :
    Tracked { s with
      users := users
      declared := Function.update s.declared c (msg.fromId :: s.declared c)
      lastConn := Function.update s.lastConn msg.fromId (some c) } := by
  obtain ⟨hlt, hfd, -⟩ := h.only fd c hopen
  obtain ⟨hid, hconnfds⟩ := connfds_connHandler hconn
  constructor
  · exact h.only
  · intro i hi
    show connfds users i = _
    rw [hconnfds, regFd]
    by_cases hsame : i = ⟨msg.fromId.toNat, hid⟩
    · have hidOf : idOf i = msg.fromId := (idOf_eq_iff hid).mpr hsame
      simp only [hidOf, Function.update_self]
      rw [hsame, Function.update_self, hfd]
    · have hidOf : idOf i ≠ msg.fromId := fun heq => hsame ((idOf_eq_iff hid).mp heq)
      simp only [Function.update_of_ne hidOf]
      rw [Function.update_of_ne hsame, connfds_getMessage_of_ne got s.users hi]
      exact h.table i hi
  · intro id c' hc'
    have hc'' : Function.update s.lastConn msg.fromId (some c) id = some c' := hc'
    by_cases hsame : id = msg.fromId
    · subst hsame
      rw [Function.update_self] at hc''
      obtain rfl := Option.some.inj hc''
      -- what was declared last is the id of this message
      refine ⟨hlt, ?_⟩
      show msg.fromId ∈ Function.update s.declared c (msg.fromId :: s.declared c) c
      rw [Function.update_self]
      exact List.mem_cons_self ..
    · rw [Function.update_of_ne hsame] at hc''
      obtain ⟨hlt', hmem⟩ := h.last id c' hc''
      refine ⟨hlt', ?_⟩
      show id ∈ Function.update s.declared c (msg.fromId :: s.declared c) c'
      by_cases hcc : c' = c
      · rw [hcc, Function.update_self]
        rw [hcc] at hmem
        exact List.mem_cons_of_mem _ hmem
      · rw [Function.update_of_ne hcc]
        exact hmem
  · intro c' hc'
    show Function.update s.declared c (msg.fromId :: s.declared c) c' = []
    have hcc : c' ≠ c := by
      rintro rfl
      exact absurd hlt (Nat.not_lt.mpr hc')
    rw [Function.update_of_ne hcc]
    exact h.unborn c' hc'
  · intro id c₁ c₂ hc₁ hopen₂ hne
    have hc₁' : Function.update s.lastConn msg.fromId (some c) id = some c₁ := hc₁
    have hopen₂' : s.conns (s.fdOf c₁) = some c₂ := hopen₂
    by_cases hsame : id = msg.fromId
    · -- the connection that has just declared the id is open itself
      subst hsame
      rw [Function.update_self] at hc₁'
      obtain rfl := Option.some.inj hc₁'
      rw [hfd, hopen] at hopen₂'
      exact absurd (Option.some.inj hopen₂').symm hne
    · rw [Function.update_of_ne hsame] at hc₁'
      have hnot := h.reuse id c₁ c₂ hc₁' hopen₂' hne
      show id ∉ Function.update s.declared c (msg.fromId :: s.declared c) c₂
      by_cases hcc : c₂ = c
      · rw [hcc, Function.update_self]
        rw [hcc] at hnot
        exact List.not_mem_cons_of_ne_of_not_mem hsame hnot
      · rw [Function.update_of_ne hcc]
        exact hnot

/-- **STEP**: what the list knows is kept by every step. -/
theorem tracked_step {s s' : ServerState} {a : ServerAct} (h : Tracked s)
    (hstep : ServerStep s a s') : Tracked s' := by
  cases hstep with
  | accept hpos => exact h.accept hpos
  | conn hopen hconn => exact h.conn hopen hconn
  | sendmsg => exact ⟨h.only, h.table, h.last, h.unborn, h.reuse⟩
  | @disconnect fd c hopen =>
      have hsub : ∀ fd' c', Function.update s.conns fd none fd' = some c' →
          s.conns fd' = some c' := by
        intro fd' c' hc'
        by_cases hfd : fd' = fd
        · rw [hfd, Function.update_self] at hc'
          exact nomatch hc'
        · rwa [Function.update_of_ne hfd] at hc'
      exact
        { only := fun fd' c' hc' => h.only fd' c' (hsub fd' c' hc')
          table := h.table
          last := h.last
          unborn := h.unborn
          reuse := fun id c₁ c₂ hc₁ hopen₂ => h.reuse id c₁ c₂ hc₁ (hsub _ _ hopen₂) }
  | @dispatch ptr got c msg rest sends users hmsg hsend =>
      refine ⟨h.only, ?_, h.last, h.unborn, h.reuse⟩
      intro i hi
      show connfds users i = regFd s (idOf i)
      rcases loopDispatch_users hsend with rfl | rfl
      · exact h.table i hi
      · rw [connfds_getMessage_of_ne got s.users hi]
        exact h.table i hi

theorem tracked_init : Tracked serverInit where
  only := fun _ _ hc => nomatch hc
  table := fun _ _ => rfl
  last := fun _ _ hc => nomatch hc
  unborn := fun _ _ => rfl
  reuse := fun _ _ _ hc => nomatch hc

/-! ## Misdelivery -/

/-- The message is addressed to one user. -/
def ToUser (msg : Packet) : Prop := msg.hdr.toId ≠ 0 ∧ msg.hdr.toId.toNat < maxUserNum

/-- A round of `loop_dispatch` sends a line for one user on no open connection but
    one that declared the user's id. -/
def rightlySent (s : ServerState) : ServerAct → Prop
  | .dispatch ptr got =>
      ∀ c msg rest, s.pending = (c, msg) :: rest → ToUser msg →
        ∀ sends users, loopDispatch got (atPtr ptr msg) s.users = some (sends, users) →
          ∀ snd ∈ sends, ∀ c', s.conns snd.connfd = some c' →
            msg.hdr.toId ∈ s.declared c'
  | _ => True

/-- The connection of the last CONN for the addressee is still open, or its
    descriptor is not in use. -/
def addresseeStands (s : ServerState) : ServerAct → Prop
  | .dispatch _ _ =>
      ∀ c msg rest, s.pending = (c, msg) :: rest → ToUser msg →
        ∀ c', s.lastConn msg.hdr.toId = some c' →
          s.conns (s.fdOf c') = some c' ∨ s.conns (s.fdOf c') = none
  | _ => True

/-- What a round sends for one user. -/
theorem loopDispatch_toUser (got : GetFrame) (ptr : BitVec 32) {msg : Packet}
    (seg : UserList) (hto : ToUser msg) :
    loopDispatch got (atPtr ptr msg) seg
      = some ([⟨connfds (getMessage got seg) ⟨msg.hdr.toId.toNat, hto.2⟩,
          (atPtr ptr msg).bytes⟩], getMessage got seg) := by
  obtain ⟨hne, hlt⟩ := hto
  have hcast : (atPtr ptr msg).hdr.toId = msg.hdr.toId := rfl
  have hbroad : isBroadcast msg.hdr.toId = false := beq_false_of_ne hne
  rw [loopDispatch, if_neg (fun hzero => hne (hcast ▸ hzero.1))]
  simp only [hcast, hbroad, Bool.false_eq_true, if_false, dif_pos hlt]
  rfl

/-- **STEP**: a line goes where it should exactly when its addressee's connection
    stands. -/
theorem rightlySent_iff {s : ServerState} (h : Tracked s) (a : ServerAct) :
    rightlySent s a ↔ addresseeStands s a := by
  cases a with
  | dispatch ptr got =>
      refine forall_congr' fun c => forall_congr' fun msg => forall_congr' fun rest =>
        forall_congr' fun _ => forall_congr' fun hto => ?_
      -- the one descriptor the line is sent on
      have hfd : connfds (getMessage got s.users) ⟨msg.hdr.toId.toNat, hto.2⟩
          = regFd s msg.hdr.toId := by
        have hi : (⟨msg.hdr.toId.toNat, hto.2⟩ : Fin maxUserNum) ≠ 0 := by
          intro hzero
          have hval : msg.hdr.toId.toNat = 0 := congrArg Fin.val hzero
          exact hto.1 (BitVec.eq_of_toNat_eq hval)
        rw [connfds_getMessage_of_ne got s.users hi, h.table _ hi,
          (idOf_eq_iff hto.2).mpr rfl]
      have hsends := loopDispatch_toUser got ptr s.users hto
      rw [hfd] at hsends
      constructor
      · intro hright c' hlast
        have hreg : regFd s msg.hdr.toId = s.fdOf c' := by
          rw [regFd, hlast]
        cases hopen : s.conns (s.fdOf c') with
        | none => exact Or.inr rfl
        | some c'' =>
            have hdecl := hright _ _ hsends _ (List.mem_singleton.mpr rfl) c''
              (by rw [hreg]; exact hopen)
            by_cases hne : c'' = c'
            · exact Or.inl (by rw [hne])
            · exact absurd hdecl (h.reuse _ c' c'' hlast hopen hne)
      · intro hstands sends users hrun snd hsnd c'' hopen
        rw [hsends] at hrun
        obtain ⟨rfl, -⟩ := Prod.mk.inj (Option.some.inj hrun)
        obtain rfl := List.mem_singleton.mp hsnd
        have hopen' : s.conns (regFd s msg.hdr.toId) = some c'' := hopen
        cases hlast : s.lastConn msg.hdr.toId with
        | none =>
            -- an empty entry: descriptor 0 is no connection
            rw [regFd, hlast] at hopen'
            exact absurd (h.only 0 c'' hopen').2.2 (Int.lt_irrefl 0)
        | some c' =>
            rw [regFd, hlast] at hopen'
            rcases hstands c' hlast with hsame | hnone
            · rw [hsame] at hopen'
              obtain rfl := Option.some.inj hopen'
              exact (h.last _ c' hlast).2
            · rw [hnone] at hopen'
              exact nomatch hopen'
  | _ => exact Iff.rfl

/-- **NO MISDELIVERY, EXACTLY**: along any list of steps every line for one user is
    rightly sent if and only if, whenever one is dispatched, the connection on
    which its addressee last declared its id is open or its descriptor is not in
    use. -/
theorem misdelivery_iff (as : List ServerAct) :
    Follows server rightlySent serverInit as
      ↔ Follows server addresseeStands serverInit as :=
  follows_congr (fun _ _ _ h _ hstep => tracked_step h (rule_of_serverStep hstep))
    (fun _ a h _ => rightlySent_iff h a) as serverInit tracked_init
    (follows_of_forall as (fun _ _ _ => trivial) serverInit)

/-- The CONN messages of a run. -/
def conns (as : List ServerAct) : List Message :=
  as.filterMap (fun a => match a with
    | .conn _ _ _ msg => some msg
    | _ => none)

/-- No two users, told apart by their names, share an id in 1..31. -/
def uniqueIds (as : List ServerAct) : Prop :=
  ∀ m ∈ conns as, ∀ m' ∈ conns as, m.fromId = m'.fromId → m.fromId ≠ 0 →
    m.fname = m'.fname

/-- The CONN message of a user with a name of one letter. -/
def connMessage (letter : Byte) (id : BitVec 32) : Message where
  command := Command.CONN.code
  fname := letter :: List.replicate 31 0
  dataSize := 0
  dataPtr := 0
  fromId := id
  toId := id
  fname_length := rfl

/-- A line without text from one user to another. -/
def blankLine (sender dest : BitVec 32) : Packet where
  hdr := { blankMessage with fromId := sender, toId := dest }
  body := []
  body_length := blankPacket.body_length
  nonneg := blankPacket.nonneg

/-- User 5 leaves, user 6 gets its descriptor, and user 6 writes to user 5. -/
def reuseRun : List ServerAct :=
  [.accept 4, .conn 4 cleanFrame ⟨0, 0, 0⟩ (connMessage 97 5), .disconnect 4,
   .accept 4, .conn 4 cleanFrame ⟨0, 0, 0⟩ (connMessage 98 6),
   .sendmsg 4 (blankLine 6 5),
   .dispatch 0 cleanFrame]

/-- **MISDELIVERY**: the line for user 5 goes to user 6. -/
theorem reused_descriptor :
    ¬ ∀ as, uniqueIds as → Follows server rightlySent serverInit as := by
  intro h
  obtain ⟨-, -, -, -, -, -, hright, -⟩ := h reuseRun (by rw [uniqueIds]; decide)
  have hmem := hright 1 (blankLine 6 5) [] rfl
    ⟨by decide, by decide⟩ _ _ rfl _ (List.mem_singleton.mpr rfl) 1 rfl
  exact absurd hmem (by decide)

end ChatDispatch
