import Mathlib.Data.Fin.Basic
import Mathlib.Logic.Function.Basic
import AipPkussm.ChatMessageProofs

/-! # `MessageSharedMemory<User*>` — the user list

    The 32 users of the shared segment.  Every `getMessage` runs `read_fd` on
    the first of them, which looks for a descriptor in a control buffer on its
    own stack that nobody has filled; when the buffer happens to look like a
    control message with a positive descriptor, the first user's `connfd`
    becomes that.  Every `putMessage` stores in the first user a `msghdr` that
    points to buffers of a function that has returned.

    What the list is for is a map from id to descriptor (`Registry`).
    `userList_iff` says exactly when it is one. -/

namespace ChatUserList

open LittleEndian ChatMessage

/-- `MAX_USER_NUM`. -/
abbrev maxUserNum : Nat := 32

/-- The list has an entry 0. -/
instance neZero_maxUserNum : NeZero maxUserNum := ⟨by decide⟩

/-- `MAX_USER_NAME_LEN`. -/
def maxUserNameLen : Nat := 16

/-- `struct msghdr`; the pointers are words. -/
structure Msghdr where
  msgName : BitVec 32
  msgNamelen : BitVec 32
  msgIov : BitVec 32
  msgIovlen : BitVec 32
  msgControl : BitVec 32
  msgControllen : BitVec 32
  msgFlags : BitVec 32
  deriving DecidableEq

/-- `struct User`. -/
structure User where
  id : BitVec 32
  connfd : Int
  name : List Byte
  fdhdr : Msghdr
  deriving DecidableEq

/-- The shared segment, an array of users. -/
abbrev UserList := Fin maxUserNum → User

/-- `struct cmsghdr` followed by an `int`: how `read_fd` looks at its control
    buffer. -/
structure ControlBlock where
  cmsgLen : BitVec 32
  cmsgLevel : BitVec 32
  cmsgType : BitVec 32
  data : BitVec 32
  deriving DecidableEq

/-- Where the locals of `write_fd` are, and the flags it leaves as they are. -/
structure WriteFrame where
  control : BitVec 32
  iov : BitVec 32
  flags : BitVec 32
  deriving DecidableEq

/-- `sizeof(struct cmsghdr)`. -/
def sizeofCmsghdr : Nat := 12

/-- `CMSG_LEN(sizeof(int))`. -/
def cmsgLenInt : BitVec 32 := 16

/-- `CMSG_SPACE(sizeof(int))`. -/
def cmsgSpaceInt : BitVec 32 := 16

/-- `write_fd`.  The descriptor goes to the local control buffer only, and is gone
    with it. -/
def writeFd (frame : WriteFrame) (_sendfd : Int) : Msghdr where
  msgName := 0
  msgNamelen := 0
  msgIov := frame.iov
  msgIovlen := 1
  msgControl := frame.control
  msgControllen := cmsgSpaceInt
  msgFlags := frame.flags

/-- `read_fd`, which finds `control` in its uninitialised control buffer at
    `frame.control`: the value of `*recvfd`. -/
def readFd (frame : WriteFrame) (control : ControlBlock) (fdhdr : Msghdr) : Int :=
  let msg := { fdhdr with
    msgControl := frame.control
    msgControllen := cmsgSpaceInt
    msgName := 0
    msgNamelen := 0
    msgIov := frame.iov
    msgIovlen := 1 }
  -- `CMSG_FIRSTHDR`; a wrong level or type is only reported
  if sizeofCmsghdr ≤ msg.msgControllen.toNat ∧ control.cmsgLen = cmsgLenInt then
    control.data.toInt
  else -1

/-- `strncpy` into a field of `n` bytes. -/
def strncpy (n : Nat) (src : List Byte) : List Byte :=
  let str := (src.takeWhile (fun b => b ≠ 0)).take n
  str ++ List.replicate (n - str.length) 0

/-- What a `getMessage` finds on its stack. -/
structure GetFrame where
  locals : WriteFrame
  control : ControlBlock
  deriving DecidableEq

/-- `getMessage`: the segment after it. -/
def getMessage (frame : GetFrame) (seg : UserList) : UserList :=
  let connfd := readFd frame.locals frame.control (seg 0).fdhdr
  if 0 < connfd then Function.update seg 0 { seg 0 with connfd := connfd } else seg

/-- `putMessage`: the segment after it. -/
def putMessage (frame : WriteFrame) (list : UserList) : UserList :=
  Function.update list 0 { list 0 with fdhdr := writeFd frame (list 0).connfd }

/-- The assignments of `conn_handler` to the entry `msg->from`; an id past the end
    of the list is a fault. -/
def assign (list : UserList) (msg : Message) (connfd : Int) : Option UserList :=
  if h : msg.fromId.toNat < maxUserNum then
    some (Function.update list ⟨msg.fromId.toNat, h⟩
      { list ⟨msg.fromId.toNat, h⟩ with
        id := msg.fromId
        connfd := connfd
        name := strncpy maxUserNameLen msg.fname })
  else none

/-- `conn_handler`. -/
def connHandler (got : GetFrame) (put : WriteFrame) (msg : Message) (connfd : Int)
    (seg : UserList) : Option UserList :=
  (assign (getMessage got seg) msg connfd).map (putMessage put)

/-- A segment of zeros. -/
def zeroed : UserList := fun _ =>
  { id := 0, connfd := 0, name := List.replicate maxUserNameLen 0
    fdhdr := ⟨0, 0, 0, 0, 0, 0, 0⟩ }

/-- The calls on the list: a `conn_handler`, or the `getMessage` of
    `loop_dispatch`. -/
inductive ListOp where
  | conn (got : GetFrame) (put : WriteFrame) (msg : Message) (connfd : Int)
  | lookup (got : GetFrame)
  deriving DecidableEq

namespace ListOp

/-- What the `getMessage` of a call finds in its control buffer. -/
def control : ListOp → ControlBlock
  | .conn got _ _ _ => got.control
  | .lookup got => got.control

/-- The segment after a call. -/
def run : ListOp → UserList → Option UserList
  | .conn got put msg connfd, seg => connHandler got put msg connfd seg
  | .lookup got, seg => some (getMessage got seg)

/-- An id within the list and a positive descriptor. -/
def valid : ListOp → Bool
  | .conn _ _ msg connfd => decide (msg.fromId.toNat < maxUserNum) && decide (0 < connfd)
  | .lookup _ => true

end ListOp

/-! ## The map from id to descriptor -/

/-- What the list is for: the descriptor of each id, 0 where there is none. -/
abbrev Registry := Fin maxUserNum → Int

/-- What a call does to the map. -/
def ListOp.register : ListOp → Registry → Registry
  | .conn _ _ msg connfd, reg =>
      if h : msg.fromId.toNat < maxUserNum then
        Function.update reg ⟨msg.fromId.toNat, h⟩ connfd
      else reg
  | .lookup _, reg => reg

/-- The `connfd` of each user. -/
def connfds (seg : UserList) : Registry := fun i => (seg i).connfd

/-- Neither `getMessage` nor `putMessage` changes any user's `connfd` in a call. -/
def ListOp.keeps : ListOp → UserList → Prop
  | .conn got put msg connfd, seg =>
      connfds (getMessage got seg) = connfds seg
        ∧ ∀ list, assign (getMessage got seg) msg connfd = some list →
            connfds (putMessage put list) = connfds list
  | .lookup got, seg => connfds (getMessage got seg) = connfds seg

/-- Calls one after another: each of them succeeds and keeps the descriptors it is
    not about, and at the end the list holds the map. -/
def RunsAsMap : UserList → Registry → List ListOp → Prop
  | seg, reg, [] => connfds seg = reg
  | seg, reg, op :: ops =>
      op.keeps seg ∧ ∃ seg', op.run seg = some seg' ∧ RunsAsMap seg' (op.register reg) ops

/-- The control buffer does not look like a message with a positive descriptor
    other than `fd`. -/
def ControlBlock.Harmless (c : ControlBlock) (fd : Int) : Prop :=
  c.cmsgLen = cmsgLenInt → c.data.toInt ≤ 0 ∨ c.data.toInt = fd

/-- No control buffer is harmful, given the descriptor that id 0 has by then. -/
def Harmless : Registry → List ListOp → Prop
  | _, [] => True
  | reg, op :: ops => op.control.Harmless (reg 0) ∧ Harmless (op.register reg) ops

/-- The descriptor after `read_fd`. -/
theorem readFd_eq (frame : WriteFrame) (c : ControlBlock) (fdhdr : Msghdr) :
    readFd frame c fdhdr = if c.cmsgLen = cmsgLenInt then c.data.toInt else -1 := by
  have hspace : sizeofCmsghdr ≤ cmsgSpaceInt.toNat := by decide
  simp only [readFd, hspace, true_and]

/-- `putMessage` writes no `connfd`. -/
theorem connfds_putMessage (frame : WriteFrame) (list : UserList) :
    connfds (putMessage frame list) = connfds list := by
  funext i
  by_cases hi : i = 0
  · rw [hi, connfds, putMessage, Function.update_self]
    rfl
  · rw [connfds, putMessage, Function.update_of_ne hi]
    rfl

/-- What `getMessage` leaves of the descriptors. -/
theorem connfds_getMessage (frame : GetFrame) (seg : UserList) :
    connfds (getMessage frame seg)
      = if 0 < readFd frame.locals frame.control (seg 0).fdhdr then
          Function.update (connfds seg) 0
            (readFd frame.locals frame.control (seg 0).fdhdr)
        else connfds seg := by
  rw [getMessage]
  split
  · funext i
    by_cases hi : i = 0
    · rw [hi, connfds, Function.update_self, Function.update_self]
    · rw [connfds, Function.update_of_ne hi, Function.update_of_ne hi]
      rfl
  · rfl

/-- **STEP**: a `getMessage` changes no descriptor exactly when its control buffer
    is harmless. -/
theorem getMessage_keeps_iff (frame : GetFrame) (seg : UserList) :
    connfds (getMessage frame seg) = connfds seg
      ↔ frame.control.Harmless (connfds seg 0) := by
  rw [connfds_getMessage, readFd_eq]
  by_cases hlen : frame.control.cmsgLen = cmsgLenInt
  · rw [if_pos hlen]
    by_cases hpos : 0 < frame.control.data.toInt
    · rw [if_pos hpos]
      constructor
      · intro h _
        have h0 := congrFun h 0
        rw [Function.update_self] at h0
        exact Or.inr h0
      · intro h
        rcases h hlen with hle | heq
        · exact absurd hpos (Int.not_lt.mpr hle)
        · rw [heq, Function.update_eq_self]
    · rw [if_neg hpos]
      exact iff_of_true rfl (fun _ => Or.inl (Int.not_lt.mp hpos))
  · rw [if_neg hlen, if_neg (by decide)]
    exact iff_of_true rfl (fun h => absurd h hlen)

/-- The assignments change the descriptor of one id. -/
theorem connfds_assign {list list' : UserList} {msg : Message} {connfd : Int}
    (hid : msg.fromId.toNat < maxUserNum) (h : assign list msg connfd = some list') :
    connfds list' = Function.update (connfds list) ⟨msg.fromId.toNat, hid⟩ connfd := by
  rw [assign, dif_pos hid] at h
  obtain rfl := Option.some.inj h
  funext i
  by_cases hi : i = ⟨msg.fromId.toNat, hid⟩
  · rw [hi, connfds, Function.update_self, Function.update_self]
  · rw [connfds, Function.update_of_ne hi, Function.update_of_ne hi]
    rfl

/-- `getMessage` touches the first user only. -/
theorem connfds_getMessage_of_ne (frame : GetFrame) (seg : UserList) {i : Fin maxUserNum}
    (hi : i ≠ 0) : connfds (getMessage frame seg) i = connfds seg i := by
  rw [connfds_getMessage]
  split
  · exact Function.update_of_ne hi ..
  · rfl

/-- `conn_handler` sets the descriptor of the id in the message. -/
theorem connfds_connHandler {got : GetFrame} {put : WriteFrame} {msg : Message}
    {connfd : Int} {seg seg' : UserList} (h : connHandler got put msg connfd seg = some seg') :
    ∃ hid : msg.fromId.toNat < maxUserNum, connfds seg'
      = Function.update (connfds (getMessage got seg)) ⟨msg.fromId.toNat, hid⟩ connfd := by
  obtain ⟨list, hlist, rfl⟩ := Option.map_eq_some_iff.mp h
  by_cases hid : msg.fromId.toNat < maxUserNum
  · exact ⟨hid, by rw [connfds_putMessage, connfds_assign hid hlist]⟩
  · rw [assign, dif_neg hid] at hlist
    exact nomatch hlist

/-- **STEP**: a valid call keeps the descriptors exactly when its control buffer is
    harmless. -/
theorem keeps_iff {op : ListOp} {seg : UserList} :
    op.keeps seg ↔ op.control.Harmless (connfds seg 0) := by
  cases op with
  | conn got put msg connfd =>
      constructor
      · rintro ⟨hget, -⟩
        exact (getMessage_keeps_iff got seg).mp hget
      · intro h
        exact ⟨(getMessage_keeps_iff got seg).mpr h, fun list _ => connfds_putMessage put list⟩
  | lookup got => exact getMessage_keeps_iff got seg

/-- **STEP**: a valid call that keeps the descriptors does to the list what it does
    to the map. -/
theorem run_of_keeps {op : ListOp} {seg : UserList} (hv : op.valid = true)
    (hk : op.keeps seg) :
    ∃ seg', op.run seg = some seg' ∧ connfds seg' = op.register (connfds seg) := by
  cases op with
  | conn got put msg connfd =>
      obtain ⟨hget, -⟩ := hk
      have hid : msg.fromId.toNat < maxUserNum := by
        have := (Bool.and_eq_true _ _).mp hv
        exact of_decide_eq_true this.1
      obtain ⟨list, hlist⟩ : ∃ list, assign (getMessage got seg) msg connfd = some list := by
        rw [assign, dif_pos hid]
        exact ⟨_, rfl⟩
      refine ⟨putMessage put list, ?_, ?_⟩
      · show (assign (getMessage got seg) msg connfd).map (putMessage put) = _
        rw [hlist]
        rfl
      · rw [connfds_putMessage, connfds_assign hid hlist, hget]
        show _ = dite _ _ _
        rw [dif_pos hid]
  | lookup got => exact ⟨getMessage got seg, rfl, hk⟩

/-- **RUN**: from a list that holds the map, valid calls run as on the map exactly
    when no control buffer is harmful. -/
theorem runsAsMap_iff (ops : List ListOp) : ∀ (seg : UserList),
    (∀ op ∈ ops, op.valid = true) →
    (RunsAsMap seg (connfds seg) ops ↔ Harmless (connfds seg) ops) := by
  induction ops with
  | nil => exact fun _ _ => iff_of_true rfl trivial
  | cons op ops ih =>
      intro seg hvalid
      have hhead : op.valid = true := hvalid op (List.mem_cons_self ..)
      have htail : ∀ op' ∈ ops, op'.valid = true :=
        fun op' hop => hvalid op' (List.mem_cons_of_mem op hop)
      constructor
      · rintro ⟨hk, seg', hrun, hrest⟩
        obtain ⟨seg₁, hrun₁, hreg⟩ := run_of_keeps hhead hk
        obtain rfl : seg₁ = seg' := Option.some.inj (hrun₁.symm.trans hrun)
        rw [← hreg] at hrest
        refine ⟨keeps_iff.mp hk, ?_⟩
        rw [← hreg]
        exact (ih seg₁ htail).mp hrest
      · rintro ⟨hc, hrest⟩
        have hk : op.keeps seg := keeps_iff.mpr hc
        obtain ⟨seg', hrun, hreg⟩ := run_of_keeps hhead hk
        refine ⟨hk, seg', hrun, ?_⟩
        rw [← hreg] at hrest ⊢
        exact (ih seg' htail).mpr hrest

/-- **THE LIST IS A MAP, EXACTLY**: from a zeroed segment the list runs as the map
    from id to the last descriptor, and no `getMessage` or `putMessage` changes a
    `connfd`, if and only if no `read_fd` finds a stray descriptor on its stack. -/
theorem userList_iff (ops : List ListOp) (hvalid : ∀ op ∈ ops, op.valid = true) :
    RunsAsMap zeroed (fun _ => 0) ops ↔ Harmless (fun _ => 0) ops :=
  runsAsMap_iff ops zeroed hvalid

/-- A stack without anything that looks like a descriptor. -/
def cleanFrame : GetFrame := ⟨⟨0, 0, 0⟩, ⟨0, 0, 0, 0⟩⟩

/-- A stack with the remains of a control message for descriptor 9. -/
def strayFrame : GetFrame := ⟨⟨0, 0, 0⟩, ⟨16, 1, 1, 9⟩⟩

/-- User 0 registers on descriptor 4, and a message is dispatched. -/
def strayOps (got : GetFrame) : List ListOp :=
  [.conn cleanFrame ⟨0, 0, 0⟩ { blankMessage with fromId := 0 } 4, .lookup got]

theorem userList_cleanOps :
    RunsAsMap zeroed (fun _ => 0) (strayOps cleanFrame)
      ↔ Harmless (fun _ => 0) (strayOps cleanFrame) :=
  userList_iff (strayOps cleanFrame) (by decide)

/-- **STRAY DESCRIPTOR**: what an earlier call left on the stack takes the place of
    user 0's descriptor. -/
theorem stray_descriptor :
    ¬ ∀ ops, (∀ op ∈ ops, op.valid = true) → RunsAsMap zeroed (fun _ => 0) ops := by
  intro h
  obtain ⟨-, seg, hrun, hkeeps, -⟩ := h (strayOps strayFrame) (by decide)
  obtain rfl := Option.some.inj hrun
  exact absurd (congrFun hkeeps 0) (by decide)

end ChatUserList
