import AipPkussm.ChatMessageProofs
import AipPkussm.FtpHandlersProofs
import AipPkussm.TransitionProofs

/-! # `hdlr_map` — commands and their handlers

    Both servers look up the handler of a message with the subscript operator of
    `std::map`, which inserts a null pointer for a key that is not there, and
    call what they get.  `handlers_iff` says what that means for any sequence of
    messages on any connections: all is well exactly as long as no command is
    received that `main` has not registered. -/

namespace HandlerTable

open Transition

section Table

variable {κ η μ : Type} [DecidableEq κ]

/-- `std::map<K, H*>`: no entry, or one that may be the null pointer. -/
abbrev Table (κ η : Type) := κ → Option (Option η)

/-- `map[k]`: the pointer, and the map after it. -/
def subscript (t : Table κ η) (k : κ) : Option η × Table κ η :=
  match t k with
  | some p => (p, t)
  | none => (none, Function.update t k (some none))

/-- `add_handler`. -/
def addHandler (t : Table κ η) (r : κ × η) : Table κ η :=
  Function.update (subscript t r.1).2 r.1 (some (some r.2))

/-- The map after the calls of `add_handler` in `main`. -/
def registered (reg : List (κ × η)) : Table κ η := reg.foldl addHandler (fun _ => none)

/-- The map, what `handle_msg` has called for which command, and whether a null pointer
    was among it. -/
structure Server (κ η : Type) where
  hdlrMap : Table κ η
  called : List (κ × Option η)
  crashed : Bool

/-- `handle_msg` for a message of a connection. -/
def handleMsg (command : μ → κ) (s : Server κ η) (a : Int × μ) : Option (Server κ η) :=
  if s.crashed then none
  else
    let r := subscript s.hdlrMap (command a.2)
    some { hdlrMap := r.2, called := s.called ++ [(command a.2, r.1)], crashed := r.1.isNone }

/-- A server that has registered its handlers. -/
def server (command : μ → κ) (reg : List (κ × η)) : Machine (Server κ η) (Int × μ) where
  init := { hdlrMap := registered reg, called := [], crashed := false }
  step := handleMsg command

/-- Only handlers were called that were registered for their commands, and the map has
    entries for the registered commands and no others. -/
structure Intact (reg : List (κ × η)) (s : Server κ η) : Prop where
  called : ∀ c ∈ s.called, ∃ h, c.2 = some h ∧ (c.1, h) ∈ reg
  keys : ∀ k, s.hdlrMap k ≠ none ↔ k ∈ reg.map Prod.fst

/-- The subscript finds an entry that is there. -/
theorem subscript_of_some {t : Table κ η} {k : κ} {p : Option η} (h : t k = some p) :
    subscript t k = (p, t) := by
  rw [subscript, h]

/-- The subscript makes an entry where there is none. -/
theorem subscript_of_none {t : Table κ η} {k : κ} (h : t k = none) :
    subscript t k = (none, Function.update t k (some none)) := by
  rw [subscript, h]

/-- What `add_handler` does to the entries. -/
theorem addHandler_apply (t : Table κ η) (r : κ × η) (k : κ) :
    addHandler t r k = if k = r.1 then some (some r.2) else t k := by
  rw [addHandler]
  by_cases hk : k = r.1
  · rw [if_pos hk, hk, Function.update_self]
  · rw [if_neg hk, Function.update_of_ne hk]
    cases h : t r.1 with
    | some p => rw [subscript_of_some h]
    | none =>
        rw [subscript_of_none h]
        exact Function.update_of_ne hk ..

/-- **REGISTERED**: an entry of the map is a handler from the list, and the commands in
    the list are those with an entry. -/
theorem registered_cases (reg : List (κ × η)) (k : κ) :
    (k ∈ reg.map Prod.fst ∧ ∃ h, registered reg k = some (some h) ∧ (k, h) ∈ reg)
      ∨ (k ∉ reg.map Prod.fst ∧ registered reg k = none) := by
  induction reg using List.reverseRecOn with
  | nil => exact Or.inr ⟨List.not_mem_nil, rfl⟩
  | append_singleton reg r ih =>
      have hadd : registered (reg ++ [r]) k
          = if k = r.1 then some (some r.2) else registered reg k := by
        rw [registered, List.foldl_append, List.foldl_cons, List.foldl_nil, addHandler_apply]
        rfl
      rw [hadd, List.map_append, List.map_singleton, List.mem_append, List.mem_singleton]
      by_cases hk : k = r.1
      · rw [if_pos hk]
        refine Or.inl ⟨Or.inr hk, r.2, rfl, List.mem_append_right _ ?_⟩
        rw [hk]
        exact List.mem_singleton_self r
      · rw [if_neg hk]
        rcases ih with ⟨hmem, h, hreg, hin⟩ | ⟨hmem, hreg⟩
        · exact Or.inl ⟨Or.inl hmem, h, hreg, List.mem_append_left _ hin⟩
        · exact Or.inr ⟨fun h => h.elim hmem hk, hreg⟩

/-- What holds as long as only registered commands are received. -/
structure Untouched (reg : List (κ × η)) (s : Server κ η) : Prop where
  table : s.hdlrMap = registered reg
  called : ∀ c ∈ s.called, ∃ h, c.2 = some h ∧ (c.1, h) ∈ reg

theorem Untouched.intact {reg : List (κ × η)} {s : Server κ η} (h : Untouched reg s) :
    Intact reg s where
  called := h.called
  keys := by
    intro k
    rw [h.table]
    rcases registered_cases reg k with ⟨hmem, p, hp, -⟩ | ⟨hmem, hp⟩
    · rw [hp]
      exact iff_of_true (fun hnone => nomatch hnone) hmem
    · exact iff_of_false (fun hsome => hsome hp) hmem

/-- A null pointer was called. -/
def Null (s : Server κ η) : Prop := ∃ k, (k, none) ∈ s.called

omit [DecidableEq κ] in
theorem not_intact_of_null {reg : List (κ × η)} {s : Server κ η} (h : Null s) :
    ¬ Intact reg s := by
  intro hintact
  obtain ⟨k, hk⟩ := h
  obtain ⟨p, hp, -⟩ := hintact.called _ hk
  exact nomatch hp

/-- **STEP**: a message whose command is registered. -/
theorem untouched_step {command : μ → κ} {reg : List (κ × η)} {s s' : Server κ η}
    {a : Int × μ} (h : Untouched reg s) (ha : command a.2 ∈ reg.map Prod.fst)
    (hstep : handleMsg command s a = some s') : Untouched reg s' := by
  rw [handleMsg] at hstep
  split at hstep
  · exact nomatch hstep
  · rcases registered_cases reg (command a.2) with ⟨-, p, hp, hin⟩ | ⟨hmem, -⟩
    · rw [← h.table] at hp
      rw [subscript_of_some hp] at hstep
      obtain rfl := Option.some.inj hstep
      refine ⟨h.table, ?_⟩
      intro c hc
      rcases List.mem_append.mp hc with hold | hnew
      · exact h.called c hold
      · rw [List.mem_singleton.mp hnew]
        exact ⟨p, rfl, hin⟩
    · exact absurd ha hmem

/-- **STEP**: a message whose command is not registered. -/
theorem null_of_step {command : μ → κ} {reg : List (κ × η)} {s s' : Server κ η}
    {a : Int × μ} (h : Untouched reg s) (ha : command a.2 ∉ reg.map Prod.fst)
    (hstep : handleMsg command s a = some s') : Null s' := by
  rw [handleMsg] at hstep
  split at hstep
  · exact nomatch hstep
  · rcases registered_cases reg (command a.2) with ⟨hmem, -⟩ | ⟨-, hnone⟩
    · exact absurd hmem ha
    · rw [← h.table] at hnone
      rw [subscript_of_none hnone] at hstep
      obtain rfl := Option.some.inj hstep
      exact ⟨command a.2, List.mem_append_right _ (List.mem_singleton_self _)⟩

/-- What was called stays called. -/
theorem null_step {command : μ → κ} {s s' : Server κ η} {a : Int × μ} (h : Null s)
    (hstep : handleMsg command s a = some s') : Null s' := by
  obtain ⟨k, hk⟩ := h
  rw [handleMsg] at hstep
  split at hstep
  · exact nomatch hstep
  · obtain rfl := Option.some.inj hstep
    exact ⟨k, List.mem_append_left _ hk⟩

/-- **RUN**: all is well after some messages exactly when all their commands are
    registered. -/
theorem intact_iff {command : μ → κ} {reg : List (κ × η)} (as : List (Int × μ))
    {t : Server κ η} (h : play (server command reg) (server command reg).init as = some t) :
    Intact reg t ↔ ∀ a ∈ as, command a.2 ∈ reg.map Prod.fst := by
  have hinit : Untouched reg (server command reg).init :=
    ⟨rfl, fun c hc => absurd hc List.not_mem_nil⟩
  rcases play_follows (M := server command reg) (I := Untouched reg) (B := Null)
    (g := fun _ => True) (p := fun _ a => command a.2 ∈ reg.map Prod.fst)
    (fun _ _ _ hs _ ha hstep => untouched_step hs ha hstep)
    (fun _ _ _ hs _ ha hstep => null_of_step hs ha hstep)
    (fun _ _ _ hs hstep => null_step hs hstep)
    as _ t hinit (fun _ _ => trivial) h with ⟨hfollows, ht⟩ | ⟨hnot, ht⟩
  · exact iff_of_true ht.intact (forall_of_follows hfollows h)
  · exact iff_of_false (not_intact_of_null ht)
      (fun hall => hnot (follows_of_forall as (fun a ha _ => hall a ha) _))

end Table

/-! ## The two servers -/

/-- The handlers of the chatroom's server. -/
inductive ChatHandler where
  | getHandler
  | putHandler
  | connHandler
  | sendmsgHandler
  deriving DecidableEq

/-- The handlers of the file server. -/
inductive FtpHandler where
  | getHandler
  | putHandler
  deriving DecidableEq

/-- What the chatroom's `main` registers. -/
def chatHandlers : List (BitVec 32 × ChatHandler) :=
  [(ChatMessage.Command.GET.code, .getHandler), (ChatMessage.Command.PUT.code, .putHandler),
   (ChatMessage.Command.CONN.code, .connHandler),
   (ChatMessage.Command.SENDMSG.code, .sendmsgHandler)]

/-- What the file server's `main` registers. -/
def ftpHandlers : List (BitVec 32 × FtpHandler) :=
  [(FtpMessage.Command.GET.code, .getHandler), (FtpMessage.Command.PUT.code, .putHandler)]

/-- The chatroom's server, with any message on any descriptor. -/
def chatServer : Machine (Server (BitVec 32) ChatHandler) (Int × ChatMessage.Message) :=
  server ChatMessage.Message.command chatHandlers

/-- The file server. -/
def ftpServer : Machine (Server (BitVec 32) FtpHandler) (Int × FtpMessage.Message) :=
  server FtpMessage.Message.command ftpHandlers

/-- The file server's `handle_msg` runs the handler that it finds in the map, and a null
    pointer is a fault. -/
theorem handleMsg_table (disk : FtpHandlers.Disk) (mem : FtpHandlers.Memory)
    (msg : FtpMessage.Message) (l : FtpTransfer.Link) :
    FtpHandlers.handleMsg disk mem msg l
      = match (subscript (registered ftpHandlers) msg.command).1 with
        | some .getHandler => FtpHandlers.getHandler disk mem msg l
        | some .putHandler => FtpHandlers.putHandler disk mem msg l
        | none => .error .fault := by
  have hmap : ∀ k, registered ftpHandlers k
      = if k = FtpMessage.Command.PUT.code then some (some .putHandler)
        else if k = FtpMessage.Command.GET.code then some (some .getHandler) else none := by
    intro k
    rw [registered, ftpHandlers, List.foldl_cons, List.foldl_cons, List.foldl_nil,
      addHandler_apply, addHandler_apply]
  by_cases hget : msg.command = FtpMessage.Command.GET.code
  · have hentry : registered ftpHandlers msg.command = some (some .getHandler) := by
      rw [hmap, if_neg (by rw [hget]; decide), if_pos hget]
    rw [subscript_of_some hentry]
    exact FtpHandlers.handleMsg_get disk mem l hget
  · by_cases hput : msg.command = FtpMessage.Command.PUT.code
    · have hentry : registered ftpHandlers msg.command = some (some .putHandler) := by
        rw [hmap, if_pos hput]
      rw [subscript_of_some hentry]
      exact FtpHandlers.handleMsg_put disk mem l hput
    · have hentry : registered ftpHandlers msg.command = none := by
        rw [hmap, if_neg hput, if_neg hget]
      rw [subscript_of_none hentry, FtpHandlers.handleMsg, if_neg hget, if_neg hput]

/-- **HANDLERS, EXACTLY**: after any messages on any connections to the two servers, only
    registered handlers were called and the map holds the registered commands, if and
    only if every message had a registered command. -/
theorem handlers_iff (chats : List (Int × ChatMessage.Message))
    (files : List (Int × FtpMessage.Message)) {s : Server (BitVec 32) ChatHandler}
    {t : Server (BitVec 32) FtpHandler}
    (hchats : play chatServer chatServer.init chats = some s)
    (hfiles : play ftpServer ftpServer.init files = some t) :
    (Intact chatHandlers s ↔ ∀ a ∈ chats, a.2.command ∈ chatHandlers.map Prod.fst)
      ∧ (Intact ftpHandlers t ↔ ∀ a ∈ files, a.2.command ∈ ftpHandlers.map Prod.fst) :=
  ⟨intact_iff chats hchats, intact_iff files hfiles⟩

/-- A message of the chatroom with a command and nothing else in it. -/
def chatMessage (c : ChatMessage.Command) : ChatMessage.Message :=
  { ChatMessage.blankMessage with command := c.code }

/-- A message of the file server with a command and nothing else in it. -/
def ftpMessage (c : FtpMessage.Command) : FtpMessage.Message where
  command := c.code
  fname := List.replicate 32 0
  dataSize := 0
  fname_length := FtpMessage.length_blankFname

theorem handlers_iff_conn :
    ∃ s t, play chatServer chatServer.init [(4, chatMessage .CONN)] = some s
      ∧ play ftpServer ftpServer.init [(4, ftpMessage .PUT)] = some t
      ∧ (Intact chatHandlers s
          ↔ ∀ a ∈ [((4 : Int), chatMessage .CONN)], a.2.command ∈ chatHandlers.map Prod.fst)
      ∧ (Intact ftpHandlers t
          ↔ ∀ a ∈ [((4 : Int), ftpMessage .PUT)], a.2.command ∈ ftpHandlers.map Prod.fst) :=
  ⟨_, _, rfl, rfl, handlers_iff [(4, chatMessage .CONN)] [(4, ftpMessage .PUT)] rfl rfl⟩

/-- **NULL**: for LS, which is declared but not registered, both servers call the null
    pointer. -/
theorem ls_calls_null :
    (¬ ∀ as t, play chatServer chatServer.init as = some t → Intact chatHandlers t)
      ∧ ¬ ∀ as t, play ftpServer ftpServer.init as = some t → Intact ftpHandlers t := by
  constructor
  · intro h
    obtain ⟨p, hp, -⟩ := (h [(4, chatMessage .LS)] _ rfl).called (2, none) (by decide)
    exact nomatch hp
  · intro h
    obtain ⟨p, hp, -⟩ := (h [(4, ftpMessage .LS)] _ rfl).called (2, none) (by decide)
    exact nomatch hp

end HandlerTable
