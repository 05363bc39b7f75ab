import AipPkussm.FtpHandlersProofs
import AipPkussm.InterleaveProofs
import AipPkussm.TransitionProofs

/-! # A session of the file server

    One connection, the client at its prompt and the server in `clithread`, each
    taking its next `send` or `recv` whenever it can.  A client that has sent a
    file does not wait for the server, so several PUTs may be on their way.

    Commands are numbered, and every byte on its way carries the number of the
    command it belongs to.  `InStep` says what a session is to satisfy; the
    account of its bytes, and the proof, are in the next file.  What that needs
    of a step is `rule_of_sessionStep`. -/

namespace FtpSession

open LittleEndian FtpMessage FtpTransfer FtpHandlers Interleave Transition
open ChatReceive (socketioBufferSize)

/-- Where the client is: at its prompt, between two sends of `comm_put`, in the `recv`
    of a response, or between two calls that receive a file. -/
inductive ClientPlace where
  | prompt
  | sending (n : Nat) (blocks : List (List Byte))
  | awaiting (n : Nat)
  | receiving (n : Nat) (respMsg : Message) (calls : List Call) (filebuf : List Byte)
  | dead
  deriving DecidableEq

/-- Where the server is: in the `recv` of a header, between two calls of `put_handler`,
    or between two sends of a handler that will return `ret`. -/
inductive ServerPlace where
  | header
  | receiving (n : Nat) (calls : List Call) (buff : List Byte)
  | sending (n : Nat) (blocks : List (List Byte)) (ret : Int)
  | dead
  deriving DecidableEq

/-- Both parties, both directions, how many commands were typed, how many headers
    `clithread` has read and how many commands each side is done with; and as history
    the headers sent and the headers read. -/
structure Session where
  client : ClientPlace
  server : ServerPlace
  up : Channel
  down : Channel
  issued : Nat
  served : Nat
  clientDone : Nat
  serverDone : Nat
  sent : List Channel
  read : List Channel

/-- What can happen. -/
inductive SessionAct where
  /-- `put` is typed, and `comm_put` sends its header -/
  | put (disk : Disk) (mem : Memory) (name : List Byte)
  /-- `get` is typed, and `comm_get` sends its request -/
  | get (mem : Memory) (name : List Byte)
  /-- `comm_put` makes its next `send`, or returns -/
  | clientSend
  /-- `comm_get` makes its next `recv`, or writes the file and returns -/
  | clientRecv (disk : Disk) (mem : Memory)
  /-- the server makes its next `recv`, or `put_handler` returns -/
  | serverRecv (disk : Disk) (mem : Memory)
  /-- a handler makes its next `send`, or returns -/
  | serverSend

/-- The header that was received. -/
def headerOf (mem : Memory) (got : Channel) : Message :=
  decode (overlay messageLen (got.map Prod.snd) mem.stack)

/-- `comm_get` once it has its response.  For a negative size `malloc` returns NULL, the one
    `recv`, for a place before it, fails, and the program exits. -/
def startReceiving (mem : Memory) (n : Nat) (respMsg : Message) : ClientPlace :=
  if respMsg.size < 0 then .dead
  else .receiving n respMsg (recvCalls respMsg.size (respMsg.size.tmod socketioBufferSize))
    (malloc mem respMsg.size.toNat)

/-- A handler that has sends to make. -/
def startSending (n : Nat) : Except Stop Handled → ServerPlace
  | .ok h => .sending n h.sends h.ret
  | .error _ => .dead

/-- `put_handler` up to its first `recv`, which fails for a negative size. -/
def startPut (disk : Disk) (mem : Memory) (n : Nat) (msg : Message) : ServerPlace :=
  match fnameString msg with
  | none => .dead
  | some name =>
      if disk.creates name then
        if msg.size < 0 then .sending n [] (-1)
        else .receiving n (recvCalls msg.size (mem.old.size.tmod socketioBufferSize))
          (malloc mem msg.size.toNat)
      else startSending n (refuse mem "Create file error" ⟨[], .pending⟩)

/-- `handle_msg` for the header number `n`. -/
def startHandler (disk : Disk) (mem : Memory) (n : Nat) (msg : Message) : ServerPlace :=
  if msg.command = Command.GET.code then
    startSending n (getHandler disk mem msg ⟨[], .pending⟩)
  else if msg.command = Command.PUT.code then startPut disk mem n msg
  else .dead

/-- The end of `comm_get`: the file is opened and written. -/
def finishGet (disk : Disk) (respMsg : Message) : Bool :=
  match fnameString respMsg with
  | none => false
  | some name => disk.creates name

/-- One step. -/
def sessionStep (s : Session) : SessionAct → Option Session
  | .put disk mem name =>
      match s.client with
      | .prompt =>
          match commPut disk mem name with
          | .ok (hdr :: blocks) =>
              some { s with
                client := .sending s.issued blocks
                up := s.up ++ tag s.issued hdr
                issued := s.issued + 1
                sent := s.sent ++ [tag s.issued hdr] }
          | _ => some { s with client := .dead }
      | _ => none
  | .get mem name =>
      match s.client with
      | .prompt =>
          match getRequest mem name with
          | some msg =>
              some { s with
                client := .awaiting s.issued
                up := s.up ++ tag s.issued (encode msg)
                issued := s.issued + 1
                sent := s.sent ++ [tag s.issued (encode msg)] }
          | none => some { s with client := .dead }
      | _ => none
  | .clientSend =>
      match s.client with
      | .sending n (buff :: rest) =>
          some { s with client := .sending n rest, up := s.up ++ tag n buff }
      | .sending n [] => some { s with client := .prompt, clientDone := n + 1 }
      | _ => none
  | .clientRecv disk mem =>
      match s.client with
      | .awaiting n =>
          (recvFrom s.down messageLen).map (fun r =>
            { s with client := startReceiving mem n (headerOf mem r.1), down := r.2 })
      | .receiving n respMsg (c :: cs) filebuf =>
          (recvFrom s.down c.len).map (fun r =>
            match place c.off (r.1.map Prod.snd) filebuf with
            | .ok filebuf' =>
                { s with client := .receiving n respMsg cs filebuf', down := r.2 }
            | .error _ => { s with client := .dead, down := r.2 })
      | .receiving n respMsg [] _ =>
          if finishGet disk respMsg then some { s with client := .prompt, clientDone := n + 1 }
          else some { s with client := .dead }
      | _ => none
  | .serverRecv disk mem =>
      match s.server with
      | .header =>
          (recvFrom s.up messageLen).map (fun r =>
            { s with
              server := startHandler disk mem s.served (headerOf mem r.1)
              up := r.2
              served := s.served + 1
              read := s.read ++ [r.1] })
      | .receiving n (c :: cs) buff =>
          (recvFrom s.up c.len).map (fun r =>
            match place c.off (r.1.map Prod.snd) buff with
            | .ok buff' => { s with server := .receiving n cs buff', up := r.2 }
            | .error _ => { s with server := .dead, up := r.2 })
      | .receiving n [] _ => some { s with server := .header, serverDone := n + 1 }
      | _ => none
  | .serverSend =>
      match s.server with
      | .sending n (buff :: rest) ret =>
          some { s with server := .sending n rest ret, down := s.down ++ tag n buff }
      | .sending n [] ret =>
          some { s with
            server := if ret = -1 then .dead else .header
            serverDone := n + 1 }
      | _ => none

/-- A fresh connection. -/
def sessionInit : Session where
  client := .prompt
  server := .header
  up := []
  down := []
  issued := 0
  served := 0
  clientDone := 0
  serverDone := 0
  sent := []
  read := []

/-- The session. -/
def session : Machine Session SessionAct where
  init := sessionInit
  step := sessionStep

/-- A name that can be typed for a file. -/
structure IsName (name : List Byte) : Prop where
  nonempty : name ≠ []
  fits : name.length < maxFileNameLen
  string : IsString name

/-- The header that `clithread` is about to read. -/
def incoming (s : Session) : Option Message :=
  match s.server with
  | .header =>
      if messageLen ≤ s.up.length then some (decode ((s.up.take messageLen).map Prod.snd))
      else none
  | _ => none

/-- All file operations succeed, on files of less than 2^31 bytes. -/
def succeeds (s : Session) : SessionAct → Prop
  | .put disk _ name => IsName name ∧ ∃ file, disk.opens name = some file ∧ file.length < 2 ^ 31
  | .get _ name => IsName name
  | .clientRecv disk _ => ∀ name, name ≠ [] → disk.creates name = true
  | .serverRecv disk _ =>
      (∀ name, name ≠ [] → disk.creates name = true)
        ∧ ∀ msg name, incoming s = some msg → msg.command = Command.GET.code →
            fnameString msg = some name →
            ∃ file, disk.opens name = some file ∧ file.length < 2 ^ 31
  | _ => True

/-- A PUT finds in the stale `resp_msg` a size with the remainder of the size in its
    header, and no file of less than a chunk is transferred unless it is empty. -/
def steady (s : Session) : SessionAct → Prop
  | .serverRecv disk mem =>
      ∀ msg, incoming s = some msg →
        (msg.command = Command.PUT.code →
          mem.old.size.tmod socketioBufferSize = msg.size.tmod socketioBufferSize
            ∧ (msg.size < socketioBufferSize → msg.size = 0))
        ∧ (msg.command = Command.GET.code → ∀ name file, fnameString msg = some name →
            disk.opens name = some file → file.length < socketioBufferSize → file = [])
  | _ => True

/-- The session is in step: the headers read are the first of those sent, and no byte of
    a command that is done on both sides is on its way. -/
structure InStep (s : Session) : Prop where
  headers : s.read <+: s.sent
  unread : ∀ n, n < s.clientDone → n < s.serverDone → ∀ x ∈ s.up ++ s.down, x.1 ≠ n

/-! ## What a step can do -/

/-- The rules of the step function. -/
inductive SessionStep (s : Session) : SessionAct → Session → Prop where
  | put {disk : Disk} {mem : Memory} {name hdr : List Byte} {blocks : List (List Byte)}
      (hc : s.client = .prompt) (hput : commPut disk mem name = .ok (hdr :: blocks)) :
      SessionStep s (.put disk mem name)
        { s with
          client := .sending s.issued blocks
          up := s.up ++ tag s.issued hdr
          issued := s.issued + 1
          sent := s.sent ++ [tag s.issued hdr] }
  | putStops {disk : Disk} {mem : Memory} {name : List Byte} (hc : s.client = .prompt)
      (hstops : ∀ hdr blocks, commPut disk mem name ≠ .ok (hdr :: blocks)) :
      SessionStep s (.put disk mem name) { s with client := .dead }
  | get {mem : Memory} {name : List Byte} {msg : Message} (hc : s.client = .prompt)
      (hmsg : getRequest mem name = some msg) :
      SessionStep s (.get mem name)
        { s with
          client := .awaiting s.issued
          up := s.up ++ tag s.issued (encode msg)
          issued := s.issued + 1
          sent := s.sent ++ [tag s.issued (encode msg)] }
  | getStops {mem : Memory} {name : List Byte} (hc : s.client = .prompt)
      (hnone : getRequest mem name = none) :
      SessionStep s (.get mem name) { s with client := .dead }
  | clientSend {n : Nat} {buff : List Byte} {rest : List (List Byte)}
      (hc : s.client = .sending n (buff :: rest)) :
      SessionStep s .clientSend { s with client := .sending n rest, up := s.up ++ tag n buff }
  | putDone {n : Nat} (hc : s.client = .sending n []) :
      SessionStep s .clientSend { s with client := .prompt, clientDone := n + 1 }
  | respond {disk : Disk} {mem : Memory} {n : Nat} {r : Channel × Channel}
      (hc : s.client = .awaiting n) (hr : recvFrom s.down messageLen = some r) :
      SessionStep s (.clientRecv disk mem)
        { s with client := startReceiving mem n (headerOf mem r.1), down := r.2 }
  | clientChunk {disk : Disk} {mem : Memory} {n : Nat} {respMsg : Message} {c : Call}
      {cs : List Call} {filebuf filebuf' : List Byte} {r : Channel × Channel}
      (hc : s.client = .receiving n respMsg (c :: cs) filebuf)
      (hr : recvFrom s.down c.len = some r)
      (hplace : place c.off (r.1.map Prod.snd) filebuf = .ok filebuf') :
      SessionStep s (.clientRecv disk mem)
        { s with client := .receiving n respMsg cs filebuf', down := r.2 }
  | clientFaults {disk : Disk} {mem : Memory} {n : Nat} {respMsg : Message} {c : Call}
      {cs : List Call} {filebuf : List Byte} {r : Channel × Channel} {stop : Stop}
      (hc : s.client = .receiving n respMsg (c :: cs) filebuf)
      (hr : recvFrom s.down c.len = some r)
      (hplace : place c.off (r.1.map Prod.snd) filebuf = .error stop) :
      SessionStep s (.clientRecv disk mem) { s with client := .dead, down := r.2 }
  | getDone {disk : Disk} {mem : Memory} {n : Nat} {respMsg : Message} {filebuf : List Byte}
      (hc : s.client = .receiving n respMsg [] filebuf)
      (hfinish : finishGet disk respMsg = true) :
      SessionStep s (.clientRecv disk mem) { s with client := .prompt, clientDone := n + 1 }
  | getFaults {disk : Disk} {mem : Memory} {n : Nat} {respMsg : Message}
      {filebuf : List Byte} (hc : s.client = .receiving n respMsg [] filebuf)
      (hfinish : ¬ finishGet disk respMsg = true) :
      SessionStep s (.clientRecv disk mem) { s with client := .dead }
  | header {disk : Disk} {mem : Memory} {r : Channel × Channel} (hs : s.server = .header)
      (hr : recvFrom s.up messageLen = some r) :
      SessionStep s (.serverRecv disk mem)
        { s with
          server := startHandler disk mem s.served (headerOf mem r.1)
          up := r.2
          served := s.served + 1
          read := s.read ++ [r.1] }
  | serverChunk {disk : Disk} {mem : Memory} {n : Nat} {c : Call} {cs : List Call}
      {buff buff' : List Byte} {r : Channel × Channel}
      (hs : s.server = .receiving n (c :: cs) buff) (hr : recvFrom s.up c.len = some r)
      (hplace : place c.off (r.1.map Prod.snd) buff = .ok buff') :
      SessionStep s (.serverRecv disk mem)
        { s with server := .receiving n cs buff', up := r.2 }
  | serverFaults {disk : Disk} {mem : Memory} {n : Nat} {c : Call} {cs : List Call}
      {buff : List Byte} {r : Channel × Channel} {stop : Stop}
      (hs : s.server = .receiving n (c :: cs) buff) (hr : recvFrom s.up c.len = some r)
      (hplace : place c.off (r.1.map Prod.snd) buff = .error stop) :
      SessionStep s (.serverRecv disk mem) { s with server := .dead, up := r.2 }
  | stored {disk : Disk} {mem : Memory} {n : Nat} {buff : List Byte}
      (hs : s.server = .receiving n [] buff) :
      SessionStep s (.serverRecv disk mem) { s with server := .header, serverDone := n + 1 }
  | serverSend {n : Nat} {buff : List Byte} {rest : List (List Byte)} {ret : Int}
      (hs : s.server = .sending n (buff :: rest) ret) :
      SessionStep s .serverSend
        { s with server := .sending n rest ret, down := s.down ++ tag n buff }
  | serverReturn {n : Nat} {ret : Int} (hs : s.server = .sending n [] ret) :
      SessionStep s .serverSend
        { s with
          server := if ret = -1 then .dead else .header
          serverDone := n + 1 }

section Inversion

variable {s s' : Session} {disk : Disk} {mem : Memory} {name : List Byte}

/-- The rules of a PUT that is typed. -/
theorem rule_of_put (h : sessionStep s (.put disk mem name) = some s') :
    SessionStep s (.put disk mem name) s' := by
  rw [sessionStep] at h
  split at h
  · rename_i hc
    split at h
    · rename_i hdr blocks hput
      obtain rfl := Option.some.inj h
      exact SessionStep.put hc hput
    · rename_i hstops
      obtain rfl := Option.some.inj h
      exact SessionStep.putStops hc hstops
  · exact nomatch h

theorem rule_of_get (h : sessionStep s (.get mem name) = some s') :
    SessionStep s (.get mem name) s' := by
  rw [sessionStep] at h
  split at h
  · rename_i hc
    split at h
    · rename_i msg hmsg
      obtain rfl := Option.some.inj h
      exact SessionStep.get hc hmsg
    · rename_i hnone
      obtain rfl := Option.some.inj h
      exact SessionStep.getStops hc hnone
  · exact nomatch h

/-- The rules of a `send` of the client. -/
theorem rule_of_clientSend (h : sessionStep s .clientSend = some s') :
    SessionStep s .clientSend s' := by
  rw [sessionStep] at h
  split at h
  · rename_i n buff rest hc
    obtain rfl := Option.some.inj h
    exact SessionStep.clientSend hc
  · rename_i n hc
    obtain rfl := Option.some.inj h
    exact SessionStep.putDone hc
  · exact nomatch h

theorem rule_of_serverSend (h : sessionStep s .serverSend = some s') :
    SessionStep s .serverSend s' := by
  rw [sessionStep] at h
  split at h
  · rename_i n buff rest ret hs
    obtain rfl := Option.some.inj h
    exact SessionStep.serverSend hs
  · rename_i n ret hs
    obtain rfl := Option.some.inj h
    exact SessionStep.serverReturn hs
  · exact nomatch h

/-- The rules of a `recv` of the client. -/
theorem rule_of_clientRecv (h : sessionStep s (.clientRecv disk mem) = some s') :
    SessionStep s (.clientRecv disk mem) s' := by
  rw [sessionStep] at h
  split at h
  · rename_i n hc
    obtain ⟨r, hr, rfl⟩ := Option.map_eq_some_iff.mp h
    exact SessionStep.respond hc hr
  · rename_i n respMsg c cs filebuf hc
    obtain ⟨r, hr, rfl⟩ := Option.map_eq_some_iff.mp h
    cases hplace : place c.off (r.1.map Prod.snd) filebuf with
    | ok filebuf' => exact SessionStep.clientChunk hc hr hplace
    | error stop => exact SessionStep.clientFaults hc hr hplace
  · rename_i n respMsg filebuf hc
    split at h
    · rename_i hfinish
      obtain rfl := Option.some.inj h
      exact SessionStep.getDone hc hfinish
    · rename_i hfinish
      obtain rfl := Option.some.inj h
      exact SessionStep.getFaults hc hfinish
  · exact nomatch h

theorem rule_of_serverRecv (h : sessionStep s (.serverRecv disk mem) = some s') :
    SessionStep s (.serverRecv disk mem) s' := by
  rw [sessionStep] at h
  split at h
  · rename_i hs
    obtain ⟨r, hr, rfl⟩ := Option.map_eq_some_iff.mp h
    exact SessionStep.header hs hr
  · rename_i n c cs buff hs
    obtain ⟨r, hr, rfl⟩ := Option.map_eq_some_iff.mp h
    cases hplace : place c.off (r.1.map Prod.snd) buff with
    | ok buff' => exact SessionStep.serverChunk hs hr hplace
    | error stop => exact SessionStep.serverFaults hs hr hplace
  · rename_i n buff hs
    obtain rfl := Option.some.inj h
    exact SessionStep.stored hs
  · exact nomatch h

/-- **STEP INVERSION**: a step is an instance of a rule. -/
theorem rule_of_sessionStep {a : SessionAct} (h : sessionStep s a = some s') :
    SessionStep s a s' := by
  cases a with
  | put disk mem name => exact rule_of_put h
  | get mem name => exact rule_of_get h
  | clientSend => exact rule_of_clientSend h
  | clientRecv disk mem => exact rule_of_clientRecv h
  | serverRecv disk mem => exact rule_of_serverRecv h
  | serverSend => exact rule_of_serverSend h

end Inversion

end FtpSession
