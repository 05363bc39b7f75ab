import AipPkussm.FtpHandlersProofs

/-! # PUT and GET, from end to end

    One command on a fresh connection, with both programs and nothing lost.

    * `put_iff`: the server stores the client's file exactly when the stale
      `resp_msg` of `put_handler` makes it ask for no more than was sent, and
      the tail of the file was in its fresh block already.
    * `get_iff`: likewise for `comm_get`.
    * `failedGet_unhandled`: no failed GET is ever recognised. -/

namespace FtpRoundTrip

open LittleEndian FtpMessage FtpTransfer FtpHandlers
open ChatReceive (socketioBufferSize)
open ChatGet (dataSends)

/-- One machine and one call on it. -/
structure Party where
  disk : Disk
  mem : Memory

/-- `comm_put` on the client, and the round of `clithread` that takes what it sent. -/
def putExchange (client server : Party) (name : List Byte) : Except Stop (Option Handled) :=
  match commPut client.disk client.mem name with
  | .error e => .error e
  | .ok sends => clithread server.disk server.mem ⟨sends.flatten, .pending⟩

/-- The server has stored a file under a name. -/
def Stores (r : Except Stop (Option Handled)) (name file : List Byte) : Prop :=
  ∃ h, r = .ok (some h) ∧ h.stored = some (name, file)

/-- What comes back for a request: the response, and the end of the connection where
    the handler returned -1. -/
def response (server : Party) (msg : Message) : Link :=
  match clithread server.disk server.mem ⟨encode msg, .pending⟩ with
  | .ok (some h) => ⟨h.sends.flatten, if h.ret = -1 then .closed else .pending⟩
  | .ok none => ⟨[], .closed⟩
  | .error _ => ⟨[], .reset⟩

/-- `comm_get` on the client, answered by the server.  A name that runs past the
    struct is a fault. -/
def getExchange (client server : Party) (name : List Byte) : GetRun :=
  match getRequest client.mem name with
  | none => { asks := 0, ending := .stopped .fault }
  | some msg => commGet client.disk client.mem (response server msg)

/-- `comm_get` has received a file and reported it. -/
def Receives (r : GetRun) (name file : List Byte) : Prop :=
  r.ending = .returned true (some (name, file))

/-! ## PUT -/

/-- A remainder that asks for at most `n` bytes. -/
theorem remBytes_le_iff (j : Int) {n : Nat} (hn : n < socketioBufferSize) :
    remBytes j ≤ n ↔ 0 ≤ j.tmod socketioBufferSize ∧ j.tmod socketioBufferSize ≤ n := by
  rcases remBytes_cases j with ⟨hpos, heq⟩ | ⟨hneg, hbig⟩
  · omega
  · omega

/-- A remainder that asks for nothing. -/
theorem remBytes_eq_zero_iff (j : Int) :
    remBytes j = 0 ↔ j.tmod socketioBufferSize = 0 := by
  rcases remBytes_cases j with ⟨hpos, heq⟩ | ⟨hneg, hbig⟩
  · omega
  · have hbuf : socketioBufferSize = 512 := rfl
    omega

/-- Fewer bytes than a chunk. -/
theorem chunks_eq_zero_iff (file : List Byte) :
    chunks file = 0 ↔ file.length < socketioBufferSize :=
  Nat.div_eq_zero_iff_lt (by decide)

/-- **PUT, EXACTLY**: the file that the server stores is the client's if and only if
    the stale remainder of `put_handler` is not negative, not more than the remainder
    of the file, and 0 for a file of less than a chunk, and the tail of the file is in
    the server's block before anything is received. -/
theorem put_iff (client server : Party) (name file : List Byte)
    (hopens : client.disk.opens name = some file)
    (hcreates : server.disk.creates name = true)
    (hlen : name.length < maxFileNameLen) (hstr : IsString name)
    (hsize : file.length < 2 ^ 31) :
    Stores (putExchange client server name) name file
      ↔ 0 ≤ server.mem.old.size.tmod socketioBufferSize
        ∧ server.mem.old.size.tmod socketioBufferSize ≤ remainder file
        ∧ (file.length < socketioBufferSize →
            server.mem.old.size.tmod socketioBufferSize = 0)
        ∧ HoldsTail (fun k : Nat => server.mem.heap k) file := by
  have hrem : remainder file < socketioBufferSize := Nat.mod_lt _ (by decide)
  obtain ⟨msg, hname, hcommand, hdata, hput⟩ :=
    commPut_sends client.mem hopens hlen hstr
  have hrun : putExchange client server name
      = (putHandler server.disk server.mem msg
          ⟨(dataSends client.mem.heap file file.length).flatten, .pending⟩).map some := by
    rw [putExchange, hput]
    simp only [List.flatten_cons]
    rw [clithread_header, handleMsg_put _ _ _ hcommand]
  rw [hrun, putHandler_sent server.mem client.mem.heap hname hcreates hsize hdata,
    ← and_assoc, ← remBytes_le_iff _ hrem, ← remBytes_eq_zero_iff, ← chunks_eq_zero_iff,
    ← received_eq_iff]
  by_cases hwait : remainder file < remBytes server.mem.old.size
  · -- `put_handler` waits for bytes that are never sent
    rw [if_pos hwait]
    refine iff_of_false ?_ (fun h => absurd h.1 (Nat.not_le.mpr hwait))
    rintro ⟨h, hok, -⟩
    exact nomatch hok
  · rw [if_neg hwait]
    by_cases hfault : chunks file = 0 ∧ remBytes server.mem.old.size ≠ 0
    · -- without a chunk, the remainder goes before the block
      rw [if_pos hfault]
      refine iff_of_false ?_ (fun h => hfault.2 (h.2.1 hfault.1))
      rintro ⟨h, hok, -⟩
      exact nomatch hok
    · rw [if_neg hfault]
      -- what is left to compare is the tail
      constructor
      · rintro ⟨h, hok, hstored⟩
        obtain rfl := Option.some.inj (Except.ok.inj hok)
        refine ⟨Nat.not_lt.mp hwait, ?_, (Prod.mk.inj (Option.some.inj hstored)).2⟩
        exact fun hq => Classical.not_not.mp (fun hne => hfault ⟨hq, hne⟩)
      · rintro ⟨-, -, htail⟩
        exact ⟨_, rfl, congrArg (fun l => some (name, l)) htail⟩

/-- A machine that has no file but the one under `name`, and zeros in its memory. -/
def party (name file : List Byte) : Party where
  disk :=
    { opens := fun n => if n = [] then none else if n = name then some file else none
      creates := fun n => n ≠ []
      opens_nil := rfl
      creates_nil := creates_nil_of_named }
  mem :=
    { stack := fun _ => 0
      old :=
        { command := 0
          fname := List.replicate 32 0
          dataSize := 0
          fname_length := length_blankFname }
      heap := fun _ => 0 }

theorem put_iff_letters :
    Stores (putExchange (party [102] [97, 98, 99]) (party [] []) [102]) [102] [97, 98, 99]
      ↔ 0 ≤ (party [] []).mem.old.size.tmod socketioBufferSize
        ∧ (party [] []).mem.old.size.tmod socketioBufferSize ≤ remainder [97, 98, 99]
        ∧ (([97, 98, 99] : List Byte).length < socketioBufferSize →
            (party [] []).mem.old.size.tmod socketioBufferSize = 0)
        ∧ HoldsTail (fun k : Nat => (party [] []).mem.heap k) [97, 98, 99] :=
  put_iff (party [102] [97, 98, 99]) (party [] []) [102] [97, 98, 99]
    rfl rfl (by decide) (by rw [IsString]; decide) (by decide)

/-- **A LOST FILE**: of three letters nothing arrives, and the server stores what was in
    its block. -/
theorem put_loses_letters :
    ¬ ∀ (client server : Party) (name file : List Byte),
      client.disk.opens name = some file → server.disk.creates name = true →
      name.length < maxFileNameLen → IsString name → file.length < 2 ^ 31 →
      Stores (putExchange client server name) name file := by
  intro h
  obtain ⟨run, hok, hstored⟩ := h (party [102] [97, 98, 99]) (party [] []) [102] [97, 98, 99]
    rfl rfl (by decide) (by rw [IsString]; decide) (by decide)
  obtain rfl := Option.some.inj (Except.ok.inj hok)
  exact absurd hstored (by decide)

/-! ## GET -/

/-- The server takes a GET. -/
theorem clithread_get (server : Party) {msg : Message}
    (hcommand : msg.command = Command.GET.code) :
    clithread server.disk server.mem ⟨encode msg, .pending⟩
      = (getHandler server.disk server.mem msg ⟨[], .pending⟩).map some := by
  have hround := clithread_header server.disk server.mem msg [] .pending
  rwa [List.append_nil, handleMsg_get _ _ _ hcommand] at hround

/-- The response to a request for a file that the server has. -/
theorem response_eq (server : Party) {msg : Message} {name file : List Byte}
    (hcommand : msg.command = Command.GET.code) (hname : fnameString msg = some name)
    (hlen : name.length < maxFileNameLen) (hstr : IsString name)
    (hopens : server.disk.opens name = some file) (hsize : file.length < 2 ^ 31) :
    ∃ respMsg, fnameString respMsg = some name
      ∧ respMsg.dataSize = BitVec.ofNat 32 file.length
      ∧ response server msg = ⟨encode respMsg
          ++ (dataSends server.mem.heap file file.length).flatten, .pending⟩ := by
  obtain ⟨respMsg, hback, hdata, hget⟩ :=
    getHandler_sends server.mem ⟨[], .pending⟩ hname hopens hlen hstr hsize
  refine ⟨respMsg, hback, hdata, ?_⟩
  rw [response, clithread_get server hcommand, hget]
  rfl

/-- **GET, EXACTLY**: the file that `comm_get` writes is the server's if and only if it
    is empty or has at least a chunk, and its tail is in the client's block before
    anything is received. -/
theorem get_iff (client server : Party) (name file : List Byte)
    (hopens : server.disk.opens name = some file)
    (hcreates : client.disk.creates name = true)
    (hlen : name.length < maxFileNameLen) (hstr : IsString name)
    (hsize : file.length < 2 ^ 31) :
    Receives (getExchange client server name) name file
      ↔ (file.length < socketioBufferSize → file = [])
        ∧ HoldsTail (fun k : Nat => client.mem.heap k) file := by
  obtain ⟨msg, hmsg⟩ := fill_eq_some client.mem.old .GET 0 hlen
  obtain ⟨hname, hcommand, -⟩ := fnameString_fill hlen hstr hmsg
  obtain ⟨respMsg, hback, hdata, hresp⟩ :=
    response_eq server hcommand hname hlen hstr hopens hsize
  have hrun : getExchange client server name
      = commGet client.disk client.mem (response server msg) := by
    rw [getExchange, getRequest, hmsg]
  have hempty : chunks file = 0 → (remainder file = 0 ↔ file = []) := by
    intro hq
    have htotal := chunksLen_add_remainder file
    rw [chunksLen, hq, Nat.zero_mul, Nat.zero_add] at htotal
    rw [htotal, List.length_eq_zero_iff]
  rw [Receives, hrun, hresp, commGet_sent client.mem server.mem.heap hback hcreates hsize hdata,
    ← chunks_eq_zero_iff, ← received_eq_iff]
  by_cases hfault : chunks file = 0 ∧ remainder file ≠ 0
  · rw [if_pos hfault]
    refine iff_of_false ?_ ?_
    · intro h
      cases h
    · intro h
      exact hfault.2 ((hempty hfault.1).mpr (h.1 hfault.1))
  · rw [if_neg hfault]
    constructor
    · intro h
      obtain ⟨-, hstored⟩ := GetEnd.returned.inj h
      refine ⟨fun hq => (hempty hq).mp ?_, (Prod.mk.inj (Option.some.inj hstored)).2⟩
      exact Classical.not_not.mp (fun hne => hfault ⟨hq, hne⟩)
    · rintro ⟨-, htail⟩
      exact congrArg (fun l => GetEnd.returned true (some (name, l))) htail

theorem get_iff_letters :
    Receives (getExchange (party [] []) (party [102] [97, 98, 99]) [102]) [102] [97, 98, 99]
      ↔ (([97, 98, 99] : List Byte).length < socketioBufferSize →
            ([97, 98, 99] : List Byte) = [])
        ∧ HoldsTail (fun k : Nat => (party [] []).mem.heap k) [97, 98, 99] :=
  get_iff (party [] []) (party [102] [97, 98, 99]) [102] [97, 98, 99]
    rfl rfl (by decide) (by rw [IsString]; decide) (by decide)

/-- **OUT OF THE BLOCK**: three letters are received 512 bytes before the block that is
    there for them. -/
theorem get_misplaces_letters :
    ¬ ∀ (client server : Party) (name file : List Byte),
      server.disk.opens name = some file → client.disk.creates name = true →
      name.length < maxFileNameLen → IsString name → file.length < 2 ^ 31 →
      Receives (getExchange client server name) name file := by
  intro h
  have hrun := h (party [] []) (party [102] [97, 98, 99]) [102] [97, 98, 99]
    rfl rfl (by decide) (by rw [IsString]; decide) (by decide)
  exact absurd hrun (by rw [Receives]; decide)

/-! ## A GET that fails -/

/-- The name that a request of `comm_get` asks for. -/
def requestedName (mem : Memory) (name : List Byte) : Option (List Byte) :=
  (getRequest mem name).bind fnameString

/-- For a name that fits its field, the name itself. -/
theorem requestedName_eq (mem : Memory) {name : List Byte} (hlen : name.length < maxFileNameLen)
    (hstr : IsString name) : requestedName mem name = some name := by
  obtain ⟨msg, hmsg⟩ := fill_eq_some mem.old .GET 0 hlen
  obtain ⟨hname, -⟩ := fnameString_fill hlen hstr hmsg
  rw [requestedName, getRequest, hmsg]
  exact hname

/-- How many bytes the server sends after the header of its response. -/
def dataSent (client server : Party) (name : List Byte) : Nat :=
  match getRequest client.mem name with
  | none => 0
  | some msg => (response server msg).input.length - messageLen

/-- What the error protocol is for: the client asks for no data that was not sent, stays
    inside its memory, and returns without a report and without a file. -/
structure FailureHandled (sent : Nat) (r : GetRun) : Prop where
  reads : r.asks ≤ sent
  inside : r.ending ≠ .stopped .fault
  returns : r.ending = .returned false none

/-- The response to a request for a file that cannot be opened. -/
theorem response_refused (server : Party) {msg : Message} {name : List Byte}
    (hcommand : msg.command = Command.GET.code) (hname : fnameString msg = some name)
    (hopens : server.disk.opens name = none) :
    ∃ respMsg, fnameString respMsg = some [] ∧ respMsg.size = 16
      ∧ response server msg = ⟨encode respMsg ++ [], .closed⟩ := by
  have hfit : ([] : List Byte).length < maxFileNameLen := by decide
  obtain ⟨respMsg, hresp⟩ := fill_eq_some server.mem.old .ERROR
    (BitVec.ofNat 32 ("Open file error".length + 1)) hfit
  obtain ⟨hback, -, hdata⟩ := fnameString_fill hfit (fun _ h => nomatch h) hresp
  have hget : getHandler server.disk server.mem msg ⟨[], .pending⟩
      = .ok { ret := -1, sends := [encode respMsg], stored := none
              link := ⟨[], .pending⟩ } := by
    rw [getHandler, hname]
    simp only [hopens, refuse, hresp]
  refine ⟨respMsg, hback, ?_, ?_⟩
  · rw [Message.size, hdata]
    decide
  · rw [response, clithread_get server hcommand, hget]
    rfl

/-- **WHAT HAPPENS**: `comm_get` takes the error for a file of 16 bytes, asks for these,
    and writes them through a null pointer. -/
theorem commGet_refused (client : Party) {respMsg : Message}
    (hname : fnameString respMsg = some []) (hsize : respMsg.size = 16) :
    commGet client.disk client.mem ⟨encode respMsg ++ [], .closed⟩
      = { asks := 16, ending := .stopped .fault } := by
  have hcalls : recvCalls 16 ((16 : Int).tmod socketioBufferSize)
      = [⟨ChatGet.lastOffset 0, 16⟩] := by
    decide
  have hrecv : recv (⟨[], .closed⟩ : Link) 16 = .ok ([], ⟨[], .closed⟩) := rfl
  rw [commGet, recv_header]
  simp only [decode_overlay, hsize, hcalls]
  rw [if_neg (by decide), recvAll_cons hrecv (if_pos rfl), recvAll]
  simp only [hname, client.disk.creates_nil]
  rfl

/-- **NEVER**: no failed GET is recognised, whatever the name and the memory. -/
theorem failedGet_unhandled (client server : Party) (name : List Byte)
    (hfails : ∀ s, requestedName client.mem name = some s → server.disk.opens s = none) :
    ¬ FailureHandled (dataSent client server name) (getExchange client server name) := by
  intro h
  cases hmsg : getRequest client.mem name with
  | none =>
      -- the name does not fit the request
      refine h.inside ?_
      rw [getExchange, hmsg]
  | some msg =>
      have hrun : getExchange client server name
          = commGet client.disk client.mem (response server msg) := by
        rw [getExchange, hmsg]
      obtain ⟨copy, -, hfill⟩ := Option.map_eq_some_iff.mp hmsg
      have hcommand : msg.command = Command.GET.code := by rw [← hfill]
      cases hname : fnameString msg with
      | none =>
          -- the server fails on the request
          have hresp : response server msg = ⟨[], .reset⟩ := by
            rw [response, clithread_get server hcommand, getHandler, hname]
            rfl
          have hends := h.returns
          rw [hrun, hresp] at hends
          cases hends
      | some s =>
          have hreq : requestedName client.mem name = some s := by
            rw [requestedName, hmsg]
            exact hname
          obtain ⟨respMsg, hback, hsize, hresp⟩ :=
            response_refused server hcommand hname (hfails s hreq)
          refine h.inside ?_
          rw [hrun, hresp, commGet_refused client hback hsize]

theorem failedGet_letter :
    ¬ FailureHandled (dataSent (party [] []) (party [] []) [102])
        (getExchange (party [] []) (party [] []) [102]) :=
  failedGet_unhandled (party [] []) (party [] []) [102] (by
    intro s hs
    obtain rfl := Option.some.inj hs
    rfl)

/-- **SIXTEEN BYTES**: for a file that does not exist, `comm_get` asks for 16 bytes that
    are never sent. -/
theorem failedGet_asks :
    ¬ ∀ (client server : Party) (name : List Byte),
      (∀ s, requestedName client.mem name = some s → server.disk.opens s = none) →
      FailureHandled (dataSent client server name) (getExchange client server name) := by
  intro h
  have hhandled := h (party [] []) (party [] []) [102] (by
    intro s hs
    obtain rfl := Option.some.inj hs
    rfl)
  exact absurd hhandled.reads (by decide)

end FtpRoundTrip
