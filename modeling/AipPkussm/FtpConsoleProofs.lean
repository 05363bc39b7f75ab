import AipPkussm.ChatConsoleProofs
import AipPkussm.FtpRoundTripProofs

/-! # From the keyboard to the disk of the file server

    `console` of `FileClient.cc` reads a command word and a file name with `cin >>`
    and calls `comm_put` or `comm_get`.  Where the input ends without `quit` it makes
    its last call over and over (`console_over`).

    What the calls of `comm_put` send goes to `clithread`, which reads until the client
    has left and closed the connection.  Files of whole chunks are stored one after
    another as they are, exactly when the `resp_msg` that `put_handler` never fills
    holds a size without a remainder in every round of `clithread` but the last
    (`session_copies_iff`).  A remainder in another round takes bytes of the next
    command and writes them over the file; in the last one there is nothing left to
    take.

    Sessions with `comm_get` in them are not followed: behind a file of whole chunks
    its last `recv` asks for 0 bytes, and waits as long as none are there. -/

namespace FtpConsole

open LittleEndian FtpMessage FtpTransfer FtpHandlers Istream
open ChatReceive (socketioBufferSize)
open ChatGet (dataSends)
open ChatConsole (cString Word quitWord qWord putWord getWord cString_of_nonzero)

/-! ## The console -/

/-- `MAX_COMMAND_LEN`. -/
def maxCommandLen : Nat := 32

/-- The functions that the console calls. -/
inductive Call where
  | put (fname : List Byte)
  | get (fname : List Byte)
  deriving DecidableEq

/-- Standard input, and the buffers of `console`. -/
structure Console where
  cin : Stream
  consoleComm : List Byte
  fname : List Byte
  deriving DecidableEq

/-- One time around `while(true)`. -/
inductive Turn where
  | quit
  | fault
  | again (call : Option Call) (c : Console)
  deriving DecidableEq

/-- The branches for `put` and `get`. -/
def fileTurn (call : List Byte → Call) (c : Console) : Turn :=
  let (fname, cin) := extractWord c.cin c.fname
  if maxFileNameLen ≤ fname.length then .fault
  else .again (some (call (cString fname))) { c with cin := cin, fname := fname }

/-- The branches for the word in `console_comm`. -/
def obey (c : Console) : Turn :=
  let comm := cString c.consoleComm
  if comm.length = 4 ∧ comm = quitWord ∨ comm = qWord then .quit
  else if comm.length = 3 ∧ comm = putWord then fileTurn .put c
  else if comm.length = 3 ∧ comm = getWord then fileTurn .get c
  else .again none c

/-- One time around. -/
def turn (c : Console) : Turn :=
  let (comm, cin) := extractWord c.cin c.consoleComm
  if maxCommandLen ≤ comm.length then .fault
  else obey { c with cin := cin, consoleComm := comm }

/-- How far the console has come after some turns. -/
inductive ConsoleEnd where
  | left
  | faulted
  | running (c : Console)
  deriving DecidableEq

/-- At most `n` times around: the calls, and the ending. -/
def turns : Nat → Console → List Call × ConsoleEnd
  | 0, c => ([], .running c)
  | n + 1, c =>
      match turn c with
      | .quit => ([], .left)
      | .fault => ([], .faulted)
      | .again call c' => (call.toList ++ (turns n c').1, (turns n c').2)

/-- `console`, at most `n` times around.  `comm` and `fname` are what the buffers hold
    before. -/
def console (n : Nat) (comm fname input : List Byte) : List Call × ConsoleEnd :=
  turns n { cin := Stream.start input, consoleComm := comm, fname := fname }

/-! ## Both parties -/

/-- What a call of the console sends before it comes back.  No result where it does not
    come back, nor for `comm_get`, which waits for an answer. -/
def callSends (client : Disk) (mem : Memory) : Call → Option (List Byte)
  | .put fname =>
      match commPut client mem fname with
      | .ok sends => some sends.flatten
      | .error _ => none
  | .get _ => none

/-- What some calls send, of which the first is the `k`-th. -/
def sent (client : Disk) (mem : Nat → Memory) : Nat → List Call → Option (List Byte)
  | _, [] => some []
  | k, call :: calls =>
      (callSends client (mem k) call).bind (fun bytes =>
        (sent client mem (k + 1) calls).map (fun more => bytes ++ more))

theorem opens_nil_update (disk : Disk) {name : List Byte} (file : List Byte) (h : name ≠ []) :
    Function.update disk.opens name (some file) [] = none := by
  rw [Function.update_of_ne (Ne.symm h), disk.opens_nil]

/-- A disk after a file was written. -/
def written (disk : Disk) (stored : Option (List Byte × List Byte)) : Disk :=
  match stored with
  | none => disk
  | some (name, file) =>
      if h : name = [] then disk
      else
        { disk with
          opens := Function.update disk.opens name (some file)
          opens_nil := opens_nil_update disk file h }

/-- The disk of the server, what was written to it, and how many rounds of `clithread` there
    were. -/
structure Server where
  disk : Disk
  stored : List (List Byte × List Byte)
  rounds : Nat

/-- The server after a round. -/
def Server.after (s : Server) (stored : Option (List Byte × List Byte)) : Server where
  disk := written s.disk stored
  stored := s.stored ++ stored.toList
  rounds := s.rounds + 1

/-- `clithread`, at most `n` rounds.  No result for a fault. -/
def serve (mem : Nat → Memory) : Nat → Server → Link → Option Server
  | 0, _, _ => none
  | n + 1, s, l =>
      match clithread s.disk (mem s.rounds) l with
      | .ok (some h) =>
          if h.ret = -1 then some (s.after h.stored) else serve mem n (s.after h.stored) h.link
      | .ok none => some s
      | .error _ => none

/-- A session in which the console leaves after at most `n` turns: what becomes of the
    server when the client has sent everything and closed the connection. -/
def session (clientMem serverMem : Nat → Memory) (client server : Disk) (n : Nat)
    (comm fname input : List Byte) : Option Server :=
  match console n comm fname input with
  | (calls, .left) =>
      (sent client clientMem 0 calls).bind (fun bytes =>
        serve serverMem (bytes.length + 1) ⟨server, [], 0⟩ ⟨bytes, .closed⟩)
  | _ => none

/-! ## What a session is for -/

/-- The named files were stored as the client has them, one after another, and the disk of
    the server holds them besides what it held before. -/
structure Copied (client server : Disk) (fnames : List Word) (s : Server) : Prop where
  stored : s.stored.map (fun f => (f.1, some f.2))
    = fnames.map (fun fname => (fname.bytes, client.opens fname.bytes))
  opens : ∀ name, s.disk.opens name
    = if name ∈ fnames.map Word.bytes then client.opens name else server.opens name

/-- The two branches of the console. -/
inductive Branch where
  | put
  | get

/-- The word that leads to a branch. -/
def Branch.word : Branch → List Byte
  | .put => putWord
  | .get => getWord

/-- What is called in a branch. -/
def Branch.call : Branch → List Byte → Call
  | .put => .put
  | .get => .get

/-- A command as it is typed. -/
structure Typed where
  branch : Branch
  fname : Word

/-- The line of a command. -/
def Typed.line (cmd : Typed) : List Byte := cmd.branch.word ++ 32 :: (cmd.fname.bytes ++ [10])

/-- What the command is for. -/
def Typed.call (cmd : Typed) : Call := cmd.branch.call cmd.fname.bytes

/-- What the command leaves in the buffers. -/
structure Typed.Left (cmd : Typed) (c : Console) : Prop where
  comm : c.consoleComm = cmd.branch.word
  fname : c.fname = cmd.fname.bytes

/-! ## One time around -/

section Turns

variable {c : Console} {cmd : Typed} {rest : List Byte}

/-- A turn that goes on, before the others. -/
theorem turns_again {c' : Console} {call : Call} (h : turn c = .again (some call) c') (n : Nat) :
    turns (n + 1) c = (call :: (turns n c').1, (turns n c').2) := by
  rw [turns, h]
  rfl

/-- The word of a branch leads there. -/
theorem obey_branch {b : Branch} (h : c.consoleComm = b.word) : obey c = fileTurn b.call c := by
  cases b with
  | put =>
      rw [obey, h]
      rfl
  | get =>
      rw [obey, h]
      rfl

/-- After its command word the console goes to the branch. -/
theorem turn_of_word {word : List Byte} {b : Byte} (h : Ready c.cin (word ++ b :: rest))
    (hne : word ≠ []) (hword : ∀ b ∈ word, isSpace b = false) (hb : isSpace b = true)
    (hshort : word.length < maxCommandLen) :
    turn c = obey { c with cin := c.cin.goOn (b :: rest), consoleComm := word } := by
  simp only [turn, h.extractWord hne hword hb]
  exact if_neg (Nat.not_le.mpr hshort)

/-- The words of the branches fit the buffer. -/
theorem word_fits (b : Branch) :
    b.word ≠ [] ∧ (∀ x ∈ b.word, isSpace x = false) ∧ b.word.length < maxCommandLen := by
  cases b with
  | put => exact ⟨by decide, by decide, by decide⟩
  | get => exact ⟨by decide, by decide, by decide⟩

/-- The name of a file fits its buffer and has no zero byte. -/
theorem fname_fits (fname : Word) :
    ¬ maxFileNameLen ≤ fname.bytes.length ∧ cString fname.bytes = fname.bytes :=
  ⟨Nat.not_le.mpr fname.short, cString_of_nonzero (fun h => (fname.printable 0 h).2 rfl)⟩

/-- **TURN**: a command is read back, and the rest of the input stays. -/
theorem turn_line (h : Ready c.cin (cmd.line ++ rest)) :
    ∃ c', turn c = .again (some cmd.call) c' ∧ Ready c'.cin rest ∧ cmd.Left c' := by
  obtain ⟨hne, hword, hshort⟩ := word_fits cmd.branch
  obtain ⟨hfit, hstring⟩ := fname_fits cmd.fname
  have hline : cmd.line ++ rest
      = cmd.branch.word ++ 32 :: (cmd.fname.bytes ++ 10 :: rest) := by
    simp [Typed.line]
  rw [hline] at h
  have hbehind : Ready (c.cin.goOn (32 :: (cmd.fname.bytes ++ 10 :: rest)))
      (cmd.fname.bytes ++ 10 :: rest) := ⟨h.good, [32], rfl, by decide⟩
  have hread := hbehind.extractWord cmd.fname.nonempty
    (fun b hb => (cmd.fname.printable b hb).1) rfl c.fname
  refine ⟨{ cin := c.cin.goOn (10 :: rest), consoleComm := cmd.branch.word
            fname := cmd.fname.bytes }, ?_, ⟨h.good, [10], rfl, by decide⟩, ⟨rfl, rfl⟩⟩
  rw [turn_of_word h hne hword rfl hshort, obey_branch rfl]
  simp only [fileTurn, hread, hstring]
  exact if_neg hfit

/-- **LOOP**: a list of commands is read back, and the console goes on behind it. -/
theorem turns_lines (cmds : List Typed) : ∀ c : Console,
    Ready c.cin (cmds.flatMap Typed.line ++ rest) →
    ∃ c', Ready c'.cin rest ∧ ∀ n, turns (cmds.length + n) c
      = (cmds.map Typed.call ++ (turns n c').1, (turns n c').2) := by
  induction cmds with
  | nil =>
      intro c h
      refine ⟨c, h, fun n => ?_⟩
      rw [List.length_nil, Nat.zero_add]
      rfl
  | cons cmd cmds ih =>
      intro c h
      rw [List.flatMap_cons, List.append_assoc] at h
      obtain ⟨c₁, hturn, hready, -⟩ := turn_line h
      obtain ⟨c', hready', hturns⟩ := ih c₁ hready
      refine ⟨c', hready', fun n => ?_⟩
      rw [List.length_cons, Nat.add_right_comm, turns_again hturn, hturns n]
      rfl

/-- `quit` ends the loop. -/
theorem turns_quit (h : Ready c.cin (quitWord ++ 10 :: rest)) (n : Nat) :
    turns (n + 1) c = ([], .left) := by
  have hquit : turn c = .quit := turn_of_word h (by decide) (by decide) rfl (by decide)
  rw [turns, hquit]

/-- A turn that reads nothing makes the last call again. -/
theorem turn_of_unread {s : Stream} (hleft : cmd.Left c) (hbad : s.good = false)
    (hread : extractWord c.cin c.consoleComm = (c.consoleComm, s)) :
    ∃ c', turn c = .again (some cmd.call) c' ∧ c'.cin.good = false ∧ cmd.Left c' := by
  obtain ⟨hfit, hstring⟩ := fname_fits cmd.fname
  have hshort : c.consoleComm.length < maxCommandLen := by
    rw [hleft.comm]
    exact (word_fits cmd.branch).2.2
  refine ⟨{ c with cin := { s with failbit := true } }, ?_, Bool.and_false _, hleft.comm,
    hleft.fname⟩
  simp only [turn, hread]
  rw [if_neg (Nat.not_le.mpr hshort)]
  rw [obey_branch (c := { c with cin := s }) hleft.comm]
  simp only [fileTurn, extractWord_bad hbad, hleft.fname, hstring]
  exact if_neg hfit

/-- All turns behind a stream that is no longer good repeat the command. -/
theorem turns_unread (n : Nat) : ∀ c : Console, c.cin.good = false → cmd.Left c →
    ∃ c', turns n c = (List.replicate n cmd.call, .running c') := by
  induction n with
  | zero => exact fun c _ _ => ⟨c, rfl⟩
  | succ n ih =>
      intro c hbad hleft
      obtain ⟨c₁, hturn, hbad₁, hleft₁⟩ := turn_of_unread (s := { c.cin with failbit := true })
        hleft (Bool.and_false _) (extractWord_bad hbad c.consoleComm)
      obtain ⟨c', hturns⟩ := ih c₁ hbad₁ hleft₁
      refine ⟨c', ?_⟩
      rw [turns_again hturn, hturns]
      rfl

/-- **END**: at the end of the input the last call is made over and over. -/
theorem turns_end (h : Ready c.cin []) (hleft : cmd.Left c) (n : Nat) :
    ∃ c', turns n c = (List.replicate n cmd.call, .running c') := by
  cases n with
  | zero => exact ⟨c, rfl⟩
  | succ n =>
      obtain ⟨c₁, hturn, hbad, hleft₁⟩ := turn_of_unread hleft rfl (h.extractWord_end _)
      obtain ⟨c', hturns⟩ := turns_unread n c₁ hbad hleft₁
      refine ⟨c', ?_⟩
      rw [turns_again hturn, hturns]
      rfl

end Turns

/-- The console at the beginning, in front of what will be typed. -/
theorem ready_start (comm fname input : List Byte) :
    Ready ({ cin := Stream.start input, consoleComm := comm, fname := fname } : Console).cin
      input :=
  ⟨rfl, [], rfl, fun _ hb => absurd hb List.not_mem_nil⟩

/-- **TYPED**: what is typed before `quit` is what is called, and the console leaves. -/
theorem console_quit (cmds : List Typed) (comm fname rest : List Byte) (n : Nat) :
    console (cmds.length + (n + 1)) comm fname
        (cmds.flatMap Typed.line ++ (quitWord ++ 10 :: rest))
      = (cmds.map Typed.call, .left) := by
  obtain ⟨c', hready, hturns⟩ := turns_lines cmds _ (ready_start comm fname _)
  rw [console, hturns, turns_quit hready, List.append_nil]

/-- **OVER**: where the input ends without `quit`, the console makes its last call again in
    each further turn, and does not leave. -/
theorem console_over (cmds : List Typed) (cmd : Typed) (comm fname : List Byte) (n : Nat) :
    ∃ c', console (cmds.length + (n + 1)) comm fname (cmds.flatMap Typed.line ++ cmd.line)
      = (cmds.map Typed.call ++ List.replicate (n + 1) cmd.call, .running c') := by
  obtain ⟨c₁, hready, hturns⟩ := turns_lines cmds _
    (ready_start comm fname (cmds.flatMap Typed.line ++ cmd.line))
  rw [← List.append_nil cmd.line] at hready
  obtain ⟨c₂, hturn, hready₂, hleft⟩ := turn_line hready
  obtain ⟨c', hend⟩ := turns_end hready₂ hleft n
  refine ⟨c', ?_⟩
  rw [console, hturns, turns_again hturn, hend]
  rfl

/-! ## What is sent -/

/-- What some puts send. -/
def putCalls (fnames : List Word) : List Call := fnames.map (fun fname => .put fname.bytes)

/-- A file of whole chunks that the client has under a name, with a size that is an `int`. -/
structure Holds (client : Disk) (fname : Word) (file : List Byte) : Prop where
  opens : client.opens fname.bytes = some file
  whole : socketioBufferSize ∣ file.length
  small : file.length < 2 ^ 31

/-- A name that was typed is a string that fits its field. -/
theorem fname_string (fname : Word) :
    fname.bytes.length < maxFileNameLen ∧ IsString fname.bytes :=
  ⟨fname.short, fun b hb => (fname.printable b hb).2⟩

/-- **PUT**: what `comm_put` sends of a file of whole chunks is a header and the file. -/
theorem callSends_put {client : Disk} {fname : Word} {file : List Byte} (mem : Memory)
    (h : Holds client fname file) :
    ∃ msg, fnameString msg = some fname.bytes ∧ msg.command = Command.PUT.code
      ∧ msg.dataSize = BitVec.ofNat 32 file.length
      ∧ callSends client mem (.put fname.bytes) = some (encode msg ++ file) := by
  obtain ⟨hlen, hstr⟩ := fname_string fname
  obtain ⟨msg, hname, hcommand, hdata, hput⟩ := commPut_sends mem h.opens hlen hstr
  have hrem : remainder file = 0 := Nat.mod_eq_zero_of_dvd h.whole
  have hlast : lastSent mem.heap file = [] :=
    List.eq_nil_of_length_eq_zero ((length_lastSent ..).trans hrem)
  have hchunks : chunksLen file = file.length := Nat.div_mul_cancel h.whole
  refine ⟨msg, hname, hcommand, hdata, ?_⟩
  rw [callSends, hput]
  simp only [List.flatten_cons]
  rw [flatten_dataSends mem.heap h.small, hlast, List.append_nil, hchunks, List.take_length]

/-- What is sent for two lists of calls. -/
theorem sent_append (client : Disk) (mem : Nat → Memory) (calls more : List Call) :
    ∀ k, sent client mem k (calls ++ more) = (sent client mem k calls).bind (fun bytes =>
      (sent client mem (k + calls.length) more).map (fun rest => bytes ++ rest)) := by
  induction calls with
  | nil =>
      intro k
      rw [List.nil_append, sent, Option.bind_some, List.length_nil, Nat.add_zero]
      cases sent client mem k more with
      | none => rfl
      | some bytes => rfl
  | cons call calls ih =>
      intro k
      rw [List.cons_append, sent, sent, ih (k + 1), List.length_cons, Nat.add_right_comm]
      cases callSends client (mem k) call with
      | none => rfl
      | some bytes =>
          cases sent client mem (k + 1) calls with
          | none => rfl
          | some front =>
              cases sent client mem (k + calls.length + 1) more with
              | none => simp
              | some rest => simp

/-! ## One round -/

/-- The size in the `resp_msg` of `put_handler`, which nobody has filled, has no remainder. -/
def Steady (mem : Memory) : Prop := mem.old.size.tmod socketioBufferSize = 0

theorem steady_iff (mem : Memory) : Steady mem ↔ remBytes mem.old.size = 0 :=
  (FtpRoundTrip.remBytes_eq_zero_iff _).symm

theorem written_opens {disk : Disk} {name : List Byte} (file : List Byte) (h : name ≠ []) :
    (written disk (some (name, file))).opens = Function.update disk.opens name (some file) := by
  rw [written, dif_neg h]

theorem written_creates (disk : Disk) (stored : Option (List Byte × List Byte)) :
    (written disk stored).creates = disk.creates := by
  cases stored with
  | none => rfl
  | some f =>
      by_cases hname : f.1 = []
      · rw [written, dif_pos hname]
      · rw [written, dif_neg hname]

/-- Where the other side has closed the connection, `recv` returns what is there. -/
theorem recv_closed (input : List Byte) (req : Nat) :
    recv ⟨input, .closed⟩ req = .ok (input.take req, ⟨input.drop req, .closed⟩) := by
  rw [recv]
  split
  · rfl
  · next hreq =>
      have hshort : input.length ≤ req := Nat.le_of_lt (Nat.lt_of_not_le hreq)
      rw [List.take_of_length_le hshort, List.drop_of_length_le hshort]

/-- What the last `recv` of `put_handler` takes of what comes behind the file. -/
def taken (mem : Memory) (rest : List Byte) : List Byte := rest.take (remBytes mem.old.size)

/-- What it leaves of that. -/
def untaken (mem : Memory) (rest : List Byte) : List Byte := rest.drop (remBytes mem.old.size)

/-- **CHUNKS**: of a file of whole chunks everything arrives before the last `recv`. -/
theorem recvAll_whole (mem : Memory) {file buff : List Byte} (rest : List Byte)
    (hwhole : socketioBufferSize ∣ file.length) (hsmall : file.length < 2 ^ 31)
    (hbuff : buff.length = file.length) :
    recvAll (recvCalls file.length (mem.old.size.tmod socketioBufferSize)) buff
        ⟨file ++ rest, .closed⟩
      = (place (ChatGet.lastOffset (chunks file)) (taken mem rest) file).map
          (fun buff => (buff, ⟨untaken mem rest, .closed⟩)) := by
  have hchunks : chunks file * socketioBufferSize = file.length := Nat.div_mul_cancel hwhole
  have hdrop : buff.drop (chunks file * socketioBufferSize) = [] :=
    List.drop_of_length_le (by omega)
  rw [recvCalls, ChatGet.toNat_tdiv_natCast,
    recvAll_chunks _ _ _ buff _ _ hchunks.symm (by omega) (by omega), hdrop, List.append_nil,
    recvAll, recv_closed]
  simp only
  rw [← remBytes, ← taken, ← untaken]
  cases place (ChatGet.lastOffset (chunks file)) (taken mem rest) file with
  | error e => rfl
  | ok buff' => rfl

/-- **ROUND**: a round of `clithread` that reads what `comm_put` sends, and takes from what
    comes behind it. -/
theorem clithread_put {disk : Disk} (mem : Memory) {msg : Message} {name file : List Byte}
    (rest : List Byte) (hname : fnameString msg = some name)
    (hcommand : msg.command = Command.PUT.code)
    (hdata : msg.dataSize = BitVec.ofNat 32 file.length) (hcreates : disk.creates name = true)
    (hwhole : socketioBufferSize ∣ file.length) (hsmall : file.length < 2 ^ 31) :
    clithread disk mem ⟨encode msg ++ (file ++ rest), .closed⟩
      = (place (ChatGet.lastOffset (chunks file)) (taken mem rest) file).map (fun buff =>
          some { ret := 0, sends := [], stored := some (name, buff)
                 link := ⟨untaken mem rest, .closed⟩ }) := by
  have hsize := size_of_dataSize hsmall hdata
  have hrun := recvAll_whole mem rest hwhole hsmall (length_malloc mem file.length)
  rw [clithread_header, handleMsg_put _ _ _ hcommand, putHandler, hname, hsize]
  simp only
  rw [if_pos hcreates, if_neg (Int.not_lt.mpr (Int.natCast_nonneg _)), Int.toNat_natCast, hrun]
  cases hplace : place (ChatGet.lastOffset (chunks file)) (taken mem rest) file with
  | error e =>
      obtain rfl := place_error hplace
      rfl
  | ok buff => rfl

/-- Nothing is taken where the remainder is 0, nor where nothing comes any more. -/
theorem taken_eq_nil {mem : Memory} {rest : List Byte} (h : Steady mem ∨ rest = []) :
    taken mem rest = [] ∧ untaken mem rest = rest := by
  rcases h with hsteady | rfl
  · rw [taken, untaken, (steady_iff mem).mp hsteady]
    exact ⟨List.take_zero, List.drop_zero⟩
  · exact ⟨List.take_nil, List.drop_nil⟩

/-! ## The loop -/

section Loop

variable {client : Disk} {clientMem serverMem : Nat → Memory} {contents : Word → List Byte}

/-- The server when one more of the files of a client was stored. -/
def Server.store (contents : Word → List Byte) (s : Server) (fname : Word) : Server :=
  s.after (some (fname.bytes, contents fname))

@[simp] theorem Server.store_rounds (s : Server) (fname : Word) :
    (s.store contents fname).rounds = s.rounds + 1 := rfl

@[simp] theorem Server.store_stored (s : Server) (fname : Word) :
    (s.store contents fname).stored = s.stored ++ [(fname.bytes, contents fname)] := rfl

@[simp] theorem Server.store_creates (s : Server) (fname : Word) :
    (s.store contents fname).disk.creates = s.disk.creates := written_creates ..

/-- **STEP**: one put, when nothing is taken of what comes behind it. -/
theorem serve_put (clientMem serverMem : Nat → Memory) {s : Server} {fname : Word} (k : Nat)
    (hholds : Holds client fname (contents fname))
    (hcreates : s.disk.creates fname.bytes = true) :
    ∃ bytes, callSends client (clientMem k) (.put fname.bytes) = some bytes
      ∧ 0 < bytes.length ∧ ∀ rest n, Steady (serverMem s.rounds) ∨ rest = [] →
        serve serverMem (n + 1) s ⟨bytes ++ rest, .closed⟩
          = serve serverMem n (s.store contents fname) ⟨rest, .closed⟩ := by
  obtain ⟨msg, hname, hcommand, hdata, hsends⟩ := callSends_put (clientMem k) hholds
  refine ⟨encode msg ++ contents fname, hsends, ?_, fun rest n hkept => ?_⟩
  · rw [List.length_append, length_encode]
    exact Nat.add_pos_left (by decide) _
  · obtain ⟨htaken, hrest⟩ := taken_eq_nil hkept
    have hround := clithread_put (serverMem s.rounds) rest hname hcommand hdata hcreates
      hholds.whole hholds.small
    have hplace : place (ChatGet.lastOffset (chunks (contents fname))) [] (contents fname)
        = .ok (contents fname) := if_pos rfl
    rw [htaken, hrest, hplace] at hround
    rw [serve, List.append_assoc, hround]
    rfl

/-- **RUN**: the files of a client are stored one after another, as long as no round but the
    one that reads the end of the stream finds a size with a remainder. -/
theorem serve_puts (clientMem serverMem : Nat → Memory) (fnames : List Word) :
    ∀ (k : Nat) (s : Server), (∀ fname ∈ fnames, Holds client fname (contents fname)) →
    (∀ fname ∈ fnames, s.disk.creates fname.bytes = true) →
    ∃ bytes, sent client clientMem k (putCalls fnames) = some bytes
      ∧ fnames.length ≤ bytes.length ∧ ∀ rest n,
        (∀ i, i < fnames.length →
          Steady (serverMem (s.rounds + i)) ∨ i + 1 = fnames.length ∧ rest = []) →
        serve serverMem (fnames.length + n) s ⟨bytes ++ rest, .closed⟩
          = serve serverMem n (fnames.foldl (Server.store contents) s) ⟨rest, .closed⟩ := by
  induction fnames with
  | nil =>
      intro k s _ _
      refine ⟨[], rfl, Nat.le_refl _, fun rest n _ => ?_⟩
      rw [List.length_nil, Nat.zero_add, List.nil_append]
      rfl
  | cons fname fnames ih =>
      intro k s hholds hcreates
      obtain ⟨hhead, htail⟩ := List.forall_mem_cons.mp hholds
      obtain ⟨hcreate, hcreate'⟩ := List.forall_mem_cons.mp hcreates
      obtain ⟨bytes, hsends, hpos, hstep⟩ := serve_put clientMem serverMem k hhead hcreate
      obtain ⟨more, hmore, hlen, hrun⟩ := ih (k + 1) (s.store contents fname) htail (by
        rw [Server.store_creates]
        exact hcreate')
      refine ⟨bytes ++ more, ?_, ?_, fun rest n hkept => ?_⟩
      · rw [putCalls, List.map_cons, sent, hsends, Option.bind_some, ← putCalls, hmore,
          Option.map_some]
      · rw [List.length_cons, List.length_append]
        omega
      · -- the first put is the last one, or what it finds has no remainder
        have hfirst : Steady (serverMem s.rounds) ∨ more ++ rest = [] := by
          rcases hkept 0 (Nat.succ_pos _) with hsteady | ⟨hone, hrest⟩
          · exact Or.inl hsteady
          · obtain rfl := List.eq_nil_of_length_eq_zero (Nat.succ.inj hone).symm
            obtain rfl := Option.some.inj hmore
            exact Or.inr hrest
        have hlater : ∀ i, i < fnames.length →
            Steady (serverMem ((s.store contents fname).rounds + i))
              ∨ i + 1 = fnames.length ∧ rest = [] := by
          intro i hi
          have hnext := hkept (i + 1) (Nat.succ_lt_succ hi)
          rw [List.length_cons, Nat.add_right_cancel_iff] at hnext
          rw [Server.store_rounds, Nat.add_assoc, Nat.add_comm 1 i]
          exact hnext
        rw [List.length_cons, Nat.add_right_comm, List.append_assoc, hstep _ _ hfirst,
          hrun rest n hlater]
        rfl

/-- What the server has after a list of files. -/
theorem stored_foldl (fnames : List Word) : ∀ s : Server,
    (fnames.foldl (Server.store contents) s).stored
      = s.stored ++ fnames.map (fun fname => (fname.bytes, contents fname)) := by
  induction fnames with
  | nil => exact fun s => (List.append_nil _).symm
  | cons fname fnames ih =>
      intro s
      rw [List.foldl_cons, ih, Server.store_stored, List.append_assoc]
      rfl

/-- What the server has under each name after a list of files. -/
theorem opens_foldl (fnames : List Word) (name : List Byte) : ∀ s : Server,
    (∀ fname ∈ fnames, Holds client fname (contents fname)) →
    (fnames.foldl (Server.store contents) s).disk.opens name
      = if name ∈ fnames.map Word.bytes then client.opens name else s.disk.opens name := by
  induction fnames with
  | nil => exact fun s _ => (if_neg List.not_mem_nil).symm
  | cons fname fnames ih =>
      intro s hholds
      obtain ⟨hhead, htail⟩ := List.forall_mem_cons.mp hholds
      have hopens : (s.store contents fname).disk.opens
          = Function.update s.disk.opens fname.bytes (some (contents fname)) :=
        written_opens (contents fname) fname.nonempty
      rw [List.foldl_cons, ih _ htail, hopens, List.map_cons]
      by_cases hlater : name ∈ fnames.map Word.bytes
      · rw [if_pos hlater, if_pos (List.mem_cons_of_mem _ hlater)]
      · rw [if_neg hlater]
        by_cases hname : name = fname.bytes
        · subst hname
          rw [Function.update_self, if_pos (List.mem_cons_self ..), hhead.opens]
        · rw [Function.update_of_ne hname, if_neg]
          exact List.not_mem_cons_of_ne_of_not_mem hname hlater

theorem creates_foldl (fnames : List Word) : ∀ s : Server,
    (fnames.foldl (Server.store contents) s).disk.creates = s.disk.creates := by
  induction fnames with
  | nil => exact fun s => rfl
  | cons fname fnames ih =>
      intro s
      rw [List.foldl_cons, ih, Server.store_creates]

/-- The rounds are counted. -/
theorem rounds_foldl (fnames : List Word) : ∀ s : Server,
    (fnames.foldl (Server.store contents) s).rounds = s.rounds + fnames.length := by
  induction fnames with
  | nil => exact fun s => rfl
  | cons fname fnames ih =>
      intro s
      rw [List.foldl_cons, ih, Server.store_rounds, List.length_cons]
      omega

/-- **COPIED**: files that are stored as they are, are copied. -/
theorem copied_foldl {server : Disk} {fnames : List Word}
    (hholds : ∀ fname ∈ fnames, Holds client fname (contents fname)) :
    Copied client server fnames (fnames.foldl (Server.store contents) ⟨server, [], 0⟩) := by
  refine ⟨?_, ?_⟩
  · rw [stored_foldl, List.nil_append, List.map_map]
    refine List.map_congr_left (fun fname hmem => ?_)
    rw [Function.comp_apply, (hholds fname hmem).opens]
  · exact fun name => opens_foldl fnames name _ hholds

/-- Nothing that was written is forgotten. -/
theorem stored_prefix (serverMem : Nat → Memory) (n : Nat) : ∀ (s t : Server) (l : Link),
    serve serverMem n s l = some t → s.stored <+: t.stored := by
  induction n with
  | zero =>
      intro s t l h
      cases h
  | succ n ih =>
      intro s t l h
      have hafter : ∀ stored, s.stored <+: (s.after stored).stored :=
        fun stored => List.prefix_append ..
      rw [serve] at h
      split at h
      · split at h
        · obtain rfl := Option.some.inj h
          exact hafter _
        · exact (hafter _).trans (ih _ _ _ h)
      · obtain rfl := Option.some.inj h
        exact List.prefix_refl _
      · cases h

/-- What goes to the beginning of a block is its beginning. -/
theorem head?_place {got buff buff' : List Byte} {b : Byte} (hgot : got.head? = some b)
    (h : place 0 got buff = .ok buff') : buff'.head? = some b := by
  have hne : got ≠ [] := by
    rintro rfl
    cases hgot
  rw [place, if_neg hne] at h
  split at h
  · obtain rfl := Except.ok.inj h
    exact List.head?_append_of_ne_nil _ hne |>.trans hgot
  · cases h

/-- **STALE**: where the size in `put_handler` has a remainder, and there is something behind
    a file of one chunk, that is written over the beginning of the file. -/
theorem stored_of_stale {s t : Server} {fname : Word} {bytes rest : List Byte} {b : Byte}
    {k n : Nat} (hholds : Holds client fname (contents fname))
    (hlen : (contents fname).length = socketioBufferSize)
    (hcreates : s.disk.creates fname.bytes = true) (hstale : ¬ Steady (serverMem s.rounds))
    (hhead : rest.head? = some b) (hother : (contents fname).head? ≠ some b)
    (hsends : callSends client (clientMem k) (.put fname.bytes) = some bytes)
    (h : serve serverMem (n + 1) s ⟨bytes ++ rest, .closed⟩ = some t) :
    ∃ buff, s.stored ++ [(fname.bytes, buff)] <+: t.stored ∧ buff ≠ contents fname := by
  obtain ⟨msg, hname, hcommand, hdata, hsends'⟩ := callSends_put (clientMem k) hholds
  obtain rfl := Option.some.inj (hsends.symm.trans hsends')
  have hround := clithread_put (serverMem s.rounds) rest hname hcommand hdata hcreates
    hholds.whole hholds.small
  have hoff : ChatGet.lastOffset (chunks (contents fname)) = 0 := by
    rw [chunks, hlen]
    decide
  have htaken : (taken (serverMem s.rounds) rest).head? = some b := by
    rw [taken, List.head?_take, if_neg (fun hzero => hstale ((steady_iff _).mpr hzero)), hhead]
  rw [hoff] at hround
  rw [serve, List.append_assoc, hround] at h
  cases hplace : place 0 (taken (serverMem s.rounds) rest) (contents fname) with
  | error e =>
      rw [hplace] at h
      cases h
  | ok buff =>
      rw [hplace] at h
      refine ⟨buff, stored_prefix serverMem n _ _ _ h, fun hsame => hother ?_⟩
      rw [← hsame]
      exact head?_place htaken hplace

end Loop

/-- What is typed for some puts. -/
def puts (fnames : List Word) : List Typed := fnames.map (fun fname => ⟨.put, fname⟩)

/-- A stream that is read to its end. -/
theorem serve_nil (serverMem : Nat → Memory) (n : Nat) (s : Server) :
    serve serverMem (n + 1) s ⟨[], .closed⟩ = some s := by
  rw [serve, clithread, recv_closed]
  rfl

/-- What comes of a session of puts. -/
theorem session_puts (clientMem serverMem : Nat → Memory) (client server : Disk)
    (fnames : List Word) (comm fname rest : List Byte) (n : Nat) :
    session clientMem serverMem client server (fnames.length + (n + 1)) comm fname
        ((puts fnames).flatMap Typed.line ++ (quitWord ++ 10 :: rest))
      = (sent client clientMem 0 (putCalls fnames)).bind (fun bytes =>
          serve serverMem (bytes.length + 1) ⟨server, [], 0⟩ ⟨bytes, .closed⟩) := by
  have hlen : fnames.length = (puts fnames).length := (List.length_map ..).symm
  have hcalls : (puts fnames).map Typed.call = putCalls fnames := List.map_map
  rw [session, hlen, console_quit, hcalls]

/-- **SESSION**: files of whole chunks are copied, whatever is in the memory of the client,
    when no round but the last finds a stale size with a remainder. -/
theorem session_copies {client server : Disk} {serverMem : Nat → Memory} {fnames : List Word}
    (hsteady : ∀ k, k + 1 < fnames.length → Steady (serverMem k))
    (hholds : ∀ fname ∈ fnames, ∃ file, Holds client fname file)
    (hcreates : ∀ fname ∈ fnames, server.creates fname.bytes = true)
    (clientMem : Nat → Memory) (comm fname rest : List Byte) (n : Nat) :
    ∃ s, session clientMem serverMem client server (fnames.length + (n + 1)) comm fname
          ((puts fnames).flatMap Typed.line ++ (quitWord ++ 10 :: rest)) = some s
      ∧ Copied client server fnames s := by
  let contents : Word → List Byte := fun fname => (client.opens fname.bytes).getD []
  have hcontents : ∀ fname ∈ fnames, Holds client fname (contents fname) := by
    intro fname hmem
    obtain ⟨file, hfile⟩ := hholds fname hmem
    have hsame : contents fname = file := by
      show (client.opens fname.bytes).getD [] = file
      rw [hfile.opens, Option.getD_some]
    rw [hsame]
    exact hfile
  obtain ⟨bytes, hsent, hlen, hrun⟩ :=
    serve_puts clientMem serverMem fnames 0 ⟨server, [], 0⟩ hcontents hcreates
  refine ⟨fnames.foldl (Server.store contents) ⟨server, [], 0⟩, ?_, copied_foldl hcontents⟩
  have hkept : ∀ i, i < fnames.length →
      Steady (serverMem (0 + i)) ∨ i + 1 = fnames.length ∧ ([] : List Byte) = [] := by
    intro i hi
    rw [Nat.zero_add]
    rcases Nat.lt_or_eq_of_le (Nat.succ_le_of_lt hi) with hbefore | hlast
    · exact Or.inl (hsteady i hbefore)
    · exact Or.inr ⟨hlast, rfl⟩
  have hloop := hrun [] (bytes.length - fnames.length + 1) hkept
  have hfuel : fnames.length + (bytes.length - fnames.length + 1) = bytes.length + 1 := by omega
  rw [hfuel, List.append_nil, serve_nil] at hloop
  rw [session_puts, hsent, Option.bind_some, hloop]

/-- `f` -/
def letterF : Word where
  bytes := [102]
  nonempty := List.cons_ne_nil _ _
  printable := by decide
  short := by decide

/-- A chunk. -/
def chunk : List Byte := List.replicate 512 97

theorem length_chunk : chunk.length = 512 := List.length_replicate

/-- A disk with a chunk under the name `f`. -/
def chunkDisk : Disk := (FtpRoundTrip.party letterF.bytes chunk).disk

theorem holds_chunk : Holds chunkDisk letterF chunk where
  opens := rfl
  whole := Dvd.intro_left 1 (by rw [length_chunk]; rfl)
  small := by rw [length_chunk]; decide

/-- What is sent for some puts begins with the command. -/
theorem head?_sent {client : Disk} {mem : Nat → Memory} {k : Nat} {fname : Word}
    {file bytes : List Byte} {fnames : List Word} (hholds : Holds client fname file)
    (h : sent client mem k (putCalls (fname :: fnames)) = some bytes) :
    bytes.head? = some 0 := by
  obtain ⟨msg, -, hcommand, -, hsends⟩ := callSends_put (mem k) hholds
  rw [putCalls, List.map_cons, sent, hsends, Option.bind_some, Option.map_eq_some_iff] at h
  obtain ⟨more, -, rfl⟩ := h
  rw [encode, hcommand]
  rfl

/-- A disk without files, on which any name will do. -/
def emptyDisk : Disk := (FtpRoundTrip.party [] []).disk

/-- **SPOILT**: `f` is put again and again, and the first round that finds a remainder writes
    the beginning of the next command over it. -/
theorem not_copied_of_stale {serverMem : Nat → Memory} {k : Nat} (j : Nat)
    (hbefore : ∀ i, i < k → Steady (serverMem i)) (hstale : ¬ Steady (serverMem k))
    (clientMem : Nat → Memory) (comm fname rest : List Byte) (n : Nat) :
    ¬ ∃ s, session clientMem serverMem chunkDisk emptyDisk (k + (j + 2) + (n + 1)) comm fname
          ((puts (List.replicate (k + (j + 2)) letterF)).flatMap Typed.line
            ++ (quitWord ++ 10 :: rest)) = some s
      ∧ Copied chunkDisk emptyDisk (List.replicate (k + (j + 2)) letterF) s := by
  rintro ⟨t, hsession, hcopied⟩
  have hputs := session_puts clientMem serverMem chunkDisk emptyDisk
    (List.replicate (k + (j + 2)) letterF) comm fname rest n
  rw [List.length_replicate, hsession] at hputs
  let contents : Word → List Byte := fun _ => chunk
  have hholds : ∀ m, ∀ fname ∈ List.replicate m letterF,
      Holds chunkDisk fname (contents fname) := by
    intro m fname hmem
    rw [List.eq_of_mem_replicate hmem]
    exact holds_chunk
  have hcreates : ∀ m, ∀ fname ∈ List.replicate m letterF,
      emptyDisk.creates fname.bytes = true := by
    intro m fname hmem
    exact decide_eq_true fname.nonempty
  -- the rounds before, the one that finds the remainder, and what the client sends later
  obtain ⟨front, hfront, hlen, hrun⟩ := serve_puts clientMem serverMem
    (List.replicate k letterF) 0 ⟨emptyDisk, [], 0⟩ (hholds k) (hcreates k)
  obtain ⟨msg, -, -, -, hsends⟩ := callSends_put (clientMem k) holds_chunk
  obtain ⟨more, hmore, -, -⟩ := serve_puts clientMem serverMem
    (List.replicate (j + 1) letterF) (k + 1) ⟨emptyDisk, [], 0⟩ (hholds _) (hcreates _)
  have hsent : sent chunkDisk clientMem 0 (putCalls (List.replicate (k + (j + 2)) letterF))
      = some (front ++ (encode msg ++ chunk ++ more)) := by
    have hsplit : putCalls (List.replicate (k + (j + 2)) letterF)
        = putCalls (List.replicate k letterF)
          ++ .put letterF.bytes :: putCalls (List.replicate (j + 1) letterF) := by
      rw [putCalls, List.replicate_add, List.map_append]
      rfl
    have hcalls : (putCalls (List.replicate k letterF)).length = k := by
      rw [putCalls, List.length_map, List.length_replicate]
    rw [hsplit, sent_append, hfront, Option.bind_some, hcalls, Nat.zero_add, sent, hsends,
      Option.bind_some, hmore, Option.map_some, Option.map_some]
  rw [hsent, Option.bind_some] at hputs
  have hkept : ∀ i, i < (List.replicate k letterF).length → Steady (serverMem (0 + i))
      ∨ i + 1 = (List.replicate k letterF).length ∧ encode msg ++ chunk ++ more = [] := by
    intro i hi
    rw [List.length_replicate] at hi
    rw [Nat.zero_add]
    exact Or.inl (hbefore i hi)
  rw [List.length_replicate] at hlen
  obtain ⟨fuel, hfuel⟩ : ∃ fuel, (front ++ (encode msg ++ chunk ++ more)).length + 1
      = (List.replicate k letterF).length + (fuel + 1) := by
    rw [List.length_replicate, List.length_append]
    exact ⟨front.length - k + (encode msg ++ chunk ++ more).length, by omega⟩
  rw [hfuel, hrun (encode msg ++ chunk ++ more) (fuel + 1) hkept] at hputs
  have hchunk : Holds chunkDisk letterF (contents letterF) := holds_chunk
  obtain ⟨buff, hstored, hspoilt⟩ := stored_of_stale hchunk length_chunk
    (by rw [creates_foldl]; exact decide_eq_true letterF.nonempty)
    (by rw [rounds_foldl, List.length_replicate, Nat.zero_add]; exact hstale)
    (head?_sent holds_chunk hmore) (by decide) hsends hputs.symm
  -- but all that was stored is the chunk
  have hmem : (letterF.bytes, buff) ∈ t.stored :=
    hstored.subset (List.mem_append_right _ (List.mem_singleton_self _))
  have hpair : (letterF.bytes, some buff) ∈ t.stored.map (fun f => (f.1, some f.2)) :=
    List.mem_map.mpr ⟨_, hmem, rfl⟩
  rw [hcopied.stored, List.mem_map] at hpair
  obtain ⟨fname, hfname, hsame⟩ := hpair
  rw [(hholds _ fname hfname).opens] at hsame
  exact hspoilt (Option.some.inj (Prod.mk.inj hsame).2).symm

/-- **EXACTLY WHEN**: sessions of `m` puts copy the files, whatever the files of whole chunks
    and the memory of the client are, if and only if the stale size that a round of
    `clithread` finds has no remainder, the last round excepted. -/
theorem session_copies_iff (serverMem : Nat → Memory) (m : Nat) :
    (∀ (clientMem : Nat → Memory) (client server : Disk) (fnames : List Word)
        (comm fname rest : List Byte) (n : Nat), fnames.length = m →
      (∀ fname ∈ fnames, ∃ file, Holds client fname file) →
      (∀ fname ∈ fnames, server.creates fname.bytes = true) →
      ∃ s, session clientMem serverMem client server (m + (n + 1)) comm fname
            ((puts fnames).flatMap Typed.line ++ (quitWord ++ 10 :: rest)) = some s
        ∧ Copied client server fnames s)
      ↔ ∀ k, k + 1 < m → Steady (serverMem k) := by
  constructor
  · intro h k
    induction k using Nat.strong_induction_on with
    | h k ih =>
        intro hk
        by_contra hstale
        obtain ⟨j, rfl⟩ : ∃ j, m = k + (j + 2) := ⟨m - (k + 2), by omega⟩
        refine not_copied_of_stale j (fun i hi => ih i hi (by omega)) hstale serverMem [] [] [] 0
          (h serverMem chunkDisk emptyDisk (List.replicate (k + (j + 2)) letterF) [] [] [] 0
            List.length_replicate (fun fname hmem => ?_) (fun fname _ => ?_))
        · rw [List.eq_of_mem_replicate hmem]
          exact ⟨chunk, holds_chunk⟩
        · exact decide_eq_true fname.nonempty
  · rintro hsteady clientMem client server fnames comm fname rest n rfl hholds hcreates
    exact session_copies hsteady hholds hcreates clientMem comm fname rest n

end FtpConsole
