import AipPkussm.FtpMessageProofs
import AipPkussm.FtpTransferProofs

/-! # The file server and its client

    `Handlers.cc` and one round of `clithread`, and `comm_put` and `comm_get` of
    `FileClient.cc`.  Neither side ever looks at the command of a response, and
    `put_handler` takes the length of the remainder from its local `resp_msg`,
    which nobody has filled by then.

    Each function has a specification here for a connection on which nothing is
    lost, in terms of the chunks and the remainder of the file. -/

namespace FtpHandlers

open LittleEndian FtpMessage FtpTransfer
open ChatReceive (socketioBufferSize)
open ChatGet (dataSends)

/-- What `fopen` does on a machine: the contents of a file opened for reading, and
    whether a file can be created or truncated.  There is no file without a name. -/
structure Disk where
  opens : List Byte → Option (List Byte)
  creates : List Byte → Bool
  opens_nil : opens [] = none
  creates_nil : creates [] = false

/-- Where any name will do there is still none for a file without a name. -/
theorem creates_nil_of_named : decide (([] : List Byte) ≠ []) = false := rfl

/-- What a call finds: the old contents of the `Message` that `recv` fills, those of
    its other local `Message`, and the memory around and in the block that `malloc`
    returns, by the distance from its beginning. -/
structure Memory where
  stack : Nat → Byte
  old : Message
  heap : Int → Byte

/-- A block of `size` bytes as `malloc` returns it. -/
def malloc (mem : Memory) (size : Nat) : List Byte :=
  overlay size [] (fun k : Nat => mem.heap k)

/-- What a handler did: the value it returned, what it sent, the file it wrote, and
    the bytes it left unread. -/
structure Handled where
  ret : Int
  sends : List (List Byte)
  stored : Option (List Byte × List Byte)
  link : Link

/-! ## The server -/

/-- The answer to a request whose file cannot be opened; `fname[0]` is set to 0. -/
def refuse (mem : Memory) (errorStr : String) (l : Link) : Except Stop Handled :=
  match fill mem.old [] .ERROR (BitVec.ofNat 32 (errorStr.length + 1)) with
  | none => .error .fault
  | some respMsg => .ok { ret := -1, sends := [encode respMsg], stored := none, link := l }

/-- `get_handler`. -/
def getHandler (disk : Disk) (mem : Memory) (msg : Message) (l : Link) :
    Except Stop Handled :=
  match fnameString msg with
  | none => .error .fault
  | some name =>
      match disk.opens name with
      | none => refuse mem "Open file error" l
      | some buff =>
          match fill mem.old name .GET (BitVec.ofNat 32 buff.length) with
          | none => .error .fault
          | some respMsg =>
              .ok { ret := 0, sends := encode respMsg :: dataSends mem.heap buff respMsg.size
                    stored := none, link := l }

/-- `put_handler`, whose `resp_msg` is `mem.old` all along. -/
def putHandler (disk : Disk) (mem : Memory) (msg : Message) (l : Link) :
    Except Stop Handled :=
  match fnameString msg with
  | none => .error .fault
  | some name =>
      if disk.creates name then
        -- `malloc` returns NULL, and the one `recv`, for a place before it, fails
        if msg.size < 0 then .ok { ret := -1, sends := [], stored := some (name, []), link := l }
        else
          match recvAll (recvCalls msg.size (mem.old.size.tmod socketioBufferSize))
              (malloc mem msg.size.toNat) l with
          | .ok (buff, l') =>
              .ok { ret := 0, sends := [], stored := some (name, buff), link := l' }
          -- the file was truncated by `fopen`
          | .error .failed =>
              .ok { ret := -1, sends := [], stored := some (name, []), link := l }
          | .error e => .error e
      else refuse mem "Create file error" l

/-- `handle_msg`: for any other command the null pointer is called. -/
def handleMsg (disk : Disk) (mem : Memory) (msg : Message) (l : Link) :
    Except Stop Handled :=
  if msg.command = Command.GET.code then getHandler disk mem msg l
  else if msg.command = Command.PUT.code then putHandler disk mem msg l
  else .error .fault

/-- One round of `clithread`; no result where the thread ends because `recv` returned
    0 or -1. -/
def clithread (disk : Disk) (mem : Memory) (l : Link) : Except Stop (Option Handled) :=
  match recv l messageLen with
  | .error .failed => .ok none
  | .error e => .error e
  | .ok ([], _) => .ok none
  | .ok (b :: got, l') =>
      (handleMsg disk mem (decode (overlay messageLen (b :: got) mem.stack)) l').map some

/-! ## The client -/

/-- What `comm_put` sends.  Without the file it reads from a null pointer. -/
def commPut (disk : Disk) (mem : Memory) (name : List Byte) :
    Except Stop (List (List Byte)) :=
  match disk.opens name with
  | none => .error .fault
  | some file =>
      match fill mem.old name .PUT (BitVec.ofNat 32 file.length) with
      | none => .error .fault
      | some msg => .ok (encode msg :: dataSends mem.heap file file.length)

/-- The request of `comm_get`. -/
def getRequest (mem : Memory) (name : List Byte) : Option Message :=
  fill mem.old name .GET 0

/-- How `comm_get` ends: it stops on the way (where `recv` returned -1, the program
    exits), or it returns, with or without the report that a file was received, and
    leaves a file. -/
inductive GetEnd where
  | stopped (e : Stop)
  | returned (reported : Bool) (stored : Option (List Byte × List Byte))
  deriving DecidableEq

/-- What `comm_get` does with the response: how many bytes of data it asks for, and how
    it ends. -/
structure GetRun where
  asks : Nat
  ending : GetEnd

/-- `comm_get` after its request.  As in `put_handler`, the `recv` for a negative size
    fails; where `fopen` fails the null pointer is passed to `fwrite`. -/
def commGet (disk : Disk) (mem : Memory) (l : Link) : GetRun :=
  match recv l messageLen with
  | .error e => { asks := 0, ending := .stopped e }
  | .ok (got, l') =>
      let respMsg := decode (overlay messageLen got mem.stack)
      let calls := recvCalls respMsg.size (respMsg.size.tmod socketioBufferSize)
      let asks := (calls.map Call.len).sum
      if respMsg.size < 0 then { asks := asks, ending := .stopped .failed }
      else
        match recvAll calls (malloc mem respMsg.size.toNat) l' with
        | .error e => { asks := asks, ending := .stopped e }
        | .ok (filebuf, _) =>
            match fnameString respMsg with
            | none => { asks := asks, ending := .stopped .fault }
            | some name =>
                if disk.creates name then
                  { asks := asks, ending := .returned true (some (name, filebuf)) }
                else { asks := asks, ending := .stopped .fault }

/-! ## One message -/

/-- A header in front of a stream. -/
theorem recv_header (msg : Message) (rest : List Byte) (e : Ending) :
    recv ⟨encode msg ++ rest, e⟩ messageLen = .ok (encode msg, ⟨rest, e⟩) :=
  recv_full rfl (length_encode msg)

/-- **ONE ROUND**: `clithread` hands on the header it received. -/
theorem clithread_header (disk : Disk) (mem : Memory) (msg : Message) (rest : List Byte)
    (e : Ending) : clithread disk mem ⟨encode msg ++ rest, e⟩
      = (handleMsg disk mem msg ⟨rest, e⟩).map some := by
  have hlen : (encode msg).length = messageLen := length_encode msg
  have hhdr := decode_overlay msg mem.stack
  rw [clithread, recv_header]
  cases hcons : encode msg with
  | nil =>
      rw [hcons] at hlen
      exact nomatch hlen
  | cons b got =>
      rw [hcons] at hhdr
      simp only [hhdr]

theorem handleMsg_get (disk : Disk) (mem : Memory) {msg : Message} (l : Link)
    (h : msg.command = Command.GET.code) :
    handleMsg disk mem msg l = getHandler disk mem msg l := if_pos h

theorem handleMsg_put (disk : Disk) (mem : Memory) {msg : Message} (l : Link)
    (h : msg.command = Command.PUT.code) :
    handleMsg disk mem msg l = putHandler disk mem msg l := by
  rw [handleMsg, if_neg (by rw [h]; decide), if_pos h]

/-- A block of a size. -/
@[simp] theorem length_malloc (mem : Memory) (size : Nat) : (malloc mem size).length = size :=
  length_overlay ..

/-- The size in a header that announces a file. -/
theorem size_of_dataSize {msg : Message} {n : Nat} (hsize : n < 2 ^ 31)
    (h : msg.dataSize = BitVec.ofNat 32 n) : msg.size = n := by
  rw [Message.size, h, toInt_ofNat32 hsize]

/-- **REQUEST**: what `comm_put` sends is a header with the name and the size of the
    file, and the data. -/
theorem commPut_sends {disk : Disk} (mem : Memory) {name file : List Byte}
    (hopens : disk.opens name = some file) (hlen : name.length < maxFileNameLen)
    (hstr : IsString name) :
    ∃ msg, fnameString msg = some name ∧ msg.command = Command.PUT.code
      ∧ msg.dataSize = BitVec.ofNat 32 file.length
      ∧ commPut disk mem name = .ok (encode msg :: dataSends mem.heap file file.length) := by
  obtain ⟨msg, hmsg⟩ := fill_eq_some mem.old .PUT (BitVec.ofNat 32 file.length) hlen
  obtain ⟨hname, hcommand, hdata⟩ := fnameString_fill hlen hstr hmsg
  refine ⟨msg, hname, hcommand, hdata, ?_⟩
  rw [commPut, hopens]
  simp only [hmsg]

/-- **RESPONSE**: what `get_handler` sends for a file that it can open is a header with the
    name and the size of the file, and the data. -/
theorem getHandler_sends {disk : Disk} (mem : Memory) {msg : Message} {name file : List Byte}
    (l : Link) (hname : fnameString msg = some name) (hopens : disk.opens name = some file)
    (hlen : name.length < maxFileNameLen) (hstr : IsString name)
    (hsize : file.length < 2 ^ 31) :
    ∃ respMsg, fnameString respMsg = some name
      ∧ respMsg.dataSize = BitVec.ofNat 32 file.length
      ∧ getHandler disk mem msg l
        = .ok { ret := 0, sends := encode respMsg :: dataSends mem.heap file file.length
                stored := none, link := l } := by
  obtain ⟨respMsg, hresp⟩ := fill_eq_some mem.old .GET (BitVec.ofNat 32 file.length) hlen
  obtain ⟨hback, -, hdata⟩ := fnameString_fill hlen hstr hresp
  refine ⟨respMsg, hback, hdata, ?_⟩
  rw [getHandler, hname]
  simp only [hopens, hresp]
  rw [size_of_dataSize hsize hdata]

/-! ## The remainder -/

/-- `rem_bytes`, as it is passed to `recv`. -/
def remBytes (n : Int) : Nat := (BitVec.ofInt 32 (n.tmod socketioBufferSize)).toNat

/-- For a size that is not negative, the remainder is the one of arithmetic. -/
theorem remBytes_natCast (n : Nat) : remBytes n = n % socketioBufferSize :=
  ChatGet.toNat_tmod_natCast n

/-- A negative remainder is a request for almost 2^32 bytes. -/
theorem remBytes_cases (n : Int) :
    (0 ≤ n.tmod socketioBufferSize ∧ n.tmod socketioBufferSize = remBytes n)
      ∨ (n.tmod socketioBufferSize < 0 ∧ socketioBufferSize ≤ remBytes n) := by
  have hsize : (socketioBufferSize : Int) = 512 := rfl
  have hlow := Int.lt_tmod_of_pos n (show (0 : Int) < socketioBufferSize by decide)
  have hhigh := Int.tmod_lt_of_pos n (show (0 : Int) < socketioBufferSize by decide)
  rw [hsize] at hlow hhigh
  have hnat : (remBytes n : Int) = (n.tmod socketioBufferSize) % 2 ^ 32 := by
    rw [remBytes, BitVec.toNat_ofInt]
    exact Int.toNat_of_nonneg (Int.emod_nonneg _ (by decide))
  rw [hsize] at hnat ⊢
  have hbuf : socketioBufferSize = 512 := rfl
  rw [hbuf]
  omega

/-- **SERVER**: what `put_handler` does with what `comm_put` sends, by the remainder of
    whatever its `resp_msg` holds. -/
theorem putHandler_sent {disk : Disk} (mem : Memory) (heap : Int → Byte) {msg : Message}
    {name file : List Byte} (hname : fnameString msg = some name)
    (hcreates : disk.creates name = true) (hsize : file.length < 2 ^ 31)
    (hdata : msg.dataSize = BitVec.ofNat 32 file.length) :
    putHandler disk mem msg ⟨(dataSends heap file file.length).flatten, .pending⟩
      = if remainder file < remBytes mem.old.size then .error .waits
        else if chunks file = 0 ∧ remBytes mem.old.size ≠ 0 then .error .fault
        else .ok { ret := 0, sends := []
                   stored := some (name, file.take (chunksLen file)
                     ++ (malloc mem file.length).drop (chunksLen file))
                   link := ⟨(lastSent heap file).drop (remBytes mem.old.size), .pending⟩ } := by
  have hmsg := size_of_dataSize hsize hdata
  have hrun := recvAll_sent heap (mem.old.size.tmod socketioBufferSize) hsize
    (length_malloc mem file.length)
  rw [putHandler, hname, hmsg]
  simp only
  rw [if_pos hcreates, if_neg (Int.not_lt.mpr (Int.natCast_nonneg _)), Int.toNat_natCast,
    hrun, ← remBytes]
  by_cases hwait : remainder file < remBytes mem.old.size
  · rw [if_pos hwait, if_pos hwait]
  · rw [if_neg hwait, if_neg hwait]
    by_cases hfault : chunks file = 0 ∧ remBytes mem.old.size ≠ 0
    · rw [if_pos hfault, if_pos hfault]
    · rw [if_neg hfault, if_neg hfault]

/-- **CLIENT**: what `comm_get` does with what a successful `get_handler` sends. -/
theorem commGet_sent {disk : Disk} (mem : Memory) (heap : Int → Byte) {respMsg : Message}
    {name file : List Byte} (hname : fnameString respMsg = some name)
    (hcreates : disk.creates name = true) (hsize : file.length < 2 ^ 31)
    (hdata : respMsg.dataSize = BitVec.ofNat 32 file.length) :
    (commGet disk mem
        ⟨encode respMsg ++ (dataSends heap file file.length).flatten, .pending⟩).ending
      = if chunks file = 0 ∧ remainder file ≠ 0 then .stopped .fault
        else .returned true (some (name, file.take (chunksLen file)
          ++ (malloc mem file.length).drop (chunksLen file))) := by
  have hmsg := size_of_dataSize hsize hdata
  have hrun := recvAll_sent heap ((file.length : Int).tmod socketioBufferSize) hsize
    (length_malloc mem file.length)
  rw [← remBytes, remBytes_natCast, if_neg (Nat.lt_irrefl _)] at hrun
  rw [commGet, recv_header]
  simp only [decode_overlay, hmsg, Int.toNat_natCast]
  rw [if_neg (Int.not_lt.mpr (Int.natCast_nonneg _)), hrun]
  by_cases hfault : chunks file = 0 ∧ remainder file ≠ 0
  · rw [if_pos hfault, if_pos hfault]
  · rw [if_neg hfault, if_neg hfault, hname]
    simp only
    rw [if_pos hcreates]

end FtpHandlers
