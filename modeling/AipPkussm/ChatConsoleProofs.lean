import AipPkussm.ChatLabelProofs
import AipPkussm.IstreamProofs

/-! # The console of the chat client

    `console` in `Client.cc` reads words with `cin >>`, ids with `cin >>` into an
    `int`, and the text of a line with `gets`.  It looks neither at the flags of
    `cin` nor at the lengths of its buffers: a word or line that is too long is a
    fault here.

    What a user types is what the client does (`console_typed`): the console reads
    back every list of commands, and the text of a line keeps the blank in front of
    it.  After an id that is not a number the console is deaf
    (`console_not_number`): it sends every line that follows to everybody, also
    the line `quit`, and never stops.  At the end of its input it makes the last
    call again and again (`console_at_end`). -/

namespace ChatConsole

open LittleEndian ChatMessage ChatLabel Istream

/-- `MAX_COMMAND_LEN`. -/
def maxCommandLen : Nat := 32

/-- `MAX_DATA_SIZE`. -/
def maxDataSize : Nat := 512

/-- The words of the console. -/
def quitWord : List Byte := [113, 117, 105, 116]
def qWord : List Byte := [113]
def putWord : List Byte := [112, 117, 116]
def getWord : List Byte := [103, 101, 116]
def sendWord : List Byte := [115, 101, 110, 100]
def sdWord : List Byte := [115, 100]

/-- A buffer as a string. -/
def cString (buff : List Byte) : List Byte := buff.takeWhile (fun b => b ≠ 0)

/-- The functions that the console calls. -/
inductive Call where
  | conn (myName : List Byte) (myId : Int)
  | put (fname : List Byte)
  | get (fname : List Byte)
  | sendmsg (id : Int) (content : List Byte)
  deriving DecidableEq

/-- Standard input, and the buffers of `console`.  `msg_content` is a local of a
    branch: each time around it is the same memory. -/
structure Console where
  cin : Stream
  consoleComm : List Byte
  fname : List Byte
  msgContent : List Byte
  deriving DecidableEq

/-- One time around `while(true)`: the loop ends, memory outside a buffer is written,
    or it goes on, after a call or without one. -/
inductive Turn where
  | quit
  | fault
  | again (call : Option Call) (c : Console)
  deriving DecidableEq

/-- The branches for `put` and `get`. -/
def fileTurn (call : List Byte → Call) (c : Console) : Turn :=
  let (fname, cin) := extractWord c.cin c.fname
  if maxFileNameLen ≤ fname.length then .fault
  else .again (some (call (cString fname))) { c with cin := cin, fname := fname }

/-- The branch for `send` and `sd`. -/
def sendTurn (c : Console) : Turn :=
  let (toid, cin) := extractInt c.cin 0
  let (content, cin') := gets cin c.msgContent
  if maxDataSize ≤ content.length then .fault
  else .again (some (.sendmsg toid (cString content))) { c with cin := cin', msgContent := content }

/-- The branches for the word in `console_comm`. -/
def obey (c : Console) : Turn :=
  let comm := cString c.consoleComm
  if comm = quitWord ∨ comm = qWord then .quit
  else if comm = putWord then fileTurn .put c
  else if comm = getWord then fileTurn .get c
  else if comm = sendWord ∨ comm = sdWord then sendTurn c
  else .again none c

/-- One time around. -/
def turn (c : Console) : Turn :=
  let (comm, cin) := extractWord c.cin c.consoleComm
  if maxCommandLen ≤ comm.length then .fault
  else obey { c with cin := cin, consoleComm := comm }

/-- How far the console has come after some turns. -/
inductive Ending where
  | left
  | faulted
  | running (c : Console)
  deriving DecidableEq

/-- At most `n` times around: the calls, and the ending. -/
def turns : Nat → Console → List Call × Ending
  | 0, c => ([], .running c)
  | n + 1, c =>
      match turn c with
      | .quit => ([], .left)
      | .fault => ([], .faulted)
      | .again call c' => (call.toList ++ (turns n c').1, (turns n c').2)

/-- `console`: the name and the id, then the loop, at most `n` times around.  `comm`,
    `fname` and `content` are what the buffers hold before. -/
def console (n : Nat) (comm fname content input : List Byte) : List Call × Ending :=
  let (myName, cin) := extractWord (Stream.start input) []
  if maxFileNameLen ≤ myName.length then ([], .faulted)
  else
    let (myId, cin') := extractInt cin (-1)
    let r := turns n { cin := cin', consoleComm := comm, fname := fname, msgContent := content }
    (.conn (cString myName) myId :: r.1, r.2)

/-! ## What can be typed -/

/-- A word that fits the buffers. -/
structure Word where
  bytes : List Byte
  nonempty : bytes ≠ []
  printable : ∀ b ∈ bytes, isSpace b = false ∧ b ≠ 0
  short : bytes.length < maxFileNameLen

/-- A text that fits the buffer with the blank in front of it. -/
structure Text where
  bytes : List Byte
  oneLine : (10 : Byte) ∉ bytes
  nonzero : (0 : Byte) ∉ bytes
  short : (32 :: bytes).length < maxDataSize

/-- A command as it is typed. -/
inductive Typed where
  | put (fname : Word)
  | get (fname : Word)
  | send (id : Fin (2 ^ 31)) (text : Text)
  | sd (id : Fin (2 ^ 31)) (text : Text)

/-- The line of a command. -/
def Typed.line : Typed → List Byte
  | .put fname => putWord ++ 32 :: (fname.bytes ++ [10])
  | .get fname => getWord ++ 32 :: (fname.bytes ++ [10])
  | .send id text => sendWord ++ 32 :: (decimal id ++ 32 :: (text.bytes ++ [10]))
  | .sd id text => sdWord ++ 32 :: (decimal id ++ 32 :: (text.bytes ++ [10]))

/-- What the command leaves in the buffers. -/
def Typed.Left (c : Console) : Typed → Prop
  | .put fname => c.consoleComm = putWord ∧ c.fname = fname.bytes
  | .get fname => c.consoleComm = getWord ∧ c.fname = fname.bytes
  | .send _ text => c.consoleComm = sendWord ∧ c.msgContent = 32 :: text.bytes
  | .sd _ text => c.consoleComm = sdWord ∧ c.msgContent = 32 :: text.bytes

/-- What the command is for; a text is sent with the blank in front of it. -/
def Typed.call : Typed → Call
  | .put fname => .put fname.bytes
  | .get fname => .get fname.bytes
  | .send id text => .sendmsg (id : Nat) (32 :: text.bytes)
  | .sd id text => .sendmsg (id : Nat) (32 :: text.bytes)

/-! ## Numbers -/

theorem decimal_eq (n : Nat) :
    decimal n = if n < 10 then [BitVec.ofNat 8 (Nat.digitChar n).toNat]
      else decimal (n / 10) ++ [BitVec.ofNat 8 (Nat.digitChar (n % 10)).toNat] := by
  rw [decimal, Nat.toDigits_eq_if (by decide)]
  split
  · rfl
  · rw [List.map_append]
    rfl

/-- The digits, as bytes. -/
theorem digitChar_byte {d : Nat} (h : d < 10) :
    BitVec.ofNat 8 (Nat.digitChar d).toNat = BitVec.ofNat 8 (48 + d) := by
  have hall : ∀ d < 10, BitVec.ofNat 8 (Nat.digitChar d).toNat = BitVec.ofNat 8 (48 + d) := by
    decide
  exact hall d h

theorem toNat_digit {d : Nat} (h : d < 10) : (BitVec.ofNat 8 (48 + d)).toNat = 48 + d := by
  rw [BitVec.toNat_ofNat]
  omega

/-- A number in decimal is digits. -/
theorem isDigit_decimal (n : Nat) : ∀ b ∈ decimal n, isDigit b = true := by
  have hdigit : ∀ d < 10, isDigit (BitVec.ofNat 8 (48 + d)) = true := by decide
  induction n using Nat.strong_induction_on with
  | _ n ih =>
      rw [decimal_eq]
      split
      · next hlt =>
        intro b hb
        rw [List.mem_singleton.mp hb, digitChar_byte hlt]
        exact hdigit n hlt
      · next hge =>
        intro b hb
        rcases List.mem_append.mp hb with hfront | hlast
        · exact ih (n / 10) (by omega) b hfront
        · have hmod : n % 10 < 10 := Nat.mod_lt _ (by omega)
          rw [List.mem_singleton.mp hlast, digitChar_byte hmod]
          exact hdigit _ hmod

/-- **NUMBER**: a number in decimal is read back. -/
theorem number_decimal (n : Nat) : number (decimal n) = n := by
  induction n using Nat.strong_induction_on with
  | _ n ih =>
      rw [decimal_eq]
      split
      · next hlt =>
        rw [digitChar_byte hlt]
        show 10 * 0 + ((BitVec.ofNat 8 (48 + n)).toNat - 48) = n
        rw [toNat_digit hlt]
        omega
      · next hge =>
        have hmod : n % 10 < 10 := Nat.mod_lt _ (by omega)
        have hfront : number (decimal (n / 10)) = n / 10 := ih (n / 10) (by omega)
        rw [digitChar_byte hmod, number, List.foldl_append]
        show 10 * number (decimal (n / 10)) + ((BitVec.ofNat 8 (48 + n % 10)).toNat - 48) = n
        rw [hfront, toNat_digit hmod]
        omega

/-- A number has nothing but digits in it. -/
theorem not_mem_decimal {c : Byte} (hc : isDigit c = false) (n : Nat) : c ∉ decimal n := by
  intro hmem
  rw [isDigit_decimal n c hmem] at hc
  cases hc

/-- A number has at least one digit. -/
theorem decimal_ne_nil (n : Nat) : decimal n ≠ [] :=
  List.ne_nil_of_length_pos (length_decimal_pos n)

/-- A number is told by its digits. -/
theorem decimal_inj {n m : Nat} (h : decimal n = decimal m) : n = m := by
  rw [← number_decimal n, h, number_decimal]

/-- What is neither a digit nor a sign is in no printed `int`. -/
theorem not_mem_formatInt {c : Byte} (hc : isDigit c = false) (hsign : c ≠ 45) (v : BitVec 32) :
    c ∉ formatInt v := by
  rw [formatInt]
  split
  · intro hmem
    rcases List.mem_cons.mp hmem with heq | hdigits
    · exact hsign heq
    · exact not_mem_decimal hc _ hdigits
  · exact not_mem_decimal hc _

/-- No two `int`s are printed alike. -/
theorem formatInt_inj {v w : BitVec 32} (h : formatInt v = formatInt w) : v = w := by
  have hsign : ∀ n l, decimal n ≠ 45 :: l := by
    intro n l heq
    exact not_mem_decimal (c := 45) rfl n (heq ▸ List.mem_cons_self ..)
  refine BitVec.eq_of_toInt_eq ?_
  rw [formatInt, formatInt] at h
  split at h
  · next hv =>
    split at h
    · next hw =>
      have habs := decimal_inj (List.cons.inj h).2
      omega
    · exact absurd h.symm (hsign _ _)
  · next hv =>
    split at h
    · exact absurd h (hsign _ _)
    · next hw =>
      have habs := decimal_inj h
      omega

/-! ## One command -/

/-- A string without a zero byte fills its buffer. -/
theorem cString_of_nonzero {l : List Byte} (h : (0 : Byte) ∉ l) : cString l = l := by
  refine List.takeWhile_eq_self_iff.mpr (fun b hb => decide_eq_true ?_)
  rintro rfl
  exact h hb

/-- A turn that goes on, before the others. -/
theorem turns_again {c c' : Console} {call : Call} (h : turn c = .again (some call) c') (n : Nat) :
    turns (n + 1) c = (call :: (turns n c').1, (turns n c').2) := by
  rw [turns, h]
  rfl

section Command

variable {c : Console} {rest : List Byte}

/-- The branch for `put` and `get` reads its file name. -/
theorem fileTurn_word (call : List Byte → Call) (fname : Word) (hgood : c.cin.good = true)
    (hin : c.cin.input = 32 :: (fname.bytes ++ 10 :: rest)) :
    ∃ c', fileTurn call c = .again (some (call fname.bytes)) c' ∧ Ready c'.cin rest
      ∧ c'.consoleComm = c.consoleComm ∧ c'.fname = fname.bytes := by
  have hready : Ready c.cin (fname.bytes ++ 10 :: rest) := ⟨hgood, [32], hin, by decide⟩
  have hread := hready.extractWord fname.nonempty (fun b hb => (fname.printable b hb).1) rfl c.fname
  have hzero : (0 : Byte) ∉ fname.bytes := fun h0 => (fname.printable 0 h0).2 rfl
  refine ⟨{ c with cin := c.cin.goOn (10 :: rest), fname := fname.bytes }, ?_,
    ⟨hgood, [10], rfl, by decide⟩, rfl, rfl⟩
  simp only [fileTurn, hread]
  rw [if_neg (Nat.not_le.mpr fname.short), cString_of_nonzero hzero]

/-- The branch for `send` and `sd` reads its id and its text. -/
theorem sendTurn_text (id : Fin (2 ^ 31)) (text : Text) (hgood : c.cin.good = true)
    (hin : c.cin.input = 32 :: (decimal id ++ 32 :: (text.bytes ++ 10 :: rest))) :
    ∃ c', sendTurn c = .again (some (.sendmsg (id : Nat) (32 :: text.bytes))) c'
      ∧ Ready c'.cin rest ∧ c'.consoleComm = c.consoleComm
      ∧ c'.msgContent = 32 :: text.bytes := by
  have hne : decimal id ≠ [] := decimal_ne_nil id
  have hint : extractInt c.cin 0
      = (((id : Nat) : Int), c.cin.goOn (32 :: (text.bytes ++ 10 :: rest))) := by
    have hfits : number (decimal id) < 2 ^ 31 := by
      rw [number_decimal]
      exact id.isLt
    have hin' : c.cin.input = [32] ++ (decimal id ++ 32 :: (text.bytes ++ 10 :: rest)) := hin
    have hread := extractInt_append hgood hin' (by decide) hne (isDigit_decimal id) rfl hfits 0
    rwa [number_decimal] at hread
  have hline : (10 : Byte) ∉ (32 :: text.bytes) := by
    intro h10
    rcases List.mem_cons.mp h10 with heq | hmem
    · exact absurd heq (by decide)
    · exact text.oneLine hmem
  have hzero : (0 : Byte) ∉ (32 :: text.bytes) := by
    intro h0
    rcases List.mem_cons.mp h0 with heq | hmem
    · exact absurd heq (by decide)
    · exact text.nonzero hmem
  have hgets : gets (c.cin.goOn (32 :: (text.bytes ++ 10 :: rest))) c.msgContent
      = (32 :: text.bytes, (c.cin.goOn (32 :: (text.bytes ++ 10 :: rest))).goOn rest) :=
    gets_append rfl hline c.msgContent
  refine ⟨{ c with cin := c.cin.goOn rest, msgContent := 32 :: text.bytes }, ?_,
    ⟨hgood, [], rfl, fun _ hb => absurd hb List.not_mem_nil⟩, rfl, rfl⟩
  simp only [sendTurn, hint, hgets]
  rw [if_neg (Nat.not_le.mpr text.short), cString_of_nonzero hzero]
  rfl

/-- After its command word the console goes to the branch. -/
theorem turn_of_word {word : List Byte} {b : Byte} (h : Ready c.cin (word ++ b :: rest))
    (hne : word ≠ []) (hword : ∀ b ∈ word, isSpace b = false) (hb : isSpace b = true)
    (hshort : word.length < maxCommandLen) :
    turn c = obey { c with cin := c.cin.goOn (b :: rest), consoleComm := word } := by
  simp only [turn, h.extractWord hne hword hb]
  exact if_neg (Nat.not_le.mpr hshort)

/-- **TURN**: a command is read back, and the rest of the input stays. -/
theorem turn_line (cmd : Typed) (h : Ready c.cin (cmd.line ++ rest)) :
    ∃ c', turn c = .again (some cmd.call) c' ∧ Ready c'.cin rest ∧ cmd.Left c' := by
  have hgood := h.good
  cases cmd with
  | put fname =>
      have hin : (Typed.put fname).line ++ rest
          = putWord ++ 32 :: (fname.bytes ++ 10 :: rest) := by
        simp [Typed.line]
      rw [hin] at h
      rw [turn_of_word h (by decide) (by decide) rfl (by decide)]
      exact fileTurn_word .put fname hgood rfl
  | get fname =>
      have hin : (Typed.get fname).line ++ rest
          = getWord ++ 32 :: (fname.bytes ++ 10 :: rest) := by
        simp [Typed.line]
      rw [hin] at h
      rw [turn_of_word h (by decide) (by decide) rfl (by decide)]
      exact fileTurn_word .get fname hgood rfl
  | send id text =>
      have hin : (Typed.send id text).line ++ rest
          = sendWord ++ 32 :: (decimal id ++ 32 :: (text.bytes ++ 10 :: rest)) := by
        simp [Typed.line]
      rw [hin] at h
      rw [turn_of_word h (by decide) (by decide) rfl (by decide)]
      exact sendTurn_text id text hgood rfl
  | sd id text =>
      have hin : (Typed.sd id text).line ++ rest
          = sdWord ++ 32 :: (decimal id ++ 32 :: (text.bytes ++ 10 :: rest)) := by
        simp [Typed.line]
      rw [hin] at h
      rw [turn_of_word h (by decide) (by decide) rfl (by decide)]
      exact sendTurn_text id text hgood rfl

/-- **LOOP**: a list of commands is read back, and the console goes on behind it. -/
theorem turns_lines (cmds : List Typed) : ∀ c : Console,
    Ready c.cin (cmds.flatMap Typed.line ++ rest) →
    ∃ c', Ready c'.cin rest ∧ ∀ n, turns (cmds.length + n) c
      = (cmds.map Typed.call ++ (turns n c').1, (turns n c').2) := by
  induction cmds with
  | nil =>
      intro c h
      refine ⟨c, h, fun n => ?_⟩
      rw [List.length_nil, Nat.zero_add]
      rfl
  | cons cmd cmds ih =>
      intro c h
      rw [List.flatMap_cons, List.append_assoc] at h
      obtain ⟨c₁, hturn, hready, -⟩ := turn_line cmd h
      obtain ⟨c', hready', hturns⟩ := ih c₁ hready
      refine ⟨c', hready', fun n => ?_⟩
      rw [List.length_cons, Nat.add_right_comm, turns_again hturn, hturns n]
      rfl

/-- `quit` ends the loop. -/
theorem turns_quit (h : Ready c.cin (quitWord ++ 10 :: rest)) (n : Nat) :
    turns (n + 1) c = ([], .left) := by
  have hquit : turn c = .quit := turn_of_word h (by decide) (by decide) rfl (by decide)
  rw [turns, hquit]

end Command

/-- A name and an id as they are typed. -/
def login (myName : Word) (myId : Fin (2 ^ 31)) : List Byte :=
  myName.bytes ++ 10 :: (decimal myId ++ [10])

/-- **LOGIN**: the name and the id are read back, and the loop begins behind them. -/
theorem console_login (myName : Word) (myId : Fin (2 ^ 31)) (comm fname content rest : List Byte) :
    ∃ c, Ready c.cin rest ∧ ∀ n, console n comm fname content (login myName myId ++ rest)
      = (.conn myName.bytes (myId : Nat) :: (turns n c).1, (turns n c).2) := by
  let start := Stream.start (login myName myId ++ rest)
  have hin : start.input = [] ++ (myName.bytes ++ 10 :: (decimal myId ++ 10 :: rest)) := by
    simp [start, Stream.start, login]
  have hname : extractWord (Stream.start (login myName myId ++ rest)) []
      = (myName.bytes, start.goOn (10 :: (decimal myId ++ 10 :: rest))) :=
    extractWord_append rfl hin (fun _ hb => absurd hb List.not_mem_nil) myName.nonempty
      (fun b hb => (myName.printable b hb).1) rfl []
  have hfits : number (decimal myId) < 2 ^ 31 := by
    rw [number_decimal]
    exact myId.isLt
  have hinId : (start.goOn (10 :: (decimal myId ++ 10 :: rest))).input
      = [10] ++ (decimal myId ++ 10 :: rest) := rfl
  have hid := extractInt_append rfl hinId (by decide)
    (decimal_ne_nil myId) (isDigit_decimal myId) rfl hfits (-1)
  have hzero : (0 : Byte) ∉ myName.bytes := fun h0 => (myName.printable 0 h0).2 rfl
  rw [number_decimal] at hid
  refine ⟨{ cin := start.goOn (10 :: rest), consoleComm := comm, fname := fname
            msgContent := content }, ⟨rfl, [10], rfl, by decide⟩, fun n => ?_⟩
  simp only [console, hname, hid]
  rw [if_neg (Nat.not_le.mpr myName.short), cString_of_nonzero hzero]
  rfl

/-- **ROUND TRIP**: what is typed is what the client does.  The calls are those of the
    commands in their order, whatever the buffers hold before and whatever comes after
    `quit`. -/
theorem console_typed (myName : Word) (myId : Fin (2 ^ 31)) (cmds : List Typed)
    (comm fname content rest : List Byte) (n : Nat) :
    console (cmds.length + (n + 1)) comm fname content
        (login myName myId ++ (cmds.flatMap Typed.line ++ (quitWord ++ 10 :: rest)))
      = (.conn myName.bytes (myId : Nat) :: cmds.map Typed.call, .left) := by
  obtain ⟨c, hready, hconsole⟩ := console_login myName myId comm fname content
    (cmds.flatMap Typed.line ++ (quitWord ++ 10 :: rest))
  obtain ⟨c', hready', hturns⟩ := turns_lines cmds c hready
  rw [hconsole, hturns, turns_quit hready', List.append_nil]

/-! ## After an id that is not a number -/

/-- The lines that `gets` reads one after another into a buffer that holds `last`. -/
def heard : Nat → List Byte → List Byte → List (List Byte)
  | 0, _, _ => []
  | n + 1, input, last =>
      let (line, s) := gets (Stream.start input) last
      line :: heard n s.input line

/-- No line fills the buffer. -/
def ShortLines (input : List Byte) : Prop :=
  ∀ before line after, input = before ++ (line ++ after) → (10 : Byte) ∉ line →
    line.length < maxDataSize

theorem ShortLines.suffix {input later : List Byte} (h : ShortLines input)
    (hs : later <:+ input) : ShortLines later := by
  obtain ⟨front, rfl⟩ := hs
  rintro before line after rfl hline
  exact h (front ++ before) line after (List.append_assoc ..).symm hline

/-- An input that fits the array has no line that does not. -/
theorem shortLines_of_length {input : List Byte} (h : input.length < maxDataSize) :
    ShortLines input := by
  rintro before line after rfl -
  simp only [List.length_append] at h
  omega

/-- A line that `gets` reads is short, and so are those after it. -/
theorem shortLines_gets {s : Stream} {old : List Byte} (h : ShortLines s.input)
    (hold : old.length < maxDataSize) :
    (gets s old).1.length < maxDataSize ∧ ShortLines (gets s old).2.input := by
  rw [gets]
  split
  · exact ⟨hold, h⟩
  · refine ⟨h [] _ _ (List.takeWhile_append_dropWhile ..).symm ?_, h.suffix ?_⟩
    · intro hmem
      have hstop := List.mem_takeWhile_imp hmem
      exact absurd hstop (by decide)
    · exact (List.tail_suffix _).trans (List.dropWhile_suffix _)

/-- The console has `send` or `sd` in its buffer, and `cin` has failed. -/
structure Deaf (c : Console) : Prop where
  failed : c.cin.good = false
  word : c.consoleComm = sendWord ∨ c.consoleComm = sdWord
  content : c.msgContent.length < maxDataSize
  lines : ShortLines c.cin.input

/-- The branch that a deaf console takes. -/
theorem obey_send {c : Console} (h : c.consoleComm = sendWord ∨ c.consoleComm = sdWord) :
    obey c = sendTurn c := by
  rcases h with h | h
  · rw [obey, h]
    rfl
  · rw [obey, h]
    rfl

/-- **TURN**: a deaf console sends the next line to everybody and stays deaf. -/
theorem Deaf.turn {c : Console} (h : Deaf c) :
    ∃ c', ChatConsole.turn c
        = .again (some (.sendmsg 0 (cString (gets (Stream.start c.cin.input) c.msgContent).1))) c'
      ∧ Deaf c' ∧ c'.cin.input = (gets (Stream.start c.cin.input) c.msgContent).2.input
      ∧ c'.msgContent = (gets (Stream.start c.cin.input) c.msgContent).1 := by
  let bad : Stream := { c.cin with failbit := true }
  have hbad : bad.good = false := Bool.and_false _
  obtain ⟨hline, hrest⟩ := gets_congr (s := bad) (r := Stream.start c.cin.input) rfl c.msgContent
  have hlines : ShortLines bad.input := h.lines
  obtain ⟨hshort, hlater⟩ := shortLines_gets hlines h.content
  have hcomm : c.consoleComm.length < maxCommandLen := by
    rcases h.word with hw | hw
    · rw [hw]
      decide
    · rw [hw]
      decide
  have hturn : ChatConsole.turn c = sendTurn { c with cin := bad } := by
    simp only [ChatConsole.turn, extractWord_bad h.failed]
    rw [if_neg (Nat.not_le.mpr hcomm)]
    exact obey_send h.word
  refine ⟨{ c with cin := (gets bad c.msgContent).2, msgContent := (gets bad c.msgContent).1 },
    ?_, ⟨?_, h.word, hshort, hlater⟩, hrest, hline⟩
  · rw [hturn, ← hline]
    simp only [sendTurn, extractInt_bad hbad]
    exact if_neg (Nat.not_le.mpr hshort)
  · rw [good_gets]
    exact hbad

/-- **LOOP**: a deaf console sends every line to everybody, and nothing stops it. -/
theorem turns_deaf (n : Nat) : ∀ c : Console, Deaf c →
    ∃ c', turns n c = ((heard n c.cin.input c.msgContent).map
      (fun line => .sendmsg 0 (cString line)), .running c') := by
  induction n with
  | zero => exact fun c _ => ⟨c, rfl⟩
  | succ n ih =>
      intro c h
      obtain ⟨c₁, hturn, hdeaf, hinput, hcontent⟩ := h.turn
      obtain ⟨c', hturns⟩ := ih c₁ hdeaf
      refine ⟨c', ?_⟩
      rw [turns_again hturn, hturns, hinput, hcontent]
      rfl

/-- An id that is not a number makes the console deaf. -/
theorem turn_not_number {c : Console} {b : Byte} {rest : List Byte}
    (h : Ready c.cin (sendWord ++ 32 :: b :: rest)) (hb : isSpace b = false)
    (hdigit : isDigit b = false) (hsign : b ≠ 43 ∧ b ≠ 45) (hlines : ShortLines (b :: rest)) :
    ∃ c', turn c
        = .again (some (.sendmsg 0 (cString (gets (Stream.start (b :: rest)) []).1))) c'
      ∧ Deaf c' ∧ c'.cin.input = (gets (Stream.start (b :: rest)) []).2.input
      ∧ c'.msgContent = (gets (Stream.start (b :: rest)) []).1 := by
  let failed : Stream := { input := b :: rest, eofbit := false, failbit := true }
  -- the input is not empty, so what the buffer holds does not matter
  have hgets : gets failed c.msgContent = gets failed [] := rfl
  obtain ⟨hline, hrest⟩ := gets_congr (s := failed) (r := Stream.start (b :: rest)) rfl []
  have hfailed : ShortLines failed.input := hlines
  have hempty : ([] : List Byte).length < maxDataSize := by decide
  obtain ⟨hshort, hlater⟩ := shortLines_gets hfailed hempty
  have hgood : (c.cin.goOn (32 :: b :: rest)).good = true := h.good
  have hin : (c.cin.goOn (32 :: b :: rest)).input = [32] ++ b :: rest := rfl
  have hint : extractInt (c.cin.goOn (32 :: b :: rest)) 0 = (0, failed) :=
    extractInt_not_number hgood hin (by decide) hb hdigit hsign 0
  refine ⟨{ c with cin := (gets failed []).2, consoleComm := sendWord
                   msgContent := (gets failed []).1 },
    ?_, ⟨?_, Or.inl rfl, hshort, hlater⟩, hrest, hline⟩
  · rw [turn_of_word h (by decide) (by decide) rfl (by decide), obey_send (Or.inl rfl), ← hline]
    simp only [sendTurn, hint, hgets]
    exact if_neg (Nat.not_le.mpr hshort)
  · rw [good_gets]
    rfl

/-- **DEAF**: after an id that begins with neither a digit nor a sign, the console sends
    what follows on this line, and every later line, to everybody.  It obeys nothing any
    more, and does not end. -/
theorem console_not_number (myName : Word) (myId : Fin (2 ^ 31)) (cmds : List Typed)
    {b : Byte} {rest : List Byte} (hb : isSpace b = false) (hdigit : isDigit b = false)
    (hsign : b ≠ 43 ∧ b ≠ 45) (hlines : ShortLines (b :: rest))
    (comm fname content : List Byte) (n : Nat) :
    ∃ c', console (cmds.length + n) comm fname content (login myName myId
        ++ (cmds.flatMap Typed.line ++ (sendWord ++ 32 :: b :: rest)))
      = (.conn myName.bytes (myId : Nat) :: (cmds.map Typed.call
          ++ (heard n (b :: rest) []).map (fun line => .sendmsg 0 (cString line))),
        .running c') := by
  obtain ⟨c, hready, hconsole⟩ := console_login myName myId comm fname content
    (cmds.flatMap Typed.line ++ (sendWord ++ 32 :: b :: rest))
  obtain ⟨c₁, hready₁, hturns⟩ := turns_lines cmds c hready
  rw [hconsole, hturns]
  cases n with
  | zero => exact ⟨c₁, rfl⟩
  | succ n =>
      obtain ⟨c₂, hturn, hdeaf, hinput, hcontent⟩ :=
        turn_not_number hready₁ hb hdigit hsign hlines
      obtain ⟨c', hrun⟩ := turns_deaf n c₂ hdeaf
      refine ⟨c', ?_⟩
      rw [turns_again hturn, hrun, hinput, hcontent]
      rfl

/-- A name. -/
def alice : Word where
  bytes := [97, 108, 105, 99, 101]
  nonempty := List.cons_ne_nil _ _
  printable := by decide
  short := by decide

/-- After `send bob hi` the line `quit` is a text like the one before. -/
theorem console_not_number_quit : ∃ c', console 2 [] [] []
      (login alice 7 ++ (sendWord ++ 32 :: 98 :: [111, 98, 32, 104, 105, 10] ++ quitWord ++ [10]))
    = ([.conn alice.bytes 7, .sendmsg 0 [98, 111, 98, 32, 104, 105], .sendmsg 0 quitWord],
        .running c') :=
  console_not_number alice 7 [] rfl rfl (by decide) (shortLines_of_length (by decide)) [] [] [] 2

/-! ## At the end of the input -/

/-- What the console does over again when it finds nothing after a command: the same
    with a file, and a text goes to everybody. -/
def Typed.again : Typed → Call
  | .put fname => .put fname.bytes
  | .get fname => .get fname.bytes
  | .send _ text => .sendmsg 0 (32 :: text.bytes)
  | .sd _ text => .sendmsg 0 (32 :: text.bytes)

/-- The input is at its end, and the buffers hold what `cmd` has left in them. -/
structure Over (cmd : Typed) (c : Console) : Prop where
  bad : c.cin.good = false
  input : c.cin.input = []
  left : cmd.Left c

section Over

variable {c : Console}

/-- A file branch that finds nothing to read uses the name that its buffer has. -/
theorem fileTurn_over (call : List Byte → Call) (fname : Word) (hbad : c.cin.good = false)
    (hin : c.cin.input = []) (hname : c.fname = fname.bytes) :
    ∃ c', fileTurn call c = .again (some (call fname.bytes)) c' ∧ c'.cin.good = false
      ∧ c'.cin.input = [] ∧ c'.consoleComm = c.consoleComm ∧ c'.fname = fname.bytes := by
  have hzero : (0 : Byte) ∉ fname.bytes := fun h0 => (fname.printable 0 h0).2 rfl
  refine ⟨{ c with cin := { c.cin with failbit := true } }, ?_, Bool.and_false _, hin, rfl, hname⟩
  simp only [fileTurn, extractWord_bad hbad, hname]
  rw [if_neg (Nat.not_le.mpr fname.short), cString_of_nonzero hzero]

/-- After the end of the input a `send` keeps the text it was typed with, and its id is 0. -/
theorem sendTurn_over (text : Text) (hbad : c.cin.good = false) (hin : c.cin.input = [])
    (hcontent : c.msgContent = 32 :: text.bytes) :
    ∃ c', sendTurn c = .again (some (.sendmsg 0 (32 :: text.bytes))) c' ∧ c'.cin.good = false
      ∧ c'.cin.input = [] ∧ c'.consoleComm = c.consoleComm
      ∧ c'.msgContent = 32 :: text.bytes := by
  have hzero : (0 : Byte) ∉ (32 :: text.bytes) := by
    intro h0
    rcases List.mem_cons.mp h0 with heq | hmem
    · exact absurd heq (by decide)
    · exact text.nonzero hmem
  let bad : Stream := { c.cin with failbit := true }
  have hint : extractInt c.cin 0 = (0, bad) := extractInt_bad hbad 0
  have hnil : bad.input = [] := hin
  have hgets : gets bad c.msgContent = (32 :: text.bytes, bad) := by
    rw [gets_end hnil, hcontent]
  refine ⟨{ c with cin := bad, msgContent := 32 :: text.bytes }, ?_, Bool.and_false _, hin, rfl,
    rfl⟩
  simp only [sendTurn, hint, hgets]
  rw [if_neg (Nat.not_le.mpr text.short), cString_of_nonzero hzero]

/-- The word of the last command leads to its branch again. -/
theorem obey_over {cmd : Typed} (h : Over cmd c) :
    ∃ c', obey c = .again (some cmd.again) c' ∧ Over cmd c' := by
  obtain ⟨hbad, hin, hleft⟩ := h
  cases cmd with
  | put fname =>
      obtain ⟨hcomm, hleft⟩ := hleft
      obtain ⟨c', hturn, hbad', hin', hcomm', hleft'⟩ := fileTurn_over .put fname hbad hin hleft
      have hobey : obey c = fileTurn .put c := by
        rw [obey, hcomm]
        rfl
      exact ⟨c', hobey.trans hturn, hbad', hin', hcomm'.trans hcomm, hleft'⟩
  | get fname =>
      obtain ⟨hcomm, hleft⟩ := hleft
      obtain ⟨c', hturn, hbad', hin', hcomm', hleft'⟩ := fileTurn_over .get fname hbad hin hleft
      have hobey : obey c = fileTurn .get c := by
        rw [obey, hcomm]
        rfl
      exact ⟨c', hobey.trans hturn, hbad', hin', hcomm'.trans hcomm, hleft'⟩
  | send id text =>
      obtain ⟨hcomm, hleft⟩ := hleft
      obtain ⟨c', hturn, hbad', hin', hcomm', hleft'⟩ := sendTurn_over text hbad hin hleft
      exact ⟨c', (obey_send (Or.inl hcomm)).trans hturn, hbad', hin', hcomm'.trans hcomm, hleft'⟩
  | sd id text =>
      obtain ⟨hcomm, hleft⟩ := hleft
      obtain ⟨c', hturn, hbad', hin', hcomm', hleft'⟩ := sendTurn_over text hbad hin hleft
      exact ⟨c', (obey_send (Or.inr hcomm)).trans hturn, hbad', hin', hcomm'.trans hcomm, hleft'⟩

/-- The word of a command fits its buffer. -/
theorem Typed.Left.short {cmd : Typed} (h : cmd.Left c) :
    c.consoleComm.length < maxCommandLen := by
  have hcomm : c.consoleComm ∈ [putWord, getWord, sendWord, sdWord] := by
    cases cmd with
    | put fname => simp [h.1]
    | get fname => simp [h.1]
    | send id text => simp [h.1]
    | sd id text => simp [h.1]
  have hall : ∀ word ∈ [putWord, getWord, sendWord, sdWord], word.length < maxCommandLen := by
    decide
  exact hall _ hcomm

/-- A time around that reads no word obeys the old one. -/
theorem turn_of_unread {s : Stream} (hread : extractWord c.cin c.consoleComm = (c.consoleComm, s))
    (hshort : c.consoleComm.length < maxCommandLen) : turn c = obey { c with cin := s } := by
  simp only [turn, hread]
  exact if_neg (Nat.not_le.mpr hshort)

/-- **TURN**: at the end of the input the last command is obeyed again. -/
theorem turn_end {cmd : Typed} (h : Ready c.cin []) (hleft : cmd.Left c) :
    ∃ c', turn c = .again (some cmd.again) c' ∧ Over cmd c' := by
  rw [turn_of_unread (h.extractWord_end c.consoleComm) hleft.short]
  exact obey_over ⟨rfl, rfl, hleft⟩

/-- **TURN**: after the end of the input the last command is obeyed again each time. -/
theorem turn_over {cmd : Typed} (h : Over cmd c) :
    ∃ c', turn c = .again (some cmd.again) c' ∧ Over cmd c' := by
  rw [turn_of_unread (extractWord_bad h.bad c.consoleComm) h.left.short]
  exact obey_over ⟨Bool.and_false _, h.input, h.left⟩

end Over

/-- **LOOP**: nothing stops it. -/
theorem turns_over {cmd : Typed} (n : Nat) : ∀ c : Console, Over cmd c →
    ∃ c', turns n c = (List.replicate n cmd.again, .running c') := by
  induction n with
  | zero => exact fun c _ => ⟨c, rfl⟩
  | succ n ih =>
      intro c h
      obtain ⟨c₁, hturn, hover⟩ := turn_over h
      obtain ⟨c', hturns⟩ := ih c₁ hover
      refine ⟨c', ?_⟩
      rw [turns_again hturn, hturns]
      rfl

/-- **END**: where the input ends without `quit`, the console makes its last call again
    and again, a text to everybody whomever it was for. -/
theorem console_at_end (myName : Word) (myId : Fin (2 ^ 31)) (cmds : List Typed) (cmd : Typed)
    (comm fname content : List Byte) (n : Nat) :
    ∃ c', console (cmds.length + (n + 1)) comm fname content
        (login myName myId ++ (cmds.flatMap Typed.line ++ cmd.line))
      = (.conn myName.bytes (myId : Nat)
          :: (cmds.map Typed.call ++ cmd.call :: List.replicate n cmd.again), .running c') := by
  obtain ⟨c, hready, hconsole⟩ := console_login myName myId comm fname content
    (cmds.flatMap Typed.line ++ cmd.line)
  obtain ⟨c₁, hready₁, hturns⟩ := turns_lines cmds c hready
  rw [← List.append_nil cmd.line] at hready₁
  obtain ⟨c₂, hturn, hready₂, hleft⟩ := turn_line cmd hready₁
  rw [hconsole, hturns, turns_again hturn]
  cases n with
  | zero => exact ⟨c₂, rfl⟩
  | succ n =>
      obtain ⟨c₃, hagain, hover⟩ := turn_end hready₂ hleft
      obtain ⟨c', hrun⟩ := turns_over n c₃ hover
      refine ⟨c', ?_⟩
      rw [turns_again hagain, hrun]
      rfl

end ChatConsole
