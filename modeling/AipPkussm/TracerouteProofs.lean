import AipPkussm.LittleEndianProofs
import AipPkussm.TransitionProofs

/-! # Traceroute

    The two loops of `main`: the outer one sends three probes for each hop, the
    inner one takes answers from a raw socket until `select` has waited for one
    second.  The answers are read where they lie in the global buffer, which
    keeps the bytes of earlier datagrams behind a short one.

    What the rest of the development needs of a step is `rule_of_traceStep`.  The
    times are left out; they go into the end of a printed line and nowhere else. -/

namespace Traceroute

open LittleEndian Transition

/-! ## Packet.cc -/

/-- `class Packet`, without the sum of the times. -/
@[ext] structure Packet where
  ip : List Byte
  ttl : Int
  came : Int
  deriving DecidableEq

/-- What the two numbers of a `Packet` are before a constructor sets them. -/
structure Junk where
  ttl : Int
  came : Int

/-- `Packet::Packet(int t)`. -/
def newPacket (t : Nat) : Packet := ⟨[], t, 0⟩

/-- `Packet::Packet()`.  The `Packet(0)` in its body is another object. -/
def defaultPacket (junk : Junk) : Packet := ⟨[], junk.ttl, junk.came⟩

namespace Packet

def isFull (p : Packet) : Bool := p.came == 3

def isFilled (p : Packet) : Bool := decide (p.came > 0)

def setIP (p : Packet) (ipaddress : List Byte) : Packet :=
  if p.ip = [] then { p with ip := ipaddress }
  else if p.ip ≠ ipaddress then { p with ip := p.ip ++ 32 :: ipaddress }
  else p

def signNew (p : Packet) : Packet := { p with came := p.came + 1 }

@[simp] theorem setIP_ttl (p : Packet) (ipaddress : List Byte) :
    (p.setIP ipaddress).ttl = p.ttl := by
  rw [setIP]
  split
  · rfl
  · split <;> rfl

@[simp] theorem setIP_came (p : Packet) (ipaddress : List Byte) :
    (p.setIP ipaddress).came = p.came := by
  rw [setIP]
  split
  · rfl
  · split <;> rfl

theorem isFull_iff (p : Packet) : p.isFull = true ↔ p.came = 3 := beq_iff_eq

theorem isFilled_iff (p : Packet) : p.isFilled = true ↔ 0 < p.came := decide_eq_true_iff

end Packet

/-- A line of the output: that of a `Packet`, with the average time if it is full, or the
    one without an answer. -/
inductive Line where
  | record (ttl : Int) (ip : List Byte) (full : Bool)
  | star (ttl : Nat)
  deriving DecidableEq

/-- The number at the start of a line. -/
def Line.hop : Line → Int
  | .record ttl _ _ => ttl
  | .star ttl => ttl

/-- `Packet::print`. -/
def Packet.print (p : Packet) : Line := .record p.ttl p.ip p.isFull

/-! ## The datagrams -/

/-- What the receive loop makes of a datagram, with the `icmp_id` and the `icmp_seq` that it
    looks at. -/
inductive Answer where
  | exceeded (id seq : Nat)
  | echoReply (id seq : Nat)
  | other
  deriving DecidableEq

def icmpHeaderLen : Nat := 8
def icmpTimeExceeded : Byte := 11
def icmpExcTtl : Byte := 0
def icmpEchoReply : Byte := 0
def ipprotoIcmp : Byte := 1

/-- `shift_bytes(ip_hl * 4)` past an IP header at `ptr`. -/
def pastIp (buffer : Nat → Byte) (ptr : Nat) : Nat := ptr + (buffer ptr).toNat % 16 * 4

/-- A field of 16 bits, as the machine reads it. -/
def field (buffer : Nat → Byte) (ptr : Nat) : Nat :=
  (decodeWord 16 [buffer ptr, buffer (ptr + 1)]).toNat

/-- The tests of the receive loop, up to those on the id. -/
def classify (buffer : Nat → Byte) : Answer :=
  let icmpPacket := pastIp buffer 0
  let packetOrig := icmpPacket + icmpHeaderLen
  if buffer icmpPacket = icmpTimeExceeded ∧ buffer (icmpPacket + 1) = icmpExcTtl then
    if buffer (packetOrig + 9) = ipprotoIcmp then
      let icmpPacket := pastIp buffer packetOrig
      .exceeded (field buffer (icmpPacket + 4)) (field buffer (icmpPacket + 6))
    else .other
  else if buffer icmpPacket = icmpEchoReply then
    .echoReply (field buffer (icmpPacket + 4)) (field buffer (icmpPacket + 6))
  else .other

/-- An answer that carries the id of the process. -/
def Answer.own (pid : Nat) : Answer → Bool
  | .exceeded id _ => id == pid
  | .echoReply id _ => id == pid
  | .other => false

/-- The number of the probe that an own answer names. -/
def Answer.number (pid : Nat) : Answer → Option Nat
  | .exceeded id seq => if id = pid then some seq else none
  | .echoReply id seq => if id = pid then some seq else none
  | .other => none

/-- The number under which an answer is recorded in hop `ttl`. -/
def Answer.recorded (pid ttl : Nat) : Answer → Option Nat
  | .exceeded id seq => if id = pid ∧ ttl = seq then some seq else none
  | .echoReply id seq => if id = pid then some seq else none
  | .other => none

/-- Only own answers are recorded. -/
theorem Answer.own_of_recorded {pid ttl seq : Nat} {answer : Answer}
    (h : answer.recorded pid ttl = some seq) : answer.own pid = true := by
  cases answer with
  | exceeded id n =>
      rw [recorded] at h
      split at h
      · rename_i hid
        exact beq_iff_eq.mpr hid.1
      · exact nomatch h
  | echoReply id n =>
      rw [recorded] at h
      split at h
      · rename_i hid
        exact beq_iff_eq.mpr hid
      · exact nomatch h
  | other => exact nomatch h

/-- An answer is recorded under no other number. -/
theorem Answer.number_of_recorded {pid ttl seq : Nat} {answer : Answer}
    (h : answer.recorded pid ttl = some seq) : answer.number pid = some seq := by
  cases answer with
  | exceeded id n =>
      rw [recorded] at h
      split at h
      · rename_i hid
        rw [number, if_pos hid.1, h]
      · exact nomatch h
  | echoReply id n => exact h
  | other => exact nomatch h

@[simp] theorem Answer.recorded_exceeded (pid ttl : Nat) :
    (Answer.exceeded pid ttl).recorded pid ttl = some ttl := if_pos ⟨rfl, rfl⟩

@[simp] theorem Answer.recorded_echoReply (pid ttl seq : Nat) :
    (Answer.echoReply pid seq).recorded pid ttl = some seq := if_pos rfl

/-! ## main -/

/-- The largest `int`. -/
def intMax : Nat := 2 ^ 31 - 1

/-- Inside the receive loop of hop `ttl`.  As history: the calls of `processPacket` by
    their `seq`, the answers heard in this hop, and the indices used into `packets`
    and `timers`. -/
structure Trace where
  ttl : Nat
  i : Nat
  packets : Nat → Packet
  buffer : Nat → Byte
  lines : List Line
  ended : Bool
  calls : List Nat
  heard : List Answer
  packetsAt : List Nat
  timersAt : List Nat

/-- What happens. -/
inductive TraceAct where
  /-- `Recvfrom` returns a datagram from this address -/
  | datagram (got : List Byte) (ipAddress : List Byte)
  /-- `Select` has waited for a second -/
  | timeout
  /-- a call of the socket library fails -/
  | fail

namespace Trace

/-- The line is printed. -/
def shows (s : Trace) (line : Line) : Trace := { s with lines := s.lines ++ [line] }

/-- The program ends here, by `exit` or because it leaves what the language defines. -/
def ends (s : Trace) : Trace := { s with ended := true }

/-- `i++`. -/
def advance (s : Trace) : Trace :=
  if s.i < intMax then { s with i := s.i + 1 } else s.ends

/-- `ttl++`, and the three probes of the next hop if there is one.  `Setsockopt` exits for
    a TTL above 255. -/
def nextHop (maxhops : Nat) (s : Trace) : Trace :=
  if s.ttl + 1 ≤ maxhops ∧ s.ttl + 1 ≤ 255 then
    { s with ttl := s.ttl + 1, i := 0, heard := [], timersAt := s.timersAt ++ [0, 1, 2] }
  else s.ends

/-- `processPacket`.  A value read beyond the three timers becomes part of a time; a record
    beyond the table, or one whose count is the largest `int`, is the end. -/
def processPacket (maxhops : Nat) (s : Trace) (seq : Nat) (ipAddress : List Byte) : Trace :=
  if seq ≤ maxhops then
    let s := { s with packetsAt := s.packetsAt ++ [seq], timersAt := s.timersAt ++ [s.i] }
    if (s.packets seq).came < (intMax : Int) then
      let pac := ((s.packets seq).setIP ipAddress).signNew
      { s with packets := Function.update s.packets seq pac, calls := s.calls ++ [seq] }
    else s.ends
  else { s with packetsAt := s.packetsAt ++ [seq] }.ends

/-- A datagram in the buffer. -/
def fill (s : Trace) (got : List Byte) : Nat → Byte := fun k => got.getD k (s.buffer k)

/-- The answer that the loop takes a datagram for. -/
def answer (s : Trace) (got : List Byte) : Answer := classify (s.fill got)

/-- A datagram arrives. -/
def hears (s : Trace) (got : List Byte) : Trace :=
  { s with buffer := s.fill got, heard := s.heard ++ [s.answer got] }

/-- The inner loop with a datagram. -/
def receive (maxhops pid : Nat) (s : Trace) (got ipAddress : List Byte) : Trace :=
  if got = [] then s.nextHop maxhops
  else
    match s.answer got with
    | .exceeded id seq =>
        if id = pid then
          if s.ttl = seq then
            let s := (s.hears got).processPacket maxhops seq ipAddress
            if s.ended then s
            else if (s.packets seq).isFull then (s.shows (s.packets seq).print).nextHop maxhops
            else s.advance
          else (s.hears got).advance
        else s.hears got
    | .echoReply id seq =>
        if id = pid then
          let s := (s.hears got).processPacket maxhops seq ipAddress
          if s.ended then s
          else if (s.packets seq).isFull then (s.shows (s.packets seq).print).ends
          else s.advance
        else s.hears got
    | .other => s.hears got

/-- The inner loop without one. -/
def expire (maxhops : Nat) (s : Trace) : Trace :=
  let s := { s with packetsAt := s.packetsAt ++ [s.ttl] }
  if (s.packets s.ttl).isFilled then (s.shows (s.packets s.ttl).print).nextHop maxhops
  else (s.shows (.star s.ttl)).nextHop maxhops

end Trace

/-- One step. -/
def traceStep (maxhops pid : Nat) (s : Trace) (a : TraceAct) : Option Trace :=
  if s.ended then none
  else
    match a with
    | .datagram got ipAddress => some (s.receive maxhops pid got ipAddress)
    | .timeout => some (s.expire maxhops)
    | .fail => some s.ends

/-- `new Packet[maxhops + 1]()`, and the loop that sets the records after it. -/
def packetsInit (maxhops : Nat) (junk : Nat → Junk) : Nat → Packet :=
  (List.range maxhops).foldl (fun packets i => Function.update packets i (newPacket i))
    (fun k => defaultPacket (junk k))

/-- The first hop has begun, if there is one. -/
def traceInit (maxhops : Nat) (junk : Nat → Junk) : Trace where
  ttl := 1
  i := 0
  packets := packetsInit maxhops junk
  buffer := fun _ => 0
  lines := []
  ended := decide (maxhops < 1)
  calls := []
  heard := []
  packetsAt := List.range maxhops
  timersAt := if maxhops < 1 then [] else [0, 1, 2]

/-- Memory that was zero. -/
def zeroMemory : Nat → Junk := fun _ => ⟨0, 0⟩

/-- A datagram: an IP header without options, and an echo reply. -/
def echoReply (id seq : Byte) : List Byte :=
  69 :: List.replicate 19 0 ++ [0, 0, 0, 0, id, 0, seq, 0]

/-- The program. -/
def traceroute (maxhops pid : Nat) (junk : Nat → Junk) : Machine Trace TraceAct where
  init := traceInit maxhops junk
  step := traceStep maxhops pid

/-! ## The table -/

/-- The loop sets the records below `maxhops`, and no other. -/
theorem packetsInit_apply (maxhops : Nat) (junk : Nat → Junk) (k : Nat) :
    packetsInit maxhops junk k
      = if k < maxhops then newPacket k else defaultPacket (junk k) := by
  induction maxhops with
  | zero => rw [if_neg (Nat.not_lt_zero k)]; rfl
  | succ m ih =>
      have hsucc : packetsInit (m + 1) junk
          = Function.update (packetsInit m junk) m (newPacket m) := by
        rw [packetsInit, List.range_succ, List.foldl_append]
        rfl
      rw [hsucc]
      by_cases hk : k = m
      · rw [hk, Function.update_self, if_pos (Nat.lt_succ_self m)]
      · rw [Function.update_of_ne hk, ih]
        have hiff : k < m ↔ k < m + 1 := by omega
        simp only [hiff]

/-! ## What each part of a step leaves alone -/

namespace Trace

variable {maxhops pid : Nat} {s : Trace}

@[simp] theorem nextHop_packets : (s.nextHop maxhops).packets = s.packets := by
  rw [nextHop]
  split <;> rfl

@[simp] theorem nextHop_calls : (s.nextHop maxhops).calls = s.calls := by
  rw [nextHop]
  split <;> rfl

@[simp] theorem nextHop_lines : (s.nextHop maxhops).lines = s.lines := by
  rw [nextHop]
  split <;> rfl

@[simp] theorem nextHop_packetsAt : (s.nextHop maxhops).packetsAt = s.packetsAt := by
  rw [nextHop]
  split <;> rfl

@[simp] theorem advance_packets : s.advance.packets = s.packets := by
  rw [advance]
  split <;> rfl

@[simp] theorem advance_calls : s.advance.calls = s.calls := by
  rw [advance]
  split <;> rfl

@[simp] theorem advance_lines : s.advance.lines = s.lines := by
  rw [advance]
  split <;> rfl

@[simp] theorem advance_packetsAt : s.advance.packetsAt = s.packetsAt := by
  rw [advance]
  split <;> rfl

@[simp] theorem advance_timersAt : s.advance.timersAt = s.timersAt := by
  rw [advance]
  split <;> rfl

@[simp] theorem advance_heard : s.advance.heard = s.heard := by
  rw [advance]
  split <;> rfl

@[simp] theorem advance_ttl : s.advance.ttl = s.ttl := by
  rw [advance]
  split <;> rfl

/-- A counter that went on is one more. -/
theorem advance_i (h : s.advance.ended = false) : s.advance.i = s.i + 1 := by
  rw [advance] at h ⊢
  split
  · rfl
  · rename_i hmax
    rw [if_neg hmax] at h
    exact nomatch h

/-- A hop that follows is the next one. -/
theorem nextHop_of_up (h : (s.nextHop maxhops).ended = false) :
    (s.nextHop maxhops).ttl = s.ttl + 1 ∧ s.ttl + 1 ≤ maxhops
      ∧ (s.nextHop maxhops).i = 0 ∧ (s.nextHop maxhops).heard = [] := by
  rw [nextHop] at h ⊢
  split
  · rename_i hnext
    exact ⟨rfl, hnext.1, rfl, rfl⟩
  · rename_i hlast
    rw [if_neg hlast] at h
    exact nomatch h

/-- No hop follows the last. -/
theorem nextHop_last (h : s.ttl = maxhops) : (s.nextHop maxhops).ended = true := by
  rw [nextHop, if_neg (by omega)]
  rfl

theorem processPacket_packetsAt (seq : Nat) (ipAddress : List Byte) :
    (s.processPacket maxhops seq ipAddress).packetsAt = s.packetsAt ++ [seq] := by
  rw [processPacket]
  split
  · simp only
    split <;> rfl
  · rfl

/-- The state after a call of `processPacket` that returned. -/
def processed (s : Trace) (seq : Nat) (ipAddress : List Byte) : Trace :=
  { s with
    packetsAt := s.packetsAt ++ [seq]
    timersAt := s.timersAt ++ [s.i]
    packets := Function.update s.packets seq ((s.packets seq).setIP ipAddress).signNew
    calls := s.calls ++ [seq] }

@[simp] theorem processed_packets_self {seq : Nat} {ipAddress : List Byte} :
    (s.processed seq ipAddress).packets seq = ((s.packets seq).setIP ipAddress).signNew :=
  Function.update_self ..

@[simp] theorem processed_packets_of_ne {seq k : Nat} {ipAddress : List Byte} (hk : k ≠ seq) :
    (s.processed seq ipAddress).packets k = s.packets k := Function.update_of_ne hk ..

/-- The third answer fills a record. -/
theorem processed_isFull {seq : Nat} {ipAddress : List Byte} :
    ((s.processed seq ipAddress).packets seq).isFull = true ↔ (s.packets seq).came = 2 := by
  rw [Packet.isFull_iff, processed_packets_self]
  show ((s.packets seq).setIP ipAddress).came + 1 = 3 ↔ _
  rw [Packet.setIP_came]
  omega

/-- **processPacket**: it returns when the record exists and its count is not the largest
    `int`. -/
theorem processPacket_eq (seq : Nat) (ipAddress : List Byte) (hseq : seq ≤ maxhops)
    (hcame : (s.packets seq).came < intMax) :
    s.processPacket maxhops seq ipAddress = s.processed seq ipAddress := by
  rw [processPacket, if_pos hseq]
  exact if_pos hcame

/-- What `processPacket` does when a datagram has just arrived. -/
theorem hears_processPacket (got : List Byte) (seq : Nat) (ipAddress : List Byte)
    (hseq : seq ≤ maxhops) (hcame : (s.packets seq).came < intMax) :
    (s.hears got).processPacket maxhops seq ipAddress = (s.hears got).processed seq ipAddress :=
  processPacket_eq seq ipAddress hseq hcame

theorem processPacket_of_up {seq : Nat} {ipAddress : List Byte}
    (h : (s.processPacket maxhops seq ipAddress).ended = false) :
    seq ≤ maxhops ∧ (s.packets seq).came < intMax := by
  rw [processPacket] at h
  split at h
  · rename_i hseq
    simp only at h
    split at h
    · rename_i hcame
      exact ⟨hseq, hcame⟩
    · exact nomatch h
  · exact nomatch h

end Trace

/-- A count of two can go on. -/
theorem came_lt_intMax {p : Packet} (h : p.came = 2) : p.came < intMax := by
  rw [h]
  decide

/-! ## What a step can do -/

/-- The rules of the step function. -/
inductive TraceStep (maxhops pid : Nat) (s : Trace) : TraceAct → Trace → Prop where
  | fail : TraceStep maxhops pid s .fail s.ends
  | timeout : TraceStep maxhops pid s .timeout (s.expire maxhops)
  | empty {ipAddress : List Byte} :
      TraceStep maxhops pid s (.datagram [] ipAddress) (s.nextHop maxhops)
  | ignored {got ipAddress : List Byte} (hgot : got ≠ [])
      (hown : (s.answer got).own pid = false) :
      TraceStep maxhops pid s (.datagram got ipAddress) (s.hears got)
  | late {got ipAddress : List Byte} (hgot : got ≠ []) (hown : (s.answer got).own pid = true)
      (hnone : (s.answer got).recorded pid s.ttl = none) :
      TraceStep maxhops pid s (.datagram got ipAddress) (s.hears got).advance
  | stopped {got ipAddress : List Byte} {seq : Nat} (hgot : got ≠ [])
      (hrec : (s.answer got).recorded pid s.ttl = some seq)
      (hover : ((s.hears got).processPacket maxhops seq ipAddress).ended = true) :
      TraceStep maxhops pid s (.datagram got ipAddress)
        ((s.hears got).processPacket maxhops seq ipAddress)
  | counted {got ipAddress : List Byte} {seq : Nat} (hgot : got ≠ [])
      (hrec : (s.answer got).recorded pid s.ttl = some seq)
      (hseq : seq ≤ maxhops) (hcame : (s.packets seq).came < intMax)
      (hpart : (s.packets seq).came ≠ 2) :
      TraceStep maxhops pid s (.datagram got ipAddress)
        ((s.hears got).processed seq ipAddress).advance
  | completed {got ipAddress : List Byte} (hgot : got ≠ [])
      (hanswer : s.answer got = .exceeded pid s.ttl)
      (hseq : s.ttl ≤ maxhops) (hfull : (s.packets s.ttl).came = 2) :
      TraceStep maxhops pid s (.datagram got ipAddress)
        ((((s.hears got).processed s.ttl ipAddress).shows
          (((s.hears got).processed s.ttl ipAddress).packets s.ttl).print).nextHop maxhops)
  | reached {got ipAddress : List Byte} {seq : Nat} (hgot : got ≠ [])
      (hanswer : s.answer got = .echoReply pid seq)
      (hseq : seq ≤ maxhops) (hfull : (s.packets seq).came = 2) :
      TraceStep maxhops pid s (.datagram got ipAddress)
        (((s.hears got).processed seq ipAddress).shows
          (((s.hears got).processed seq ipAddress).packets seq).print).ends

/-- The program goes on only as long as it is not over. -/
theorem up_of_step {maxhops pid : Nat} {s s' : Trace} {a : TraceAct}
    (h : traceStep maxhops pid s a = some s') : s.ended = false := by
  cases hover : s.ended with
  | false => rfl
  | true =>
      rw [traceStep.eq_def, if_pos hover] at h
      exact nomatch h

/-- **STEP INVERSION**, for a datagram. -/
theorem rule_of_receive (maxhops pid : Nat) (s : Trace) (got ipAddress : List Byte) :
    TraceStep maxhops pid s (.datagram got ipAddress)
      (s.receive maxhops pid got ipAddress) := by
  by_cases hgot : got = []
  · rw [hgot, Trace.receive, if_pos rfl]
    exact TraceStep.empty
  rw [Trace.receive, if_neg hgot]
  cases hanswer : s.answer got with
  | exceeded id seq =>
      simp only
      by_cases hid : id = pid
      · subst hid
        rw [if_pos rfl]
        by_cases httl : s.ttl = seq
        · subst httl
          have hrec : (s.answer got).recorded id s.ttl = some s.ttl := by
            rw [hanswer, Answer.recorded_exceeded]
          rw [if_pos rfl]
          cases hover : ((s.hears got).processPacket maxhops s.ttl ipAddress).ended with
          | true => exact TraceStep.stopped hgot hrec hover
          | false =>
              obtain ⟨hseq, hcame⟩ := Trace.processPacket_of_up hover
              rw [Trace.processPacket_eq _ _ hseq hcame, if_neg Bool.false_ne_true]
              by_cases hfull : (s.packets s.ttl).came = 2
              · rw [if_pos (Trace.processed_isFull (s := s.hears got) |>.mpr hfull)]
                exact TraceStep.completed hgot hanswer hseq hfull
              · rw [if_neg (fun h => hfull (Trace.processed_isFull (s := s.hears got) |>.mp h))]
                exact TraceStep.counted hgot hrec hseq hcame hfull
        · rw [if_neg httl]
          refine TraceStep.late hgot ?_ ?_
          · rw [hanswer]
            exact beq_self_eq_true id
          · rw [hanswer]
            exact if_neg (fun h => httl h.2)
      · rw [if_neg hid]
        refine TraceStep.ignored hgot ?_
        rw [hanswer]
        exact beq_false_of_ne hid
  | echoReply id seq =>
      simp only
      by_cases hid : id = pid
      · subst hid
        have hrec : (s.answer got).recorded id s.ttl = some seq := by
          rw [hanswer, Answer.recorded_echoReply]
        rw [if_pos rfl]
        cases hover : ((s.hears got).processPacket maxhops seq ipAddress).ended with
        | true => exact TraceStep.stopped hgot hrec hover
        | false =>
            obtain ⟨hseq, hcame⟩ := Trace.processPacket_of_up hover
            rw [Trace.processPacket_eq _ _ hseq hcame, if_neg Bool.false_ne_true]
            by_cases hfull : (s.packets seq).came = 2
            · rw [if_pos (Trace.processed_isFull (s := s.hears got) |>.mpr hfull)]
              exact TraceStep.reached hgot hanswer hseq hfull
            · rw [if_neg (fun h => hfull (Trace.processed_isFull (s := s.hears got) |>.mp h))]
              exact TraceStep.counted hgot hrec hseq hcame hfull
      · rw [if_neg hid]
        refine TraceStep.ignored hgot ?_
        rw [hanswer]
        exact beq_false_of_ne hid
  | other =>
      refine TraceStep.ignored hgot ?_
      rw [hanswer]
      rfl

/-- **STEP INVERSION**: a step is an instance of a rule. -/
theorem rule_of_traceStep {maxhops pid : Nat} {s s' : Trace} {a : TraceAct}
    (h : traceStep maxhops pid s a = some s') : TraceStep maxhops pid s a s' := by
  rw [traceStep.eq_def, if_neg (by rw [up_of_step h]; exact Bool.false_ne_true)] at h
  cases a with
  | datagram got ipAddress =>
      obtain rfl := Option.some.inj h
      exact rule_of_receive maxhops pid s got ipAddress
  | timeout =>
      obtain rfl := Option.some.inj h
      exact TraceStep.timeout
  | fail =>
      obtain rfl := Option.some.inj h
      exact TraceStep.fail

end Traceroute
