import AipPkussm.IcmpProofs
import AipPkussm.TracerouteProofs

/-! # The probes of Traceroute and the answers to them

    A probe is the header of an echo request.  Who answers puts it behind an IP
    header of his own, and a router behind the IP header of the probe as well; both
    have options, or none.  `Holds` says what lies in the buffer, and the pointer
    of `main` goes from part to part (`pastIp_of_holds`), so that the loop reads
    back the id and the number of the probe (`answer_of_answers`).

    The id is what `icmp_id` has kept of the process id.  It is compared with the
    process id itself: a process whose id does not fit 16 bits knows none of the
    answers to its probes (`attributed_iff`). -/

namespace Traceroute

open LittleEndian OnesComplement Transition Icmp

/-! ## sendIcmpPacket -/

def icmpEcho : Byte := 8

/-- `sendIcmpPacket`: the bytes that it sends. -/
def sendIcmpPacket (pid ttl : Nat) : List Byte :=
  let icmpPacket := [icmpEcho, 0, 0, 0] ++ (encodeWord 2 (BitVec.ofNat 16 pid)
    ++ encodeWord 2 (BitVec.ofNat 16 ttl))
  patch 2 (encodeWord 2 (inCksum icmpPacket 0)) icmpPacket

/-- The fields of a probe. -/
theorem sendIcmpPacket_eq (pid ttl : Nat) : ∃ cksum : BitVec 16, sendIcmpPacket pid ttl
    = ([icmpEcho, 0] ++ encodeWord 2 cksum) ++ (encodeWord 2 (BitVec.ofNat 16 pid)
      ++ encodeWord 2 (BitVec.ofNat 16 ttl)) := ⟨_, rfl⟩

theorem length_sendIcmpPacket (pid ttl : Nat) :
    (sendIcmpPacket pid ttl).length = icmpHeaderLen := rfl

/-- A host that checks the sum takes a probe when neither field has its top bit set. -/
theorem sum_sendIcmpPacket_iff (pid ttl : Nat) :
    sum 65536 (words (sendIcmpPacket pid ttl)) = 65535
      ↔ pid % 2 ^ 16 < 2 ^ 15 ∧ ttl % 2 ^ 16 < 2 ^ 15 := by
  rw [sendIcmpPacket]
  refine (sum_inCksum_iff_negatives (by simp) rfl (by simp) rfl).trans ?_
  have hhigh : ∀ n : Nat, (BitVec.ofNat 8 ((BitVec.ofNat 16 n).toNat / 256)).toNat
      = n % 2 ^ 16 / 256 := by
    intro n
    rw [BitVec.toNat_ofNat, BitVec.toNat_ofNat]
    omega
  show 0 + (0 + ((if 128 ≤ (BitVec.ofNat 8 _).toNat then 1 else 0)
    + ((if 128 ≤ (BitVec.ofNat 8 _).toNat then 1 else 0) + 0))) = 0 ↔ _
  rw [hhigh, hhigh]
  split <;> split <;> omega

/-! ## The answers of the network -/

/-- An IP header.  The low half of its first byte is its length in words. -/
structure IpHeader where
  bytes : List Byte
  five_le : 5 ≤ (bytes.getD 0 0).toNat % 16
  length_eq : bytes.length = (bytes.getD 0 0).toNat % 16 * 4

/-- The error of a router that quotes a probe. -/
inductive TimeExceeded (probe : List Byte) : List Byte → Prop where
  | quotes (outer quoted : IpHeader) (cksum unused more : List Byte)
      (hcksum : cksum.length = 2) (hunused : unused.length = 4)
      (hproto : quoted.bytes.getD 9 0 = ipprotoIcmp) :
      TimeExceeded probe (outer.bytes ++ ([icmpTimeExceeded, icmpExcTtl] ++ (cksum ++ unused)
        ++ (quoted.bytes ++ (probe ++ more))))

/-- The reply of the host, with the id and the number of a probe. -/
inductive EchoReply (probe : List Byte) : List Byte → Prop where
  | echoes (outer : IpHeader) (code : Byte) (cksum more : List Byte)
      (hcksum : cksum.length = 2) :
      EchoReply probe (outer.bytes ++ ([icmpEchoReply, code] ++ cksum
        ++ (probe.drop 4 ++ more)))

/-- What the network sends for a probe. -/
inductive Answers (probe got : List Byte) : Prop where
  | timeExceeded (h : TimeExceeded probe got)
  | echoReply (h : EchoReply probe got)

/-! ## What lies in the buffer -/

/-- These bytes lie in the buffer at `ptr`. -/
def Holds (buffer : Nat → Byte) (ptr : Nat) (bytes : List Byte) : Prop :=
  ∀ k, k < bytes.length → buffer (ptr + k) = bytes.getD k 0

section Holds

variable {buffer : Nat → Byte} {ptr : Nat}

theorem holds_append {xs ys : List Byte} :
    Holds buffer ptr (xs ++ ys) ↔ Holds buffer ptr xs ∧ Holds buffer (ptr + xs.length) ys := by
  constructor
  · intro h
    constructor
    · intro k hk
      rw [h k (by simp; omega), List.getD_append _ _ _ _ hk]
    · intro k hk
      rw [Nat.add_assoc, h (xs.length + k) (by simp; omega),
        List.getD_append_right _ _ _ _ (Nat.le_add_right ..), Nat.add_sub_cancel_left]
  · rintro ⟨hx, hy⟩ k hk
    by_cases hin : k < xs.length
    · rw [hx k hin, List.getD_append _ _ _ _ hin]
    · have hback : ptr + xs.length + (k - xs.length) = ptr + k := by omega
      rw [← hback, hy (k - xs.length) (by simp at hk; omega),
        List.getD_append_right _ _ _ _ (by omega)]

/-- A datagram lies at the start. -/
theorem holds_fill (s : Trace) (got : List Byte) : Holds (s.fill got) 0 got := by
  intro k hk
  rw [Trace.fill, Nat.zero_add, List.getD_eq_getElem _ _ hk, List.getD_eq_getElem _ _ hk]

theorem byte_of_holds {b : Byte} {more : List Byte} (h : Holds buffer ptr (b :: more)) :
    buffer ptr = b := h 0 (Nat.zero_lt_succ _)

theorem holds_tail {b : Byte} {more : List Byte} (h : Holds buffer ptr (b :: more)) :
    Holds buffer (ptr + 1) more := by
  have hsplit : Holds buffer ptr ([b] ++ more) := h
  exact (holds_append.mp hsplit).2

/-- The pointer behind an IP header. -/
theorem pastIp_of_holds {header : IpHeader} (h : Holds buffer ptr header.bytes) :
    pastIp buffer ptr = ptr + header.bytes.length := by
  have hlen := header.length_eq
  have hwords := header.five_le
  have hfirst : buffer ptr = header.bytes.getD 0 0 := h 0 (by omega)
  rw [pastIp, hfirst, hlen]

/-- What is read from a field of 16 bits. -/
theorem field_of_holds {x : BitVec 16} (h : Holds buffer ptr (encodeWord 2 x)) :
    field buffer ptr = x.toNat := by
  have hlow : buffer ptr = (encodeWord 2 x).getD 0 0 := h 0 Nat.zero_lt_two
  have hhigh : buffer (ptr + 1) = (encodeWord 2 x).getD 1 0 := h 1 Nat.one_lt_two
  rw [field, hlow, hhigh]
  show (decodeWord 16 (encodeWord 2 x)).toNat = x.toNat
  rw [decodeWord_encodeWord (Nat.le_refl _)]

end Holds

/-! ## What the loop makes of an answer -/

section Classify

variable {buffer : Nat → Byte} {outer quoted : IpHeader} {id seq : BitVec 16}

/-- An error that quotes a probe behind two IP headers. -/
theorem classify_exceeded (houter : Holds buffer 0 outer.bytes)
    (htype : Holds buffer outer.bytes.length [icmpTimeExceeded, icmpExcTtl])
    (hquoted : Holds buffer (outer.bytes.length + icmpHeaderLen) quoted.bytes)
    (hproto : quoted.bytes.getD 9 0 = ipprotoIcmp)
    (hid : Holds buffer (outer.bytes.length + icmpHeaderLen + quoted.bytes.length + 4)
      (encodeWord 2 id))
    (hseq : Holds buffer (outer.bytes.length + icmpHeaderLen + quoted.bytes.length + 6)
      (encodeWord 2 seq)) :
    classify buffer = .exceeded id.toNat seq.toNat := by
  have hpast : pastIp buffer 0 = outer.bytes.length := by
    rw [pastIp_of_holds houter, Nat.zero_add]
  have hcode := byte_of_holds (holds_tail htype)
  have hten : 9 < quoted.bytes.length := by
    have := quoted.length_eq
    have := quoted.five_le
    omega
  have hprotocol := (hquoted 9 hten).trans hproto
  rw [classify, hpast]
  simp only
  rw [if_pos ⟨byte_of_holds htype, hcode⟩, if_pos hprotocol, pastIp_of_holds hquoted,
    field_of_holds hid, field_of_holds hseq]

/-- A reply behind its IP header. -/
theorem classify_echoReply (houter : Holds buffer 0 outer.bytes) {code : Byte}
    (htype : Holds buffer outer.bytes.length [icmpEchoReply, code])
    (hid : Holds buffer (outer.bytes.length + 4) (encodeWord 2 id))
    (hseq : Holds buffer (outer.bytes.length + 6) (encodeWord 2 seq)) :
    classify buffer = .echoReply id.toNat seq.toNat := by
  have hpast : pastIp buffer 0 = outer.bytes.length := by
    rw [pastIp_of_holds houter, Nat.zero_add]
  have htype' := byte_of_holds htype
  have hother : ¬ (buffer outer.bytes.length = icmpTimeExceeded
      ∧ buffer (outer.bytes.length + 1) = icmpExcTtl) := by
    rintro ⟨hexceeded, -⟩
    rw [htype'] at hexceeded
    exact absurd hexceeded (by decide)
  rw [classify, hpast]
  simp only
  rw [if_neg hother, if_pos htype', field_of_holds hid, field_of_holds hseq]

end Classify

/-- **ERRORS**: the loop reads what the two fields of the probe have kept of the process id
    and of the number. -/
theorem answer_of_timeExceeded (s : Trace) {pid ttl : Nat} {got : List Byte}
    (h : TimeExceeded (sendIcmpPacket pid ttl) got) :
    s.answer got = .exceeded (pid % 2 ^ 16) (ttl % 2 ^ 16) := by
  have hfill := holds_fill s got
  rw [Trace.answer]
  generalize s.fill got = buffer at hfill
  obtain ⟨sum, hprobe⟩ := sendIcmpPacket_eq pid ttl
  cases h with
  | quotes outer quoted cksum unused more hcksum hunused hproto =>
      rw [hprobe] at hfill
      simp only [holds_append, Nat.zero_add, List.length_append, length_encodeWord, hcksum,
        hunused, List.length_cons, List.length_nil] at hfill
      obtain ⟨houter, ⟨htype, -⟩, hquoted, ⟨-, hid, hseq⟩, -⟩ := hfill
      exact classify_exceeded houter htype hquoted hproto hid hseq

/-- **REPLIES**: the same fields come back behind one IP header. -/
theorem answer_of_echoReply (s : Trace) {pid ttl : Nat} {got : List Byte}
    (h : EchoReply (sendIcmpPacket pid ttl) got) :
    s.answer got = .echoReply (pid % 2 ^ 16) (ttl % 2 ^ 16) := by
  have hfill := holds_fill s got
  rw [Trace.answer]
  generalize s.fill got = buffer at hfill
  have hdrop : (sendIcmpPacket pid ttl).drop 4
      = encodeWord 2 (BitVec.ofNat 16 pid) ++ encodeWord 2 (BitVec.ofNat 16 ttl) := rfl
  cases h with
  | echoes outer code cksum more hcksum =>
      rw [hdrop] at hfill
      simp only [holds_append, Nat.zero_add, List.length_append, length_encodeWord, hcksum,
        List.length_cons, List.length_nil] at hfill
      obtain ⟨houter, ⟨htype, -⟩, ⟨hid, hseq⟩, -⟩ := hfill
      exact classify_echoReply houter htype hid hseq

theorem answer_of_answers (s : Trace) {pid ttl : Nat} {got : List Byte}
    (h : Answers (sendIcmpPacket pid ttl) got) :
    s.answer got = .exceeded (pid % 2 ^ 16) (ttl % 2 ^ 16)
      ∨ s.answer got = .echoReply (pid % 2 ^ 16) (ttl % 2 ^ 16) := by
  cases h with
  | timeExceeded h => exact Or.inl (answer_of_timeExceeded s h)
  | echoReply h => exact Or.inr (answer_of_echoReply s h)

/-- An answer is not an empty datagram. -/
theorem Answers.ne_nil {probe got : List Byte} (h : Answers probe got) : got ≠ [] := by
  cases h with
  | timeExceeded h =>
      cases h
      simp
  | echoReply h =>
      cases h
      simp

/-! ## The loop -/

variable {maxhops pid : Nat} {junk : Nat → Junk}

/-- A datagram goes to `processPacket` under the number with which it is recorded. -/
theorem packetsAt_receive {s : Trace} {got : List Byte} (ipAddress : List Byte)
    (hgot : got ≠ []) : (s.receive maxhops pid got ipAddress).packetsAt
      = s.packetsAt ++ ((s.answer got).recorded pid s.ttl).toList := by
  have hrule := rule_of_receive maxhops pid s got ipAddress
  generalize s.receive maxhops pid got ipAddress = s' at hrule ⊢
  cases hrule with
  | empty => exact absurd rfl hgot
  | ignored _ hown =>
      cases hrec : (s.answer got).recorded pid s.ttl with
      | none => exact (List.append_nil _).symm
      | some seq =>
          rw [Answer.own_of_recorded hrec] at hown
          exact nomatch hown
  | late _ _ hnone =>
      rw [hnone, Trace.advance_packetsAt]
      exact (List.append_nil _).symm
  | stopped _ hrec _ =>
      rw [hrec, Trace.processPacket_packetsAt]
      rfl
  | counted _ hrec _ _ _ =>
      rw [hrec, Trace.advance_packetsAt]
      rfl
  | completed _ hanswer _ _ =>
      rw [hanswer, Answer.recorded_exceeded, Trace.nextHop_packetsAt]
      rfl
  | reached _ hanswer _ _ =>
      rw [hanswer, Answer.recorded_echoReply]
      rfl

/-- `Setsockopt` lets no TTL above 255 through. -/
theorem Trace.nextHop_ttl_le {s : Trace} (h : (s.nextHop maxhops).ended = false) :
    (s.nextHop maxhops).ttl ≤ 255 := by
  rw [nextHop] at h ⊢
  split
  · rename_i hnext
    exact hnext.2
  · rename_i hlast
    rw [if_neg hlast] at h
    cases h

/-- A hop without an answer ends with a line. -/
theorem Trace.expire_eq (maxhops : Nat) (s : Trace) : ∃ line, s.expire maxhops
    = (({ s with packetsAt := s.packetsAt ++ [s.ttl] } : Trace).shows line).nextHop maxhops := by
  rw [expire]
  simp only
  split
  · exact ⟨_, rfl⟩
  · exact ⟨_, rfl⟩

/-- **STEP**: the number of a hop fits a byte. -/
theorem TraceStep.ttl_le {s s' : Trace} {a : TraceAct} (hstep : TraceStep maxhops pid s a s')
    (httl : s.ttl ≤ 255) (hup : s'.ended = false) : s'.ttl ≤ 255 := by
  cases hstep with
  | fail => exact nomatch hup
  | timeout =>
      obtain ⟨line, hexpire⟩ := Trace.expire_eq maxhops s
      rw [hexpire] at hup ⊢
      exact Trace.nextHop_ttl_le hup
  | empty => exact Trace.nextHop_ttl_le hup
  | ignored _ _ => exact httl
  | late _ _ _ =>
      rw [Trace.advance_ttl]
      exact httl
  | stopped _ _ hover =>
      rw [hover] at hup
      exact nomatch hup
  | counted _ _ _ _ _ =>
      rw [Trace.advance_ttl]
      exact httl
  | completed _ _ _ _ => exact Trace.nextHop_ttl_le hup
  | reached _ _ _ _ => exact nomatch hup

/-- **RUN**: the number of a hop whose probes are sent fits a byte. -/
theorem ttl_le {s : Trace} (hrun : Run (traceroute maxhops pid junk) anyStep s) :
    s.ended = false → s.ttl ≤ 255 := by
  induction hrun with
  | start =>
      intro _
      exact Nat.le_of_ble_eq_true rfl
  | next _ _ hstep ih =>
      intro hup
      exact (rule_of_traceStep hstep).ttl_le (ih (up_of_step hstep)) hup

/-- What two fields of 16 bits have kept is what was put into them. -/
theorem kept_iff (pid ttl : Nat) :
    (pid % 2 ^ 16 = pid ∧ ttl % 2 ^ 16 = ttl) ↔ (pid < 2 ^ 16 ∧ ttl < 2 ^ 16) :=
  and_congr (Nat.mod_eq_iff_lt (by decide)) (Nat.mod_eq_iff_lt (by decide))

/-- An error in the hop of its probe is recorded there if both fields are kept. -/
theorem recorded_of_timeExceeded (s : Trace) {got : List Byte}
    (h : TimeExceeded (sendIcmpPacket pid s.ttl) got) :
    (s.answer got).recorded pid s.ttl = some s.ttl ↔ pid < 2 ^ 16 ∧ s.ttl < 2 ^ 16 := by
  rw [answer_of_timeExceeded s h, Answer.recorded, ← kept_iff]
  constructor
  · intro hrecorded
    split at hrecorded
    · next hkept => exact ⟨hkept.1, hkept.2.symm⟩
    · cases hrecorded
  · rintro ⟨hid, hseq⟩
    rw [if_pos ⟨hid, hseq.symm⟩, hseq]

/-- A reply is recorded under the number of its probe in whatever hop it comes. -/
theorem recorded_of_echoReply (s : Trace) {ttl : Nat} {got : List Byte}
    (h : EchoReply (sendIcmpPacket pid ttl) got) :
    (s.answer got).recorded pid s.ttl = some ttl ↔ pid < 2 ^ 16 ∧ ttl < 2 ^ 16 := by
  rw [answer_of_echoReply s h, Answer.recorded, ← kept_iff]
  constructor
  · intro hrecorded
    split at hrecorded
    · next hid => exact ⟨hid, Option.some.inj hrecorded⟩
    · cases hrecorded
  · rintro ⟨hid, hseq⟩
    rw [if_pos hid, hseq]

/-- An answer in time: the error of a router comes in the hop of its probe, a reply may come
    in any. -/
inductive InTimeAnswer (pid now ttl : Nat) (got : List Byte) : Prop where
  | timeExceeded (h : TimeExceeded (sendIcmpPacket pid ttl) got) (hnow : now = ttl)
  | echoReply (h : EchoReply (sendIcmpPacket pid ttl) got)

/-- What is recorded of an answer in time. -/
theorem recorded_of_inTime (s : Trace) {ttl : Nat} {got : List Byte}
    (h : InTimeAnswer pid s.ttl ttl got) :
    (s.answer got).recorded pid s.ttl = some ttl ↔ pid < 2 ^ 16 ∧ ttl < 2 ^ 16 := by
  cases h with
  | timeExceeded h hnow =>
      rw [← hnow] at h ⊢
      exact recorded_of_timeExceeded s h
  | echoReply h => exact recorded_of_echoReply s h

theorem InTimeAnswer.ne_nil {now ttl : Nat} {got : List Byte}
    (h : InTimeAnswer pid now ttl got) : got ≠ [] := by
  cases h with
  | timeExceeded h _ => exact (Answers.timeExceeded h).ne_nil
  | echoReply h => exact (Answers.echoReply h).ne_nil

/-- One more call under this number. -/
theorem append_toList_iff {calls : List Nat} {recorded : Option Nat} {ttl : Nat} :
    calls ++ recorded.toList = calls ++ [ttl] ↔ recorded = some ttl := by
  rw [List.append_cancel_left_eq]
  cases recorded with
  | none => simp
  | some seq => simp

/-- **THE ANSWERS TO ONE'S OWN PROBES**: an answer goes to `processPacket` under the number
    of its probe exactly when the process id and the number fit the 16 bits of their
    fields, and the number of a probe that was sent does. -/
theorem attributed_iff {s : Trace} (hrun : Run (traceroute maxhops pid junk) anyStep s)
    (hup : s.ended = false) {ttl : Nat} {got : List Byte}
    (hanswers : InTimeAnswer pid s.ttl ttl got) (ipAddress : List Byte) :
    ∃ s', traceStep maxhops pid s (.datagram got ipAddress) = some s'
      ∧ (s'.packetsAt = s.packetsAt ++ [ttl] ↔ pid < 2 ^ 16 ∧ ttl < 2 ^ 16)
      ∧ (ttl ≤ s.ttl → ttl < 2 ^ 16) := by
  have hstep : traceStep maxhops pid s (.datagram got ipAddress)
      = some (s.receive maxhops pid got ipAddress) := by
    rw [traceStep.eq_def, if_neg (by rw [hup]; exact Bool.false_ne_true)]
  have hsent : s.ttl ≤ 255 := ttl_le hrun hup
  refine ⟨_, hstep, ?_, ?_⟩
  · rw [packetsAt_receive ipAddress hanswers.ne_nil, append_toList_iff,
      recorded_of_inTime s hanswers]
  · intro hle
    omega

/-- An IP header without options, of a datagram with an ICMP message. -/
def plainHeader : IpHeader where
  bytes := 69 :: List.replicate 8 0 ++ 1 :: List.replicate 10 0
  five_le := by decide
  length_eq := by decide

/-- The reply of the host to the first probe of a process. -/
def firstReply (pid : Nat) : List Byte :=
  plainHeader.bytes ++ ([icmpEchoReply, 0] ++ [0, 0] ++ ((sendIcmpPacket pid 1).drop 4 ++ []))

theorem echoReply_firstReply (pid : Nat) : EchoReply (sendIcmpPacket pid 1) (firstReply pid) :=
  .echoes plainHeader 0 [0, 0] [] rfl

/-- The second hop, after nobody has answered in the first. -/
def secondHop : Trace := (traceInit 2 zeroMemory).expire 2

/-- Process 1 knows a late reply to its first probe. -/
theorem attributed_late : ∃ s', traceStep 2 1 secondHop (.datagram (firstReply 1) []) = some s'
    ∧ (s'.packetsAt = secondHop.packetsAt ++ [1] ↔ 1 < 2 ^ 16 ∧ 1 < 2 ^ 16)
    ∧ (1 ≤ secondHop.ttl → 1 < 2 ^ 16) :=
  attributed_iff (Run.next (M := traceroute 2 1 zeroMemory) (a := .timeout) Run.start trivial rfl)
    rfl (.echoReply (echoReply_firstReply 1)) []

/-- Process 65537 does not even know the first one. -/
theorem not_attributed : ¬ ∀ maxhops pid junk s ttl got ipAddress, 0 < pid → pid < 2 ^ 31 →
    1 ≤ ttl → ttl ≤ maxhops →
    Run (traceroute maxhops pid junk) anyStep s → s.ended = false →
    InTimeAnswer pid s.ttl ttl got →
    ∃ s', traceStep maxhops pid s (.datagram got ipAddress) = some s'
      ∧ s'.packetsAt = s.packetsAt ++ [ttl] := by
  intro h
  obtain ⟨s', hstep, hcall⟩ := h 1 65537 zeroMemory (traceInit 1 zeroMemory) 1
    (firstReply 65537) [] (by decide) (by decide) (by decide) (by decide) Run.start rfl
    (.echoReply (echoReply_firstReply 65537))
  obtain rfl := Option.some.inj hstep
  exact absurd hcall (by decide)

end Traceroute
