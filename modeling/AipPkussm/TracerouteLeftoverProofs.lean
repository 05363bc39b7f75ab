import AipPkussm.TracerouteProofs

/-! # What lies behind a datagram

    The receive loop finds the fields of a datagram by the header lengths in it and
    never asks how many bytes have come.  Behind a short datagram it reads what
    earlier ones left in the buffer.

    `Open` lists the datagrams that end before the tests have come to a result: a
    byte that is missing can still make the difference.  For those, and for no
    others, two buffers lead to different decisions (`leftover_iff`). -/

namespace Traceroute

open LittleEndian Transition

/-! ## Decisions -/

/-- What the loop decides about a datagram: nothing, that it counts, that it is recorded in
    the hop, that it is recorded as a reply. -/
inductive Decision where
  | ignore
  | count
  | hop
  | reply (seq : Nat)
  deriving DecidableEq

def Answer.decision (pid ttl : Nat) : Answer → Decision
  | .exceeded id seq => if id = pid then if ttl = seq then .hop else .count else .ignore
  | .echoReply id seq => if id = pid then .reply seq else .ignore
  | .other => .ignore

/-- Whether a decision changes anything, and the number that it is recorded under. -/
def Decision.effect (ttl : Nat) : Decision → Option (Option Nat)
  | .ignore => none
  | .count => some none
  | .hop => some (some ttl)
  | .reply seq => some (some seq)

namespace Trace

/-- The rest of an iteration. -/
def act (maxhops : Nat) (ipAddress : List Byte) (s : Trace) : Decision → Trace
  | .ignore => s
  | .count => s.advance
  | .hop =>
      let s' := s.processPacket maxhops s.ttl ipAddress
      if s'.ended then s'
      else if (s'.packets s.ttl).isFull then (s'.shows (s'.packets s.ttl).print).nextHop maxhops
      else s'.advance
  | .reply seq =>
      let s' := s.processPacket maxhops seq ipAddress
      if s'.ended then s'
      else if (s'.packets seq).isFull then (s'.shows (s'.packets seq).print).ends
      else s'.advance

/-- All but the buffer, and what was heard in it. -/
def forget (s : Trace) : Trace := { s with buffer := fun _ => 0, heard := [] }

variable {maxhops pid : Nat} {s : Trace} {ipAddress : List Byte}

/-- **ITERATION**: what happens to a datagram is what was decided about it. -/
theorem receive_eq {got : List Byte} (hgot : got ≠ []) :
    s.receive maxhops pid got ipAddress
      = (s.hears got).act maxhops ipAddress ((s.answer got).decision pid s.ttl) := by
  rw [receive, if_neg hgot]
  cases s.answer got with
  | exceeded id seq =>
      simp only [Answer.decision]
      split
      · split
        · rename_i hseq
          subst hseq
          rfl
        · rfl
      · rfl
  | echoReply id seq =>
      simp only [Answer.decision]
      split <;> rfl
  | other => rfl

/-! What comes after a decision does not look at the buffer. -/

theorem forget_advance : s.advance.forget = s.forget.advance := by
  rw [advance, advance]
  show forget (if s.i < intMax then _ else _) = if s.i < intMax then _ else _
  split <;> rfl

theorem forget_nextHop : (s.nextHop maxhops).forget = s.forget.nextHop maxhops := by
  rw [nextHop, nextHop]
  show forget (if s.ttl + 1 ≤ maxhops ∧ s.ttl + 1 ≤ 255 then _ else _)
    = if s.ttl + 1 ≤ maxhops ∧ s.ttl + 1 ≤ 255 then _ else _
  split <;> rfl

theorem forget_processPacket (seq : Nat) : (s.processPacket maxhops seq ipAddress).forget
    = s.forget.processPacket maxhops seq ipAddress := by
  rw [processPacket, processPacket]
  split
  · show forget (if (s.packets seq).came < intMax then _ else _)
      = if (s.packets seq).came < intMax then _ else _
    split <;> rfl
  · rfl

theorem forget_act (d : Decision) :
    (s.act maxhops ipAddress d).forget = s.forget.act maxhops ipAddress d := by
  cases d with
  | ignore => rfl
  | count => exact forget_advance
  | hop =>
      simp only [act]
      rw [show s.forget.ttl = s.ttl from rfl, ← forget_processPacket]
      generalize s.processPacket maxhops s.ttl ipAddress = t
      show forget (if t.ended then _ else if (t.packets s.ttl).isFull then _ else _)
        = if t.ended then _ else if (t.packets s.ttl).isFull then _ else _
      split
      · rfl
      · split
        · exact forget_nextHop
        · exact forget_advance
  | reply seq =>
      simp only [act]
      rw [← forget_processPacket]
      generalize s.processPacket maxhops seq ipAddress = t
      show forget (if t.ended then _ else if (t.packets seq).isFull then _ else _)
        = if t.ended then _ else if (t.packets seq).isFull then _ else _
      split
      · rfl
      · split
        · rfl
        · exact forget_advance

/-! Different decisions show. -/

theorem act_hop_packetsAt :
    (s.act maxhops ipAddress .hop).packetsAt = s.packetsAt ++ [s.ttl] := by
  rw [← processPacket_packetsAt s.ttl ipAddress]
  simp only [act]
  split
  · rfl
  · split
    · rw [nextHop_packetsAt]
      rfl
    · rw [advance_packetsAt]

theorem act_reply_packetsAt (seq : Nat) :
    (s.act maxhops ipAddress (.reply seq)).packetsAt = s.packetsAt ++ [seq] := by
  rw [← processPacket_packetsAt seq ipAddress]
  simp only [act]
  split
  · rfl
  · split
    · rfl
    · rw [advance_packetsAt]

/-- A running loop that counts does not stay as it is. -/
theorem advance_ne (hrun : s.ended = false) : s.advance.forget ≠ s.forget := by
  intro h
  have hended : s.advance.forget.ended = s.forget.ended := by rw [h]
  have hi : s.advance.forget.i = s.forget.i := by rw [h]
  have hnext : s.advance.i = s.i + 1 := advance_i (hended.trans hrun)
  exact Nat.succ_ne_self s.i (hnext.symm.trans hi)

/-- The number that an iteration notes. -/
theorem act_packetsAt (d : Decision) : (s.act maxhops ipAddress d).packetsAt
    = s.packetsAt ++ ((d.effect s.ttl).getD none).toList := by
  cases d with
  | ignore => exact (List.append_nil _).symm
  | count => exact advance_packetsAt.trans (List.append_nil _).symm
  | hop => exact act_hop_packetsAt
  | reply seq => exact act_reply_packetsAt seq

/-- **EFFECT**: what an iteration leaves tells what was decided. -/
theorem effect_of_forget_act (hrun : s.ended = false) {d d' : Decision}
    (h : (s.act maxhops ipAddress d).forget = (s.act maxhops ipAddress d').forget) :
    d.effect s.ttl = d'.effect s.ttl := by
  have hnoted : (s.act maxhops ipAddress d).forget.packetsAt
      = (s.act maxhops ipAddress d').forget.packetsAt := by rw [h]
  have hlist : ((d.effect s.ttl).getD none).toList = ((d'.effect s.ttl).getD none).toList :=
    List.append_cancel_left ((act_packetsAt d).symm.trans (hnoted.trans (act_packetsAt d')))
  cases d <;> cases d' <;> simp [Decision.effect] at hlist ⊢
  · exact advance_ne hrun h.symm
  · exact advance_ne hrun h
  · exact hlist
  · exact hlist
  · exact hlist

end Trace

/-! ## The tests -/

/-- What is decided with these bytes in the buffer. -/
def decisionOn (pid ttl : Nat) (buffer : Nat → Byte) : Decision :=
  (classify buffer).decision pid ttl

section Tests

variable {buffer : Nat → Byte} {pid ttl h r : Nat}

/-- No header that the tests know. -/
theorem decisionOn_other (hh : pastIp buffer 0 = h) (hexceeded : buffer h ≠ icmpTimeExceeded)
    (hreply : buffer h ≠ icmpEchoReply) : decisionOn pid ttl buffer = .ignore := by
  have hboth : ¬ (buffer h = icmpTimeExceeded ∧ buffer (h + 1) = icmpExcTtl) :=
    fun hboth => hexceeded hboth.1
  simp only [decisionOn, classify, hh]
  rw [if_neg hboth, if_neg hreply]
  rfl

theorem decisionOn_reply (hh : pastIp buffer 0 = h) (htype : buffer h = icmpEchoReply) :
    decisionOn pid ttl buffer
      = if field buffer (h + 4) = pid then .reply (field buffer (h + 6)) else .ignore := by
  have hboth : ¬ (buffer h = icmpTimeExceeded ∧ buffer (h + 1) = icmpExcTtl) := by
    rw [htype]
    exact fun hboth => absurd hboth.1 (by decide)
  simp only [decisionOn, classify, hh]
  rw [if_neg hboth, if_pos htype]
  rfl

/-- A time exceeded message of another kind. -/
theorem decisionOn_code (hh : pastIp buffer 0 = h) (htype : buffer h = icmpTimeExceeded)
    (hcode : buffer (h + 1) ≠ icmpExcTtl) : decisionOn pid ttl buffer = .ignore := by
  have hboth : ¬ (buffer h = icmpTimeExceeded ∧ buffer (h + 1) = icmpExcTtl) :=
    fun hboth => hcode hboth.2
  have hreply : ¬ buffer h = icmpEchoReply := by
    rw [htype]
    decide
  simp only [decisionOn, classify, hh]
  rw [if_neg hboth, if_neg hreply]
  rfl

/-- About a packet of another protocol. -/
theorem decisionOn_protocol (hh : pastIp buffer 0 = h) (htype : buffer h = icmpTimeExceeded)
    (hcode : buffer (h + 1) = icmpExcTtl) (hproto : buffer (h + 8 + 9) ≠ ipprotoIcmp) :
    decisionOn pid ttl buffer = .ignore := by
  simp only [decisionOn, classify, hh, icmpHeaderLen]
  rw [if_pos ⟨htype, hcode⟩, if_neg hproto]
  rfl

theorem decisionOn_exceeded (hh : pastIp buffer 0 = h) (htype : buffer h = icmpTimeExceeded)
    (hcode : buffer (h + 1) = icmpExcTtl) (hproto : buffer (h + 8 + 9) = ipprotoIcmp)
    (hr : pastIp buffer (h + 8) = r) :
    decisionOn pid ttl buffer = if field buffer (r + 4) = pid
      then if ttl = field buffer (r + 6) then .hop else .count else .ignore := by
  simp only [decisionOn, classify, hh, icmpHeaderLen, hr]
  rw [if_pos ⟨htype, hcode⟩, if_pos hproto]
  rfl

theorem field_lt (buffer : Nat → Byte) (ptr : Nat) : field buffer ptr < 2 ^ 16 :=
  (decodeWord 16 [buffer ptr, buffer (ptr + 1)]).isLt

/-- The bytes of a field. -/
theorem field_eq_iff {ptr x : Nat} : field buffer ptr = x ↔ x < 2 ^ 16
    ∧ buffer ptr = BitVec.ofNat 8 x ∧ buffer (ptr + 1) = BitVec.ofNat 8 (x / 256) := by
  have hvalue : field buffer ptr = (buffer ptr).toNat + 256 * (buffer (ptr + 1)).toNat := by
    have hlow : (buffer ptr).toNat < 256 := (buffer ptr).isLt
    have hhigh : (buffer (ptr + 1)).toNat < 256 := (buffer (ptr + 1)).isLt
    show (BitVec.ofNat 16 ((buffer ptr).toNat + 256 * ((buffer (ptr + 1)).toNat + 256 * 0))).toNat
      = _
    rw [BitVec.toNat_ofNat, Nat.mod_eq_of_lt (by omega), Nat.mul_zero, Nat.add_zero]
  constructor
  · rintro rfl
    refine ⟨field_lt buffer ptr, ?_, ?_⟩
    · apply BitVec.eq_of_toNat_eq
      rw [BitVec.toNat_ofNat, hvalue]
      omega
    · apply BitVec.eq_of_toNat_eq
      rw [BitVec.toNat_ofNat, hvalue]
      omega
  · rintro ⟨hx, hlow, hhigh⟩
    rw [hvalue, hlow, hhigh, BitVec.toNat_ofNat, BitVec.toNat_ofNat]
    omega

/-- What a decision other than to ignore rests on. -/
theorem of_decisionOn_ne (h : decisionOn pid ttl buffer ≠ .ignore) :
    buffer (pastIp buffer 0) = icmpEchoReply ∧ field buffer (pastIp buffer 0 + 4) = pid
    ∨ buffer (pastIp buffer 0) = icmpTimeExceeded ∧ buffer (pastIp buffer 0 + 1) = icmpExcTtl
      ∧ buffer (pastIp buffer 0 + 8 + 9) = ipprotoIcmp
      ∧ field buffer (pastIp buffer (pastIp buffer 0 + 8) + 4) = pid := by
  by_cases hexceeded : buffer (pastIp buffer 0) = icmpTimeExceeded
  · right
    have hcode : buffer (pastIp buffer 0 + 1) = icmpExcTtl := by
      by_contra hcode
      exact h (decisionOn_code rfl hexceeded hcode)
    have hproto : buffer (pastIp buffer 0 + 8 + 9) = ipprotoIcmp := by
      by_contra hproto
      exact h (decisionOn_protocol rfl hexceeded hcode hproto)
    refine ⟨hexceeded, hcode, hproto, ?_⟩
    by_contra hid
    apply h
    rw [decisionOn_exceeded rfl hexceeded hcode hproto rfl, if_neg hid]
  · left
    have hreply : buffer (pastIp buffer 0) = icmpEchoReply := by
      by_contra hreply
      exact h (decisionOn_other rfl hexceeded hreply)
    refine ⟨hreply, ?_⟩
    by_contra hid
    apply h
    rw [decisionOn_reply rfl hreply, if_neg hid]

end Tests

/-! ## Short datagrams -/

/-- The buffer with a datagram in front. -/
def fillOn (got : List Byte) (buffer : Nat → Byte) : Nat → Byte :=
  fun k => got.getD k (buffer k)

/-- The byte is `v`, or it has not come. -/
def MayBe (got : List Byte) (k : Nat) (v : Byte) : Prop := got.getD k v = v

/-- The field of 16 bits is `x`, or what is missing of it has not come. -/
def FieldMayBe (got : List Byte) (k x : Nat) : Prop :=
  x < 2 ^ 16 ∧ MayBe got k (BitVec.ofNat 8 x) ∧ MayBe got (k + 1) (BitVec.ofNat 8 (x / 256))

/-- Where the ICMP message of a datagram begins. -/
def icmpAt (got : List Byte) : Nat := pastIp (fun k => got.getD k 0) 0

/-- Where the packet begins that an error message is about. -/
def origAt (got : List Byte) : Nat := icmpAt got + icmpHeaderLen

/-- Where the ICMP message of that packet begins. -/
def origIcmpAt (got : List Byte) : Nat := pastIp (fun k => got.getD k 0) (origAt got)

/-- A datagram that ends before its tests are settled. -/
inductive Open (pid ttl : Nat) (got : List Byte) : Prop where
  /-- the type has not come -/
  | icmpType (hpid : pid < 2 ^ 16) (hn : got.length ≤ icmpAt got)
  /-- the code of an error message has not come -/
  | icmpCode (hpid : pid < 2 ^ 16) (htype : got.getD (icmpAt got) 0 = icmpTimeExceeded)
      (hn : got.length = icmpAt got + 1)
  /-- nothing of the packet that it is about has come -/
  | header (hpid : pid < 2 ^ 16) (htype : got.getD (icmpAt got) 0 = icmpTimeExceeded)
      (hcode : got.getD (icmpAt got + 1) 0 = icmpExcTtl)
      (hcome : icmpAt got + 1 < got.length) (hn : got.length ≤ origAt got)
  /-- the packet may be a probe, or even the one of this hop, and need not be -/
  | original (htype : got.getD (icmpAt got) 0 = icmpTimeExceeded)
      (hcode : got.getD (icmpAt got + 1) 0 = icmpExcTtl) (hcome : origAt got < got.length)
      (hproto : MayBe got (origAt got + 9) ipprotoIcmp)
      (hid : FieldMayBe got (origIcmpAt got + 4) pid)
      (hboth : origIcmpAt got + 5 = origAt got + 9 → BitVec.ofNat 8 (pid / 256) = ipprotoIcmp)
      (hn : got.length ≤ origAt got + 9 ∨ got.length < origIcmpAt got + 6
        ∨ got.length < origIcmpAt got + 8 ∧ FieldMayBe got (origIcmpAt got + 6) ttl)
  /-- the reply may be to a probe, and its number has not come -/
  | reply (hcome : icmpAt got < got.length) (htype : got.getD (icmpAt got) 0 = icmpEchoReply)
      (hid : FieldMayBe got (icmpAt got + 4) pid) (hn : got.length < icmpAt got + 8)

section Fill

variable {got : List Byte} {b c : Nat → Byte} {k x : Nat}

theorem fillOn_of_lt (hk : k < got.length) : fillOn got b k = got.getD k 0 := by
  rw [fillOn, List.getD_eq_getElem _ _ hk, List.getD_eq_getElem _ _ hk]

theorem fillOn_of_le (hk : got.length ≤ k) : fillOn got b k = b k :=
  List.getD_eq_default got (b k) hk

/-- What has come is the same with every buffer. -/
theorem fillOn_congr (hk : k < got.length) : fillOn got b k = fillOn got c k :=
  (fillOn_of_lt hk).trans (fillOn_of_lt hk).symm

theorem field_congr (hk : k + 1 < got.length) :
    field (fillOn got b) k = field (fillOn got c) k := by
  rw [field, field, fillOn_congr (b := b) (c := c) (Nat.lt_of_succ_lt hk),
    fillOn_congr (b := b) (c := c) hk]

theorem mayBe_of_le {v : Byte} (hk : got.length ≤ k) : MayBe got k v :=
  List.getD_eq_default got v hk

/-- A byte that has been seen may be there. -/
theorem mayBe_of_fillOn {v : Byte} (h : fillOn got b k = v) : MayBe got k v := by
  by_cases hk : k < got.length
  · rw [fillOn, List.getD_eq_getElem _ _ hk] at h
    rw [MayBe, List.getD_eq_getElem _ _ hk, h]
  · exact mayBe_of_le (Nat.le_of_not_lt hk)

/-- A byte that may be there is there if the buffer has it. -/
theorem fillOn_of_mayBe {v : Byte} (h : MayBe got k v) (hb : b k = v) : fillOn got b k = v := by
  rw [fillOn, hb]
  exact h

theorem fieldMayBe_of_field (h : field (fillOn got b) k = x) : FieldMayBe got k x := by
  obtain ⟨hx, hlow, hhigh⟩ := field_eq_iff.mp h
  exact ⟨hx, mayBe_of_fillOn hlow, mayBe_of_fillOn hhigh⟩

theorem field_of_fieldMayBe (h : FieldMayBe got k x) (hlow : b k = BitVec.ofNat 8 x)
    (hhigh : b (k + 1) = BitVec.ofNat 8 (x / 256)) : field (fillOn got b) k = x :=
  field_eq_iff.mpr ⟨h.1, fillOn_of_mayBe h.2.1 hlow, fillOn_of_mayBe h.2.2 hhigh⟩

theorem fieldMayBe_of_le (hx : x < 2 ^ 16) (hk : got.length ≤ k) : FieldMayBe got k x :=
  ⟨hx, mayBe_of_le hk, mayBe_of_le (Nat.le_succ_of_le hk)⟩

theorem pastIp_fillOn (hk : k < got.length) :
    pastIp (fillOn got b) k = pastIp (fun j => got.getD j 0) k := by
  rw [pastIp, fillOn_of_lt hk]
  rfl

/-- The first byte says where the message is. -/
theorem pastIp_fillOn_zero (hgot : got ≠ []) : pastIp (fillOn got b) 0 = icmpAt got :=
  pastIp_fillOn (List.length_pos_iff.mpr hgot)

end Fill

/-! ### What has come settles the tests, or the datagram is open -/

section Settled

variable {got : List Byte} {b b' : Nat → Byte} {pid ttl : Nat}

theorem open_of_reply (hgot : got ≠ [])
    (htype : fillOn got b (icmpAt got) = icmpEchoReply)
    (hid : field (fillOn got b) (icmpAt got + 4) = pid)
    (hne : decisionOn pid ttl (fillOn got b) ≠ decisionOn pid ttl (fillOn got b')) :
    Open pid ttl got := by
  have hpid : pid < 2 ^ 16 := hid ▸ field_lt _ _
  rcases Nat.lt_or_ge (icmpAt got) got.length with hcome | hn
  · have hgotType : got.getD (icmpAt got) 0 = icmpEchoReply :=
      (fillOn_of_lt hcome).symm.trans htype
    refine .reply hcome hgotType (fieldMayBe_of_field hid) ?_
    by_contra hn
    apply hne
    have htype' : fillOn got b' (icmpAt got) = icmpEchoReply := (fillOn_of_lt hcome).trans hgotType
    rw [decisionOn_reply (pastIp_fillOn_zero hgot) htype,
      decisionOn_reply (pastIp_fillOn_zero hgot) htype',
      field_congr (b := b) (c := b') (k := icmpAt got + 4) (by omega),
      field_congr (b := b) (c := b') (k := icmpAt got + 6) (by omega)]
  · exact .icmpType hpid hn

/-- The last test is settled when the number has come, and when it cannot be that of the
    hop. -/
theorem field_eq_congr {c : Nat → Byte} {k : Nat}
    (h : k + 1 < got.length ∨ ¬ FieldMayBe got k ttl) :
    ttl = field (fillOn got b) k ↔ ttl = field (fillOn got c) k := by
  rcases h with hk | hnot
  · rw [field_congr hk]
  · constructor
    · intro h
      exact absurd (fieldMayBe_of_field h.symm) hnot
    · intro h
      exact absurd (fieldMayBe_of_field h.symm) hnot

theorem open_of_exceeded (hgot : got ≠ [])
    (htype : fillOn got b (icmpAt got) = icmpTimeExceeded)
    (hcode : fillOn got b (icmpAt got + 1) = icmpExcTtl)
    (hproto : fillOn got b (icmpAt got + 8 + 9) = ipprotoIcmp)
    (hid : field (fillOn got b) (pastIp (fillOn got b) (icmpAt got + 8) + 4) = pid)
    (hne : decisionOn pid ttl (fillOn got b) ≠ decisionOn pid ttl (fillOn got b')) :
    Open pid ttl got := by
  have hpid : pid < 2 ^ 16 := hid ▸ field_lt _ _
  rcases (Nat.lt_or_ge (icmpAt got) got.length).symm with hn | hcome
  · exact .icmpType hpid hn
  have hgotType : got.getD (icmpAt got) 0 = icmpTimeExceeded :=
    (fillOn_of_lt hcome).symm.trans htype
  rcases (Nat.lt_or_ge (icmpAt got + 1) got.length).symm with hn | hcome'
  · exact .icmpCode hpid hgotType (Nat.le_antisymm hn hcome)
  have hgotCode : got.getD (icmpAt got + 1) 0 = icmpExcTtl := (fillOn_of_lt hcome').symm.trans hcode
  rcases (Nat.lt_or_ge (origAt got) got.length).symm with hn | horig
  · exact .header hpid hgotType hgotCode hcome' hn
  have hr : ∀ c, pastIp (fillOn got c) (icmpAt got + 8) = origIcmpAt got :=
    fun c => pastIp_fillOn horig
  rw [hr] at hid
  refine .original hgotType hgotCode horig (mayBe_of_fillOn hproto) (fieldMayBe_of_field hid) ?_ ?_
  · intro hboth
    have hhigh : fillOn got b (origIcmpAt got + 5) = BitVec.ofNat 8 (pid / 256) :=
      (field_eq_iff.mp hid).2.2
    rw [hboth] at hhigh
    exact hhigh.symm.trans hproto
  · by_contra hn
    obtain ⟨hn9, hn6, hseq⟩ : origAt got + 9 < got.length ∧ origIcmpAt got + 6 ≤ got.length
        ∧ (origIcmpAt got + 7 < got.length ∨ ¬ FieldMayBe got (origIcmpAt got + 6) ttl) := by
      rw [not_or, not_or, not_and_or] at hn
      obtain ⟨hn9, hn6, hseq⟩ := hn
      exact ⟨Nat.lt_of_not_le hn9, Nat.le_of_not_lt hn6, hseq.imp_left fun hn8 => by omega⟩
    apply hne
    have htype' : fillOn got b' (icmpAt got) = icmpTimeExceeded :=
      (fillOn_of_lt hcome).trans hgotType
    have hcode' : fillOn got b' (icmpAt got + 1) = icmpExcTtl :=
      (fillOn_of_lt hcome').trans hgotCode
    have hproto' : fillOn got b' (icmpAt got + 8 + 9) = ipprotoIcmp :=
      (fillOn_congr hn9).trans hproto
    have hid' : field (fillOn got b') (origIcmpAt got + 4) = pid :=
      (field_congr (Nat.lt_of_succ_le hn6)).trans hid
    rw [decisionOn_exceeded (pastIp_fillOn_zero hgot) htype hcode hproto (hr b),
      decisionOn_exceeded (pastIp_fillOn_zero hgot) htype' hcode' hproto' (hr b'),
      if_pos hid, if_pos hid']
    simp only [field_eq_congr (b := b) (c := b') hseq]

/-- **SETTLED**: two buffers behind a datagram that is not open lead to one decision. -/
theorem open_of_ne (hgot : got ≠ [])
    (hne : decisionOn pid ttl (fillOn got b) ≠ decisionOn pid ttl (fillOn got b')) :
    Open pid ttl got := by
  have hseen : ∀ {c c'}, decisionOn pid ttl (fillOn got c) ≠ .ignore →
        decisionOn pid ttl (fillOn got c) ≠ decisionOn pid ttl (fillOn got c') →
        Open pid ttl got := by
    intro c c' hc hne
    have hrests := of_decisionOn_ne hc
    rw [pastIp_fillOn_zero hgot] at hrests
    obtain ⟨htype, hid⟩ | ⟨htype, hcode, hproto, hid⟩ := hrests
    · exact open_of_reply hgot htype hid hne
    · exact open_of_exceeded hgot htype hcode hproto hid hne
  by_cases hb : decisionOn pid ttl (fillOn got b) = .ignore
  · have hb' : decisionOn pid ttl (fillOn got b') ≠ .ignore := fun hb' => hne (hb.trans hb'.symm)
    exact hseen hb' hne.symm
  · exact hseen hb hne

end Settled

/-! ### Two buffers that make a difference -/

/-- Memory with an id at `r + 4` and a number at `r + 6`. -/
def withIds (r id seq : Nat) (rest : Nat → Byte) : Nat → Byte := fun k =>
  if k = r + 4 then BitVec.ofNat 8 id
  else if k = r + 5 then BitVec.ofNat 8 (id / 256)
  else if k = r + 6 then BitVec.ofNat 8 seq
  else if k = r + 7 then BitVec.ofNat 8 (seq / 256)
  else rest k

/-- Zeros, and the protocol of a packet at `o`. -/
def withProtocol (o : Nat) : Nat → Byte := fun k => if k = o + 9 then ipprotoIcmp else 0

section Memory

variable {r id seq k : Nat} {rest : Nat → Byte} {got : List Byte}

theorem withIds_rest (hk : k < r + 4 ∨ r + 8 ≤ k) : withIds r id seq rest k = rest k := by
  rw [withIds, if_neg (by omega), if_neg (by omega), if_neg (by omega), if_neg (by omega)]

theorem field_withIds (h : FieldMayBe got (r + 4) id) :
    field (fillOn got (withIds r id seq rest)) (r + 4) = id := by
  apply field_of_fieldMayBe h
  · exact if_pos rfl
  · show withIds r id seq rest (r + 5) = _
    rw [withIds, if_neg (by omega), if_pos rfl]

theorem field_withIds_seq (h : FieldMayBe got (r + 6) seq) :
    field (fillOn got (withIds r id seq rest)) (r + 6) = seq := by
  apply field_of_fieldMayBe h
  · rw [withIds, if_neg (by omega), if_neg (by omega), if_pos rfl]
  · show withIds r id seq rest (r + 7) = _
    rw [withIds, if_neg (by omega), if_neg (by omega), if_neg (by omega), if_pos rfl]

/-- Another byte behind a datagram is another field. -/
theorem field_ne {b b' : Nat → Byte} (hk : got.length ≤ k + 1) (hne : b (k + 1) ≠ b' (k + 1)) :
    field (fillOn got b) k ≠ field (fillOn got b') k := by
  intro heq
  apply hne
  have hhigh : fillOn got b (k + 1) = fillOn got b' (k + 1) :=
    (field_eq_iff.mp heq).2.2.trans (field_eq_iff.mp rfl).2.2.symm
  rwa [fillOn_of_le hk, fillOn_of_le hk] at hhigh

/-- The same memory with another byte at `k`. -/
def flipAt (k : Nat) (b : Nat → Byte) : Nat → Byte := Function.update b k (~~~ b k)

theorem field_flipAt_ne (b : Nat → Byte) (hk : got.length ≤ k + 1) :
    field (fillOn got (flipAt (k + 1) b)) k ≠ field (fillOn got b) k := by
  apply field_ne hk
  rw [flipAt, Function.update_self]
  exact complement_ne _

/-- The other bytes stay. -/
theorem fillOn_flipAt {b : Nat → Byte} {j : Nat} (hj : j ≠ k) :
    fillOn got (flipAt k b) j = fillOn got b j := by
  rw [fillOn, fillOn, flipAt, Function.update_of_ne hj]

theorem field_flipAt {b : Nat → Byte} {j : Nat} (hk : j ≠ k) (hk' : j + 1 ≠ k) :
    field (fillOn got (flipAt k b)) j = field (fillOn got b) j := by
  rw [field, field, fillOn_flipAt hk, fillOn_flipAt hk']

end Memory

section Unsettled

variable {got : List Byte} {pid ttl : Nat}

/-- Two buffers that make a difference. -/
def Differs (pid ttl : Nat) (got : List Byte) : Prop :=
  ∃ b b', (decisionOn pid ttl (fillOn got b)).effect ttl
    ≠ (decisionOn pid ttl (fillOn got b')).effect ttl

/-- To ignore is not what any other decision is. -/
theorem effect_ne_ignore {d : Decision} (h : d ≠ .ignore) :
    d.effect ttl ≠ Decision.effect ttl .ignore := by
  cases d with
  | ignore => exact absurd rfl h
  | count => exact nofun
  | hop => exact nofun
  | reply seq => exact nofun

theorem differs_of_ignore {b c : Nat → Byte} (hb : decisionOn pid ttl (fillOn got b) ≠ .ignore)
    (hc : decisionOn pid ttl (fillOn got c) = .ignore) : Differs pid ttl got := by
  refine ⟨b, c, ?_⟩
  rw [hc]
  exact effect_ne_ignore hb

/-- A reply with an own id is not ignored. -/
theorem reply_ne_ignore (hgot : got ≠ []) {b : Nat → Byte}
    (htype : fillOn got b (icmpAt got) = icmpEchoReply)
    (hid : field (fillOn got b) (icmpAt got + 4) = pid) :
    decisionOn pid ttl (fillOn got b) ≠ .ignore := by
  rw [decisionOn_reply (pastIp_fillOn_zero hgot) htype, if_pos hid]
  exact nofun

/-- An error about a packet with an own id is not ignored. -/
theorem exceeded_ne_ignore (hgot : got ≠ []) {b : Nat → Byte} {r : Nat}
    (htype : fillOn got b (icmpAt got) = icmpTimeExceeded)
    (hcode : fillOn got b (icmpAt got + 1) = icmpExcTtl)
    (hproto : fillOn got b (origAt got + 9) = ipprotoIcmp)
    (hr : pastIp (fillOn got b) (origAt got) = r)
    (hid : field (fillOn got b) (r + 4) = pid) :
    decisionOn pid ttl (fillOn got b) ≠ .ignore := by
  rw [decisionOn_exceeded (pastIp_fillOn_zero hgot) htype hcode hproto hr, if_pos hid]
  split
  · exact nofun
  · exact nofun

/-- Memory in which the rest of an error message about an own packet lies.  A header
    length of zero puts the ids of that packet right behind it. -/
theorem ownError_ne_ignore (hgot : got ≠ []) (hpid : pid < 2 ^ 16)
    (htype : got.getD (icmpAt got) 0 = icmpTimeExceeded)
    (hcode : MayBe got (icmpAt got + 1) icmpExcTtl) (hcome : icmpAt got < got.length)
    (hn : got.length ≤ origAt got) :
    decisionOn pid ttl
      (fillOn got (withIds (origAt got) pid 0 (withProtocol (origAt got)))) ≠ .ignore := by
  have horig : origAt got = icmpAt got + 8 := rfl
  apply exceeded_ne_ignore hgot (r := origAt got)
  · exact (fillOn_of_lt hcome).trans htype
  · apply fillOn_of_mayBe hcode
    rw [withIds_rest (by omega)]
    exact if_neg (by omega)
  · rw [fillOn_of_le (by omega), withIds_rest (by omega)]
    exact if_pos rfl
  · rw [pastIp, fillOn_of_le hn, withIds_rest (by omega), withProtocol, if_neg (by omega)]
    rfl
  · exact field_withIds (fieldMayBe_of_le hpid (by omega))

theorem differs_icmpType (hgot : got ≠ []) (hpid : pid < 2 ^ 16)
    (hn : got.length ≤ icmpAt got) : Differs pid ttl got := by
  have hyes :
      decisionOn pid ttl (fillOn got (withIds (icmpAt got) pid 0 fun _ => 0)) ≠ .ignore := by
    apply reply_ne_ignore hgot
    · rw [fillOn_of_le hn, withIds_rest (by omega)]
      rfl
    · exact field_withIds (fieldMayBe_of_le hpid (by omega))
  have hno : decisionOn pid ttl (fillOn got fun _ => 5) = .ignore := by
    apply decisionOn_other (pastIp_fillOn_zero hgot)
    · rw [fillOn_of_le hn]
      decide
    · rw [fillOn_of_le hn]
      decide
  exact differs_of_ignore hyes hno

theorem differs_icmpCode (hgot : got ≠ []) (hpid : pid < 2 ^ 16)
    (htype : got.getD (icmpAt got) 0 = icmpTimeExceeded)
    (hn : got.length = icmpAt got + 1) : Differs pid ttl got := by
  have hno : decisionOn pid ttl (fillOn got fun _ => 5) = .ignore := by
    apply decisionOn_code (pastIp_fillOn_zero hgot)
    · exact (fillOn_of_lt (by omega)).trans htype
    · rw [fillOn_of_le (by omega)]
      decide
  have horig : origAt got = icmpAt got + 8 := rfl
  exact differs_of_ignore (ownError_ne_ignore hgot hpid htype
    (mayBe_of_le (by omega)) (by omega) (by omega)) hno

/-- Nothing in memory makes a probe of a packet whose protocol is missing and not there. -/
theorem ignore_of_protocol (hgot : got ≠ [])
    (htype : got.getD (icmpAt got) 0 = icmpTimeExceeded)
    (hcode : got.getD (icmpAt got + 1) 0 = icmpExcTtl) (hcome : icmpAt got + 1 < got.length)
    (hn : got.length ≤ origAt got + 9) {b : Nat → Byte} (hb : b (origAt got + 9) ≠ ipprotoIcmp) :
    decisionOn pid ttl (fillOn got b) = .ignore := by
  apply decisionOn_protocol (pastIp_fillOn_zero hgot)
  · exact (fillOn_of_lt (Nat.lt_of_succ_lt hcome)).trans htype
  · exact (fillOn_of_lt hcome).trans hcode
  · exact (fillOn_of_le (b := b) hn).trans_ne hb

theorem differs_header (hgot : got ≠ []) (hpid : pid < 2 ^ 16)
    (htype : got.getD (icmpAt got) 0 = icmpTimeExceeded)
    (hcode : got.getD (icmpAt got + 1) 0 = icmpExcTtl)
    (hcome : icmpAt got + 1 < got.length) (hn : got.length ≤ origAt got) :
    Differs pid ttl got := by
  have hmaybe : MayBe got (icmpAt got + 1) icmpExcTtl :=
    mayBe_of_fillOn (b := fun _ => 0) ((fillOn_of_lt hcome).trans hcode)
  have hno : decisionOn pid ttl (fillOn got fun _ => 0) = .ignore :=
    ignore_of_protocol hgot htype hcode hcome (by omega) (by decide)
  exact differs_of_ignore (ownError_ne_ignore hgot hpid htype hmaybe (by omega) hn) hno

theorem differs_reply (hgot : got ≠ []) (hcome : icmpAt got < got.length)
    (htype : got.getD (icmpAt got) 0 = icmpEchoReply)
    (hid : FieldMayBe got (icmpAt got + 4) pid) (hn : got.length < icmpAt got + 8) :
    Differs pid ttl got := by
  have htypes : ∀ b, fillOn got b (icmpAt got) = icmpEchoReply :=
    fun b => (fillOn_of_lt hcome).trans htype
  have hown : field (fillOn got (withIds (icmpAt got) pid 0 fun _ => 0)) (icmpAt got + 4) = pid :=
    field_withIds hid
  rcases Nat.lt_or_ge got.length (icmpAt got + 6) with hlt | hge
  · have hno : decisionOn pid ttl (fillOn got (flipAt (icmpAt got + 5)
        (withIds (icmpAt got) pid 0 fun _ => 0))) = .ignore := by
      rw [decisionOn_reply (pastIp_fillOn_zero hgot) (htypes _), if_neg]
      intro hid'
      exact field_flipAt_ne (k := icmpAt got + 4) _ (by omega) (hid'.trans hown.symm)
    exact differs_of_ignore (reply_ne_ignore hgot (htypes _) hown) hno
  · have hown' : field (fillOn got (flipAt (icmpAt got + 7)
        (withIds (icmpAt got) pid 0 fun _ => 0))) (icmpAt got + 4) = pid :=
      (field_flipAt (by omega) (by omega)).trans hown
    refine ⟨flipAt (icmpAt got + 7) (withIds (icmpAt got) pid 0 fun _ => 0),
      withIds (icmpAt got) pid 0 fun _ => 0, ?_⟩
    rw [decisionOn_reply (pastIp_fillOn_zero hgot) (htypes _),
      decisionOn_reply (pastIp_fillOn_zero hgot) (htypes _), if_pos hown, if_pos hown']
    intro heq
    have hseq := Option.some_inj.mp (Option.some_inj.mp heq)
    exact field_flipAt_ne (k := icmpAt got + 6) _ (by omega) hseq

/-- The protocol and an own id together, as far as they have not come.  A header length is a
    multiple of four, so at most the second byte of the id is the protocol too. -/
theorem fillOn_withProtocol (hproto : MayBe got (origAt got + 9) ipprotoIcmp)
    (hboth : origIcmpAt got + 5 = origAt got + 9 → BitVec.ofNat 8 (pid / 256) = ipprotoIcmp) :
    fillOn got (withIds (origIcmpAt got) pid ttl (withProtocol (origAt got))) (origAt got + 9)
      = ipprotoIcmp := by
  obtain ⟨m, hm⟩ : ∃ m, origIcmpAt got = origAt got + m * 4 := ⟨_, rfl⟩
  apply fillOn_of_mayBe hproto
  by_cases heq : origIcmpAt got + 5 = origAt got + 9
  · rw [← heq, withIds, if_neg (by omega), if_pos rfl]
    exact hboth heq
  · rw [withIds_rest (by omega)]
    exact if_pos rfl

theorem differs_original (hgot : got ≠ [])
    (htype : got.getD (icmpAt got) 0 = icmpTimeExceeded)
    (hcode : got.getD (icmpAt got + 1) 0 = icmpExcTtl) (hcome : origAt got < got.length)
    (hproto : MayBe got (origAt got + 9) ipprotoIcmp)
    (hid : FieldMayBe got (origIcmpAt got + 4) pid)
    (hboth : origIcmpAt got + 5 = origAt got + 9 → BitVec.ofNat 8 (pid / 256) = ipprotoIcmp)
    (hn : got.length ≤ origAt got + 9 ∨ got.length < origIcmpAt got + 6
      ∨ got.length < origIcmpAt got + 8 ∧ FieldMayBe got (origIcmpAt got + 6) ttl) :
    Differs pid ttl got := by
  have horig : origAt got = icmpAt got + 8 := rfl
  obtain ⟨m, hm⟩ : ∃ m, origIcmpAt got = origAt got + m * 4 := ⟨_, rfl⟩
  have htypes : ∀ b, fillOn got b (icmpAt got) = icmpTimeExceeded :=
    fun b => (fillOn_of_lt (by omega)).trans htype
  have hcodes : ∀ b, fillOn got b (icmpAt got + 1) = icmpExcTtl :=
    fun b => (fillOn_of_lt (by omega)).trans hcode
  have hr : ∀ b, pastIp (fillOn got b) (origAt got) = origIcmpAt got := fun b => pastIp_fillOn hcome
  obtain ⟨b, hb⟩ : ∃ b, b = withIds (origIcmpAt got) pid ttl (withProtocol (origAt got)) := ⟨_, rfl⟩
  have hown : field (fillOn got b) (origIcmpAt got + 4) = pid := by
    rw [hb]
    exact field_withIds hid
  have hprobe : fillOn got b (origAt got + 9) = ipprotoIcmp := by
    rw [hb]
    exact fillOn_withProtocol hproto hboth
  have hyes : decisionOn pid ttl (fillOn got b) ≠ .ignore :=
    exceeded_ne_ignore hgot (htypes b) (hcodes b) hprobe (hr b) hown
  rcases hn with hn | hn | ⟨hn, hhop⟩
  · have hno : decisionOn pid ttl (fillOn got fun _ => 0) = .ignore :=
      ignore_of_protocol hgot htype hcode (by omega) hn (by decide)
    exact differs_of_ignore hyes hno
  · -- another id, which may change the protocol with it
    apply differs_of_ignore hyes (c := flipAt (origIcmpAt got + 5) b)
    by_contra hno
    obtain ⟨hreply, -⟩ | ⟨-, -, -, hid'⟩ := of_decisionOn_ne hno
    · rw [pastIp_fillOn_zero hgot, htypes] at hreply
      exact absurd hreply (by decide)
    · rw [pastIp_fillOn_zero hgot, ← icmpHeaderLen, ← origAt, hr] at hid'
      exact field_flipAt_ne (k := origIcmpAt got + 4) b (by omega) (hid'.trans hown.symm)
  · -- another number
    refine ⟨b, flipAt (origIcmpAt got + 7) b, ?_⟩
    have hseq : ttl = field (fillOn got b) (origIcmpAt got + 6) := by
      rw [hb]
      exact (field_withIds_seq hhop).symm
    have hseq' : ttl ≠ field (fillOn got (flipAt (origIcmpAt got + 7) b)) (origIcmpAt got + 6) := by
      rw [hseq]
      exact (field_flipAt_ne (k := origIcmpAt got + 6) b (by omega)).symm
    have hprobe' : fillOn got (flipAt (origIcmpAt got + 7) b) (origAt got + 9) = ipprotoIcmp :=
      (fillOn_flipAt (by omega)).trans hprobe
    have hown' : field (fillOn got (flipAt (origIcmpAt got + 7) b)) (origIcmpAt got + 4) = pid :=
      (field_flipAt (by omega) (by omega)).trans hown
    rw [decisionOn_exceeded (pastIp_fillOn_zero hgot) (htypes _) (hcodes _) hprobe (hr _),
      decisionOn_exceeded (pastIp_fillOn_zero hgot) (htypes _) (hcodes _) hprobe' (hr _),
      if_pos hown, if_pos hown', if_pos hseq, if_neg hseq']
    exact nofun

/-- **OPEN**: what lies behind an open datagram can make a difference. -/
theorem Open.differs (hgot : got ≠ []) (h : Open pid ttl got) : Differs pid ttl got := by
  cases h with
  | icmpType hpid hn => exact differs_icmpType hgot hpid hn
  | icmpCode hpid htype hn => exact differs_icmpCode hgot hpid htype hn
  | header hpid htype hcode hcome hn => exact differs_header hgot hpid htype hcode hcome hn
  | original htype hcode hcome hproto hid hboth hn =>
      exact differs_original hgot htype hcode hcome hproto hid hboth hn
  | reply hcome htype hid hn => exact differs_reply hgot hcome htype hid hn

end Unsettled

/-! ## The loop -/

namespace Trace

/-- One iteration with these bytes in the buffer, without the buffer itself. -/
def receiveOn (maxhops pid : Nat) (s : Trace) (got ipAddress : List Byte) (b : Nat → Byte) :
    Trace :=
  (({ s with buffer := b } : Trace).receive maxhops pid got ipAddress).forget

theorem receiveOn_eq {maxhops pid : Nat} {s : Trace} {got ipAddress : List Byte} (hgot : got ≠ [])
    (b : Nat → Byte) : s.receiveOn maxhops pid got ipAddress b
      = s.forget.act maxhops ipAddress (decisionOn pid s.ttl (fillOn got b)) := by
  rw [receiveOn, receive_eq hgot, forget_act]
  rfl

end Trace

/-- **LEFTOVER**: an iteration is the same whatever lies behind the datagram exactly if the
    datagram settles the tests. -/
theorem leftover_iff {got : List Byte} (hgot : got ≠ []) {s : Trace} (hrun : s.ended = false)
    (maxhops pid : Nat) (ipAddress : List Byte) :
    (∀ b b', s.receiveOn maxhops pid got ipAddress b = s.receiveOn maxhops pid got ipAddress b')
      ↔ ¬ Open pid s.ttl got := by
  simp only [Trace.receiveOn_eq hgot]
  constructor
  · intro hsame hopen
    obtain ⟨b, b', hne⟩ := hopen.differs hgot
    have hact := congrArg Trace.forget (hsame b b')
    exact hne (Trace.effect_of_forget_act (s := s.forget) hrun hact)
  · intro hclosed b b'
    have hsame : decisionOn pid s.ttl (fillOn got b) = decisionOn pid s.ttl (fillOn got b') := by
      by_contra hne
      exact hclosed (open_of_ne hgot hne)
    rw [hsame]

/-- A whole reply settles its tests. -/
theorem not_open_echoReply (pid ttl : Nat) (id seq : Byte) : ¬ Open pid ttl (echoReply id seq) := by
  have hlen : (echoReply id seq).length = 28 := rfl
  have hat : icmpAt (echoReply id seq) = 20 := by
    show 0 + (69 : Byte).toNat % 16 * 4 = 20
    decide
  have hreply : (echoReply id seq).getD (icmpAt (echoReply id seq)) 0 = icmpEchoReply := by
    rw [hat]
    rfl
  intro h
  cases h with
  | icmpType _ hn => omega
  | icmpCode _ htype _ => exact absurd (hreply.symm.trans htype) (by decide)
  | header _ htype _ _ _ => exact absurd (hreply.symm.trans htype) (by decide)
  | original htype _ _ _ _ _ _ => exact absurd (hreply.symm.trans htype) (by decide)
  | reply _ _ _ hn => omega

/-- What lies behind a whole reply does not matter. -/
theorem leftover_echoReply : ¬ Open 5 1 (echoReply 5 1) ∧ ∀ b b' : Nat → Byte,
    (traceInit 30 zeroMemory).receiveOn 30 5 (echoReply 5 1) [] b
      = (traceInit 30 zeroMemory).receiveOn 30 5 (echoReply 5 1) [] b' :=
  ⟨not_open_echoReply 5 1 5 1,
    (leftover_iff (List.cons_ne_nil _ _) rfl 30 5 []).mpr (not_open_echoReply 5 1 5 1)⟩

/-- An IP header and nothing else. -/
def bareHeader : List Byte := 69 :: List.replicate 19 0

/-- What an earlier reply left in the buffer. -/
def earlierReply : Nat → Byte := fun k => (echoReply 5 1).getD k 0

/-- Behind a header alone the loop takes an earlier reply for a new one, and records it once
    more. -/
theorem not_leftover : ¬ ∀ (s : Trace) (maxhops pid : Nat) (got ipAddress : List Byte),
    got ≠ [] → s.ended = false → ∀ b b' : Nat → Byte, (∀ k < got.length, b k = b' k) →
      s.receiveOn maxhops pid got ipAddress b = s.receiveOn maxhops pid got ipAddress b' := by
  intro h
  have hsame := h (traceInit 30 zeroMemory) 30 5 bareHeader [] (List.cons_ne_nil _ _) rfl
    (fillOn bareHeader earlierReply) (fillOn bareHeader fun _ => 0) fun k hk => fillOn_congr hk
  have hcalls := congrArg Trace.calls hsame
  exact absurd hcalls (by decide)

end Traceroute
