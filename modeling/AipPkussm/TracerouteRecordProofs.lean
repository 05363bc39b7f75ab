import AipPkussm.TracerouteProofs

/-! # The records of the hops

    A record is copied out of the table, changed and copied back for each answer
    that is recorded under its number.  The loop that sets the records ends
    before `maxhops`, the loop that uses them with it, and the record in between
    comes from a default constructor that sets nothing.

    `counted_iff`: all records count their answers in every run exactly when the
    memory of that one happens to hold what the loop would have set. -/

namespace Traceroute

open LittleEndian Transition

/-- **COUNTED**: the record of hop `t` belongs to hop `t`, and `came` is the number of calls
    of `processPacket` for it. -/
structure Counted (maxhops : Nat) (s : Trace) : Prop where
  ttl : ∀ t, 1 ≤ t → t ≤ maxhops → (s.packets t).ttl = t
  came : ∀ t, 1 ≤ t → t ≤ maxhops → (s.packets t).came = s.calls.count t
  isFilled : ∀ t, 1 ≤ t → t ≤ maxhops →
    ((s.packets t).isFilled = true ↔ 1 ≤ s.calls.count t)
  isFull : ∀ t, 1 ≤ t → t ≤ maxhops →
    ((s.packets t).isFull = true ↔ s.calls.count t = 3)

/-- The replies are in range: what is recorded has a record. -/
def inRange (maxhops pid : Nat) (s : Trace) : TraceAct → Prop
  | .datagram got _ => ∀ seq, (s.answer got).recorded pid s.ttl = some seq → seq ≤ maxhops
  | .timeout => True
  | .fail => True

variable {maxhops pid : Nat} {s s' : Trace} {a : TraceAct}

/-- Both tests look at the count. -/
theorem Counted.of_record
    (h : ∀ t, 1 ≤ t → t ≤ maxhops →
      (s.packets t).ttl = t ∧ (s.packets t).came = s.calls.count t) : Counted maxhops s where
  ttl := fun t h₁ h₂ => (h t h₁ h₂).1
  came := fun t h₁ h₂ => (h t h₁ h₂).2
  isFilled := by
    intro t h₁ h₂
    rw [Packet.isFilled_iff, (h t h₁ h₂).2]
    omega
  isFull := by
    intro t h₁ h₂
    rw [Packet.isFull_iff, (h t h₁ h₂).2]
    omega

/-- Only the records and the calls matter. -/
theorem Counted.congr (h : Counted maxhops s) (hpackets : s'.packets = s.packets)
    (hcalls : s'.calls = s.calls) : Counted maxhops s' := by
  refine Counted.of_record ?_
  intro t h₁ h₂
  rw [hpackets, hcalls]
  exact ⟨h.ttl t h₁ h₂, h.came t h₁ h₂⟩

/-- A call counts for its own record and for no other. -/
theorem Counted.processed (h : Counted maxhops s) (seq : Nat) (ipAddress : List Byte) :
    Counted maxhops (s.processed seq ipAddress) := by
  refine Counted.of_record ?_
  intro t h₁ h₂
  have hcount : (s.processed seq ipAddress).calls.count t
      = s.calls.count t + if seq = t then 1 else 0 := by
    show (s.calls ++ [seq]).count t = _
    rw [List.count_append, List.count_singleton]
    simp only [beq_iff_eq]
  rw [hcount]
  by_cases ht : seq = t
  · subst ht
    rw [Trace.processed_packets_self, if_pos rfl]
    refine ⟨(Packet.setIP_ttl ..).trans (h.ttl seq h₁ h₂), ?_⟩
    show ((s.packets seq).setIP ipAddress).came + 1 = _
    rw [Packet.setIP_came, h.came seq h₁ h₂]
    rfl
  · rw [Trace.processed_packets_of_ne (fun heq => ht heq.symm), if_neg ht]
    exact ⟨h.ttl t h₁ h₂, h.came t h₁ h₂⟩

/-- The counts stay the numbers of calls when a call does not return either. -/
theorem Counted.processPacket (h : Counted maxhops s) (seq : Nat) (ipAddress : List Byte) :
    Counted maxhops (s.processPacket maxhops seq ipAddress) := by
  by_cases hseq : seq ≤ maxhops
  · by_cases hcame : (s.packets seq).came < intMax
    · rw [Trace.processPacket_eq _ _ hseq hcame]
      exact h.processed seq ipAddress
    · rw [Trace.processPacket, if_pos hseq]
      simp only [if_neg hcame]
      exact h.congr rfl rfl
  · rw [Trace.processPacket, if_neg hseq]
    exact h.congr rfl rfl

/-- A round without a datagram counts nothing. -/
theorem Counted.expire (h : Counted maxhops s) : Counted maxhops (s.expire maxhops) := by
  rw [Trace.expire]
  simp only
  split
  · exact h.congr Trace.nextHop_packets Trace.nextHop_calls
  · exact h.congr Trace.nextHop_packets Trace.nextHop_calls

/-- **STEP**: the records count. -/
theorem counted_step (h : Counted maxhops s) (hstep : TraceStep maxhops pid s a s') :
    Counted maxhops s' := by
  have hheard : ∀ got, Counted maxhops (s.hears got) := fun got => h.congr rfl rfl
  cases hstep with
  | fail => exact h.congr rfl rfl
  | timeout => exact h.expire
  | empty => exact h.congr Trace.nextHop_packets Trace.nextHop_calls
  | ignored => exact hheard _
  | late => exact (hheard _).congr Trace.advance_packets Trace.advance_calls
  | stopped => exact (hheard _).processPacket ..
  | @counted got ipAddress seq _ _ _ _ _ =>
      exact ((hheard got).processed seq ipAddress).congr Trace.advance_packets
        Trace.advance_calls
  | @completed got ipAddress _ _ _ _ =>
      exact ((hheard got).processed s.ttl ipAddress).congr Trace.nextHop_packets
        Trace.nextHop_calls
  | @reached got ipAddress seq _ _ _ _ =>
      exact ((hheard got).processed seq ipAddress).congr rfl rfl

/-- The loop of `main` sets all records but the last. -/
theorem counted_init {junk : Nat → Junk}
    (h : 1 ≤ maxhops → (junk maxhops).ttl = maxhops ∧ (junk maxhops).came = 0) :
    Counted maxhops (traceInit maxhops junk) := by
  refine Counted.of_record ?_
  intro t h₁ h₂
  show (packetsInit maxhops junk t).ttl = t ∧ (packetsInit maxhops junk t).came = 0
  rw [packetsInit_apply]
  by_cases ht : t < maxhops
  · rw [if_pos ht]
    exact ⟨rfl, rfl⟩
  · obtain rfl : t = maxhops := Nat.le_antisymm h₂ (Nat.le_of_not_lt ht)
    rw [if_neg ht]
    exact h h₁

/-- The last record is what its memory was. -/
theorem packetsInit_last (maxhops : Nat) (junk : Nat → Junk) :
    packetsInit maxhops junk maxhops = defaultPacket (junk maxhops) := by
  rw [packetsInit_apply, if_neg (Nat.lt_irrefl _)]

/-- **RECORDS, EXACTLY**: in every run, whatever arrives in whatever order, all records
    count, if and only if the memory of the last record holds its number and a zero
    before the program has set either. -/
theorem counted_iff (maxhops pid : Nat) (junk : Nat → Junk) :
    (∀ s, Run (traceroute maxhops pid junk) (inRange maxhops pid) s → Counted maxhops s)
      ↔ (1 ≤ maxhops → (junk maxhops).ttl = maxhops ∧ (junk maxhops).came = 0) := by
  constructor
  · intro h hpos
    have hinit := h _ Run.start
    have hlast := packetsInit_last maxhops junk
    have httl : (packetsInit maxhops junk maxhops).ttl = maxhops :=
      hinit.ttl maxhops hpos (Nat.le_refl _)
    have hcame : (packetsInit maxhops junk maxhops).came = 0 :=
      hinit.came maxhops hpos (Nat.le_refl _)
    rw [hlast] at httl hcame
    exact ⟨httl, hcame⟩
  · intro h s hrun
    exact Run.invariant (I := Counted maxhops) (counted_init h)
      (fun _ _ _ hs _ hstep => counted_step hs (rule_of_traceStep hstep)) hrun

/-- **THE LAST RECORD**: in memory that was zero it belongs to hop 0. -/
theorem lastRecord_uncounted :
    ¬ ∀ (maxhops pid : Nat) (junk : Nat → Junk) (s : Trace), 1 ≤ maxhops →
      Run (traceroute maxhops pid junk) (inRange maxhops pid) s → Counted maxhops s := by
  intro h
  have hcounted := h 30 7 zeroMemory _ (by decide) Run.start
  exact absurd (hcounted.ttl 30 (by decide) (by decide)) (by decide)

end Traceroute
