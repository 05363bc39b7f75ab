import AipPkussm.TracerouteProofs

/-! # The tables of the traceroute

    `packets` has a record for each of 0 to `maxhops`, `timers` has three entries.
    An echo reply is recorded under the number that it carries, and every answer
    with the id of the process moves `i`, whether it is recorded or not.

    `inside_iff`: the indices stay inside exactly when no echo reply carries a
    number beyond the table and no answer is recorded after three others in the
    same hop. -/

namespace Traceroute

open LittleEndian Transition

/-- All indices that were used. -/
structure Inside (maxhops : Nat) (s : Trace) : Prop where
  packets : ∀ k ∈ s.packetsAt, k ≤ maxhops
  timers : ∀ k ∈ s.timersAt, k ≤ 2

/-- How many answers with the id of the process were heard in this hop. -/
def ownHeard (pid : Nat) (s : Trace) : Nat := (s.heard.filter (Answer.own pid)).length

/-- A datagram that is recorded has a number inside the table, and at most two answers were
    heard before it. -/
def inTables (maxhops pid : Nat) (s : Trace) : TraceAct → Prop
  | .datagram got _ => got ≠ [] → ∀ seq, (s.answer got).recorded pid s.ttl = some seq →
      seq ≤ maxhops ∧ ownHeard pid s ≤ 2
  | .timeout => True
  | .fail => True

/-! ## The indices of a step -/

/-- The indices used up to one state were used up to a later one. -/
structure Grows (s s' : Trace) : Prop where
  packets : s.packetsAt ⊆ s'.packetsAt
  timers : s.timersAt ⊆ s'.timersAt

theorem Grows.refl (s : Trace) : Grows s s := ⟨List.Subset.refl _, List.Subset.refl _⟩

theorem Grows.trans {s s' s'' : Trace} (h : Grows s s') (h' : Grows s' s'') : Grows s s'' :=
  ⟨List.Subset.trans h.packets h'.packets, List.Subset.trans h.timers h'.timers⟩

theorem Grows.inside {maxhops : Nat} {s s' : Trace} (h : Grows s s')
    (h' : Inside maxhops s') : Inside maxhops s :=
  ⟨fun k hk => h'.packets k (h.packets hk), fun k hk => h'.timers k (h.timers hk)⟩

section Parts

variable (maxhops pid : Nat) (s : Trace)

theorem grows_nextHop : Grows s (s.nextHop maxhops) := by
  rw [Trace.nextHop]
  split
  · exact ⟨List.Subset.refl _, List.subset_append_left ..⟩
  · exact ⟨List.Subset.refl _, List.Subset.refl _⟩

theorem grows_advance : Grows s s.advance := by
  constructor
  · rw [Trace.advance_packetsAt]
    exact List.Subset.refl _
  · rw [Trace.advance_timersAt]
    exact List.Subset.refl _

theorem grows_processPacket (seq : Nat) (ipAddress : List Byte) :
    Grows s (s.processPacket maxhops seq ipAddress) := by
  rw [Trace.processPacket]
  split
  · simp only
    split <;> exact ⟨List.subset_append_left .., List.subset_append_left ..⟩
  · exact ⟨List.subset_append_left .., List.Subset.refl _⟩

theorem grows_processed (seq : Nat) (ipAddress : List Byte) :
    Grows s (s.processed seq ipAddress) :=
  ⟨List.subset_append_left .., List.subset_append_left ..⟩

theorem grows_shows (line : Line) : Grows s (s.shows line) :=
  ⟨List.Subset.refl _, List.Subset.refl _⟩

/-- `processPacket` uses its number as an index. -/
theorem seq_mem_processPacket (seq : Nat) (ipAddress : List Byte) :
    seq ∈ (s.processPacket maxhops seq ipAddress).packetsAt := by
  have hmem : seq ∈ s.packetsAt ++ [seq] :=
    List.mem_append_right _ (List.mem_singleton_self seq)
  rw [Trace.processPacket]
  split
  · simp only
    split <;> exact hmem
  · exact hmem

/-- `processPacket` uses the counter as an index. -/
theorem i_mem_processPacket {seq : Nat} (ipAddress : List Byte) (hseq : seq ≤ maxhops) :
    s.i ∈ (s.processPacket maxhops seq ipAddress).timersAt := by
  have hmem : s.i ∈ s.timersAt ++ [s.i] :=
    List.mem_append_right _ (List.mem_singleton_self s.i)
  rw [Trace.processPacket, if_pos hseq]
  simp only
  split <;> exact hmem

end Parts

variable {maxhops pid : Nat} {s s' : Trace} {a : TraceAct}

/-- An answer is recorded by `processPacket`, whatever comes after it. -/
theorem TraceStep.records {got ipAddress : List Byte} {seq : Nat}
    (hstep : TraceStep maxhops pid s (.datagram got ipAddress) s') (hgot : got ≠ [])
    (hrec : (s.answer got).recorded pid s.ttl = some seq) :
    Grows ((s.hears got).processPacket maxhops seq ipAddress) s' := by
  cases hstep with
  | empty => exact absurd rfl hgot
  | ignored _ hown =>
      rw [Answer.own_of_recorded hrec] at hown
      exact nomatch hown
  | late _ _ hnone => exact nomatch hnone.symm.trans hrec
  | stopped _ hrec' _ =>
      obtain rfl := Option.some.inj (hrec'.symm.trans hrec)
      exact Grows.refl _
  | counted _ hrec' hseq hcame _ =>
      obtain rfl := Option.some.inj (hrec'.symm.trans hrec)
      rw [Trace.hears_processPacket _ _ _ hseq hcame]
      exact grows_advance _
  | completed _ hanswer hseq hfull =>
      rw [hanswer, Answer.recorded_exceeded] at hrec
      obtain rfl := Option.some.inj hrec
      rw [Trace.hears_processPacket _ _ _ hseq (came_lt_intMax hfull)]
      have hshown := grows_nextHop maxhops (((s.hears got).processed s.ttl ipAddress).shows
        (((s.hears got).processed s.ttl ipAddress).packets s.ttl).print)
      exact ⟨hshown.packets, hshown.timers⟩
  | reached _ hanswer hseq hfull =>
      rw [hanswer, Answer.recorded_echoReply] at hrec
      obtain rfl := Option.some.inj hrec
      rw [Trace.hears_processPacket _ _ _ hseq (came_lt_intMax hfull)]
      exact ⟨List.Subset.refl _, List.Subset.refl _⟩

/-- The indices of a round without a datagram. -/
theorem grows_expire (maxhops : Nat) (s : Trace) : Grows s (s.expire maxhops) := by
  have hlooked : ∀ line, Grows s
      (({ s with packetsAt := s.packetsAt ++ [s.ttl] } : Trace).shows line) :=
    fun line => ⟨List.subset_append_left .., List.Subset.refl _⟩
  rw [Trace.expire]
  simp only
  split <;> exact (hlooked _).trans (grows_nextHop ..)

/-- **STEP**: indices are only added. -/
theorem TraceStep.grows (hstep : TraceStep maxhops pid s a s') : Grows s s' := by
  have hheard : ∀ got, Grows s (s.hears got) :=
    fun got => ⟨List.Subset.refl _, List.Subset.refl _⟩
  cases hstep with
  | fail => exact ⟨List.Subset.refl _, List.Subset.refl _⟩
  | timeout => exact grows_expire ..
  | empty => exact grows_nextHop ..
  | @ignored got _ _ _ => exact hheard got
  | @late got _ _ _ _ => exact (hheard got).trans (grows_advance _)
  | @stopped got _ _ _ _ _ => exact (hheard got).trans (grows_processPacket ..)
  | @counted got ipAddress seq _ _ _ _ _ =>
      exact ((hheard got).trans (grows_processed _ seq ipAddress)).trans (grows_advance _)
  | @completed got ipAddress _ _ _ _ =>
      refine ((hheard got).trans (grows_processed _ s.ttl ipAddress)).trans ?_
      exact (grows_shows _ _).trans (grows_nextHop ..)
  | @reached got ipAddress seq _ _ _ _ =>
      refine ((hheard got).trans (grows_processed _ seq ipAddress)).trans ?_
      exact ⟨List.Subset.refl _, List.Subset.refl _⟩

/-! ## Runs -/

/-- What holds as long as every step stays inside. -/
structure Within (maxhops pid : Nat) (s : Trace) : Prop where
  inside : Inside maxhops s
  counter : s.ended = false → s.i = ownHeard pid s
  ttl : s.ended = false → s.ttl ≤ maxhops

theorem Inside.nextHop (h : Inside maxhops s) : Inside maxhops (s.nextHop maxhops) := by
  refine ⟨by rw [Trace.nextHop_packetsAt]; exact h.packets, ?_⟩
  rw [Trace.nextHop]
  split
  · exact List.forall_mem_append.mpr ⟨h.timers, by decide⟩
  · exact h.timers

/-- The counter starts again with a hop. -/
theorem Inside.within_nextHop (h : Inside maxhops s) :
    Within maxhops pid (s.nextHop maxhops) where
  inside := h.nextHop
  counter := by
    intro hup
    obtain ⟨-, -, hi, hheard⟩ := Trace.nextHop_of_up hup
    rw [hi, ownHeard, hheard]
    rfl
  ttl := by
    intro hup
    obtain ⟨httl, hle, -, -⟩ := Trace.nextHop_of_up hup
    rwa [httl]

/-- The counter goes on with every own answer. -/
theorem Inside.within_advance (h : Inside maxhops s) (hi : s.i + 1 = ownHeard pid s)
    (httl : s.ttl ≤ maxhops) : Within maxhops pid s.advance where
  inside := by
    refine ⟨?_, ?_⟩
    · rw [Trace.advance_packetsAt]
      exact h.packets
    · rw [Trace.advance_timersAt]
      exact h.timers
  counter := by
    intro hup
    rw [Trace.advance_i hup, ownHeard, Trace.advance_heard]
    exact hi
  ttl := by
    intro _
    rw [Trace.advance_ttl]
    exact httl

/-- The counter means nothing after the end. -/
theorem Inside.within_over (h : Inside maxhops s) (hover : s.ended = true) :
    Within maxhops pid s where
  inside := h
  counter := by
    intro hup
    rw [hover] at hup
    exact nomatch hup
  ttl := by
    intro hup
    rw [hover] at hup
    exact nomatch hup

theorem ownHeard_hears (got : List Byte) :
    ownHeard pid (s.hears got)
      = ownHeard pid s + if (s.answer got).own pid then 1 else 0 := by
  show ((s.heard ++ [s.answer got]).filter (Answer.own pid)).length = _
  rw [List.filter_append, List.length_append, ownHeard]
  by_cases hown : (s.answer got).own pid = true
  · simp [hown]
  · simp [hown]

/-- A call of `processPacket` inside the tables. -/
theorem Inside.processPacket (h : Inside maxhops s) {seq : Nat} (ipAddress : List Byte)
    (hseq : seq ≤ maxhops) (hi : s.i ≤ 2) :
    Inside maxhops (s.processPacket maxhops seq ipAddress) := by
  have hpackets : ∀ k ∈ s.packetsAt ++ [seq], k ≤ maxhops :=
    List.forall_mem_append.mpr ⟨h.packets, List.forall_mem_singleton.mpr hseq⟩
  have htimers : ∀ k ∈ s.timersAt ++ [s.i], k ≤ 2 :=
    List.forall_mem_append.mpr ⟨h.timers, List.forall_mem_singleton.mpr hi⟩
  rw [Trace.processPacket, if_pos hseq]
  simp only
  split <;> exact ⟨hpackets, htimers⟩

/-- A round without a datagram looks at the record of the hop. -/
theorem Inside.within_expire (h : Inside maxhops s) (httl : s.ttl ≤ maxhops) :
    Within maxhops pid (s.expire maxhops) := by
  have hpackets : ∀ k ∈ s.packetsAt ++ [s.ttl], k ≤ maxhops :=
    List.forall_mem_append.mpr ⟨h.packets, List.forall_mem_singleton.mpr httl⟩
  have hlooked : ∀ line, Inside maxhops
      (({ s with packetsAt := s.packetsAt ++ [s.ttl] } : Trace).shows line) :=
    fun line => ⟨hpackets, h.timers⟩
  rw [Trace.expire]
  simp only
  split <;> exact (hlooked _).within_nextHop

/-- An answer that may be recorded is recorded inside the tables. -/
theorem Within.records (h : Within maxhops pid s) (hup : s.ended = false)
    {got ipAddress : List Byte} {seq : Nat}
    (ha : inTables maxhops pid s (.datagram got ipAddress)) (hgot : got ≠ [])
    (hrec : (s.answer got).recorded pid s.ttl = some seq) :
    Inside maxhops ((s.hears got).processPacket maxhops seq ipAddress) := by
  obtain ⟨hseq, hheard⟩ := ha hgot seq hrec
  have hin : Inside maxhops (s.hears got) := ⟨h.inside.packets, h.inside.timers⟩
  refine hin.processPacket ipAddress hseq ?_
  show s.i ≤ 2
  rwa [h.counter hup]

/-- **STEP**: the indices stay inside. -/
theorem within_step (h : Within maxhops pid s) (hup : s.ended = false)
    (ha : inTables maxhops pid s a) (hstep : TraceStep maxhops pid s a s') :
    Within maxhops pid s' := by
  have hheard : ∀ got, Inside maxhops (s.hears got) :=
    fun got => ⟨h.inside.packets, h.inside.timers⟩
  have httl := h.ttl hup
  have hi := h.counter hup
  cases hstep with
  | fail => exact Inside.within_over ⟨h.inside.packets, h.inside.timers⟩ rfl
  | timeout => exact h.inside.within_expire httl
  | empty => exact h.inside.within_nextHop
  | @ignored got _ _ hown =>
      refine ⟨hheard got, ?_, fun _ => httl⟩
      intro _
      rw [ownHeard_hears, hown]
      exact hi
  | @late got _ _ hown _ =>
      refine (hheard got).within_advance ?_ httl
      rw [ownHeard_hears, hown, ← hi]
      rfl
  | stopped hgot hrec hover => exact (h.records hup ha hgot hrec).within_over hover
  | @counted got ipAddress seq hgot hrec hseq hcame _ =>
      have hin := h.records hup ha hgot hrec
      rw [Trace.hears_processPacket _ _ _ hseq hcame] at hin
      refine hin.within_advance ?_ httl
      -- `i++` for an own answer
      show s.i + 1 = ownHeard pid (s.hears got)
      rw [ownHeard_hears, Answer.own_of_recorded hrec, ← hi]
      rfl
  | @completed got ipAddress hgot hanswer hseq hfull =>
      have hin := h.records hup ha hgot (by rw [hanswer, Answer.recorded_exceeded])
      rw [Trace.hears_processPacket _ _ _ hseq (came_lt_intMax hfull)] at hin
      exact Inside.within_nextHop ⟨hin.packets, hin.timers⟩
  | @reached got ipAddress seq hgot hanswer hseq hfull =>
      have hin := h.records hup ha hgot (by rw [hanswer, Answer.recorded_echoReply])
      rw [Trace.hears_processPacket _ _ _ hseq (came_lt_intMax hfull)] at hin
      exact Inside.within_over ⟨hin.packets, hin.timers⟩ rfl

/-- **STEP**: one that does not meet the condition uses an index outside. -/
theorem outside_of_step (h : Within maxhops pid s) (hup : s.ended = false)
    (ha : ¬ inTables maxhops pid s a) (hstep : TraceStep maxhops pid s a s') :
    ¬ Inside maxhops s' := by
  cases a with
  | timeout => exact absurd trivial ha
  | fail => exact absurd trivial ha
  | datagram got ipAddress =>
      simp only [inTables, not_forall] at ha
      obtain ⟨hgot, seq, hrec, hout⟩ := ha
      intro hin
      -- whatever comes after it, `processPacket` has used both indices
      have hin' := (hstep.records hgot hrec).inside hin
      have hseq := hin'.packets seq (seq_mem_processPacket ..)
      have hi := hin'.timers _ (i_mem_processPacket maxhops (s.hears got) ipAddress hseq)
      refine hout ⟨hseq, ?_⟩
      rw [← h.counter hup]
      exact hi

theorem within_init (maxhops pid : Nat) (junk : Nat → Junk) :
    Within maxhops pid (traceInit maxhops junk) where
  inside := by
    refine ⟨fun k hk => Nat.le_of_lt (List.mem_range.mp hk), ?_⟩
    rw [traceInit]
    simp only
    split
    · exact List.forall_mem_nil _
    · decide
  counter := fun _ => rfl
  ttl := by
    intro hup
    exact Nat.le_of_not_lt (of_decide_eq_false hup)

/-- **INDICES, EXACTLY**: whatever is delivered, in whatever order, the indices are inside
    the tables if and only if no recorded answer carries a number beyond the table or
    comes after three answers in the same hop. -/
theorem inside_iff (maxhops pid : Nat) (junk : Nat → Junk) (as : List TraceAct) {t : Trace}
    (hplay : play (traceroute maxhops pid junk) (traceInit maxhops junk) as = some t) :
    Inside maxhops t
      ↔ Follows (traceroute maxhops pid junk) (inTables maxhops pid)
          (traceInit maxhops junk) as := by
  have hends := play_follows (M := traceroute maxhops pid junk) (I := Within maxhops pid)
    (B := fun s => ¬ Inside maxhops s) (g := fun _ => True) (p := inTables maxhops pid)
    (fun _ _ _ hs _ ha hstep => within_step hs (up_of_step hstep) ha (rule_of_traceStep hstep))
    (fun _ _ _ hs _ ha hstep =>
      outside_of_step hs (up_of_step hstep) ha (rule_of_traceStep hstep))
    (fun _ _ _ hs hstep hin => hs ((rule_of_traceStep hstep).grows.inside hin))
    as _ t (within_init maxhops pid junk) (fun _ _ => trivial) hplay
  rcases hends with ⟨hfollows, ht⟩ | ⟨hnot, ht⟩
  · exact iff_of_true ht.inside hfollows
  · exact iff_of_false ht hnot

/-- An echo reply for the first hop, then silence. -/
def quietHop : List TraceAct := [.datagram (echoReply 7 1) [49], .timeout]

theorem inside_quietHop :
    ∃ t, play (traceroute 30 7 zeroMemory) (traceInit 30 zeroMemory) quietHop = some t
      ∧ (Inside 30 t ↔ Follows (traceroute 30 7 zeroMemory) (inTables 30 7)
          (traceInit 30 zeroMemory) quietHop) :=
  ⟨_, rfl, inside_iff 30 7 zeroMemory quietHop rfl⟩

/-- **OUTSIDE**: a forged echo reply with number 31. -/
theorem forgedReply_outside :
    ¬ ∀ (maxhops pid : Nat) (junk : Nat → Junk) (as : List TraceAct) (t : Trace),
      1 ≤ maxhops → play (traceroute maxhops pid junk) (traceInit maxhops junk) as = some t →
      Inside maxhops t := by
  intro h
  have hin := h 30 7 zeroMemory [.datagram (echoReply 7 31) [49]] _
    (by decide) rfl
  exact absurd (hin.packets 31 (by decide)) (by decide)

end Traceroute
