import AipPkussm.TracerouteProofs

/-! # The lines of the output

    A hop ends with one line: that of its record, which the third answer or the
    timeout prints, or the one with a star.  An echo reply is taken for the last
    hop whatever number it carries, so a late one can print the line of an
    earlier hop again; and the line of the last hop shows whatever number its
    record, which the program never set, happens to have.

    `ordered_iff`: for answers to probes that were sent, the lines are those of
    the hops 1, 2, ..., k exactly when neither happens. -/

namespace Traceroute

open LittleEndian Transition

/-- The numbers 1, 2, ..., k. -/
def hopsUpTo (k : Nat) : List Int := (List.range' 1 k).map Int.ofNat

/-- **ORDERED**: the lines are those of the first hops, each once. -/
def Ordered (maxhops : Nat) (s : Trace) : Prop :=
  ∃ k ≤ maxhops, s.lines.map Line.hop = hopsUpTo k

/-- Answers to own probes: a datagram with the id of the process has the number of a probe
    that was sent. -/
def genuine (pid : Nat) (s : Trace) : TraceAct → Prop
  | .datagram got _ =>
      got ≠ [] ∧ ∀ seq ∈ (s.answer got).number pid, 1 ≤ seq ∧ seq ≤ s.ttl
  | .timeout => True
  | .fail => True

/-- The record of the last hop has its number. -/
def lastNumbered (maxhops : Nat) (s : Trace) : Prop :=
  s.ttl = maxhops → (s.packets s.ttl).ttl = maxhops

/-- What must not happen: an echo reply is the third answer of an earlier hop, or a record
    of the last hop is printed that does not have its number. -/
def inOrder (maxhops pid : Nat) (s : Trace) : TraceAct → Prop
  | .datagram got _ => ∀ seq, (s.answer got).recorded pid s.ttl = some seq →
      (s.packets seq).came = 2 → seq = s.ttl ∧ lastNumbered maxhops s
  | .timeout => (s.packets s.ttl).isFilled = true → lastNumbered maxhops s
  | .fail => True

/-! ## One more line -/

theorem hopsUpTo_succ (k : Nat) : hopsUpTo (k + 1) = hopsUpTo k ++ [((k + 1 : Nat) : Int)] := by
  rw [hopsUpTo, List.range'_concat, List.map_append, Nat.one_mul, Nat.add_comm 1 k]
  rfl

theorem length_hopsUpTo (k : Nat) : (hopsUpTo k).length = k := by
  rw [hopsUpTo, List.length_map, List.length_range']

variable {maxhops pid : Nat} {s s' : Trace} {a : TraceAct}

/-- The lines after one more. -/
theorem hops_shows (line : Line) :
    (s.shows line).lines.map Line.hop = s.lines.map Line.hop ++ [line.hop] := by
  show (s.lines ++ [line]).map Line.hop = _
  rw [List.map_append, List.map_singleton]

/-- A line with another number than that of the hop is out of order. -/
theorem not_ordered_of_line {h : Int} (hlines : s.lines.map Line.hop = hopsUpTo (s.ttl - 1))
    (hpos : 1 ≤ s.ttl) (hne : h ≠ s.ttl)
    (hlines' : s'.lines.map Line.hop = s.lines.map Line.hop ++ [h]) : ¬ Ordered maxhops s' := by
  rintro ⟨k, -, hk⟩
  rw [hlines', hlines] at hk
  have hlen := congrArg List.length hk
  rw [List.length_append, length_hopsUpTo, length_hopsUpTo, List.length_singleton] at hlen
  obtain rfl : k = s.ttl - 1 + 1 := hlen.symm
  rw [hopsUpTo_succ, List.append_cancel_left_eq, List.singleton_inj] at hk
  refine hne ?_
  rw [hk, Nat.sub_add_cancel hpos]

/-! ## Runs -/

/-- What holds as long as the lines are in order. -/
structure InLine (maxhops : Nat) (s : Trace) : Prop where
  ttl : s.ended = false → 1 ≤ s.ttl ∧ s.ttl ≤ maxhops
  lines : s.ended = false → s.lines.map Line.hop = hopsUpTo (s.ttl - 1)
  ordered : Ordered maxhops s
  records : ∀ k, k < maxhops → (s.packets k).ttl = k

/-- After the line of the hop comes the next hop, or the end. -/
theorem inLine_nextHop (httl : s.ttl ≤ maxhops)
    (hlines : s.lines.map Line.hop = hopsUpTo s.ttl)
    (hrecords : ∀ k, k < maxhops → (s.packets k).ttl = k) : InLine maxhops (s.nextHop maxhops) where
  ttl := by
    intro hup
    obtain ⟨hnext, hle, -, -⟩ := Trace.nextHop_of_up hup
    rw [hnext]
    exact ⟨Nat.le_add_left .., hle⟩
  lines := by
    intro hup
    obtain ⟨hnext, -, -, -⟩ := Trace.nextHop_of_up hup
    rw [hnext, Trace.nextHop_lines, hlines, Nat.add_sub_cancel]
  ordered := ⟨s.ttl, httl, by rw [Trace.nextHop_lines, hlines]⟩
  records := by
    rw [Trace.nextHop_packets]
    exact hrecords

/-- A state with the same lines and the same hop. -/
theorem InLine.congr (h : InLine maxhops s) (hup : s.ended = false) (httl : s'.ttl = s.ttl)
    (hlines : s'.lines = s.lines) (hrecords : ∀ k, k < maxhops → (s'.packets k).ttl = k) :
    InLine maxhops s' where
  ttl := fun _ => httl ▸ h.ttl hup
  lines := by
    intro _
    rw [hlines, httl]
    exact h.lines hup
  ordered := by
    rw [Ordered, hlines]
    exact h.ordered
  records := hrecords

/-- After the end only what was printed matters. -/
theorem inLine_over (hover : s.ended = true) (hordered : Ordered maxhops s)
    (hrecords : ∀ k, k < maxhops → (s.packets k).ttl = k) : InLine maxhops s where
  ttl := by
    intro hup
    rw [hover] at hup
    exact nomatch hup
  lines := by
    intro hup
    rw [hover] at hup
    exact nomatch hup
  ordered := hordered
  records := hrecords

/-- A call of `processPacket` leaves the numbers of the records. -/
theorem processed_ttl (s : Trace) (seq k : Nat) (ipAddress : List Byte) :
    ((s.processed seq ipAddress).packets k).ttl = (s.packets k).ttl := by
  by_cases hk : k = seq
  · rw [hk, Trace.processed_packets_self]
    exact Packet.setIP_ttl ..
  · rw [Trace.processed_packets_of_ne hk]

/-- A call of `processPacket` leaves the hop and the lines. -/
theorem processPacket_keeps (maxhops : Nat) (s : Trace) (seq : Nat) (ipAddress : List Byte) :
    (s.processPacket maxhops seq ipAddress).ttl = s.ttl
      ∧ (s.processPacket maxhops seq ipAddress).lines = s.lines
      ∧ ∀ k, ((s.processPacket maxhops seq ipAddress).packets k).ttl = (s.packets k).ttl := by
  by_cases hseq : seq ≤ maxhops
  · by_cases hcame : (s.packets seq).came < intMax
    · rw [Trace.processPacket_eq _ _ hseq hcame]
      exact ⟨rfl, rfl, fun k => processed_ttl s seq k ipAddress⟩
    · rw [Trace.processPacket, if_pos hseq]
      simp only [if_neg hcame]
      exact ⟨rfl, rfl, fun k => rfl⟩
  · rw [Trace.processPacket, if_neg hseq]
    exact ⟨rfl, rfl, fun k => rfl⟩

/-- The line that is printed for a record that has been counted. -/
theorem hops_print (s : Trace) (seq : Nat) (ipAddress : List Byte) :
    ((s.processed seq ipAddress).shows
        ((s.processed seq ipAddress).packets seq).print).lines.map Line.hop
      = s.lines.map Line.hop ++ [(s.packets seq).ttl] := by
  rw [hops_shows, ← processed_ttl s seq seq ipAddress]
  rfl

/-- The line of a hop in its turn. -/
theorem InLine.hops_snoc (h : InLine maxhops s) (hup : s.ended = false) :
    s.lines.map Line.hop ++ [(s.ttl : Int)] = hopsUpTo s.ttl := by
  obtain ⟨hpos, -⟩ := h.ttl hup
  rw [h.lines hup]
  conv_rhs => rw [← Nat.sub_add_cancel hpos]
  rw [hopsUpTo_succ, Nat.sub_add_cancel hpos]

/-- The number in the record of the hop. -/
theorem InLine.number (h : InLine maxhops s) (hup : s.ended = false)
    (hlast : lastNumbered maxhops s) : (s.packets s.ttl).ttl = s.ttl := by
  obtain ⟨-, hle⟩ := h.ttl hup
  rcases Nat.lt_or_eq_of_le hle with hlt | heq
  · exact h.records s.ttl hlt
  · rw [hlast heq, heq]

/-- The line of the hop, when its record has been counted and is printed. -/
theorem InLine.hops_processed (h : InLine maxhops s) (hup : s.ended = false)
    (hlast : lastNumbered maxhops s) (got ipAddress : List Byte) :
    (((s.hears got).processed s.ttl ipAddress).shows
        (((s.hears got).processed s.ttl ipAddress).packets s.ttl).print).lines.map Line.hop
      = hopsUpTo s.ttl := by
  rw [hops_print]
  show s.lines.map Line.hop ++ [(s.packets s.ttl).ttl] = hopsUpTo s.ttl
  rw [h.number hup hlast]
  exact h.hops_snoc hup

/-- The numbers of the records, when one has been counted. -/
theorem InLine.records_processed (h : InLine maxhops s) (got : List Byte) (seq : Nat)
    (ipAddress : List Byte) :
    ∀ k, k < maxhops → (((s.hears got).processed seq ipAddress).packets k).ttl = k := by
  intro k hk
  rw [processed_ttl]
  exact h.records k hk

/-- A round without a datagram. -/
theorem InLine.expire (h : InLine maxhops s) (hup : s.ended = false)
    (ha : (s.packets s.ttl).isFilled = true → lastNumbered maxhops s) :
    InLine maxhops (s.expire maxhops) := by
  obtain ⟨-, hle⟩ := h.ttl hup
  rw [Trace.expire]
  simp only
  split
  · rename_i hfilled
    refine inLine_nextHop hle ?_ h.records
    rw [hops_shows]
    show s.lines.map Line.hop ++ [(s.packets s.ttl).ttl] = hopsUpTo s.ttl
    rw [h.number hup (ha hfilled)]
    exact h.hops_snoc hup
  · refine inLine_nextHop hle ?_ h.records
    rw [hops_shows]
    exact h.hops_snoc hup

/-- **STEP**: the lines stay in order. -/
theorem inLine_step (h : InLine maxhops s) (hup : s.ended = false) (hg : genuine pid s a)
    (ha : inOrder maxhops pid s a) (hstep : TraceStep maxhops pid s a s') :
    InLine maxhops s' := by
  have hheard : ∀ got, InLine maxhops (s.hears got) :=
    fun got => h.congr hup rfl rfl h.records
  cases hstep with
  | fail => exact inLine_over rfl h.ordered h.records
  | timeout => exact h.expire hup ha
  | empty => exact absurd rfl hg.1
  | ignored => exact hheard _
  | @late got _ _ _ _ =>
      refine (hheard got).congr hup Trace.advance_ttl Trace.advance_lines ?_
      rw [Trace.advance_packets]
      exact h.records
  | @stopped got ipAddress seq _ _ _ =>
      obtain ⟨httl, hlines, hnumbers⟩ := processPacket_keeps maxhops (s.hears got) seq ipAddress
      refine (hheard got).congr hup httl hlines ?_
      intro k hk
      rw [hnumbers]
      exact h.records k hk
  | @counted got ipAddress seq _ _ _ _ _ =>
      refine (hheard got).congr hup Trace.advance_ttl Trace.advance_lines ?_
      rw [Trace.advance_packets]
      exact h.records_processed got seq ipAddress
  | @completed got ipAddress _ hanswer hseq hfull =>
      obtain ⟨-, hlast⟩ := ha s.ttl (by rw [hanswer, Answer.recorded_exceeded]) hfull
      exact inLine_nextHop hseq (h.hops_processed hup hlast got ipAddress)
        (h.records_processed got s.ttl ipAddress)
  | @reached got ipAddress seq _ hanswer hseq hfull =>
      -- the condition leaves only the current hop, so the last line is in its turn
      obtain ⟨rfl, hlast⟩ := ha seq (by rw [hanswer, Answer.recorded_echoReply]) hfull
      exact inLine_over rfl ⟨s.ttl, hseq, h.hops_processed hup hlast got ipAddress⟩
        (h.records_processed got s.ttl ipAddress)

/-- The output is complete and out of order. -/
def Garbled (maxhops : Nat) (s : Trace) : Prop := s.ended = true ∧ ¬ Ordered maxhops s

/-- The number of an answer that is recorded is that of a probe. -/
theorem seq_of_genuine {got ipAddress : List Byte} {seq : Nat}
    (hg : genuine pid s (.datagram got ipAddress))
    (hrec : (s.answer got).recorded pid s.ttl = some seq) : 1 ≤ seq ∧ seq ≤ s.ttl :=
  hg.2 seq (Answer.number_of_recorded hrec)

/-- The record of the last hop does not have its number. -/
theorem not_lastNumbered (h : ¬ lastNumbered maxhops s) :
    s.ttl = maxhops ∧ (s.packets s.ttl).ttl ≠ s.ttl := by
  rw [lastNumbered, Classical.not_imp] at h
  refine ⟨h.1, ?_⟩
  intro heq
  exact h.2 (by rw [heq, h.1])

/-- **STEP**: one that does not meet the condition prints a line out of order, and it is the
    last one. -/
theorem garbled_of_step (h : InLine maxhops s) (hup : s.ended = false) (hg : genuine pid s a)
    (ha : ¬ inOrder maxhops pid s a) (hstep : TraceStep maxhops pid s a s') :
    Garbled maxhops s' := by
  obtain ⟨hpos, hle⟩ := h.ttl hup
  cases hstep with
  | fail => exact absurd trivial ha
  | timeout =>
      rw [inOrder, Classical.not_imp] at ha
      obtain ⟨hlast, hne⟩ := not_lastNumbered ha.2
      rw [Trace.expire]
      simp only
      rw [if_pos ha.1]
      refine ⟨Trace.nextHop_last hlast, not_ordered_of_line (h.lines hup) hpos hne ?_⟩
      rw [Trace.nextHop_lines, hops_shows]
      rfl
  | empty => exact absurd rfl hg.1
  | ignored _ hown =>
      -- a step that records nothing, or no third answer, meets the condition
      refine absurd ?_ ha
      intro seq hrec
      rw [Answer.own_of_recorded hrec] at hown
      exact nomatch hown
  | late _ _ hnone =>
      refine absurd ?_ ha
      intro seq hrec
      exact nomatch hnone.symm.trans hrec
  | stopped _ hrec hover =>
      -- `processPacket` cannot end the run with a third answer to a probe
      refine absurd ?_ ha
      intro seq' hrec' hfull
      obtain rfl := Option.some.inj (hrec.symm.trans hrec')
      have hseq := (seq_of_genuine hg hrec).2
      rw [Trace.hears_processPacket _ _ _ (Nat.le_trans hseq hle) (came_lt_intMax hfull)]
        at hover
      exact nomatch hup.symm.trans hover
  | counted _ hrec _ _ hpart =>
      refine absurd ?_ ha
      intro seq' hrec' hfull
      obtain rfl := Option.some.inj (hrec.symm.trans hrec')
      exact absurd hfull hpart
  | @completed got ipAddress _ hanswer _ _ =>
      have hnumber : ¬ lastNumbered maxhops s := by
        intro hlast
        refine ha ?_
        intro seq hrec _
        rw [hanswer, Answer.recorded_exceeded] at hrec
        exact ⟨(Option.some.inj hrec).symm, hlast⟩
      obtain ⟨hlast, hne⟩ := not_lastNumbered hnumber
      refine ⟨Trace.nextHop_last hlast, not_ordered_of_line (h.lines hup) hpos hne ?_⟩
      rw [Trace.nextHop_lines, hops_print]
      rfl
  | @reached got ipAddress seq _ hanswer hseq _ =>
      have hne : (s.packets seq).ttl ≠ s.ttl := by
        by_cases httl : seq = s.ttl
        · subst httl
          have hnumber : ¬ lastNumbered maxhops s := by
            intro hlast
            refine ha ?_
            intro seq' hrec _
            rw [hanswer, Answer.recorded_echoReply] at hrec
            exact ⟨(Option.some.inj hrec).symm, hlast⟩
          exact (not_lastNumbered hnumber).2
        · -- the record of an earlier hop has its own number
          have hprobe := (seq_of_genuine hg (by rw [hanswer, Answer.recorded_echoReply])).2
          rw [h.records seq (by omega)]
          omega
      refine ⟨rfl, not_ordered_of_line (h.lines hup) hpos hne ?_⟩
      exact hops_print (s.hears got) seq ipAddress

theorem inLine_init (maxhops : Nat) (junk : Nat → Junk) :
    InLine maxhops (traceInit maxhops junk) where
  ttl := by
    intro hup
    exact ⟨Nat.le_refl 1, Nat.le_of_not_lt (of_decide_eq_false hup)⟩
  lines := fun _ => rfl
  ordered := ⟨0, Nat.zero_le _, rfl⟩
  records := by
    intro k hk
    show (packetsInit maxhops junk k).ttl = k
    rw [packetsInit_apply, if_pos hk]
    rfl

/-- **LINES, EXACTLY**: when only answers to own probes arrive, lost, late or in any order,
    the lines are those of the hops 1 to k if and only if no echo reply is the third
    answer of an earlier hop and no record of the last hop is printed that does not
    have its number. -/
theorem ordered_iff (maxhops pid : Nat) (junk : Nat → Junk) (as : List TraceAct) {t : Trace}
    (hgenuine : Follows (traceroute maxhops pid junk) (genuine pid)
      (traceInit maxhops junk) as)
    (hplay : play (traceroute maxhops pid junk) (traceInit maxhops junk) as = some t) :
    Ordered maxhops t
      ↔ Follows (traceroute maxhops pid junk) (inOrder maxhops pid)
          (traceInit maxhops junk) as := by
  have hends := play_follows_guarded (M := traceroute maxhops pid junk) (I := InLine maxhops)
    (B := Garbled maxhops) (g := genuine pid) (p := inOrder maxhops pid)
    (fun _ _ _ hs hg ha hstep =>
      inLine_step hs (up_of_step hstep) hg ha (rule_of_traceStep hstep))
    (fun _ _ _ hs hg ha hstep =>
      garbled_of_step hs (up_of_step hstep) hg ha (rule_of_traceStep hstep))
    (fun _ _ _ hs hstep => nomatch hs.1.symm.trans (up_of_step hstep))
    as _ t (inLine_init maxhops junk) hgenuine hplay
  rcases hends with ⟨hfollows, ht⟩ | ⟨hnot, ht⟩
  · exact iff_of_true ht.ordered hfollows
  · exact iff_of_false ht.2 hnot

/-- The target is the first hop.  Two of its replies come in time, the third one after the
    probes of the second hop were sent. -/
def lateReply : List TraceAct :=
  [.datagram (echoReply 7 1) [49], .datagram (echoReply 7 1) [49], .timeout,
    .datagram (echoReply 7 1) [49]]

theorem lateReply_genuine :
    Follows (traceroute 30 7 zeroMemory) (genuine 7) (traceInit 30 zeroMemory) lateReply := by
  refine Follows.cons ⟨by decide, by decide⟩ rfl ?_
  refine Follows.cons ⟨by decide, by decide⟩ rfl ?_
  refine Follows.cons trivial rfl ?_
  exact Follows.cons ⟨by decide, by decide⟩ rfl trivial

theorem ordered_lateReply :
    ∃ t, play (traceroute 30 7 zeroMemory) (traceInit 30 zeroMemory) lateReply = some t
      ∧ (Ordered 30 t ↔ Follows (traceroute 30 7 zeroMemory) (inOrder 30 7)
          (traceInit 30 zeroMemory) lateReply) :=
  ⟨_, rfl, ordered_iff 30 7 zeroMemory lateReply lateReply_genuine rfl⟩

/-- **PRINTED AGAIN**: the late reply prints the line of hop 1 a second time. -/
theorem lateReply_repeats :
    ¬ ∀ (maxhops pid : Nat) (junk : Nat → Junk) (as : List TraceAct) (t : Trace),
      1 ≤ maxhops →
      Follows (traceroute maxhops pid junk) (genuine pid) (traceInit maxhops junk) as →
      play (traceroute maxhops pid junk) (traceInit maxhops junk) as = some t →
      Ordered maxhops t := by
  intro h
  obtain ⟨k, -, hk⟩ := h 30 7 zeroMemory lateReply _ (by decide) lateReply_genuine rfl
  have hlen := congrArg List.length hk
  rw [length_hopsUpTo] at hlen
  obtain rfl : k = 2 := hlen.symm
  exact absurd hk (by decide)

end Traceroute
