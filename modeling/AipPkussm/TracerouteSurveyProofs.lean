import AipPkussm.TracerouteAddressProofs
import AipPkussm.TracerouteLeftoverProofs
import AipPkussm.TracerouteProbeProofs

/-! # What a trace is for

    A survey goes from hop to hop.  It notes the addresses that answer in a hop and
    prints a line when the third one has answered or when nobody answers any more;
    the third answer in a hop ends it if it comes from the host.

    As long as what comes in answers the probes of the hop, or answers no probe at
    all, `main` makes a survey: from the bytes in the buffer and the records in its
    table it prints, line for line, what the survey does (`trace_surveys`).  On a path
    the lines are those of its hops in order, with the address that is there
    (`trace_shows_path`). -/

namespace Traceroute

open LittleEndian Transition

/-! ## Surveys -/

/-- Who answers a probe. -/
inductive Party where
  | router
  | host
  deriving DecidableEq

/-- What is seen in a hop. -/
inductive Sight where
  | answered (who : Party) (ipAddress : List Byte)
  | silence
  | foreign

/-- A hop, who has answered in it, and the lines before it. -/
structure Survey where
  hop : Nat
  answers : List (List Byte)
  lines : List Line
  ended : Bool

/-- The line of a hop. -/
def hopLine (hop : Nat) (answers : List (List Byte)) : Line :=
  if answers = [] then .star hop
  else .record hop (spaced (answers.foldl note [])) (answers.length == 3)

/-- The hop is done, and nothing follows. -/
def Survey.stops (u : Survey) (answers : List (List Byte)) : Survey :=
  { u with lines := u.lines ++ [hopLine u.hop answers], ended := true }

/-- The hop is done, and the next one follows if there is one. -/
def Survey.goesOn (last : Nat) (u : Survey) (answers : List (List Byte)) : Survey :=
  if u.hop < last then
    { hop := u.hop + 1
      answers := []
      lines := u.lines ++ [hopLine u.hop answers]
      ended := false }
  else u.stops answers

/-- The hop is done. -/
def Survey.closes (last : Nat) (u : Survey) (answers : List (List Byte)) : Party → Survey
  | .router => u.goesOn last answers
  | .host => u.stops answers

/-- One step of a survey of at most `last` hops. -/
def surveyStep (last : Nat) (u : Survey) (a : Sight) : Option Survey :=
  if u.ended then none
  else
    match a with
    | .answered who ipAddress =>
        let answers := u.answers ++ [ipAddress]
        if answers.length = 3 then some (u.closes last answers who)
        else some { u with answers := answers }
    | .silence => some (u.goesOn last u.answers)
    | .foreign => some u

/-- The first hop has begun, if there is one. -/
def surveyInit (last : Nat) : Survey where
  hop := 1
  answers := []
  lines := []
  ended := decide (last < 1)

/-- Surveys of at most `last` hops. -/
def survey (last : Nat) : Machine Survey Sight where
  init := surveyInit last
  step := surveyStep last

/-- The hops of a trace: `Setsockopt` lets no TTL above 255 through. -/
def lastHop (maxhops : Nat) : Nat := min maxhops 255

/-! ## What comes in -/

/-- The answer that a datagram gives with nothing behind it. -/
def answerOf (got : List Byte) : Answer := classify (fillOn got (fun _ => 0))

/-- Who sends an answer. -/
def Answer.party : Answer → Party
  | .echoReply _ _ => .host
  | _ => .router

/-- What a process sees of what happens. -/
def sight (pid : Nat) : TraceAct → Sight
  | .datagram got ipAddress =>
      if (answerOf got).own pid then .answered (answerOf got).party ipAddress else .foreign
  | .timeout => .silence
  | .fail => .foreign

/-- A datagram that is no answer to the process, whatever lies behind it. -/
def Foreign (pid : Nat) (got : List Byte) : Prop :=
  got ≠ [] ∧ ∀ buffer, (classify (fillOn got buffer)).own pid = false

/-- The hop has a record, and what comes in is foreign or an answer to one of its probes. -/
def InTime (maxhops pid : Nat) (junk : Nat → Junk) (s : Trace) (a : TraceAct) : Prop :=
  packetsInit maxhops junk s.ttl = newPacket s.ttl ∧
    match a with
    | .datagram got ipAddress =>
        Foreign pid got ∨ Answers (sendIcmpPacket pid s.ttl) got ∧ IsAddress ipAddress
    | .timeout => True
    | .fail => False

/-- Behind the IP header of an answer there is more. -/
theorem Answers.icmpAt_lt {probe got : List Byte} (h : Answers probe got) :
    icmpAt got < got.length := by
  have hbehind : ∀ (outer : IpHeader) (b : Byte) (more : List Byte),
      icmpAt (outer.bytes ++ b :: more) < (outer.bytes ++ b :: more).length := by
    intro outer b more
    have hself : Holds (fun k => (outer.bytes ++ b :: more).getD k 0) 0
        (outer.bytes ++ b :: more) := by
      intro k _
      rw [Nat.zero_add]
    rw [icmpAt, pastIp_of_holds (holds_append.mp hself).1, List.length_append, List.length_cons]
    omega
  rcases h with ⟨⟨outer, _, _, _, _, _, _, _⟩⟩ | ⟨⟨outer, _, _, _, _⟩⟩
  · exact hbehind outer _ _
  · exact hbehind outer _ _

/-- The type of an error has come with it. -/
theorem icmpType_of_exceeded {buffer : Nat → Byte} {id seq : Nat}
    (h : classify buffer = .exceeded id seq) : buffer (pastIp buffer 0) = icmpTimeExceeded := by
  rw [classify] at h
  simp only at h
  split at h
  · next htype => exact htype.1
  · split at h <;> cases h

/-- The type of a reply has come with it. -/
theorem icmpType_of_echoReply {buffer : Nat → Byte} {id seq : Nat}
    (h : classify buffer = .echoReply id seq) : buffer (pastIp buffer 0) = icmpEchoReply := by
  rw [classify] at h
  simp only at h
  split at h
  · split at h <;> cases h
  · split at h
    · assumption
    · cases h

/-- **ANSWER**: what an answer is does not depend on what lies behind it, and it names the
    probe. -/
theorem answerOf_answers {pid ttl : Nat} {got : List Byte} (hpid : pid < 2 ^ 16)
    (httl : ttl ≤ 255) (h : Answers (sendIcmpPacket pid ttl) got) :
    (answerOf got = .exceeded pid ttl ∨ answerOf got = .echoReply pid ttl)
      ∧ ∀ s : Trace, s.answer got = answerOf got := by
  have hread : ∀ buffer, classify (fillOn got buffer) = .exceeded pid ttl
      ∨ classify (fillOn got buffer) = .echoReply pid ttl := by
    intro buffer
    have hanswer := answer_of_answers { traceInit 1 zeroMemory with buffer := buffer } h
    rw [Nat.mod_eq_of_lt hpid, Nat.mod_eq_of_lt (by omega)] at hanswer
    exact hanswer
  have htype : ∀ buffer, fillOn got buffer (pastIp (fillOn got buffer) 0)
      = got.getD (icmpAt got) 0 := by
    intro buffer
    rw [pastIp_fillOn_zero h.ne_nil, fillOn_of_lt h.icmpAt_lt]
  -- the type has come, so the two kinds of answer cannot be taken for each other
  have hdiffer : icmpTimeExceeded ≠ icmpEchoReply := by decide
  refine ⟨hread _, fun s => ?_⟩
  show classify (fillOn got s.buffer) = classify (fillOn got (fun _ => 0))
  rcases hread s.buffer with hs | hs <;> rcases hread (fun _ => 0) with h0 | h0
  · exact hs.trans h0.symm
  · refine absurd ?_ hdiffer
    rw [← icmpType_of_exceeded hs, ← icmpType_of_echoReply h0, htype, htype]
  · refine absurd ?_ hdiffer
    rw [← icmpType_of_exceeded h0, ← icmpType_of_echoReply hs, htype, htype]
  · exact hs.trans h0.symm

/-! ## The record of a hop -/

theorem came_foldl_record (answers : List (List Byte)) (p : Packet) :
    (answers.foldl Packet.record p).came = p.came + answers.length := by
  induction answers generalizing p with
  | nil => exact (Int.add_zero _).symm
  | cons a answers ih =>
      rw [List.foldl_cons, ih, Packet.record_came, List.length_cons]
      omega

theorem ttl_foldl_record (answers : List (List Byte)) (p : Packet) :
    (answers.foldl Packet.record p).ttl = p.ttl := by
  induction answers generalizing p with
  | nil => rfl
  | cons a answers ih =>
      rw [List.foldl_cons, ih]
      exact Packet.setIP_ttl p a

/-- **LINE**: what `print` makes of the record of a hop. -/
theorem print_foldl_record {answers : List (List Byte)} (haddress : ∀ a ∈ answers, IsAddress a)
    (hne : answers ≠ []) (hop : Nat) :
    (answers.foldl Packet.record (newPacket hop)).print = hopLine hop answers := by
  have hcame : (answers.foldl Packet.record (newPacket hop)).came = answers.length := by
    rw [came_foldl_record]
    exact Int.zero_add _
  have hfull : (answers.foldl Packet.record (newPacket hop)).isFull = (answers.length == 3) := by
    rw [Bool.eq_iff_iff, Packet.isFull_iff, hcame, beq_iff_eq]
    omega
  have hip := (ip_foldl_record haddress (p := newPacket hop) (List.forall_mem_nil _) rfl).1
  rw [Packet.print, ttl_foldl_record, hip, hfull, hopLine, if_neg hne]
  rfl

/-! ## The loop makes a survey -/

/-- A hop of the survey in the state of the program. -/
structure Going (maxhops : Nat) (junk : Nat → Junk) (u : Survey) (s : Trace) : Prop where
  hop : s.ttl = u.hop
  within : u.hop ≤ lastHop maxhops
  few : u.answers.length < 3
  count : s.i = u.answers.length
  record : s.packets u.hop = u.answers.foldl Packet.record (packetsInit maxhops junk u.hop)
  later : ∀ k, u.hop < k → s.packets k = packetsInit maxhops junk k
  address : ∀ a ∈ u.answers, IsAddress a

/-- The survey in the state of the program. -/
structure Surveyed (maxhops : Nat) (junk : Nat → Junk) (u : Survey) (s : Trace) : Prop where
  lines : s.lines = u.lines
  ended : s.ended = u.ended
  going : u.ended = false → Going maxhops junk u s

/-- What follows a line. -/
def Trace.closes (maxhops : Nat) (s : Trace) : Party → Trace
  | .router => s.nextHop maxhops
  | .host => s.ends

section Surveyed

variable {maxhops pid : Nat} {junk : Nat → Junk} {u : Survey} {s : Trace}

/-- The program begins as a survey does. -/
theorem surveyed_init (maxhops : Nat) (junk : Nat → Junk) :
    Surveyed maxhops junk (surveyInit (lastHop maxhops)) (traceInit maxhops junk) where
  lines := rfl
  ended := by
    show decide (maxhops < 1) = decide (lastHop maxhops < 1)
    rw [Bool.eq_iff_iff, decide_eq_true_iff, decide_eq_true_iff, lastHop]
    omega
  going := by
    intro hup
    have hfirst : ¬ lastHop maxhops < 1 := of_decide_eq_false hup
    refine ⟨rfl, Nat.le_of_not_lt hfirst, Nat.zero_lt_succ 2, rfl, rfl, fun _ _ => rfl, ?_⟩
    exact List.forall_mem_nil _

/-- A hop that is over leads the program and the survey to the next one. -/
theorem surveyed_goesOn {answers : List (List Byte)}
    (hlines : s.lines = u.lines ++ [hopLine u.hop answers]) (hup : s.ended = false)
    (hhop : s.ttl = u.hop) (hlater : ∀ k, u.hop < k → s.packets k = packetsInit maxhops junk k) :
    Surveyed maxhops junk (u.goesOn (lastHop maxhops) answers) (s.nextHop maxhops) := by
  have hnext : u.hop < lastHop maxhops ↔ s.ttl + 1 ≤ maxhops ∧ s.ttl + 1 ≤ 255 := by
    rw [hhop, lastHop]
    omega
  rw [Survey.goesOn, Trace.nextHop]
  by_cases hlast : u.hop < lastHop maxhops
  · rw [if_pos hlast, if_pos (hnext.mp hlast)]
    refine ⟨hlines, hup, fun _ =>
      ⟨congrArg (· + 1) hhop, hlast, Nat.zero_lt_succ 2, rfl, ?_, ?_, ?_⟩⟩
    · exact hlater _ (Nat.lt_succ_self _)
    · exact fun k hk => hlater k (Nat.lt_of_succ_lt hk)
    · exact List.forall_mem_nil _
  · rw [if_neg hlast, if_neg (fun h => hlast (hnext.mpr h))]
    exact ⟨hlines, rfl, fun hup => absurd hup.symm Bool.false_ne_true⟩

/-- After a third answer it depends on who has answered whether there is a next hop. -/
theorem surveyed_closes {answers : List (List Byte)}
    (hlines : s.lines = u.lines ++ [hopLine u.hop answers]) (hup : s.ended = false)
    (hhop : s.ttl = u.hop) (hlater : ∀ k, u.hop < k → s.packets k = packetsInit maxhops junk k)
    (who : Party) :
    Surveyed maxhops junk (u.closes (lastHop maxhops) answers who) (s.closes maxhops who) := by
  cases who with
  | router => exact surveyed_goesOn hlines hup hhop hlater
  | host => exact ⟨hlines, rfl, fun hup => absurd hup.symm Bool.false_ne_true⟩

/-- **DATAGRAM**: what the loop does with an answer to a probe of its hop. -/
theorem receive_answered {got : List Byte} (ipAddress : List Byte) (hup : s.ended = false)
    (hgot : got ≠ []) (hle : s.ttl ≤ maxhops) (hcame : (s.packets s.ttl).came < intMax)
    (hanswer : s.answer got = .exceeded pid s.ttl ∨ s.answer got = .echoReply pid s.ttl) :
    s.receive maxhops pid got ipAddress
      = if (s.packets s.ttl).came = 2 then
          (((s.hears got).processed s.ttl ipAddress).shows
            (((s.hears got).processed s.ttl ipAddress).packets s.ttl).print).closes maxhops
              (s.answer got).party
        else ((s.hears got).processed s.ttl ipAddress).advance := by
  have hfull : (((s.hears got).processed s.ttl ipAddress).packets s.ttl).isFull = true
      ↔ (s.packets s.ttl).came = 2 := Trace.processed_isFull (s := s.hears got)
  have hreturns : ¬ ((s.hears got).processed s.ttl ipAddress).ended = true := by
    show ¬ s.ended = true
    rw [hup]
    exact Bool.false_ne_true
  have hprocess := Trace.hears_processPacket got s.ttl ipAddress hle hcame
  rw [Trace.receive, if_neg hgot]
  -- both branches of `main` do the same until the third answer
  rcases hanswer with hanswer | hanswer <;> rw [hanswer]
  · simp only [if_true, hprocess]
    rw [if_neg hreturns]
    exact if_congr hfull rfl rfl
  · simp only [if_true, hprocess]
    rw [if_neg hreturns]
    exact if_congr hfull rfl rfl

/-- A datagram that is not for the process. -/
theorem receive_foreign {got : List Byte} (ipAddress : List Byte) (hgot : got ≠ [])
    (hown : (s.answer got).own pid = false) :
    s.receive maxhops pid got ipAddress = s.hears got := by
  rw [Trace.receive, if_neg hgot]
  cases hanswer : s.answer got with
  | exceeded id seq =>
      rw [hanswer] at hown
      exact if_neg (beq_eq_false_iff_ne.mp hown)
  | echoReply id seq =>
      rw [hanswer] at hown
      exact if_neg (beq_eq_false_iff_ne.mp hown)
  | other => rfl

/-- The hop of a program that goes on. -/
theorem Going.ttl_le (h : Going maxhops junk u s) : s.ttl ≤ maxhops ∧ s.ttl ≤ 255 := by
  have hwithin := h.within
  rw [← h.hop, lastHop] at hwithin
  omega

/-- How many answers the record of the hop counts. -/
theorem Going.came (h : Going maxhops junk u s)
    (hset : packetsInit maxhops junk s.ttl = newPacket s.ttl) :
    (s.packets s.ttl).came = u.answers.length := by
  rw [h.hop] at hset ⊢
  rw [h.record, hset, came_foldl_record]
  exact Int.zero_add _

/-- **ANSWERED**: an answer is noted, and the third one ends the hop. -/
theorem Surveyed.answered (h : Surveyed maxhops junk u s) (hup : u.ended = false)
    (hset : packetsInit maxhops junk s.ttl = newPacket s.ttl) {got ipAddress : List Byte}
    (hgot : got ≠ []) (haddress : IsAddress ipAddress)
    (hanswer : s.answer got = .exceeded pid s.ttl ∨ s.answer got = .echoReply pid s.ttl) :
    ∃ u', surveyStep (lastHop maxhops) u (.answered (s.answer got).party ipAddress) = some u'
      ∧ Surveyed maxhops junk u' (s.receive maxhops pid got ipAddress) := by
  have hgoing := h.going hup
  have hended : s.ended = false := h.ended.trans hup
  have hcame := hgoing.came hset
  have hfew := hgoing.few
  have hrecord : ((s.hears got).processed s.ttl ipAddress).packets u.hop
      = (u.answers ++ [ipAddress]).foldl Packet.record (packetsInit maxhops junk u.hop) := by
    rw [← hgoing.hop, Trace.processed_packets_self, List.foldl_append, hgoing.hop, ← hgoing.record]
    rfl
  have hlater : ∀ k, u.hop < k → ((s.hears got).processed s.ttl ipAddress).packets k
      = packetsInit maxhops junk k := by
    intro k hk
    rw [Trace.processed_packets_of_ne (by rw [hgoing.hop]; omega)]
    exact hgoing.later k hk
  have haddresses : ∀ a ∈ u.answers ++ [ipAddress], IsAddress a :=
    List.forall_mem_append.mpr ⟨hgoing.address, List.forall_mem_singleton.mpr haddress⟩
  have hthird : (s.packets s.ttl).came = 2 ↔ (u.answers ++ [ipAddress]).length = 3 := by
    rw [hcame, List.length_append, List.length_singleton]
    omega
  rw [receive_answered ipAddress hended hgot hgoing.ttl_le.1 (by rw [hcame, intMax]; omega) hanswer,
    surveyStep, if_neg (by rw [hup]; exact Bool.false_ne_true)]
  simp only
  by_cases hfull : (u.answers ++ [ipAddress]).length = 3
  · rw [if_pos (hthird.mpr hfull), if_pos hfull]
    refine ⟨_, rfl, surveyed_closes
      (s := ((s.hears got).processed s.ttl ipAddress).shows _) ?_ hended hgoing.hop hlater _⟩
    show s.lines ++ [_] = u.lines ++ [_]
    rw [← hgoing.hop] at hrecord
    rw [h.lines, hrecord, hset, print_foldl_record haddresses (by simp), hgoing.hop]
  · rw [if_neg (fun hc => hfull (hthird.mp hc)), if_neg hfull]
    rw [List.length_append, List.length_singleton] at hfull
    -- in a hop without late answers `i` counts the answers
    have hi : ((s.hears got).processed s.ttl ipAddress).i < intMax := by
      show s.i < intMax
      rw [hgoing.count, intMax]
      omega
    rw [Trace.advance, if_pos hi]
    refine ⟨_, rfl, h.lines, h.ended, fun _ => ⟨hgoing.hop, hgoing.within, ?_, ?_, hrecord, hlater,
      haddresses⟩⟩
    · rw [List.length_append, List.length_singleton]
      omega
    · show s.i + 1 = _
      rw [hgoing.count, List.length_append, List.length_singleton]

/-- **SILENCE**: a hop that is over without a third answer. -/
theorem Surveyed.silence (h : Surveyed maxhops junk u s) (hup : u.ended = false)
    (hset : packetsInit maxhops junk s.ttl = newPacket s.ttl) :
    Surveyed maxhops junk (u.goesOn (lastHop maxhops) u.answers) (s.expire maxhops) := by
  have hgoing := h.going hup
  have hended : s.ended = false := h.ended.trans hup
  have hfilled : (s.packets s.ttl).isFilled = true ↔ u.answers ≠ [] := by
    rw [Packet.isFilled_iff, hgoing.came hset, ← List.length_pos_iff]
    omega
  rw [Trace.expire]
  simp only
  by_cases hnone : u.answers = []
  · rw [if_neg (fun hc => hfilled.mp hc hnone)]
    refine surveyed_goesOn ?_ hended hgoing.hop hgoing.later
    show s.lines ++ [_] = u.lines ++ [_]
    rw [h.lines, hopLine, if_pos hnone, hgoing.hop]
  · rw [if_pos (hfilled.mpr hnone)]
    refine surveyed_goesOn ?_ hended hgoing.hop hgoing.later
    show s.lines ++ [(s.packets s.ttl).print] = u.lines ++ [_]
    rw [hgoing.hop] at hset ⊢
    rw [h.lines, hgoing.record, hset, print_foldl_record hgoing.address hnone]

/-- **STEP**: the program makes a step of the survey. -/
theorem Surveyed.step (hpid : pid < 2 ^ 16) (h : Surveyed maxhops junk u s) {a : TraceAct}
    {s' : Trace} (hintime : InTime maxhops pid junk s a)
    (hstep : traceStep maxhops pid s a = some s') :
    ∃ u', surveyStep (lastHop maxhops) u (sight pid a) = some u'
      ∧ Surveyed maxhops junk u' s' := by
  have hended := up_of_step hstep
  have hup : u.ended = false := h.ended.symm.trans hended
  have hgoing := h.going hup
  obtain ⟨hset, hcomes⟩ := hintime
  rw [traceStep.eq_def, if_neg (by rw [hended]; exact Bool.false_ne_true)] at hstep
  cases a with
  | datagram got ipAddress =>
      obtain rfl := Option.some.inj hstep
      rcases hcomes with ⟨hgot, hforeign⟩ | ⟨hanswers, haddress⟩
      · have hsight : sight pid (.datagram got ipAddress) = .foreign := by
          rw [sight, answerOf, hforeign, if_neg Bool.false_ne_true]
        rw [hsight, receive_foreign ipAddress hgot (hforeign s.buffer), surveyStep,
          if_neg (by rw [hup]; exact Bool.false_ne_true)]
        -- only the buffer and what was heard have changed
        exact ⟨u, rfl, h.lines, h.ended, fun _ => ⟨hgoing.hop, hgoing.within, hgoing.few,
          hgoing.count, hgoing.record, hgoing.later, hgoing.address⟩⟩
      · obtain ⟨hanswer, hsame⟩ := answerOf_answers hpid hgoing.ttl_le.2 hanswers
        have hown : (answerOf got).own pid = true := by
          rcases hanswer with hanswer | hanswer <;> rw [hanswer] <;> exact beq_self_eq_true pid
        rw [sight, if_pos hown, ← hsame s]
        rw [← hsame s] at hanswer
        exact h.answered hup hset hanswers.ne_nil haddress hanswer
  | timeout =>
      obtain rfl := Option.some.inj hstep
      show ∃ u', surveyStep (lastHop maxhops) u .silence = some u' ∧ _
      rw [surveyStep, if_neg (by rw [hup]; exact Bool.false_ne_true)]
      exact ⟨_, rfl, h.silence hup hset⟩
  | fail => exact hcomes.elim

end Surveyed

/-! ## Paths -/

/-- The routers on the way to a host by their distance, and the host at its own. -/
structure Path where
  router : Nat → List Byte
  host : List Byte
  far : Nat
  far_pos : 0 < far
  router_address : ∀ k, IsAddress (router k)
  host_address : IsAddress host

namespace Path

/-- Who answers in a hop. -/
def party (p : Path) (hop : Nat) : Party := if hop < p.far then .router else .host

/-- The address that answers in a hop. -/
def address (p : Path) (hop : Nat) : List Byte := if hop < p.far then p.router hop else p.host

theorem isAddress_address (p : Path) (hop : Nat) : IsAddress (p.address hop) := by
  rw [address]
  split
  · exact p.router_address hop
  · exact p.host_address

/-- The line of a hop with so many answers. -/
def line (p : Path) (hop count : Nat) : Line :=
  if count = 0 then .star hop else .record hop (p.address hop) (count == 3)

/-- The lines of the first hops, by the number of the answers in each. -/
def lines (p : Path) (counts : List Nat) : List Line :=
  (counts.zipIdx 1).map (fun x => p.line x.2 x.1)

/-- The last hop was reached, or the host has answered three times. -/
def Done (p : Path) (last : Nat) (counts : List Nat) : Prop :=
  counts.length = last ∨ p.far ≤ counts.length ∧ counts.getLast? = some 3

/-- The answers of a hop come from there. -/
def Along (p : Path) (u : Survey) : Sight → Prop
  | .answered who ipAddress => who = p.party u.hop ∧ ipAddress = p.address u.hop
  | _ => True

theorem lines_concat (p : Path) (counts : List Nat) (n : Nat) :
    p.lines (counts ++ [n]) = p.lines counts ++ [p.line (counts.length + 1) n] := by
  rw [lines, List.zipIdx_append, List.map_append, Nat.add_comm]
  rfl

theorem done_concat {p : Path} {last n : Nat} {counts : List Nat} :
    p.Done last (counts ++ [n])
      ↔ counts.length + 1 = last ∨ p.far ≤ counts.length + 1 ∧ n = 3 := by
  rw [Done, List.length_append, List.length_singleton, List.getLast?_concat, Option.some_inj]

/-- The line of the survey. -/
theorem hopLine_replicate (p : Path) (hop n : Nat) :
    hopLine hop (List.replicate n (p.address hop)) = p.line hop n := by
  rw [hopLine, line]
  cases n with
  | zero => rfl
  | succ n =>
      have hrest : (List.replicate n (p.address hop)).dropWhile (· == p.address hop) = [] := by
        rw [List.dropWhile_eq_nil_iff]
        intro a ha
        exact beq_iff_eq.mpr (List.eq_of_mem_replicate ha)
      have hnoted : (List.replicate (n + 1) (p.address hop)).foldl note [] = [p.address hop] := by
        have hfold := foldl_note (p.address hop) (List.replicate n (p.address hop))
        rwa [hrest] at hfold
      rw [if_neg (by simp), if_neg (Nat.succ_ne_zero n), hnoted, List.length_replicate, spaced,
        List.intercalate_singleton]

end Path

/-! ## The tally -/

/-- How many answers came in each hop that is over, and in the one that is not. -/
structure Tally where
  counts : List Nat
  now : Nat
  deriving DecidableEq

/-- The third answer ends a hop, and so does a silence. -/
def Tally.notes (t : Tally) : Sight → Tally
  | .answered _ _ => if t.now + 1 = 3 then ⟨t.counts ++ [3], 0⟩ else ⟨t.counts, t.now + 1⟩
  | .silence => ⟨t.counts ++ [t.now], 0⟩
  | .foreign => t

/-- The tally of everything that is seen. -/
def tally (sights : List Sight) : Tally := sights.foldl Tally.notes ⟨[], 0⟩

/-- Whether nobody answers any more. -/
def Sight.isSilence : Sight → Bool
  | .silence => true
  | _ => false

theorem Tally.now_notes_lt {t : Tally} (h : t.now < 3) (a : Sight) : (t.notes a).now < 3 := by
  cases a with
  | answered who ipAddress =>
      rw [notes]
      split
      · exact Nat.zero_lt_succ 2
      · show t.now + 1 < 3
        omega
  | silence => exact Nat.zero_lt_succ 2
  | foreign => exact h

/-- A silence ends a hop with fewer than three answers, and nothing else does. -/
theorem Tally.countP_notes {t : Tally} (h : t.now < 3) (a : Sight) :
    (t.notes a).counts.countP (fun c => decide (c < 3))
      = t.counts.countP (fun c => decide (c < 3)) + if a.isSilence then 1 else 0 := by
  cases a with
  | answered who ipAddress =>
      rw [notes]
      split
      · rw [List.countP_append]
        rfl
      · rfl
  | silence =>
      show (t.counts ++ [t.now]).countP _ = _
      rw [List.countP_append, List.countP_singleton, decide_eq_true h]
      rfl
  | foreign => rfl

theorem Tally.countP_foldl (sights : List Sight) {t : Tally} (h : t.now < 3) :
    (sights.foldl Tally.notes t).counts.countP (fun c => decide (c < 3))
      = t.counts.countP (fun c => decide (c < 3)) + sights.countP Sight.isSilence := by
  induction sights generalizing t with
  | nil => rfl
  | cons a sights ih =>
      rw [List.foldl_cons, ih (now_notes_lt h a), countP_notes h, List.countP_cons]
      omega

/-- As many hops have fewer than three answers as silences were seen. -/
theorem countP_tally (sights : List Sight) :
    (tally sights).counts.countP (fun c => decide (c < 3)) = sights.countP Sight.isSilence :=
  (Tally.countP_foldl sights (Nat.zero_lt_succ 2)).trans (Nat.zero_add _)

/-- What a survey of a path has shown. -/
structure Shown (p : Path) (last : Nat) (u : Survey) (t : Tally) : Prop where
  lines : u.lines = p.lines t.counts
  ended : u.ended = true ↔ p.Done last t.counts
  hop : u.ended = false → u.hop = t.counts.length + 1 ∧ u.hop ≤ last
  few : t.now < 3
  answers : u.ended = false → u.answers = List.replicate t.now (p.address u.hop)

section Shown

variable {p : Path} {last : Nat} {u : Survey} {t : Tally}

theorem shown_init (p : Path) (last : Nat) : Shown p last (surveyInit last) ⟨[], 0⟩ where
  lines := rfl
  ended := by
    have hpos := p.far_pos
    show decide (last < 1) = true ↔ 0 = last ∨ p.far ≤ 0 ∧ _
    rw [decide_eq_true_iff]
    omega
  hop := by
    intro hup
    exact ⟨rfl, Nat.le_of_not_lt (of_decide_eq_false hup)⟩
  few := Nat.zero_lt_succ 2
  answers := fun _ => rfl

/-- The hop is the last one that is shown. -/
theorem Shown.stops (h : Shown p last u t) (hup : u.ended = false) {n : Nat}
    (hdone : p.Done last (t.counts ++ [n])) :
    Shown p last (u.stops (List.replicate n (p.address u.hop))) ⟨t.counts ++ [n], 0⟩ := by
  refine ⟨?_, ⟨fun _ => hdone, fun _ => rfl⟩, fun hup => absurd hup.symm Bool.false_ne_true,
    Nat.zero_lt_succ 2, fun hup => absurd hup.symm Bool.false_ne_true⟩
  rw [Path.lines_concat, ← h.lines, ← (h.hop hup).1, ← p.hopLine_replicate]
  rfl

/-- The hop is over, and not by the third answer of the host. -/
theorem Shown.goesOn (h : Shown p last u t) (hup : u.ended = false) {n : Nat}
    (hhost : ¬ (p.far ≤ u.hop ∧ n = 3)) :
    Shown p last (u.goesOn last (List.replicate n (p.address u.hop)))
      ⟨t.counts ++ [n], 0⟩ := by
  obtain ⟨hhop, hwithin⟩ := h.hop hup
  rw [Survey.goesOn]
  by_cases hlast : u.hop < last
  · rw [if_pos hlast]
    refine ⟨?_, ?_, fun _ => ⟨?_, hlast⟩, Nat.zero_lt_succ 2, fun _ => rfl⟩
    · rw [Path.lines_concat, ← h.lines, ← hhop, ← p.hopLine_replicate]
    · rw [Path.done_concat, ← hhop]
      refine iff_of_false Bool.false_ne_true ?_
      rintro (heq | hthird)
      · exact Nat.ne_of_lt hlast heq
      · exact hhost hthird
    · show u.hop + 1 = _
      rw [hhop, List.length_append, List.length_singleton]
  · rw [if_neg hlast]
    refine h.stops hup (Path.done_concat.mpr (Or.inl ?_))
    omega

/-- **STEP**: a hop that is over shows one more line, with the answers that came in it. -/
theorem Shown.step (h : Shown p last u t) {a : Sight} {u' : Survey}
    (halong : p.Along u a) (hstep : surveyStep last u a = some u') :
    Shown p last u' (t.notes a) := by
  have hup : u.ended = false := by
    by_contra hover
    rw [surveyStep.eq_def, if_pos ((Bool.not_eq_false _).mp hover)] at hstep
    cases hstep
  have hfew := h.few
  have hanswers := h.answers hup
  rw [surveyStep.eq_def, if_neg (by rw [hup]; exact Bool.false_ne_true)] at hstep
  cases a with
  | answered who ipAddress =>
      obtain ⟨rfl, rfl⟩ := halong
      simp only [hanswers, ← List.replicate_succ', List.length_replicate] at hstep
      rw [Tally.notes]
      split at hstep
      · next hthree =>
        obtain rfl := Option.some.inj hstep
        rw [if_pos hthree, hthree]
        -- a third answer of a router leads to the next hop, one of the host ends the survey
        rw [Path.party]
        split
        · next hnear => exact h.goesOn hup (by omega)
        · next hfar =>
          refine h.stops hup (Path.done_concat.mpr (Or.inr ?_))
          have hhop := (h.hop hup).1
          omega
      · next hfewer =>
        obtain rfl := Option.some.inj hstep
        rw [if_neg hfewer]
        refine ⟨h.lines, h.ended, h.hop, ?_, fun _ => rfl⟩
        show t.now + 1 < 3
        omega
  | silence =>
      obtain rfl := Option.some.inj hstep
      rw [hanswers]
      exact h.goesOn hup (by omega)
  | foreign =>
      obtain rfl := Option.some.inj hstep
      exact h

/-- **RUN**: what a whole survey shows. -/
theorem Shown.play {sights : List Sight} {u' : Survey} (h : Shown p last u t)
    (halong : Follows (survey last) p.Along u sights)
    (hplay : play (survey last) u sights = some u') :
    Shown p last u' (sights.foldl Tally.notes t) := by
  induction sights generalizing u t with
  | nil =>
      obtain rfl := Option.some.inj hplay
      exact h
  | cons a sights ih =>
      obtain ⟨u₁, hstep, hplay₁⟩ := play_cons_some hplay
      obtain ⟨ha, hrest⟩ := halong
      rw [hstep] at hrest
      exact ih (h.step ha hstep) hrest hplay₁

end Shown

section OnPath

variable {maxhops pid : Nat} {junk : Nat → Junk}

/-- What comes in on a path is foreign, or answers a probe of the hop from where the path says. -/
def OnPath (p : Path) (maxhops pid : Nat) (junk : Nat → Junk) (s : Trace) (a : TraceAct) : Prop :=
  packetsInit maxhops junk s.ttl = newPacket s.ttl ∧
    match a with
    | .datagram got ipAddress =>
        Foreign pid got ∨ Answers (sendIcmpPacket pid s.ttl) got
          ∧ (answerOf got).party = p.party s.ttl ∧ ipAddress = p.address s.ttl
    | .timeout => True
    | .fail => False

theorem OnPath.inTime {p : Path} {s : Trace} {a : TraceAct} (h : OnPath p maxhops pid junk s a) :
    InTime maxhops pid junk s a := by
  obtain ⟨hset, hcomes⟩ := h
  refine ⟨hset, ?_⟩
  cases a with
  | datagram got ipAddress =>
      rcases hcomes with hforeign | ⟨hanswers, -, rfl⟩
      · exact Or.inl hforeign
      · exact Or.inr ⟨hanswers, p.isAddress_address _⟩
  | timeout => trivial
  | fail => exact hcomes.elim

theorem OnPath.along {p : Path} {u : Survey} {s : Trace} {a : TraceAct} (hhop : s.ttl = u.hop)
    (h : OnPath p maxhops pid junk s a) : p.Along u (sight pid a) := by
  cases a with
  | datagram got ipAddress =>
      rw [sight]
      split
      · next hown =>
        rcases h.2 with ⟨-, hforeign⟩ | ⟨-, hparty, haddress⟩
        · rw [answerOf, hforeign] at hown
          cases hown
        · rw [hhop] at hparty haddress
          exact ⟨hparty, haddress⟩
      · trivial
  | timeout => trivial
  | fail => exact h.2.elim

/-- Whether `Select` has waited for a second. -/
def TraceAct.isTimeout : TraceAct → Bool
  | .timeout => true
  | _ => false

theorem isSilence_sight (pid : Nat) (a : TraceAct) : (sight pid a).isSilence = a.isTimeout := by
  cases a with
  | datagram got ipAddress =>
      rw [sight]
      split <;> rfl
  | timeout => rfl
  | fail => rfl

end OnPath

/-! ## Whole traces -/

section Runs

variable {maxhops pid : Nat} {junk : Nat → Junk}

/-- **PLAY**: what the program plays is played by a survey, and a condition on the one is one
    on the other. -/
theorem surveyed_of_play (hpid : pid < 2 ^ 16) {allowed : Trace → TraceAct → Prop}
    {permitted : Survey → Sight → Prop}
    (hintime : ∀ s a, allowed s a → InTime maxhops pid junk s a)
    (hpermitted : ∀ u s a, s.ttl = u.hop → allowed s a → permitted u (sight pid a))
    {acts : List TraceAct} {s : Trace}
    (hallowed : Follows (traceroute maxhops pid junk) allowed (traceInit maxhops junk) acts)
    (hplay : play (traceroute maxhops pid junk) (traceInit maxhops junk) acts = some s) :
    ∃ u, play (survey (lastHop maxhops)) (surveyInit (lastHop maxhops)) (acts.map (sight pid))
        = some u
      ∧ Follows (survey (lastHop maxhops)) permitted (surveyInit (lastHop maxhops))
        (acts.map (sight pid))
      ∧ Surveyed maxhops junk u s := by
  have hsimulate : ∀ (s : Trace) (u : Survey) (a : TraceAct) (s' : Trace),
      Surveyed maxhops junk u s → allowed s (id a) →
      traceStep maxhops pid s (id a) = some s' →
      permitted u (sight pid a) ∧ ∃ u', surveyStep (lastHop maxhops) u (sight pid a) = some u'
        ∧ Surveyed maxhops junk u' s' := by
    intro s u a s' h ha hstep
    have hup : u.ended = false := h.ended.symm.trans (up_of_step hstep)
    exact ⟨hpermitted u s a (h.going hup).hop ha, h.step hpid (hintime s a ha) hstep⟩
  rw [← List.map_id acts] at hallowed hplay
  exact play_simulate_guarded (M := traceroute maxhops pid junk) (N := survey (lastHop maxhops))
    (R := fun s u => Surveyed maxhops junk u s) hsimulate acts (traceInit maxhops junk)
    (surveyInit (lastHop maxhops)) s (surveyed_init maxhops junk) hallowed hplay

/-- **SURVEY**: as long as what comes in is in time or foreign, the lines are those of a survey
    that sees the same, and the program ends when the survey does. -/
theorem trace_surveys (hpid : pid < 2 ^ 16) {acts : List TraceAct} {s : Trace}
    (hintime : Follows (traceroute maxhops pid junk) (InTime maxhops pid junk)
      (traceInit maxhops junk) acts)
    (hplay : play (traceroute maxhops pid junk) (traceInit maxhops junk) acts = some s) :
    ∃ u, play (survey (lastHop maxhops)) (surveyInit (lastHop maxhops)) (acts.map (sight pid))
        = some u
      ∧ s.lines = u.lines ∧ s.ended = u.ended := by
  have hany : ∀ (u : Survey) (s : Trace) a, s.ttl = u.hop → InTime maxhops pid junk s a →
      anyStep u (sight pid a) := fun _ _ _ _ _ => trivial
  obtain ⟨u, hu, -, hsurveyed⟩ := surveyed_of_play hpid (fun _ _ h => h) hany hintime hplay
  exact ⟨u, hu, hsurveyed.lines, hsurveyed.ended⟩

/-- **PATH**: the lines of a trace are those of the hops of its path in order, each with as
    many answers as came in it and with the address that is there if there was one.  As many
    hops have fewer than three answers as timeouts came, and the trace ends at its last hop or
    when the host has answered three times. -/
theorem trace_shows_path (hpid : pid < 2 ^ 16) (p : Path) {acts : List TraceAct} {s : Trace}
    (hpath : Follows (traceroute maxhops pid junk) (OnPath p maxhops pid junk)
      (traceInit maxhops junk) acts)
    (hplay : play (traceroute maxhops pid junk) (traceInit maxhops junk) acts = some s) :
    s.lines = p.lines (tally (acts.map (sight pid))).counts
      ∧ (s.ended = true ↔ p.Done (lastHop maxhops) (tally (acts.map (sight pid))).counts)
      ∧ (tally (acts.map (sight pid))).counts.countP (fun c => decide (c < 3))
        = acts.countP TraceAct.isTimeout := by
  obtain ⟨u, hu, halong, hsurveyed⟩ := surveyed_of_play hpid
    (fun _ _ h => h.inTime) (fun _ _ _ hhop h => OnPath.along (p := p) hhop h) hpath hplay
  have hshown : Shown p (lastHop maxhops) u (tally (acts.map (sight pid))) :=
    (shown_init p (lastHop maxhops)).play halong hu
  refine ⟨hsurveyed.lines.trans hshown.lines, ?_, ?_⟩
  · rw [hsurveyed.ended]
    exact hshown.ended
  · rw [countP_tally, List.countP_map]
    refine List.countP_congr (fun a _ => ?_)
    rw [Function.comp_apply, isSilence_sight]

/-! ### A near host -/

/-- A router quotes the first probe of process 1. -/
def quotedProbe : List Byte :=
  plainHeader.bytes ++ ([icmpTimeExceeded, icmpExcTtl] ++ ([0, 0] ++ [0, 0, 0, 0])
    ++ (plainHeader.bytes ++ (sendIcmpPacket 1 1 ++ [])))

/-- The host replies to the second one. -/
def hostReply : List Byte :=
  plainHeader.bytes ++ ([icmpEchoReply, 0] ++ [0, 0] ++ ((sendIcmpPacket 1 2).drop 4 ++ []))

/-- One router, and the host. -/
def nearPath : Path where
  router := fun _ => [49]
  host := [50]
  far := 2
  far_pos := Nat.zero_lt_two
  router_address := fun _ => ⟨by decide, by decide⟩
  host_address := ⟨by decide, by decide⟩

/-- The router answers once, and the host to everything. -/
def nearActs : List TraceAct :=
  [.datagram quotedProbe [49], .timeout, .datagram hostReply [50], .datagram hostReply [50],
    .datagram hostReply [50]]

/-- What comes in, and in which hop. -/
def nearStep (s : Trace) : TraceAct → Bool
  | .datagram got ipAddress =>
      decide (s.ttl = 1 ∧ got = quotedProbe ∧ ipAddress = [49]
        ∨ s.ttl = 2 ∧ got = hostReply ∧ ipAddress = [50])
  | .timeout => decide (s.ttl < 3)
  | .fail => false

theorem onPath_of_nearStep (s : Trace) (a : TraceAct) (h : nearStep s a = true) :
    OnPath nearPath 3 1 zeroMemory s a := by
  have hset : ∀ k, k < 3 → packetsInit 3 zeroMemory k = newPacket k := by
    intro k hk
    rw [packetsInit_apply, if_pos hk]
  cases a with
  | datagram got ipAddress =>
      rcases of_decide_eq_true h with ⟨httl, rfl, rfl⟩ | ⟨httl, rfl, rfl⟩
      · refine ⟨hset _ (by omega), Or.inr ?_⟩
        rw [httl]
        exact ⟨.timeExceeded (.quotes plainHeader plainHeader [0, 0] [0, 0, 0, 0] [] rfl rfl rfl),
          by decide +kernel, rfl⟩
      · refine ⟨hset _ (by omega), Or.inr ?_⟩
        rw [httl]
        exact ⟨.echoReply (.echoes plainHeader 0 [0, 0] [] rfl), by decide +kernel, rfl⟩
  | timeout => exact ⟨hset _ (of_decide_eq_true h), trivial⟩
  | fail => cases h

/-- What is left of the trace. -/
def nearTrace : Trace :=
  (play (traceroute 3 1 zeroMemory) (traceInit 3 zeroMemory) nearActs).getD
    (traceInit 3 zeroMemory)

theorem play_nearActs : play (traceroute 3 1 zeroMemory) (traceInit 3 zeroMemory) nearActs
    = some nearTrace := by
  have hsome : (play (traceroute 3 1 zeroMemory) (traceInit 3 zeroMemory) nearActs).isSome := by
    decide +kernel
  exact (Option.getD_of_ne_none (Option.isSome_iff_ne_none.mp hsome) _).symm

theorem follows_nearActs : Follows (traceroute 3 1 zeroMemory) (OnPath nearPath 3 1 zeroMemory)
    (traceInit 3 zeroMemory) nearActs := by
  have hnear : Follows (traceroute 3 1 zeroMemory) (fun s a => nearStep s a = true)
      (traceInit 3 zeroMemory) nearActs := by
    decide +kernel
  exact hnear.imp onPath_of_nearStep

/-- A survey of two hops. -/
theorem trace_surveys_near : ∃ u, play (survey (lastHop 3)) (surveyInit (lastHop 3))
      (nearActs.map (sight 1)) = some u
    ∧ nearTrace.lines = u.lines ∧ nearTrace.ended = u.ended :=
  trace_surveys (by decide) (follows_nearActs.imp (fun _ _ h => h.inTime)) play_nearActs

/-- The two hops of the path. -/
theorem trace_shows_path_near :
    nearTrace.lines = nearPath.lines (tally (nearActs.map (sight 1))).counts
      ∧ (nearTrace.ended = true
        ↔ nearPath.Done (lastHop 3) (tally (nearActs.map (sight 1))).counts)
      ∧ (tally (nearActs.map (sight 1))).counts.countP (fun c => decide (c < 3))
        = nearActs.countP TraceAct.isTimeout :=
  trace_shows_path (by decide) nearPath follows_nearActs play_nearActs

example : (tally (nearActs.map (sight 1))).counts = [1, 3] := by decide +kernel

end Runs

end Traceroute
