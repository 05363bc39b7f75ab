import AipPkussm.ChatServeProofs

/-! # `comm_waitmsg`, and how TCP splits the bytes

    The client's loop of `Client.cc`: a `recv` for the header, one for the body,
    and the pair is displayed.  A negative `data_size` makes `malloc` return
    NULL; `recv` then fails unless the stream has ended, and the client exits.

    `reception_iff` puts both ends together.  What the server hands on and what
    the client displays is, whatever uninitialised memory holds, independent of
    how the bytes are split exactly as long as no request is cut short: neither
    loop ever asks for the missing part of a short `recv`. -/

namespace ChatSegment

open LittleEndian ChatMessage ByteSocket ChatReceive ChatServe

/-- `recv` into the null pointer: it fails when there are bytes to copy. -/
def recvNull (d : Delivery) (s : Socket) : Option (List Byte) × Socket :=
  if s.input = [] then recv d s 0 else (none, { s with calls := s.calls + 1 })

/-- `comm_waitmsg`, at most `fuel` rounds of it, the first of which finds `mem n`:
    the header and body pairs it displays. -/
def commWaitmsg (mem : Nat → Memory) (d : Delivery) : Nat → Nat → Socket →
    Option (List Parcel)
  | 0, _, _ => none
  | fuel + 1, n, s =>
      match recv d s messageLen with
      | (none, _) => some []
      | (some [], _) => some []
      | (some (b :: got), s') =>
          let recvMsg := decode (overlay messageLen (b :: got) (mem n).stack)
          match if recvMsg.size < 0 then recvNull d s' else recv d s' recvMsg.payload with
          | (none, _) => some []
          | (some body, s'') =>
              (commWaitmsg mem d fuel (n + 1) s'').map (List.cons
                { hdr := { recvMsg with
                    dataPtr := if recvMsg.size < 0 then 0 else (mem n).ptr }
                  body := overlay recvMsg.payload body (mem n).heap })

/-- The pairs displayed on a connection with the given bytes. -/
def displayed (mem : Nat → Memory) (d : Delivery) (input : List Byte) :
    Option (List Parcel) :=
  commWaitmsg mem d (input.length + 1) 0 ⟨input, 0⟩

/-- The requests on which the client depends.  After a negative `data_size` it
    exits, so of that header the front part up to `data_size` is enough, unless
    nothing comes after it. -/
def clientRequests : List Frame → List Nat
  | [] => []
  | f :: fs =>
      if f.hdr.size < 0 then [if fs = [] then messageLen else 40]
      else messageLen :: f.hdr.payload :: clientRequests fs

/-- A pair as the client displays it. -/
def shown (mem : Memory) (f : Frame) : Parcel where
  hdr := { f.hdr with dataPtr := if f.hdr.size < 0 then 0 else mem.ptr }
  body := f.body

/-! ## The loop ends -/

theorem recvNull_length_le (d : Delivery) (s : Socket) :
    (recvNull d s).2.input.length ≤ s.input.length := by
  rw [recvNull]
  split
  · exact recv_length_le d s 0
  · exact Nat.le_refl _

/-- **TERMINATION**: on any connection the loop ends within as many rounds as there
    are bytes, and one. -/
theorem commWaitmsg_ends (mem : Nat → Memory) (d : Delivery) (fuel : Nat) : ∀ n s,
    s.input.length < fuel → ∃ ps, commWaitmsg mem d fuel n s = some ps := by
  induction fuel with
  | zero => exact fun _ _ h => absurd h (Nat.not_lt_zero _)
  | succ fuel ih =>
      intro n s hfuel
      rw [commWaitmsg]
      rcases hr : recv d s messageLen with ⟨_ | _ | ⟨b, got⟩, s'⟩
      · exact ⟨[], rfl⟩
      · exact ⟨[], rfl⟩
      · have hin := congrArg List.length (recv_input hr)
        rw [List.length_append, List.length_cons] at hin
        simp only
        generalize decode (overlay messageLen (b :: got) (mem n).stack) = msg
        have hle : (if msg.size < 0 then recvNull d s'
            else recv d s' msg.payload).2.input.length ≤ s'.input.length := by
          split
          · exact recvNull_length_le d s'
          · exact recv_length_le d s' msg.payload
        rcases hb : (if msg.size < 0 then recvNull d s' else recv d s' msg.payload) with
          ⟨_ | body, s''⟩
        · exact ⟨[], rfl⟩
        · rw [hb] at hle
          have hle' : s''.input.length ≤ s'.input.length := hle
          obtain ⟨ps, hps⟩ := ih (n + 1) s'' (by omega)
          simp only [hps]
          exact ⟨_, rfl⟩

/-! ## One round -/

/-- At the end of the stream the client exits. -/
theorem commWaitmsg_nil (mem : Nat → Memory) (cuts : Nat → Nat) (fuel n : Nat)
    {s : Socket} (h : s.input = []) :
    commWaitmsg mem (split cuts) (fuel + 1) n s = some []
      ∧ commWaitmsg mem whole (fuel + 1) n s = some [] := by
  have hwhole : recv whole s messageLen = (some [], ⟨[], s.calls + 1⟩) := by
    rw [recv_whole, h, List.take_nil, List.drop_nil]
  have hsplit := (recv_split_nil cuts h messageLen).trans hwhole
  rw [commWaitmsg, commWaitmsg, hwhole, hsplit]
  exact ⟨rfl, rfl⟩

/-- One round whose header is received in full. -/
theorem commWaitmsg_header (mem : Nat → Memory) (d : Delivery) (fuel n : Nat)
    {s s' : Socket} {f : Frame}
    (hrecv : recv d s messageLen = (some (encode f.hdr), s')) :
    commWaitmsg mem d (fuel + 1) n s
      = match if f.hdr.size < 0 then recvNull d s' else recv d s' f.hdr.payload with
        | (none, _) => some []
        | (some body, s'') =>
            (commWaitmsg mem d fuel (n + 1) s'').map (List.cons
              { hdr := { f.hdr with
                  dataPtr := if f.hdr.size < 0 then 0 else (mem n).ptr }
                body := overlay f.hdr.payload body (mem n).heap }) := by
  have hlen : (encode f.hdr).length = messageLen := length_encode f.hdr
  have hhdr := decode_overlay f.hdr (mem n).stack
  rw [commWaitmsg, hrecv]
  cases hcons : encode f.hdr with
  | nil =>
      rw [hcons] at hlen
      exact nomatch hlen
  | cons b got =>
      rw [hcons] at hhdr
      simp only [hhdr]

/-- A round on a frame with a body, nothing of which is split. -/
theorem commWaitmsg_frame (mem : Nat → Memory) (fuel n : Nat) {s : Socket} {f : Frame}
    {rest : List Byte} (hin : s.input = f.bytes ++ rest) (hsize : ¬ f.hdr.size < 0) :
    commWaitmsg mem whole (fuel + 1) n s
      = (commWaitmsg mem whole fuel (n + 1) ⟨rest, s.calls + 1 + 1⟩).map
          (List.cons (shown (mem n) f)) := by
  have hbody : recv whole ⟨f.body ++ rest, s.calls + 1⟩ f.hdr.payload
      = (some f.body, ⟨rest, s.calls + 1 + 1⟩) := by
    rw [recv_whole, ← f.body_length]
    show (some ((f.body ++ rest).take _), Socket.mk ((f.body ++ rest).drop _) _) = _
    rw [List.take_left, List.drop_left]
  rw [commWaitmsg_header mem whole fuel n (recv_header hin), if_neg hsize, hbody]
  simp only [overlay_full f.body_length]
  rfl

/-- A round on a frame with a negative `data_size`: the client exits, unless the
    stream has ended. -/
theorem commWaitmsg_negative (mem : Nat → Memory) (fuel n : Nat) {s : Socket}
    {f : Frame} {rest : List Byte} (hin : s.input = f.bytes ++ rest)
    (hsize : f.hdr.size < 0) :
    commWaitmsg mem whole (fuel + 1) n s
      = if rest = [] then
          (commWaitmsg mem whole fuel (n + 1) ⟨[], s.calls + 1 + 1⟩).map
            (List.cons (shown (mem n) f))
        else some [] := by
  have hzero : f.hdr.payload = 0 := Int.toNat_of_nonpos (Int.le_of_lt hsize)
  have hbody : f.body = [] := Frame.body_eq_nil (Int.le_of_lt hsize)
  rw [commWaitmsg_header mem whole fuel n (recv_header hin), if_pos hsize, hbody,
    List.nil_append, recvNull]
  by_cases hrest : rest = []
  · rw [if_pos hrest, if_pos hrest, hrest, recv_whole]
    simp only [hzero, if_pos hsize, shown, hbody]
    rfl
  · rw [if_neg hrest, if_neg hrest]

/-! ## Requests served in full -/

/-- The length field of a struct of which enough arrived. -/
theorem size_of_front {msg : Message} {got rest : List Byte} (old : Nat → Byte)
    (henc : encode msg = got ++ rest) (hlen : 40 ≤ got.length) :
    (decode (overlay messageLen got old)).size = msg.size := by
  have hle : got.length ≤ messageLen := by
    rw [← length_encode msg, henc, List.length_append]
    omega
  obtain ⟨kept, hover⟩ := overlay_prefix hle
  have hfield : slice 36 4 (overlay messageLen got old) = slice 36 4 (encode msg) := by
    rw [hover, henc, slice_append_left (by omega), slice_append_left (by omega)]
  have hdec : (decode (overlay messageLen got old)).dataSize
      = (decode (encode msg)).dataSize := by
    show decodeWord 32 (slice 36 4 _) = decodeWord 32 (slice 36 4 _)
    rw [hfield]
  rw [decode_encode] at hdec
  show (decode (overlay messageLen got old)).dataSize.toInt = msg.dataSize.toInt
  rw [hdec]

/-- A client that gets the front part of a header with a negative `data_size`, up
    to that field, exits when more bytes are there. -/
theorem commWaitmsg_exits (mem : Nat → Memory) (d : Delivery) (fuel n : Nat)
    {s s' : Socket} {got rest : List Byte} {msg : Message}
    (hrecv : recv d s messageLen = (some got, s')) (hgot : got ≠ [])
    (henc : encode msg = got ++ rest) (hlen : 40 ≤ got.length) (hsize : msg.size < 0)
    (hmore : s'.input ≠ []) : commWaitmsg mem d (fuel + 1) n s = some [] := by
  rw [commWaitmsg, hrecv]
  cases got with
  | nil => exact absurd rfl hgot
  | cons b got =>
      have hdec := size_of_front (mem n).stack henc hlen
      simp only
      rw [hdec, if_pos hsize, recvNull, if_neg hmore]

/-- A short `recv` in front of a frame gets a front part of its header. -/
theorem header_split {f : Frame} {rest got more : List Byte}
    (hin : f.bytes ++ rest = got ++ more) (hle : got.length ≤ messageLen) :
    ∃ back, encode f.hdr = got ++ back ∧ more = back ++ (f.body ++ rest) := by
  have hlen : (encode f.hdr).length = messageLen := length_encode f.hdr
  rw [show f.bytes ++ rest = encode f.hdr ++ (f.body ++ rest) from
    List.append_assoc ..] at hin
  rcases List.append_eq_append_iff.mp hin with ⟨a, hgot, hback⟩ | ⟨a, henc, hmore⟩
  · -- the header is a front part of what arrived: both have 52 bytes
    have ha : a = [] := by
      have := congrArg List.length hgot
      rw [List.length_append, hlen] at this
      exact List.eq_nil_of_length_eq_zero (by omega)
    rw [ha, List.append_nil] at hgot
    rw [ha, List.nil_append] at hback
    exact ⟨[], by rw [List.append_nil, hgot], hback.symm⟩
  · exact ⟨a, henc, hmore⟩

/-- With the first 40 bytes of a header that has a negative `data_size` the client exits. -/
theorem commWaitmsg_exits_of_covers (mem : Nat → Memory) (cuts : Nat → Nat) (fuel n : Nat)
    {s : Socket} {f : Frame} {fs : List Frame} (hin : s.input = f.bytes ++ stream fs)
    (hsize : f.hdr.size < 0) (hstream : stream fs ≠ [])
    (hhead : (split cuts s.calls).covers 40) :
    commWaitmsg mem (split cuts) (fuel + 1) n s = some [] := by
  obtain ⟨got, rest, hrecv, hsplit, hle, -, -, hatleast⟩ := recv_split cuts s messageLen
  obtain ⟨back, henc, hmore⟩ := header_split (hin.symm.trans hsplit) hle
  have hlong : 40 ≤ got.length := by
    refine hatleast 40 (by decide) ?_ hhead
    rw [hin, List.length_append, Frame.length_bytes]
    have : 40 ≤ messageLen := by decide
    omega
  refine commWaitmsg_exits mem (split cuts) fuel n hrecv ?_ henc hlong hsize ?_
  · intro hnil
    rw [hnil] at hlong
    exact absurd hlong (by decide)
  · show rest ≠ []
    rw [hmore]
    intro hnil
    exact hstream (List.append_eq_nil_iff.mp (List.append_eq_nil_iff.mp hnil).2).2

/-- **ENOUGH**: when every request on which the client depends is served in full,
    it displays what it would display if nothing was ever split. -/
theorem commWaitmsg_of_covers (mem : Nat → Memory) (cuts : Nat → Nat) (fs : List Frame) :
    ∀ fuel n s, s.input = stream fs → Covers (split cuts) s.calls (clientRequests fs) →
    commWaitmsg mem (split cuts) fuel n s = commWaitmsg mem whole fuel n s := by
  induction fs with
  | nil =>
      intro fuel n s hin _
      cases fuel with
      | zero => rfl
      | succ fuel =>
          obtain ⟨hsplit, hwhole⟩ := commWaitmsg_nil mem cuts fuel n hin
          rw [hsplit, hwhole]
  | cons f fs ih =>
      intro fuel n s hin hcov
      cases fuel with
      | zero => rfl
      | succ fuel =>
          have hin' : s.input = f.bytes ++ stream fs := hin
          rw [clientRequests] at hcov
          by_cases hsize : f.hdr.size < 0
          · rw [if_pos hsize] at hcov
            obtain ⟨hhead, -⟩ := hcov
            rw [commWaitmsg_negative mem fuel n hin' hsize]
            by_cases hfs : fs = []
            · -- the last frame: the header arrives whole, then the stream ends
              subst hfs
              rw [if_pos rfl] at hhead
              have hzero : f.hdr.payload = 0 := Int.toNat_of_nonpos (Int.le_of_lt hsize)
              have hbody : f.body = [] := Frame.body_eq_nil (Int.le_of_lt hsize)
              have hend : (⟨f.body ++ stream [], s.calls + 1⟩ : Socket).input = [] := by
                show f.body ++ [] = []
                rw [hbody, List.append_nil]
              rw [if_pos stream_nil,
                commWaitmsg_header mem (split cuts) fuel n
                  ((recv_of_covers hhead).trans (recv_header hin')),
                if_pos hsize, recvNull, if_pos hend, recv_split_nil cuts hend,
                recv_whole, hend]
              simp only [hzero, if_pos hsize, shown, hbody, List.take_nil, List.drop_nil]
              rw [ih fuel (n + 1) ⟨[], _⟩ rfl trivial]
              rfl
            · -- more bytes come behind a negative size: both leave
              rw [if_neg hfs] at hhead
              have hstream : stream fs ≠ [] := stream_ne_nil hfs
              rw [if_neg hstream]
              exact commWaitmsg_exits_of_covers mem cuts fuel n hin' hsize hstream hhead
          · rw [if_neg hsize] at hcov
            obtain ⟨hhead, hbody, hothers⟩ := hcov
            have hbodyRecv : recv (split cuts) ⟨f.body ++ stream fs, s.calls + 1⟩
                f.hdr.payload = (some f.body, ⟨stream fs, s.calls + 1 + 1⟩) := by
              rw [recv_of_covers hbody, recv_whole, ← f.body_length]
              show (some ((f.body ++ stream fs).take _),
                Socket.mk ((f.body ++ stream fs).drop _) _) = _
              rw [List.take_left, List.drop_left]
            rw [commWaitmsg_frame mem fuel n hin' hsize,
              commWaitmsg_header mem (split cuts) fuel n
                ((recv_of_covers hhead).trans (recv_header hin')),
              if_neg hsize, hbodyRecv]
            simp only [overlay_full f.body_length]
            rw [ih fuel (n + 1) ⟨stream fs, _⟩ rfl hothers]
            rfl

/-! ## A split that shows -/

/-- Old contents of memory that differ from a frame in every byte. -/
def adverse (f : Frame) : Memory where
  stack := fun i => ~~~ (encode f.hdr).getD i 0
  ptr := 0
  heap := fun i => ~~~ f.body.getD i 0

/-- A header of which the end is missing is taken for one to somebody else. -/
theorem toId_of_short {f : Frame} {got : List Byte} (hlen : got.length < messageLen) :
    (decode (overlay messageLen got (adverse f).stack)).toId ≠ f.hdr.toId := by
  intro heq
  generalize hl : overlay messageLen got (adverse f).stack = l at heq
  have hll : l.length = messageLen := by rw [← hl, length_overlay]
  have hsame : slice 48 4 l = slice 48 4 (encode f.hdr) := by
    rw [← encode_decode hll, slice_toId, slice_toId, heq]
  have hlast : l.getD 51 0 = (encode f.hdr).getD 51 0 := by
    have h₁ := getD_slice 48 (l := l) (show 3 < 4 by decide)
    have h₂ := getD_slice 48 (l := encode f.hdr) (show 3 < 4 by decide)
    rw [← h₁, ← h₂, hsame]
  have hle : got.length ≤ 51 := Nat.le_of_lt_succ hlen
  rw [← hl, getD_overlay_old (by decide) hle] at hlast
  exact complement_ne _ hlast

/-- A negative `data_size` of which the end is missing is taken for another one that
    is not negative. -/
theorem size_of_short {f : Frame} {got : List Byte} (hlen : got.length < 40)
    (hsize : f.hdr.size < 0) :
    0 ≤ (decode (overlay messageLen got (adverse f).stack)).size := by
  generalize hl : overlay messageLen got (adverse f).stack = l
  have hll : l.length = messageLen := by rw [← hl, length_overlay]
  have hsign := (size_neg_iff f.hdr).mp hsize
  have hbyte : l.getD 39 0 = ~~~ (encode f.hdr).getD 39 0 := by
    rw [← hl, getD_overlay_old (by decide) (Nat.le_of_lt_succ hlen)]
    rfl
  by_contra hneg
  have hflip := (size_neg_iff (decode l)).mp (Int.not_le.mp hneg)
  rw [encode_decode hll, hbyte, toNat_complement] at hflip
  omega

/-- One round after a short `recv` of the header: with a negative `data_size` the
    client exits, otherwise it displays what it took for a message. -/
theorem commWaitmsg_short (mem : Nat → Memory) (cuts : Nat → Nat) {fuel n : Nat}
    {s : Socket} {got rest : List Byte} (hfuel : s.input.length < fuel + 1)
    (hrecv : recv (split cuts) s messageLen = (some got, ⟨rest, s.calls + 1⟩))
    (hgot : got ≠ []) (hrest : rest ≠ []) :
    ((decode (overlay messageLen got (mem n).stack)).size < 0 →
        commWaitmsg mem (split cuts) (fuel + 1) n s = some [])
      ∧ (0 ≤ (decode (overlay messageLen got (mem n).stack)).size →
        ∃ x xs, commWaitmsg mem (split cuts) (fuel + 1) n s = some (x :: xs)
          ∧ x.hdr.toId = (decode (overlay messageLen got (mem n).stack)).toId) := by
  have hin := congrArg List.length (recv_input hrecv)
  rw [List.length_append] at hin
  have hpos := List.length_pos_of_ne_nil hgot
  rw [commWaitmsg, hrecv]
  cases got with
  | nil => exact absurd rfl hgot
  | cons b got =>
      simp only
      generalize decode (overlay messageLen (b :: got) (mem n).stack) = msg
      constructor
      · intro hneg
        rw [if_pos hneg, recvNull, if_neg hrest]
      · intro hnonneg
        rw [if_neg (Int.not_lt.mpr hnonneg)]
        obtain ⟨body, rest', hbody, hsplit, -⟩ :=
          recv_split cuts ⟨rest, s.calls + 1⟩ msg.payload
        have hle := congrArg List.length hsplit
        rw [List.length_append] at hle
        have hle' : rest.length = body.length + rest'.length := hle
        have hin' : s.input.length = (b :: got).length + rest.length := hin
        obtain ⟨ps, hps⟩ := commWaitmsg_ends mem (split cuts) fuel (n + 1)
          ⟨rest', s.calls + 1 + 1⟩ (show rest'.length < fuel by omega)
        rw [hbody]
        simp only [hps]
        exact ⟨_, _, rfl, rfl⟩

/-- A body of which the end is missing is displayed with old memory in its place. -/
theorem body_of_short {f : Frame} {got : List Byte} (hle : got.length ≤ f.hdr.payload)
    (h : overlay f.hdr.payload got (adverse f).heap = f.body) :
    got.length = f.hdr.payload := by
  by_contra hne
  have hbyte : (overlay f.hdr.payload got (adverse f).heap).getD got.length 0
      = ~~~ f.body.getD got.length 0 := getD_overlay_old (by omega) (Nat.le_refl _)
  rw [h] at hbyte
  exact complement_ne _ hbyte.symm

/-- What the client displays for the first frame of an undivided stream. -/
theorem commWaitmsg_first (mem : Nat → Memory) {fuel n : Nat} {s : Socket} {f : Frame}
    {fs : List Frame} (hin : s.input = f.bytes ++ stream fs)
    (hfuel : s.input.length < fuel + 1) (hshown : f.hdr.size < 0 → fs = []) :
    ∃ xs, commWaitmsg mem whole (fuel + 1) n s = some (shown (mem n) f :: xs) := by
  have hlen : (stream fs).length < fuel := by
    rw [hin, List.length_append, Frame.length_bytes] at hfuel
    have := messageLen_pos
    omega
  by_cases hsize : f.hdr.size < 0
  · obtain rfl := hshown hsize
    obtain ⟨xs, hxs⟩ := commWaitmsg_ends mem whole fuel (n + 1) ⟨[], s.calls + 1 + 1⟩ hlen
    rw [commWaitmsg_negative mem fuel n hin hsize, if_pos stream_nil,
      hxs]
    exact ⟨xs, rfl⟩
  · obtain ⟨xs, hxs⟩ := commWaitmsg_ends mem whole fuel (n + 1)
      ⟨stream fs, s.calls + 1 + 1⟩ hlen
    rw [commWaitmsg_frame mem fuel n hin hsize, hxs]
    exact ⟨xs, rfl⟩

/-- A header of which the end is missing shows, unless the client needs less of it. -/
theorem covers_of_short_header (mem : Nat → Memory) (cuts : Nat → Nat) {fuel n : Nat}
    {s : Socket} {f : Frame} {fs : List Frame} {got back : List Byte}
    (hin : s.input = f.bytes ++ stream fs) (hfuel : s.input.length < fuel + 1)
    (hn : mem n = adverse f)
    (hrecv : recv (split cuts) s messageLen
      = (some got, ⟨back ++ (f.body ++ stream fs), s.calls + 1⟩))
    (hgot : got ≠ []) (hback : back ≠ []) (hshort : got.length < messageLen)
    (hcov : (split cuts s.calls).covers got.length)
    (heq : commWaitmsg mem (split cuts) (fuel + 1) n s
      = commWaitmsg mem whole (fuel + 1) n s) :
    Covers (split cuts) s.calls (clientRequests (f :: fs)) := by
  have hrest : back ++ (f.body ++ stream fs) ≠ [] :=
    fun hnil => hback (List.append_eq_nil_iff.mp hnil).1
  obtain ⟨hexit, hshow⟩ := commWaitmsg_short (n := n) mem cuts hfuel hrecv hgot hrest
  rw [hn] at hexit hshow
  by_cases hfirst : f.hdr.size < 0 → fs = []
  · -- undivided, the frame is displayed
    exfalso
    obtain ⟨xs, hxs⟩ := commWaitmsg_first (n := n) mem hin hfuel hfirst
    rw [hxs] at heq
    by_cases hneg : (decode (overlay messageLen got (adverse f).stack)).size < 0
    · rw [hexit hneg] at heq
      exact nomatch heq
    · obtain ⟨x, ys, hys, hto⟩ := hshow (Int.not_lt.mp hneg)
      rw [hys] at heq
      obtain ⟨hhead, -⟩ := List.cons.inj (Option.some.inj heq)
      rw [hhead] at hto
      exact toId_of_short hshort hto.symm
  · -- undivided, the client exits here
    obtain ⟨hsize, hfs⟩ := Classical.not_imp.mp hfirst
    rw [clientRequests, if_pos hsize, if_neg hfs]
    by_cases hfront : 40 ≤ got.length
    · exact ⟨covers_mono hfront hcov, trivial⟩
    · exfalso
      obtain ⟨x, ys, hys, -⟩ := hshow (size_of_short (by omega) hsize)
      rw [hys, commWaitmsg_negative mem fuel n hin hsize,
        if_neg (stream_ne_nil hfs)] at heq
      exact nomatch heq

/-- A body of which the end is missing shows, and what is displayed afterwards is the same. -/
theorem body_covers_of_displayed (mem : Nat → Memory) (cuts : Nat → Nat) {fuel n : Nat}
    {s : Socket} {f : Frame} {fs : List Frame} (hin : s.input = f.bytes ++ stream fs)
    (hfuel : s.input.length < fuel + 1) (hn : mem n = adverse f) (hsize : ¬ f.hdr.size < 0)
    (hrecv : recv (split cuts) s messageLen
      = (some (encode f.hdr), ⟨f.body ++ stream fs, s.calls + 1⟩))
    (heq : commWaitmsg mem (split cuts) (fuel + 1) n s
      = commWaitmsg mem whole (fuel + 1) n s) :
    (split cuts (s.calls + 1)).covers f.hdr.payload
      ∧ commWaitmsg mem (split cuts) fuel (n + 1) ⟨stream fs, s.calls + 1 + 1⟩
        = commWaitmsg mem whole fuel (n + 1) ⟨stream fs, s.calls + 1 + 1⟩ := by
  obtain ⟨body, rest, hbody, hsplit, hle, hcov, -, -⟩ :=
    recv_split cuts ⟨f.body ++ stream fs, s.calls + 1⟩ f.hdr.payload
  have hlen : (f.body ++ stream fs).length = (body ++ rest).length := congrArg List.length hsplit
  rw [List.length_append, List.length_append] at hlen
  have hbound : f.body.length + (stream fs).length < fuel := by
    rw [hin, List.length_append, Frame.length_bytes, ← f.body_length] at hfuel
    have := messageLen_pos
    omega
  obtain ⟨xs, hxs⟩ := commWaitmsg_ends mem (split cuts) fuel (n + 1)
    ⟨rest, s.calls + 1 + 1⟩ (show rest.length < fuel by omega)
  obtain ⟨ys, hys⟩ := commWaitmsg_ends mem whole fuel (n + 1)
    ⟨stream fs, s.calls + 1 + 1⟩ (show (stream fs).length < fuel by omega)
  rw [commWaitmsg_frame mem fuel n hin hsize,
    commWaitmsg_header mem (split cuts) fuel n hrecv, if_neg hsize, hbody] at heq
  simp only [hxs, hys] at heq
  obtain ⟨hhead, htail⟩ := List.cons.inj (Option.some.inj heq)
  have hsame : overlay f.hdr.payload body (adverse f).heap = f.body := by
    rw [← hn]
    exact congrArg Parcel.body hhead
  have hfull : body.length = f.hdr.payload := body_of_short hle hsame
  have hrest : rest = stream fs := by
    have hsp : f.body ++ stream fs = body ++ rest := hsplit
    exact (List.append_inj_right hsp (f.body_length.trans hfull.symm)).symm
  subst hrest
  rw [hfull] at hcov
  exact ⟨hcov, by rw [hxs, hys, htail]⟩

/-- **NEEDED**: when uninitialised memory holds something else than the frames, a
    request that is cut short shows in what the client displays. -/
theorem covers_of_displayed (mem : Nat → Memory) (cuts : Nat → Nat) (fs : List Frame) :
    ∀ fuel n s, s.input = stream fs → s.input.length < fuel →
    (∀ k (hk : k < fs.length), mem (n + k) = adverse fs[k]) →
    commWaitmsg mem (split cuts) fuel n s = commWaitmsg mem whole fuel n s →
    Covers (split cuts) s.calls (clientRequests fs) := by
  induction fs with
  | nil => exact fun _ _ _ _ _ _ _ => trivial
  | cons f fs ih =>
      intro fuel n s hin hfuel hmem heq
      have hin' : s.input = f.bytes ++ stream fs := hin
      have hn : mem n = adverse f := hmem 0 (Nat.zero_lt_succ _)
      obtain ⟨fuel, rfl⟩ : ∃ k, fuel = k + 1 := ⟨fuel - 1, by omega⟩
      obtain ⟨got, rest, hrecv, hsplit, hle, hcov, hne, -⟩ := recv_split cuts s messageLen
      obtain ⟨back, henc, rfl⟩ := header_split (hin'.symm.trans hsplit) hle
      have htotal : got.length + back.length = messageLen := by
        rw [← List.length_append, ← henc, length_encode]
      by_cases hback : back = []
      · -- the whole header arrived
        subst hback
        rw [List.append_nil] at henc
        rw [List.length_nil, Nat.add_zero] at htotal
        rw [htotal] at hcov
        rw [List.nil_append, ← henc] at hrecv
        rw [clientRequests]
        by_cases hsize : f.hdr.size < 0
        · rw [if_pos hsize]
          refine ⟨covers_mono ?_ hcov, trivial⟩
          split <;> decide
        · rw [if_neg hsize]
          obtain ⟨hbody, hothers⟩ :=
            body_covers_of_displayed mem cuts hin' hfuel hn hsize hrecv heq
          have hlen : (stream fs).length < fuel := by
            rw [hin', List.length_append, Frame.length_bytes] at hfuel
            have := messageLen_pos
            omega
          refine ⟨hcov, hbody, ih fuel (n + 1) ⟨stream fs, s.calls + 1 + 1⟩ rfl hlen ?_ hothers⟩
          intro k hk
          rw [show n + 1 + k = n + (k + 1) by omega]
          exact hmem (k + 1) (Nat.succ_lt_succ hk)
      · -- the end of the header is missing
        have hshort : got.length < messageLen := by
          have := List.length_pos_of_ne_nil hback
          omega
        have hgot : got ≠ [] := by
          refine hne (by decide) ?_
          intro hnil
          rw [hnil] at hin'
          have hlen := congrArg List.length hin'
          rw [List.length_append, Frame.length_bytes, List.length_nil] at hlen
          have := messageLen_pos
          omega
        exact covers_of_short_header mem cuts hin' hfuel hn hrecv hgot hback hshort hcov heq

/-- **THE CLIENT, EXACTLY**: the pairs displayed are those of the undivided stream,
    whatever uninitialised memory holds, if and only if no request on which the
    client depends is cut short. -/
theorem displayed_eq_iff (fs : List Frame) (cuts : Nat → Nat) :
    (∀ mem, displayed mem (split cuts) (stream fs) = displayed mem whole (stream fs))
      ↔ Covers (split cuts) 0 (clientRequests fs) := by
  constructor
  · intro h
    let mem : Nat → Memory := fun k => match fs[k]? with
      | some f => adverse f
      | none => ⟨fun _ => 0, 0, fun _ => 0⟩
    refine covers_of_displayed mem cuts fs _ 0 ⟨stream fs, 0⟩ rfl (Nat.lt_succ_self _) ?_
      (h mem)
    intro k hk
    show (match fs[0 + k]? with
      | some f => adverse f
      | none => (⟨fun _ => 0, 0, fun _ => 0⟩ : Memory)) = adverse fs[k]
    rw [Nat.zero_add, List.getElem?_eq_getElem hk]
  · intro hcov mem
    exact commWaitmsg_of_covers mem cuts fs _ 0 ⟨stream fs, 0⟩ rfl hcov

/-! ## Both ends -/

/-- **RECEPTION**: both loops see what they see of the undivided stream, whatever
    the handlers answer and uninitialised memory holds, if and only if no request
    on which they depend is cut short. -/
theorem reception_iff (fs : List Frame) (cuts : Nat → Nat) :
    ((∀ handleMsg mem, served handleMsg mem (split cuts) (stream fs)
          = served handleMsg mem whole (stream fs))
        ↔ Covers (split cuts) 0 (serverRequests fs))
      ∧ ((∀ mem, displayed mem (split cuts) (stream fs)
          = displayed mem whole (stream fs))
        ↔ Covers (split cuts) 0 (clientRequests fs)) :=
  ⟨served_eq_iff fs cuts, displayed_eq_iff fs cuts⟩

/-- **A SPLIT HEADER**: the first 40 bytes of a frame without a body arrive before
    its last 12, and both loops see two messages instead of one. -/
theorem split_header_shows :
    (¬ ∀ fs cuts cuts', ∀ handleMsg mem,
        served handleMsg mem (split cuts) (stream fs)
          = served handleMsg mem (split cuts') (stream fs))
      ∧ ¬ ∀ fs cuts cuts', ∀ mem,
        displayed mem (split cuts) (stream fs)
          = displayed mem (split cuts') (stream fs) := by
  constructor
  · intro h
    have heq := h [blankPacket.toFrame] (fun _ => 52) (fun _ => 40) alwaysHandled
      (fun _ => ⟨fun _ => 0, 0, fun _ => 0⟩)
    exact absurd (congrArg (Option.map List.length) heq) (by decide)
  · intro h
    have heq := h [blankPacket.toFrame] (fun _ => 52) (fun _ => 40)
      (fun _ => ⟨fun _ => 0, 0, fun _ => 0⟩)
    exact absurd (congrArg (Option.map List.length) heq) (by decide)

end ChatSegment
