import AipPkussm.FtpTransferProofs

/-! # Two readers on one connection

    The chatroom client reads its socket in two threads: `comm_waitmsg` has been
    in `recv` since the start, and `comm_get` joins it in the console thread.
    Which of the two is served is not the client's choice, and neither looks at
    the command of a header.

    `separate_iff`: each gets its own frames and nothing else exactly when every
    `recv` of some bytes is served to the reader for whom the byte in front is
    meant.  Schedules of this kind come to the end of every stream
    (`served_goes_on`), and the first `recv` can spoil all
    (`waitmsg_takes_response`). -/

namespace ChatReaders

open LittleEndian ChatMessage FtpTransfer Interleave Transition
open ChatReceive (socketioBufferSize)
open ChatGet (toNat_tmod_natCast)

/-- The `recv` of `comm_waitmsg` that comes next: for a header, or for what follows the
    header `recv_msg`. -/
inductive Waiter where
  | header
  | body (recvMsg : Message)
  deriving DecidableEq

/-- Where `comm_get` is: it is not called yet, it waits for its header, or it has these
    calls for the data still to make. -/
inductive Getter where
  | idle
  | header
  | data (calls : List Call)
  deriving DecidableEq

/-- The bytes the server sent that nobody has taken, the two threads, and as history what
    each of them has received. -/
structure Readers where
  input : Channel
  waiter : Waiter
  getter : Getter
  waited : Channel
  gotten : Channel

/-- What happens: the console calls `comm_get`, or one of the threads is served. -/
inductive ReadersAct where
  | call
  | get
  | wait
  deriving DecidableEq

/-- How many bytes `comm_waitmsg` asks for. -/
def Waiter.request : Waiter → Nat
  | .header => messageLen
  | .body recvMsg => recvMsg.dataSize.toNat

/-- Where `comm_waitmsg` goes with the bytes it asked for. -/
def Waiter.next (got : List Byte) : Waiter → Waiter
  | .header => .body (decode got)
  | .body _ => .header

/-- How many bytes `comm_get` asks for, when it is in a `recv` at all. -/
def Getter.request : Getter → Option Nat
  | .idle => none
  | .header => some messageLen
  | .data [] => none
  | .data (c :: _) => some c.len

/-- Where `comm_get` goes with the bytes it asked for: `rem_num` chunks and `rem_bytes`
    bytes.  Where they are put is left out, it does not matter to the other reader. -/
def Getter.next (got : List Byte) : Getter → Getter
  | .idle => .idle
  | .header =>
      let respMsg := decode got
      .data (recvCalls respMsg.size (respMsg.size.tmod socketioBufferSize))
  | .data [] => .data []
  | .data (_ :: cs) => .data cs

/-- A `recv` that returns all it asks for.  There is no block for what a negative
    `data_size` asks for. -/
def fullRecv (input : Channel) (req : Nat) : Option (Channel × Channel) :=
  if req < 2 ^ 31 then recvFrom input req else none

/-- One step. -/
def readersStep (s : Readers) : ReadersAct → Option Readers
  | .call =>
      match s.getter with
      | .idle => some { s with getter := .header }
      | _ => none
  | .get =>
      s.getter.request.bind (fun req => (fullRecv s.input req).map (fun r =>
        { s with
          input := r.2
          getter := s.getter.next (r.1.map Prod.snd)
          gotten := s.gotten ++ r.1 }))
  | .wait =>
      (fullRecv s.input s.waiter.request).map (fun r =>
        { s with
          input := r.2
          waiter := s.waiter.next (r.1.map Prod.snd)
          waited := s.waited ++ r.1 })

/-- The frames of a stream with their numbers, from `k` on. -/
def numbered (k : Nat) (ps : List Packet) : List (Nat × Packet) :=
  (ps.zipIdx k).map Prod.swap

/-- The bytes of numbered frames. -/
def sentBytes (ws : List (Nat × Packet)) : Channel := words (fun p => p.toParcel.bytes) ws

/-- What the server sends: chat frames, and the response somewhere among them. -/
structure Sent where
  before : List Packet
  response : Packet
  after : List Packet

/-- The number of the response. -/
def Sent.number (sent : Sent) : Nat := sent.before.length

/-- All the bytes on the connection. -/
def Sent.input (sent : Sent) : Channel :=
  sentBytes (numbered 0 (sent.before ++ sent.response :: sent.after))

/-- The bytes of the response. -/
def Sent.responseBytes (sent : Sent) : Channel :=
  tag sent.number sent.response.toParcel.bytes

/-- The bytes of the chat frames. -/
def Sent.chatBytes (sent : Sent) : Channel :=
  sentBytes (numbered 0 sent.before) ++ sentBytes (numbered (sent.number + 1) sent.after)

/-- `comm_waitmsg` is started, `comm_get` is not called yet. -/
def readersInit (sent : Sent) : Readers where
  input := sent.input
  waiter := .header
  getter := .idle
  waited := []
  gotten := []

/-- The client of such a server. -/
def readers (sent : Sent) : Machine Readers ReadersAct where
  init := readersInit sent
  step := readersStep

/-- **SEPARATE**: `comm_get` has received nothing but the response, `comm_waitmsg` nothing
    but the chat frames, in order, and nothing is missing in the end. -/
structure Separate (sent : Sent) (s : Readers) : Prop where
  gotten : s.gotten <+: sent.responseBytes
  waited : s.waited <+: sent.chatBytes
  all : s.input = [] → s.gotten = sent.responseBytes ∧ s.waited = sent.chatBytes

/-- The number of the frame that the byte in front belongs to. -/
def Readers.front (s : Readers) : Option Nat := s.input.head?.map Prod.fst

/-- A `recv` of some bytes is served to the reader for whom the byte in front is meant. -/
def served (r : Nat) (s : Readers) : ReadersAct → Prop
  | .call => True
  | .get => s.getter.request = some 0 ∨ s.front = some r
  | .wait => s.waiter.request = 0 ∨ s.front ≠ some r

/-! ## The stream -/

theorem numbered_cons (k : Nat) (p : Packet) (ps : List Packet) :
    numbered k (p :: ps) = (k, p) :: numbered (k + 1) ps := rfl

theorem numbered_append (k : Nat) (ps qs : List Packet) :
    numbered k (ps ++ qs) = numbered k ps ++ numbered (k + ps.length) qs := by
  rw [numbered, List.zipIdx_append, List.map_append]
  rfl

theorem sentBytes_append (ws vs : List (Nat × Packet)) :
    sentBytes (ws ++ vs) = sentBytes ws ++ sentBytes vs := List.flatMap_append

theorem sentBytes_cons (n : Nat) (p : Packet) (ws : List (Nat × Packet)) :
    sentBytes ((n, p) :: ws) = tag n p.toParcel.bytes ++ sentBytes ws := rfl

/-- The frames from `k` on have the numbers from `k` on. -/
theorem number_of_mem {k : Nat} {ps : List Packet} {x : Nat × Byte}
    (h : x ∈ sentBytes (numbered k ps)) : k ≤ x.1 ∧ x.1 < k + ps.length := by
  induction ps generalizing k with
  | nil => exact absurd h List.not_mem_nil
  | cons p ps ih =>
      rw [numbered_cons, sentBytes_cons] at h
      rw [List.length_cons]
      rcases List.mem_append.mp h with hfirst | hrest
      · rw [fst_of_mem_tag hfirst]
        omega
      · have := ih hrest
        omega

theorem input_eq (sent : Sent) :
    sent.input = sentBytes (numbered 0 sent.before)
      ++ (sent.responseBytes ++ sentBytes (numbered (sent.number + 1) sent.after)) := by
  rw [Sent.input, numbered_append, sentBytes_append, Nat.zero_add, numbered_cons,
    sentBytes_cons]
  rfl

/-- No byte of a chat frame has the number of the response. -/
theorem ne_of_mem_chatBytes {sent : Sent} {x : Nat × Byte} (h : x ∈ sent.chatBytes) :
    x.1 ≠ sent.number := by
  rcases List.mem_append.mp h with hbefore | hafter
  · have := number_of_mem hbefore
    simp only [Sent.number]
    omega
  · have := number_of_mem hafter
    omega

/-- The bytes that are meant for `comm_get`. -/
def forGetter (r : Nat) (l : Channel) : Channel := l.filter (fun x => x.1 = r)

/-- The bytes that are meant for `comm_waitmsg`. -/
def forWaiter (r : Nat) (l : Channel) : Channel := l.filter (fun x => x.1 ≠ r)

@[simp] theorem forGetter_append (r : Nat) (l l' : Channel) :
    forGetter r (l ++ l') = forGetter r l ++ forGetter r l' := List.filter_append ..

@[simp] theorem forWaiter_append (r : Nat) (l l' : Channel) :
    forWaiter r (l ++ l') = forWaiter r l ++ forWaiter r l' := List.filter_append ..

theorem forGetter_own {r : Nat} {l : Channel} (h : ∀ x ∈ l, x.1 = r) :
    forGetter r l = l ∧ forWaiter r l = [] := by
  constructor
  · exact List.filter_eq_self.mpr (fun x hx => decide_eq_true (h x hx))
  · exact List.filter_eq_nil_iff.mpr (fun x hx => by simp [h x hx])

theorem forWaiter_own {r : Nat} {l : Channel} (h : ∀ x ∈ l, x.1 ≠ r) :
    forWaiter r l = l ∧ forGetter r l = [] := by
  constructor
  · exact List.filter_eq_self.mpr (fun x hx => decide_eq_true (h x hx))
  · exact List.filter_eq_nil_iff.mpr (fun x hx => by simp [h x hx])

/-- What each of them is to get from the whole stream. -/
theorem forGetter_input (sent : Sent) :
    forGetter sent.number sent.input = sent.responseBytes
      ∧ forWaiter sent.number sent.input = sent.chatBytes := by
  have hbefore := forWaiter_own (r := sent.number) (l := sentBytes (numbered 0 sent.before))
    (fun x hx => ne_of_mem_chatBytes (List.mem_append_left _ hx))
  have hafter := forWaiter_own (r := sent.number)
    (l := sentBytes (numbered (sent.number + 1) sent.after))
    (fun x hx => ne_of_mem_chatBytes (List.mem_append_right _ hx))
  have hresponse := forGetter_own (r := sent.number) (l := sent.responseBytes)
    (fun x hx => fst_of_mem_tag hx)
  rw [input_eq]
  constructor
  · simp only [forGetter_append, hbefore.2, hafter.2, hresponse.1, List.nil_append,
      List.append_nil]
  · simp only [forWaiter_append, hbefore.1, hafter.1, hresponse.2, List.nil_append]
    rfl

/-! ## What a step can do -/

/-- The rules of the step function. -/
inductive ReadersStep (s : Readers) : ReadersAct → Readers → Prop where
  | call (hidle : s.getter = .idle) : ReadersStep s .call { s with getter := .header }
  | get {got rest : Channel} {req : Nat} (hreq : s.getter.request = some req)
      (hin : s.input = got ++ rest) (hlen : got.length = req) :
      ReadersStep s .get
        { s with
          input := rest
          getter := s.getter.next (got.map Prod.snd)
          gotten := s.gotten ++ got }
  | wait {got rest : Channel} (hin : s.input = got ++ rest)
      (hlen : got.length = s.waiter.request) :
      ReadersStep s .wait
        { s with
          input := rest
          waiter := s.waiter.next (got.map Prod.snd)
          waited := s.waited ++ got }

theorem fullRecv_eq_some {input : Channel} {req : Nat} {r : Channel × Channel}
    (h : fullRecv input req = some r) : input = r.1 ++ r.2 ∧ r.1.length = req := by
  rw [fullRecv] at h
  split at h
  · rw [recvFrom] at h
    split at h
    · rename_i hle
      obtain rfl := Option.some.inj h
      exact ⟨(List.take_append_drop ..).symm, by rw [List.length_take, Nat.min_eq_left hle]⟩
    · cases h
  · cases h

/-- A `recv` of bytes that are there. -/
theorem fullRecv_of_le {input : Channel} {req : Nat} (hint : req < 2 ^ 31)
    (hle : req ≤ input.length) :
    fullRecv input req = some (input.take req, input.drop req) := by
  rw [fullRecv, if_pos hint, recvFrom, if_pos hle]

/-- **STEP INVERSION**: a step is an instance of a rule. -/
theorem rule_of_readersStep {s s' : Readers} {a : ReadersAct}
    (h : readersStep s a = some s') : ReadersStep s a s' := by
  cases a with
  | call =>
      rw [readersStep] at h
      split at h
      · rename_i hidle
        obtain rfl := Option.some.inj h
        exact ReadersStep.call hidle
      · exact nomatch h
  | get =>
      obtain ⟨req, hreq, hmap⟩ := Option.bind_eq_some_iff.mp h
      obtain ⟨r, hr, rfl⟩ := Option.map_eq_some_iff.mp hmap
      obtain ⟨hin, hlen⟩ := fullRecv_eq_some hr
      exact ReadersStep.get hreq hin hlen
  | wait =>
      obtain ⟨r, hr, rfl⟩ := Option.map_eq_some_iff.mp h
      obtain ⟨hin, hlen⟩ := fullRecv_eq_some hr
      exact ReadersStep.wait hin hlen

/-! ## What is on its way -/

/-- How many bytes of a frame `comm_waitmsg` has still to take. -/
def Waiter.owed : Waiter → Nat
  | .header => 0
  | .body recvMsg => recvMsg.dataSize.toNat

/-- How many bytes of the response `comm_get` has still to take. -/
def Getter.owed : Getter → Nat
  | .idle => 0
  | .header => 0
  | .data calls => need calls

/-- What holds as long as every `recv` is served to the right reader: in front the rest of
    a frame for one of them, then whole frames; what a reader has, and what is still to
    come for it, are its frames. -/
structure Apart (sent : Sent) (s : Readers) (waitOwed getOwed : Channel)
    (ws : List (Nat × Packet)) : Prop where
  input : s.input = waitOwed ++ (getOwed ++ sentBytes ws)
  one : waitOwed = [] ∨ getOwed = []
  chat : ∀ x ∈ waitOwed, x.1 ≠ sent.number
  response : ∀ x ∈ getOwed, x.1 = sent.number
  waiter : waitOwed.length = s.waiter.owed
  getter : getOwed.length = s.getter.owed
  gotten : s.gotten ++ forGetter sent.number s.input = sent.responseBytes
  waited : s.waited ++ forWaiter sent.number s.input = sent.chatBytes
  distinct : (ws.map Prod.fst).Nodup
  fresh : ∀ calls, s.getter = .data calls → ∀ w ∈ ws, w.1 ≠ sent.number
  short : waitOwed.length < 2 ^ 31 ∧ getOwed.length < 2 ^ 31

/-- The other reader has taken something. -/
def Stolen (sent : Sent) (s : Readers) : Prop :=
  (∃ x ∈ s.gotten, x.1 ≠ sent.number) ∨ ∃ x ∈ s.waited, x.1 = sent.number

section Steps

variable {sent : Sent} {s : Readers} {waitOwed getOwed : Channel} {ws : List (Nat × Packet)}

theorem Apart.separate (h : Apart sent s waitOwed getOwed ws) : Separate sent s where
  gotten := ⟨_, h.gotten⟩
  waited := ⟨_, h.waited⟩
  all := by
    intro hnil
    have hgotten := h.gotten
    have hwaited := h.waited
    rw [hnil] at hgotten hwaited
    exact ⟨(List.append_nil _).symm.trans hgotten, (List.append_nil _).symm.trans hwaited⟩

theorem not_separate_of_stolen (h : Stolen sent s) : ¬ Separate sent s := by
  rintro hsep
  rcases h with ⟨x, hx, hne⟩ | ⟨x, hx, heq⟩
  · exact hne (fst_of_mem_tag (hsep.gotten.subset hx))
  · exact ne_of_mem_chatBytes (hsep.waited.subset hx) heq

/-- The first byte of what is in front. -/
theorem front_of_input {got rest : Channel} (hin : s.input = got ++ rest) {x : Nat × Byte}
    {more : Channel} (hgot : got = x :: more) : s.front = some x.1 := by
  rw [Readers.front, hin, hgot]
  rfl

/-- The first byte where a header is in front. -/
theorem front_of_header {n : Nat} {hdr : Message} {rest : Channel}
    (hin : s.input = tag n (encode hdr) ++ rest) : s.front = some n := by
  rw [Readers.front, hin]
  rfl

/-- A `recv` of a header when nothing is owed: it takes the header of a frame. -/
theorem header_in_front {got rest : Channel} (hin : sentBytes ws = got ++ rest)
    (hlen : got.length = messageLen) : ∃ n p vs, ws = (n, p) :: vs
      ∧ got = tag n (encode p.hdr) ∧ rest = tag n p.body ++ sentBytes vs := by
  cases ws with
  | nil =>
      have hnil := List.append_eq_nil_iff.mp hin.symm
      rw [hnil.1] at hlen
      exact absurd hlen (by decide)
  | cons w vs =>
      obtain ⟨n, p⟩ := w
      have hsplit : tag n (encode p.hdr) ++ (tag n p.body ++ sentBytes vs) = got ++ rest := by
        rw [← hin, sentBytes_cons, Parcel.bytes, tag_append, List.append_assoc]
      obtain ⟨hgot, hrest⟩ := List.append_inj hsplit (by
        rw [hlen, tag, List.length_map, length_encode])
      exact ⟨n, p, vs, rfl, hgot.symm, hrest.symm⟩

/-- The byte in front is for the reader that is in the middle of a frame. -/
theorem Apart.front_chat (h : Apart sent s waitOwed getOwed ws) (hwait : waitOwed ≠ []) :
    s.front ≠ some sent.number := by
  obtain ⟨x, more, hcons⟩ := List.exists_cons_of_ne_nil hwait
  rw [front_of_input h.input hcons]
  intro hfront
  exact h.chat x (by rw [hcons]; exact List.mem_cons_self ..) (Option.some.inj hfront)

theorem Apart.front_response (h : Apart sent s waitOwed getOwed ws) (hget : getOwed ≠ []) :
    s.front = some sent.number := by
  obtain ⟨x, more, hcons⟩ := List.exists_cons_of_ne_nil hget
  have hin : s.input = getOwed ++ sentBytes ws := by
    rw [h.input, h.one.resolve_right hget]
    rfl
  rw [front_of_input hin hcons, h.response x (by rw [hcons]; exact List.mem_cons_self ..)]

/-- What `comm_waitmsg` takes of its own goes from what is to come to what it has. -/
theorem Apart.waits (h : Apart sent s waitOwed getOwed ws) {got rest : Channel}
    (hin : s.input = got ++ rest) (hown : ∀ x ∈ got, x.1 ≠ sent.number) :
    s.gotten ++ forGetter sent.number rest = sent.responseBytes
      ∧ s.waited ++ got ++ forWaiter sent.number rest = sent.chatBytes := by
  have hgotten := h.gotten
  have hwaited := h.waited
  rw [hin, forGetter_append, (forWaiter_own hown).2, List.nil_append] at hgotten
  rw [hin, forWaiter_append, (forWaiter_own hown).1, ← List.append_assoc] at hwaited
  exact ⟨hgotten, hwaited⟩

/-- What `comm_get` takes of its own goes from what is to come to what it has. -/
theorem Apart.gets (h : Apart sent s waitOwed getOwed ws) {got rest : Channel}
    (hin : s.input = got ++ rest) (hown : ∀ x ∈ got, x.1 = sent.number) :
    s.gotten ++ got ++ forGetter sent.number rest = sent.responseBytes
      ∧ s.waited ++ forWaiter sent.number rest = sent.chatBytes := by
  have hgotten := h.gotten
  have hwaited := h.waited
  rw [hin, forGetter_append, (forGetter_own hown).1, ← List.append_assoc] at hgotten
  rw [hin, forWaiter_append, (forGetter_own hown).2, List.nil_append] at hwaited
  exact ⟨hgotten, hwaited⟩

/-- The number of body bytes that the header of a packet announces. -/
theorem length_body (p : Packet) : p.body.length = p.hdr.dataSize.toNat := by
  have hnonneg := p.nonneg
  rw [p.body_length, Message.payload]
  rw [Message.size] at hnonneg ⊢
  rw [BitVec.toInt_eq_toNat_cond] at hnonneg ⊢
  split at hnonneg <;> split <;> omega

theorem length_body_lt (p : Packet) : p.body.length < 2 ^ 31 := by
  have hlt := BitVec.toInt_lt (x := p.hdr.dataSize)
  have hnonneg := p.nonneg
  rw [p.body_length, Message.payload, Message.size]
  rw [Message.size] at hnonneg
  omega

/-- When nothing of a frame is left, a reader that takes a header takes that of the next
    one, whose number no later one has. -/
theorem Apart.next_frame (h : Apart sent s [] [] ws) {got rest : Channel}
    (hin : s.input = got ++ rest) (hlen : got.length = messageLen) :
    ∃ n p vs, ws = (n, p) :: vs ∧ got = tag n (encode p.hdr)
      ∧ rest = tag n p.body ++ sentBytes vs ∧ n ∉ vs.map Prod.fst ∧ (vs.map Prod.fst).Nodup := by
  have hws : sentBytes ws = got ++ rest := by
    rw [← hin, h.input]
    rfl
  obtain ⟨n, p, vs, rfl, hgot, hrest⟩ := header_in_front hws hlen
  have hdistinct := h.distinct
  rw [List.map_cons, List.nodup_cons] at hdistinct
  exact ⟨n, p, vs, rfl, hgot, hrest, hdistinct⟩

/-- **STEP**: `comm_waitmsg` takes a header. -/
theorem Apart.waitHeader (h : Apart sent s waitOwed getOwed ws) {got rest : Channel}
    (hwaiter : s.waiter = .header) (hfront : s.front ≠ some sent.number)
    (hin : s.input = got ++ rest) (hlen : got.length = messageLen) :
    ∃ waitOwed' vs, Apart sent { s with
      input := rest
      waiter := s.waiter.next (got.map Prod.snd)
      waited := s.waited ++ got } waitOwed' [] vs := by
  -- neither reader is in the middle of a frame, so a whole one is in front
  have hwaitNil : waitOwed = [] := by
    have hnone := h.waiter
    rw [hwaiter] at hnone
    exact List.eq_nil_of_length_eq_zero hnone
  have hgetNil : getOwed = [] := by
    by_contra hget
    exact hfront (h.front_response hget)
  subst hwaitNil hgetNil
  obtain ⟨n, p, vs, hcons, rfl, rfl, -, hnodup⟩ := h.next_frame hin hlen
  have hne : n ≠ sent.number := by
    rintro rfl
    exact hfront (front_of_header hin)
  have hown : ∀ l : List Byte, ∀ x ∈ tag n l, x.1 ≠ sent.number := by
    intro l x hx
    rw [fst_of_mem_tag hx]
    exact hne
  obtain ⟨hgotten, hwaited⟩ := h.waits hin (hown _)
  refine ⟨tag n p.body, vs, rfl, Or.inr rfl, hown _, List.forall_mem_nil _,
    ?_, h.getter, hgotten, hwaited, hnodup, ?_, ?_⟩
  · show (tag n p.body).length = (s.waiter.next _).owed
    rw [hwaiter, map_snd_tag, tag, List.length_map, length_body]
    show _ = (decode (encode p.hdr)).dataSize.toNat
    rw [decode_encode]
  · intro calls hcalls w hw
    refine h.fresh calls hcalls w ?_
    rw [hcons]
    exact List.mem_cons_of_mem _ hw
  · rw [tag, List.length_map]
    exact ⟨length_body_lt p, by decide⟩

/-- **STEP**: `comm_waitmsg` takes the rest of a frame. -/
theorem Apart.waitBody (h : Apart sent s waitOwed getOwed ws) {got rest : Channel}
    {recvMsg : Message} (hwaiter : s.waiter = .body recvMsg)
    (hin : s.input = got ++ rest) (hlen : got.length = recvMsg.dataSize.toNat) :
    Apart sent { s with
      input := rest
      waiter := s.waiter.next (got.map Prod.snd)
      waited := s.waited ++ got } [] getOwed ws := by
  have howed := h.waiter
  rw [hwaiter] at howed
  obtain ⟨hgot, hrest⟩ := List.append_inj (hin.symm.trans h.input) (hlen.trans howed.symm)
  have hown : ∀ x ∈ got, x.1 ≠ sent.number := by
    rw [hgot]
    exact h.chat
  obtain ⟨hgotten, hwaited⟩ := h.waits hin hown
  refine ⟨hrest, Or.inl rfl, List.forall_mem_nil _, h.response, ?_,
    h.getter, hgotten, hwaited, h.distinct, h.fresh, by decide, h.short.2⟩
  show 0 = (s.waiter.next _).owed
  rw [hwaiter]
  rfl

/-- **STEP**: `comm_get` takes the header of the response. -/
theorem Apart.getHeader (h : Apart sent s waitOwed getOwed ws) {got rest : Channel}
    (hgetter : s.getter = .header) (hfront : s.front = some sent.number)
    (hin : s.input = got ++ rest) (hlen : got.length = messageLen) :
    ∃ getOwed' vs, Apart sent { s with
      input := rest
      getter := s.getter.next (got.map Prod.snd)
      gotten := s.gotten ++ got } [] getOwed' vs := by
  -- a chat frame cannot be half read, its bytes would be in front
  have hgetNil : getOwed = [] := by
    have hnone := h.getter
    rw [hgetter] at hnone
    exact List.eq_nil_of_length_eq_zero hnone
  have hwaitNil : waitOwed = [] := by
    by_contra hwait
    exact h.front_chat hwait hfront
  subst hwaitNil hgetNil
  obtain ⟨n, p, vs, -, rfl, rfl, hlast, hnodup⟩ := h.next_frame hin hlen
  obtain rfl : n = sent.number := by
    rw [front_of_header hin] at hfront
    exact Option.some.inj hfront
  obtain ⟨hgotten, hwaited⟩ := h.gets hin (fun x hx => fst_of_mem_tag hx)
  refine ⟨tag sent.number p.body, vs, rfl, Or.inl rfl, List.forall_mem_nil _,
    fun x hx => fst_of_mem_tag hx, h.waiter, ?_, hgotten, hwaited, hnodup, ?_, ?_⟩
  · show (tag sent.number p.body).length = (s.getter.next _).owed
    have hsize : p.hdr.size = (p.hdr.dataSize.toNat : Nat) := by
      rw [← length_body, p.body_length, Message.payload, Int.toNat_of_nonneg p.nonneg]
    rw [hgetter, map_snd_tag, Getter.next, decode_encode, tag, List.length_map, length_body,
      hsize]
    exact (need_recvCalls (toNat_tmod_natCast _)).symm
  · -- there is only one response
    intro calls _ w hw heq
    exact hlast (List.mem_map.mpr ⟨w, hw, heq⟩)
  · rw [tag, List.length_map]
    exact ⟨by decide, length_body_lt p⟩

/-- What a call of `comm_get` for data takes is in front of what it is owed: a call for
    nothing may come at any time, any other only when nothing of a chat frame is left. -/
theorem Apart.data_in_front (h : Apart sent s waitOwed getOwed ws) {got rest : Channel}
    (hin : s.input = got ++ rest) (hle : got.length ≤ getOwed.length) :
    ∃ more, getOwed = got ++ more ∧ rest = waitOwed ++ (more ++ sentBytes ws) := by
  rcases h.one with hwait | hget
  · have hsplit : got ++ rest = getOwed ++ sentBytes ws := by
      rw [← hin, h.input, hwait]
      rfl
    rcases List.append_eq_append_iff.mp hsplit with ⟨more, hget, hrest⟩ | ⟨more, hgot, hbytes⟩
    · exact ⟨more, hget, by rw [hwait]; exact hrest⟩
    · -- it cannot take more than it is owed
      have hzero : more = [] := by
        have hsum := congrArg List.length hgot
        rw [List.length_append] at hsum
        exact List.eq_nil_of_length_eq_zero (by omega)
      rw [hzero, List.append_nil] at hgot
      rw [hzero, List.nil_append] at hbytes
      refine ⟨[], by rw [hgot, List.append_nil], ?_⟩
      rw [hwait, ← hbytes]
      rfl
  · have hgot : got = [] := by
      rw [hget, List.length_nil] at hle
      exact List.eq_nil_of_length_eq_zero (Nat.le_zero.mp hle)
    refine ⟨[], by rw [hget, hgot]; rfl, ?_⟩
    rw [hgot, h.input, hget] at hin
    exact hin.symm

/-- **STEP**: `comm_get` takes a chunk or the remainder. -/
theorem Apart.getData (h : Apart sent s waitOwed getOwed ws) {got rest : Channel} {c : Call}
    {cs : List Call} (hgetter : s.getter = .data (c :: cs))
    (hin : s.input = got ++ rest) (hlen : got.length = c.len) :
    ∃ getOwed', Apart sent { s with
      input := rest
      getter := s.getter.next (got.map Prod.snd)
      gotten := s.gotten ++ got } waitOwed getOwed' ws := by
  have howed := h.getter
  rw [hgetter, Getter.owed, need_cons] at howed
  obtain ⟨more, hmore, hrest⟩ := h.data_in_front hin (by omega)
  have hown : ∀ x ∈ got, x.1 = sent.number := by
    intro x hx
    exact h.response x (by rw [hmore]; exact List.mem_append_left _ hx)
  obtain ⟨hgotten, hwaited⟩ := h.gets hin hown
  refine ⟨more, hrest, ?_, h.chat, ?_, h.waiter, ?_, hgotten, hwaited, h.distinct,
    fun _ _ => h.fresh _ hgetter, h.short.1, ?_⟩
  · rcases h.one with hwait | hget
    · exact Or.inl hwait
    · rw [hget] at hmore
      exact Or.inr (List.append_eq_nil_iff.mp hmore.symm).2
  · intro x hx
    exact h.response x (by rw [hmore]; exact List.mem_append_right _ hx)
  · show more.length = (s.getter.next _).owed
    rw [hmore, List.length_append] at howed
    rw [hgetter]
    show more.length = need cs
    omega
  · have hshort := h.short.2
    rw [hmore, List.length_append] at hshort
    omega

/-- **STEP**: readers that are served rightly stay apart. -/
theorem apart_step {s' : Readers} {a : ReadersAct} (h : Apart sent s waitOwed getOwed ws)
    (ha : served sent.number s a) (hstep : ReadersStep s a s') :
    ∃ waitOwed' getOwed' vs, Apart sent s' waitOwed' getOwed' vs := by
  cases hstep with
  | call hidle =>
      refine ⟨waitOwed, getOwed, ws, h.input, h.one, h.chat, h.response, h.waiter, ?_, h.gotten,
        h.waited, h.distinct, (fun _ hcalls => nomatch hcalls), h.short⟩
      have hnone := h.getter
      rwa [hidle] at hnone
  | @get got rest req hreq hin hlen =>
      cases hgetter : s.getter with
      | idle =>
          rw [hgetter] at hreq
          exact nomatch hreq
      | header =>
          rw [hgetter] at hreq
          obtain rfl := Option.some.inj hreq
          -- a reader that is between two frames is served where one of its own is in front
          have hfront : s.front = some sent.number := by
            rcases ha with hzero | hfront
            · rw [hgetter] at hzero
              exact absurd (Option.some.inj hzero) (by decide)
            · exact hfront
          obtain ⟨getOwed', vs, h'⟩ := h.getHeader hgetter hfront hin hlen
          rw [hgetter] at h'
          exact ⟨[], getOwed', vs, h'⟩
      | data calls =>
          rw [hgetter] at hreq
          cases calls with
          | nil => exact nomatch hreq
          | cons c cs =>
              obtain rfl := Option.some.inj hreq
              obtain ⟨getOwed', h'⟩ := h.getData hgetter hin hlen
              rw [hgetter] at h'
              exact ⟨waitOwed, getOwed', ws, h'⟩
  | wait hin hlen =>
      cases hwaiter : s.waiter with
      | header =>
          rw [hwaiter] at hlen
          have hfront : s.front ≠ some sent.number := by
            rcases ha with hzero | hfront
            · rw [hwaiter] at hzero
              exact absurd hzero (by decide)
            · exact hfront
          obtain ⟨waitOwed', vs, h'⟩ := h.waitHeader hwaiter hfront hin hlen
          rw [hwaiter] at h'
          exact ⟨waitOwed', [], vs, h'⟩
      | body recvMsg =>
          rw [hwaiter] at hlen
          have h' := h.waitBody hwaiter hin hlen
          rw [hwaiter] at h'
          exact ⟨[], getOwed, ws, h'⟩

/-- **STEP**: one that is not takes what is meant for the other. -/
theorem stolen_of_step {s' : Readers} {a : ReadersAct} (ha : ¬ served sent.number s a)
    (hstep : ReadersStep s a s') : Stolen sent s' := by
  cases hstep with
  | call => exact absurd trivial ha
  | @get got rest req hreq hin hlen =>
      cases hgot : got with
      | nil =>
          rw [hgot, List.length_nil] at hlen
          exact absurd (Or.inl (by rw [hreq, ← hlen])) ha
      | cons x more =>
          have hx : x ∈ s.gotten ++ x :: more :=
            List.mem_append_right _ (List.mem_cons_self ..)
          refine Or.inl ⟨x, hx, ?_⟩
          intro heq
          exact ha (Or.inr (by rw [front_of_input hin hgot, heq]))
  | @wait got rest hin hlen =>
      cases hgot : got with
      | nil =>
          rw [hgot, List.length_nil] at hlen
          exact absurd (Or.inl hlen.symm) ha
      | cons x more =>
          have hx : x ∈ s.waited ++ x :: more :=
            List.mem_append_right _ (List.mem_cons_self ..)
          refine Or.inr ⟨x, hx, ?_⟩
          by_contra hne
          refine ha (Or.inr ?_)
          rw [front_of_input hin hgot]
          exact fun heq => hne (Option.some.inj heq)

/-- **STEP**: what is taken is gone. -/
theorem stolen_step {s' : Readers} {a : ReadersAct} (h : Stolen sent s)
    (hstep : ReadersStep s a s') : Stolen sent s' := by
  cases hstep with
  | call => exact h
  | get =>
      rcases h with ⟨x, hx, hne⟩ | hwaited
      · exact Or.inl ⟨x, List.mem_append_left _ hx, hne⟩
      · exact Or.inr hwaited
  | wait =>
      rcases h with hgotten | ⟨x, hx, heq⟩
      · exact Or.inl hgotten
      · exact Or.inr ⟨x, List.mem_append_left _ hx, heq⟩

end Steps

theorem apart_init (sent : Sent) : Apart sent (readersInit sent) [] []
    (numbered 0 (sent.before ++ sent.response :: sent.after)) where
  input := rfl
  one := Or.inl rfl
  chat := List.forall_mem_nil _
  response := List.forall_mem_nil _
  waiter := rfl
  getter := rfl
  gotten := (forGetter_input sent).1
  waited := (forGetter_input sent).2
  distinct := by
    rw [numbered, List.map_map]
    show (List.map Prod.snd (List.zipIdx _ 0)).Nodup
    rw [List.zipIdx_map_snd]
    exact List.nodup_range' ..
  fresh := fun _ hcalls => nomatch hcalls
  short := by decide

/-- **SEPARATE, EXACTLY**: `comm_get` receives the response and `comm_waitmsg` the chat
    frames if and only if every `recv` of some bytes is served to the reader for whom
    the byte in front is meant. -/
theorem separate_iff (sent : Sent) (as : List ReadersAct) {t : Readers}
    (hplay : play (readers sent) (readersInit sent) as = some t) :
    Separate sent t ↔ Follows (readers sent) (served sent.number) (readersInit sent) as := by
  have hends := play_follows (M := readers sent) (B := Stolen sent) (g := fun _ => True)
    (I := fun s => ∃ waitOwed getOwed ws, Apart sent s waitOwed getOwed ws)
    (p := served sent.number)
    (fun _ _ _ ⟨_, _, _, hs⟩ _ ha hstep => apart_step hs ha (rule_of_readersStep hstep))
    (fun _ _ _ _ _ ha hstep => stolen_of_step ha (rule_of_readersStep hstep))
    (fun _ _ _ hs hstep => stolen_step hs (rule_of_readersStep hstep))
    as (readersInit sent) t ⟨_, _, _, apart_init sent⟩ (fun _ _ => trivial) hplay
  rcases hends with ⟨hfollows, _, _, _, ht⟩ | ⟨hnot, ht⟩
  · exact iff_of_true ht.separate hfollows
  · exact iff_of_false (not_separate_of_stolen ht) hnot

/-- A `recv` of `comm_waitmsg` is served where the bytes it asks for are there. -/
theorem wait_enabled {s : Readers} (hint : s.waiter.request < 2 ^ 31)
    (hle : s.waiter.request ≤ s.input.length) : ∃ s', readersStep s .wait = some s' := by
  rw [readersStep, fullRecv_of_le hint hle]
  exact ⟨_, rfl⟩

/-- A `recv` of `comm_get` is served where the bytes it asks for are there. -/
theorem get_enabled {s : Readers} {req : Nat} (hreq : s.getter.request = some req)
    (hint : req < 2 ^ 31) (hle : req ≤ s.input.length) :
    ∃ s', readersStep s .get = some s' := by
  rw [readersStep, hreq, Option.bind_some, fullRecv_of_le hint hle]
  exact ⟨_, rfl⟩

/-- A header is asked for where a frame begins. -/
theorem messageLen_le {s : Readers} {n : Nat} {p : Packet} {rest : Channel}
    (hin : s.input = tag n p.toParcel.bytes ++ rest) : messageLen ≤ s.input.length := by
  rw [hin, List.length_append, tag, List.length_map, Frame.length_bytes]
  omega

section Progress

variable {sent : Sent} {s : Readers} {waitOwed getOwed : Channel} {ws : List (Nat × Packet)}

/-- A reader in the middle of a frame can go on. -/
theorem Apart.chat_goes_on (h : Apart sent s waitOwed getOwed ws) (hwait : waitOwed ≠ []) :
    ∃ a s', served sent.number s a ∧ readersStep s a = some s' := by
  have hlen := congrArg List.length h.input
  have hshort := h.short.1
  have hpos := List.length_pos_of_ne_nil hwait
  rw [List.length_append] at hlen
  rw [h.waiter] at hlen hshort hpos
  cases hwaiter : s.waiter with
  | header =>
      rw [hwaiter] at hpos
      exact absurd hpos (Nat.lt_irrefl 0)
  | body recvMsg =>
      have hreq : s.waiter.request = s.waiter.owed := by rw [hwaiter]; rfl
      obtain ⟨s', hs'⟩ := wait_enabled (s := s) (by omega) (by omega)
      exact ⟨.wait, s', Or.inr (h.front_chat hwait), hs'⟩

theorem Apart.response_goes_on (h : Apart sent s waitOwed getOwed ws) (hget : getOwed ≠ []) :
    ∃ a s', served sent.number s a ∧ readersStep s a = some s' := by
  have hlen := congrArg List.length h.input
  have hshort := h.short.2
  have hpos := List.length_pos_of_ne_nil hget
  rw [List.length_append, List.length_append] at hlen
  rw [h.getter] at hlen hshort hpos
  cases hgetter : s.getter with
  | idle =>
      rw [hgetter] at hpos
      exact absurd hpos (Nat.lt_irrefl 0)
  | header =>
      rw [hgetter] at hpos
      exact absurd hpos (Nat.lt_irrefl 0)
  | data calls =>
      cases calls with
      | nil =>
          rw [hgetter] at hpos
          exact absurd hpos (Nat.lt_irrefl 0)
      | cons c cs =>
          rw [hgetter, Getter.owed, need_cons] at hlen hshort
          have hreq : s.getter.request = some c.len := by rw [hgetter]; rfl
          obtain ⟨s', hs'⟩ := get_enabled hreq (by omega) (by omega)
          exact ⟨.get, s', Or.inr (h.front_response hget), hs'⟩

/-- Between two frames the reader whose frame comes next can go on. -/
theorem Apart.frame_goes_on {n : Nat} {p : Packet} (h : Apart sent s [] [] ((n, p) :: ws))
    (hcalled : s.getter ≠ .idle) :
    ∃ a s', served sent.number s a ∧ readersStep s a = some s' := by
  have hin : s.input = tag n p.toParcel.bytes ++ sentBytes ws := h.input
  have hhdr := messageLen_le hin
  have hfront : s.front = some n := by
    rw [Parcel.bytes, tag_append, List.append_assoc] at hin
    exact front_of_header hin
  by_cases hn : n = sent.number
  · cases hgetter : s.getter with
    | idle => exact absurd hgetter hcalled
    | header =>
        have hreq : s.getter.request = some messageLen := by rw [hgetter]; rfl
        obtain ⟨s', hs'⟩ := get_enabled hreq (by decide) hhdr
        exact ⟨.get, s', Or.inr (by rw [hfront, hn]), hs'⟩
    | data calls =>
        exact absurd hn (h.fresh calls hgetter (n, p) (List.mem_cons_self ..))
  · have hserved : served sent.number s .wait := by
      refine Or.inr ?_
      rw [hfront]
      exact fun heq => hn (Option.some.inj heq)
    have hreq : s.waiter.request ≤ messageLen := by
      have hnone := h.waiter
      cases hwaiter : s.waiter with
      | header => exact Nat.le_refl _
      | body recvMsg =>
          rw [hwaiter] at hnone
          rw [Waiter.request, ← Waiter.owed, ← hnone]
          exact Nat.zero_le _
    obtain ⟨s', hs'⟩ := wait_enabled (s := s)
      (Nat.lt_of_le_of_lt hreq (by decide)) (Nat.le_trans hreq hhdr)
    exact ⟨.wait, s', hserved, hs'⟩

/-- **PROGRESS**: as long as bytes are left, one of the readers is served rightly. -/
theorem Apart.goes_on (h : Apart sent s waitOwed getOwed ws) (hcalled : s.getter ≠ .idle)
    (hleft : s.input ≠ []) : ∃ a s', served sent.number s a ∧ readersStep s a = some s' := by
  by_cases hwait : waitOwed = []
  · by_cases hget : getOwed = []
    · subst hwait hget
      cases ws with
      | nil => exact absurd h.input hleft
      | cons w ws => exact h.frame_goes_on hcalled
    · exact h.response_goes_on hget
  · exact h.chat_goes_on hwait

end Progress

/-- **PROGRESS**: once `comm_get` is called, schedules of this kind go on until nothing is
    left. -/
theorem served_goes_on (sent : Sent) {t : Readers}
    (hrun : Run (readers sent) (served sent.number) t)
    (hcalled : t.getter ≠ .idle) (hleft : t.input ≠ []) :
    ∃ a s', served sent.number t a ∧ (readers sent).step t a = some s' := by
  obtain ⟨waitOwed, getOwed, ws, h⟩ := Run.invariant (M := readers sent)
    (I := fun s => ∃ waitOwed getOwed ws, Apart sent s waitOwed getOwed ws)
    ⟨_, _, _, apart_init sent⟩
    (fun _ _ _ ⟨_, _, _, hs⟩ ha hstep => apart_step hs ha (rule_of_readersStep hstep)) hrun
  exact h.goes_on hcalled hleft

/-- The response to a GET of a file of two letters. -/
def letterResponse : Packet where
  hdr := { blankMessage with command := Command.GET.code, dataSize := 2 }
  body := [97, 98]
  body_length := rfl
  nonneg := by decide

/-- A chat line and that response. -/
def letterSent : Sent := ⟨[textPacket], letterResponse, []⟩

theorem separate_letters :
    ∃ t, play (readers letterSent) (readersInit letterSent) [.wait, .call, .wait, .get, .get]
        = some t
      ∧ (Separate letterSent t ↔ Follows (readers letterSent) (served letterSent.number)
          (readersInit letterSent) [.wait, .call, .wait, .get, .get]) :=
  ⟨_, rfl, separate_iff letterSent [.wait, .call, .wait, .get, .get] rfl⟩

/-- **STOLEN**: `comm_waitmsg`, in `recv` when `comm_get` is called, takes the header of
    the response. -/
theorem waitmsg_takes_response :
    ¬ ∀ (sent : Sent) (as : List ReadersAct) (t : Readers),
      play (readers sent) (readersInit sent) as = some t → Separate sent t := by
  intro h
  have hsep := h ⟨[], letterResponse, []⟩ [.call, .wait] _ rfl
  exact absurd (List.prefix_nil.mp hsep.waited) (by decide)

end ChatReaders
