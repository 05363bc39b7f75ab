import AipPkussm.FtpRoundTripProofs
import AipPkussm.FtpSessionProofs

/-! # The account of a session

    What one side of the file server has sent and the other has not read yet is
    made up of commands: the rest of the one the server is at, those ahead of it,
    and what is due to the client.

    `inStep_run`: as long as the stale `resp_msg` of `put_handler` leaves the same
    remainder as the size in the request, and nothing but empty files and files of
    at least a chunk are transferred, the server reads exactly the headers that
    were sent, and no byte of a finished command is left. -/

namespace FtpSession

open LittleEndian FtpMessage FtpTransfer FtpHandlers FtpRoundTrip Interleave Transition
open ChatReceive (socketioBufferSize)
open ChatGet (dataSends lastOffset_succ)

/-! ## What is owed -/

/-- A command whose header the server has not read. -/
structure Issued where
  number : Nat
  msg : Message
  data : List Byte

/-- The bytes of its header. -/
def Issued.header (c : Issued) : Channel := tag c.number (encode c.msg)

/-- All its bytes, the header and the data. -/
def Issued.bytes (c : Issued) : Channel := tag c.number (encode c.msg ++ c.data)

/-- The header of a PUT, with its data. -/
structure Issued.IsPut (c : Issued) : Prop where
  command : c.msg.command = Command.PUT.code
  name : ∃ name, fnameString c.msg = some name ∧ name ≠ []
  size : c.msg.size = c.data.length

/-- The header of a GET. -/
structure Issued.IsGet (c : Issued) : Prop where
  command : c.msg.command = Command.GET.code
  name : ∃ name, fnameString c.msg = some name ∧ IsName name
  data : c.data = []

/-- A response, header and data. -/
structure IsResponse (due : List Byte) (respMsg : Message) (data : List Byte) : Prop where
  bytes : due = encode respMsg ++ data
  name : ∃ name, fnameString respMsg = some name ∧ name ≠ []
  size : respMsg.size = data.length
  fits : data.length < socketioBufferSize → data.length = 0

/-- None of the calls of a loop leaves the block. -/
def Fits (calls : List Call) (buff : List Byte) : Prop :=
  ∀ c ∈ calls, c.len = 0 ∨ (0 ≤ c.off ∧ c.off + c.len ≤ buff.length)

/-- The bytes that the client has still to send. -/
def clientOwes : ClientPlace → Channel
  | .sending n blocks => tag n blocks.flatten
  | _ => []

/-- The bytes that the server has still to send. -/
def serverOwes : ServerPlace → Channel
  | .sending n blocks _ => tag n blocks.flatten
  | _ => []

/-- The place of the server agrees with what it has still to read of its command. -/
def ServerAt (served done : Nat) (body : List Byte) : ServerPlace → Prop
  | .header => done = served ∧ body = []
  | .receiving n calls buff =>
      done = n ∧ served = n + 1 ∧ Fits calls buff ∧ body.length = need calls
  | .sending n _ ret => done = n ∧ served = n + 1 ∧ ret = 0 ∧ body = []
  | .dead => False

/-- The place of the client agrees with the commands ahead of the server, and with what
    is due to it. -/
def ClientAt (issued done : Nat) (ahead : List Issued) (due : List Byte) :
    ClientPlace → Prop
  | .prompt => done = issued ∧ due = [] ∧ ∀ c ∈ ahead, c.IsPut
  | .sending n _ => done = n ∧ issued = n + 1 ∧ due = [] ∧ ∀ c ∈ ahead, c.IsPut
  | .awaiting n => done = n ∧ issued = n + 1
      ∧ ((∃ puts c, ahead = puts ++ [c] ∧ c.IsGet ∧ (∀ p ∈ puts, p.IsPut) ∧ due = [])
        ∨ (ahead = [] ∧ ∃ respMsg data, IsResponse due respMsg data))
  | .receiving n respMsg calls filebuf => done = n ∧ issued = n + 1 ∧ ahead = []
      ∧ Fits calls filebuf ∧ due.length = need calls
      ∧ ∃ name, fnameString respMsg = some name ∧ name ≠ []
  | .dead => False

/-- What is on its way, and what will be sent, is what both sides expect: the rest of the
    server's command and the commands ahead of it, and what is due to the client. -/
structure Account (s : Session) (k : Nat) (body : List Byte) (ahead : List Issued) (m : Nat)
    (due : List Byte) : Prop where
  up : s.up ++ clientOwes s.client = tag k body ++ ahead.flatMap Issued.bytes
  down : s.down ++ serverOwes s.server = tag m due
  sent : s.sent = s.read ++ ahead.map Issued.header
  numbers : ahead.map Issued.number = List.range' s.served ahead.length
  issued : s.issued = s.served + ahead.length
  server : ServerAt s.served s.serverDone body s.server
  client : ClientAt s.issued s.clientDone ahead due s.client
  current : s.serverDone ≤ k
  latest : s.clientDone ≤ m

/-- The invariant. -/
def Accounted (s : Session) : Prop := ∃ k body ahead m due, Account s k body ahead m due

theorem ServerAt.done_le {served done : Nat} {body : List Byte} {place : ServerPlace}
    (h : ServerAt served done body place) : done ≤ served := by
  cases place with
  | header => exact Nat.le_of_eq h.1
  | receiving n calls buff => rw [h.1, h.2.1]; exact Nat.le_succ n
  | sending n blocks ret => rw [h.1, h.2.1]; exact Nat.le_succ n
  | dead => exact h.elim

/-- The commands ahead have numbers that the server has not reached. -/
theorem Account.number_ge {s : Session} {k m : Nat} {body due : List Byte}
    {ahead : List Issued} (h : Account s k body ahead m due) :
    ∀ c ∈ ahead, s.served ≤ c.number := by
  intro c hc
  have hmem : c.number ∈ ahead.map Issued.number := List.mem_map_of_mem hc
  rw [h.numbers] at hmem
  exact (List.mem_range'_1.mp hmem).1

/-- **IN STEP**: the account says so. -/
theorem Account.inStep {s : Session} {k m : Nat} {body due : List Byte}
    {ahead : List Issued} (h : Account s k body ahead m due) : InStep s := by
  constructor
  · exact ⟨_, h.sent.symm⟩
  · intro n hclient hserver x hx
    rcases List.mem_append.mp hx with hup | hdown
    · have hmem : x ∈ tag k body ++ ahead.flatMap Issued.bytes := by
        rw [← h.up]
        exact List.mem_append_left _ hup
      rcases List.mem_append.mp hmem with hbody | hahead
      · have hk := fst_of_mem_tag hbody
        have := h.current
        omega
      · obtain ⟨c, hc, hcx⟩ := List.mem_flatMap.mp hahead
        have hnumber := fst_of_mem_tag hcx
        have hge := h.number_ge c hc
        have hdone := h.server.done_le
        omega
    · have hmem : x ∈ tag m due := by
        rw [← h.down]
        exact List.mem_append_left _ hdown
      have hm := fst_of_mem_tag hmem
      have := h.latest
      omega

theorem account_init : Account sessionInit 0 [] [] 0 [] where
  up := rfl
  down := rfl
  sent := rfl
  numbers := rfl
  issued := rfl
  server := ⟨rfl, rfl⟩
  client := ⟨rfl, rfl, List.forall_mem_nil _⟩
  current := Nat.le_refl 0
  latest := Nat.le_refl 0

/-! ## One call -/

/-- A call that fits goes well, and the block keeps its length. -/
theorem place_of_fits {c : Call} {cs : List Call} {buff got : List Byte}
    (h : Fits (c :: cs) buff) (hgot : got.length = c.len) :
    ∃ buff', place c.off got buff = .ok buff' ∧ Fits cs buff' := by
  have hrest : Fits cs buff := fun c' hc' => h c' (List.mem_cons_of_mem c hc')
  rcases h c (List.mem_cons_self ..) with hzero | ⟨hlow, hhigh⟩
  · refine ⟨buff, ?_, hrest⟩
    rw [place, if_pos (List.eq_nil_of_length_eq_zero (hgot.trans hzero))]
  · have hfit : c.off.toNat + got.length ≤ buff.length := by omega
    have hoff : c.off = (c.off.toNat : Nat) := by omega
    refine ⟨_, place_inside hoff hfit, ?_⟩
    intro c' hc'
    rw [length_patch hfit]
    exact hrest c' hc'

/-- The calls for a file that is empty or has at least a chunk stay in their block, and
    ask for as many bytes as it has. -/
theorem fits_recvCalls {n : Nat} (rem : Int) {buff : List Byte} (hsize : n < 2 ^ 31)
    (hsmall : n < socketioBufferSize → n = 0) (hbuff : buff.length = n)
    (hrem : (BitVec.ofInt 32 rem).toNat = n % socketioBufferSize) :
    Fits (recvCalls n rem) buff ∧ need (recvCalls n rem) = n := by
  have htotal : n / socketioBufferSize * socketioBufferSize + n % socketioBufferSize = n :=
    Nat.div_add_mod' ..
  refine ⟨?_, need_recvCalls hrem⟩
  rw [recvCalls, ChatGet.toNat_tdiv_natCast, hrem]
  intro c hc
  rcases List.mem_append.mp hc with hchunk | hlast
  · obtain ⟨i, hi, rfl⟩ := List.mem_map.mp hchunk
    have hmul : (i + 1) * socketioBufferSize ≤ n / socketioBufferSize * socketioBufferSize :=
      Nat.mul_le_mul_right _ (List.mem_range.mp hi)
    rw [Nat.succ_mul] at hmul
    right
    show 0 ≤ ChatReceive.chunkOffset i
      ∧ ChatReceive.chunkOffset i + (socketioBufferSize : Nat) ≤ buff.length
    rw [ChatReceive.chunkOffset_eq (by omega)]
    omega
  · obtain rfl := List.mem_singleton.mp hlast
    cases hq : n / socketioBufferSize with
    | zero =>
        left
        have hlt : n < socketioBufferSize := by
          rw [hq, Nat.zero_mul, Nat.zero_add] at htotal
          rw [← htotal]
          exact Nat.mod_lt _ (by decide)
        show n % socketioBufferSize = 0
        rw [hsmall hlt, Nat.zero_mod]
    | succ q =>
        right
        have hlt : n % socketioBufferSize < socketioBufferSize := Nat.mod_lt _ (by decide)
        rw [hq, Nat.succ_mul] at htotal
        show 0 ≤ ChatGet.lastOffset (q + 1)
          ∧ ChatGet.lastOffset (q + 1) + (n % socketioBufferSize : Nat) ≤ buff.length
        rw [lastOffset_succ, ChatReceive.chunkOffset_eq (by omega)]
        omega

/-! ## The client's steps -/

section ClientSteps

variable {s : Session} {k m : Nat} {body due : List Byte} {ahead : List Issued}

/-- **STEP**: a command is typed, and its header sent. -/
theorem Account.issue (h : Account s k body ahead m due) {c : Issued} {place : ClientPlace}
    (hidle : clientOwes s.client = []) (hnumber : c.number = s.issued)
    (howes : clientOwes place = tag c.number c.data)
    (hplace : ClientAt (s.issued + 1) s.clientDone (ahead ++ [c]) due place) :
    Account { s with
      client := place
      up := s.up ++ c.header
      issued := s.issued + 1
      sent := s.sent ++ [c.header] } k body (ahead ++ [c]) m due where
  up := by
    have hup := h.up
    rw [hidle, List.append_nil] at hup
    show s.up ++ c.header ++ clientOwes place = _
    rw [howes, List.append_assoc, hup, Issued.header, ← tag_append, List.flatMap_append,
      List.flatMap_singleton, List.append_assoc]
    rfl
  down := h.down
  sent := by
    show s.sent ++ [c.header] = s.read ++ (ahead ++ [c]).map Issued.header
    rw [h.sent, List.map_append, List.append_assoc]
    rfl
  numbers := by
    show (ahead ++ [c]).map Issued.number = List.range' s.served (ahead ++ [c]).length
    rw [List.map_append, h.numbers, List.length_append, List.length_singleton,
      List.range'_concat, List.map_singleton, hnumber, h.issued, Nat.one_mul]
  issued := by
    show s.issued + 1 = s.served + (ahead ++ [c]).length
    rw [h.issued, List.length_append, List.length_singleton, Nat.add_assoc]
  server := h.server
  client := hplace
  current := h.current
  latest := h.latest

/-- **STEP**: `comm_put` sends a block. -/
theorem Account.clientSend (h : Account s k body ahead m due) {n : Nat} {buff : List Byte}
    {rest : List (List Byte)} (hc : s.client = .sending n (buff :: rest)) :
    Account { s with client := .sending n rest, up := s.up ++ tag n buff }
      k body ahead m due := by
  have hup := h.up
  have hat := h.client
  rw [hc] at hup hat
  refine ⟨?_, h.down, h.sent, h.numbers, h.issued, h.server, hat, h.current, h.latest⟩
  show s.up ++ tag n buff ++ tag n rest.flatten = _
  rw [← hup, List.append_assoc, ← tag_append]
  rfl

/-- **STEP**: the client returns to its prompt. -/
theorem Account.prompt (h : Account s k body ahead m due) {n : Nat}
    (howes : clientOwes s.client = []) (hissued : s.issued = n + 1) (hdue : due = [])
    (hputs : ∀ c ∈ ahead, c.IsPut) :
    Account { s with client := .prompt, clientDone := n + 1 } k body ahead (n + 1) [] := by
  have hup := h.up
  have hdown := h.down
  rw [howes] at hup
  rw [hdue] at hdown
  exact ⟨hup, hdown, h.sent, h.numbers, h.issued, h.server, ⟨hissued.symm, rfl, hputs⟩,
    h.current, Nat.le_refl _⟩

/-- **STEP**: `comm_get` has its response. -/
theorem Account.respond (h : Account s k body ahead m due) (mem : Memory) {n : Nat}
    {r : Channel × Channel} (hc : s.client = .awaiting n)
    (hr : recvFrom s.down messageLen = some r) :
    ∃ due', Account { s with
      client := startReceiving mem n (headerOf mem r.1), down := r.2 }
      k body ahead m due' := by
  have hat := h.client
  have hup := h.up
  rw [hc] at hat hup
  obtain ⟨hdone, hissued, ⟨puts, c, -, -, -, hdue⟩ | ⟨hahead, respMsg, data, hresp⟩⟩ := hat
  · -- nothing is due before the server has read the request
    have hdown := h.down
    rw [hdue, tag_nil] at hdown
    have hnil := (List.append_eq_nil_iff.mp hdown).1
    rw [hnil] at hr
    exact nomatch hr
  · have hdown : s.down ++ serverOwes s.server = tag m due ++ [] := by
      rw [List.append_nil, h.down]
    obtain ⟨hgot, hrest⟩ := recvFrom_tag hdown hresp.bytes (length_encode respMsg) hr
    have hmsg : headerOf mem r.1 = respMsg := by
      rw [headerOf, hgot, map_snd_tag, decode_overlay]
    obtain ⟨hfits, hneed⟩ := fits_recvCalls ((data.length : Int).tmod socketioBufferSize)
      (length_lt_of_size hresp.size) hresp.fits (length_malloc mem data.length)
      (remBytes_natCast data.length)
    have hstart : startReceiving mem n respMsg = .receiving n respMsg
        (recvCalls data.length ((data.length : Int).tmod socketioBufferSize))
        (malloc mem data.length) := by
      rw [startReceiving, hresp.size, if_neg (Int.not_lt.mpr (Int.natCast_nonneg _)),
        Int.toNat_natCast]
    rw [hmsg, hstart]
    refine ⟨data, hup, ?_, h.sent, h.numbers, h.issued, h.server,
      ⟨hdone, hissued, hahead, hfits, hneed.symm, hresp.name⟩, h.current, h.latest⟩
    rw [List.append_nil] at hrest
    exact hrest

/-- **STEP**: `comm_get` receives a chunk or the remainder. -/
theorem Account.clientChunk (h : Account s k body ahead m due) {n : Nat} {respMsg : Message}
    {c : Call} {cs : List Call} {filebuf : List Byte} {r : Channel × Channel}
    (hc : s.client = .receiving n respMsg (c :: cs) filebuf)
    (hr : recvFrom s.down c.len = some r) :
    ∃ filebuf' due', place c.off (r.1.map Prod.snd) filebuf = .ok filebuf'
      ∧ Account { s with client := .receiving n respMsg cs filebuf', down := r.2 }
        k body ahead m due' := by
  have hat := h.client
  have hup := h.up
  rw [hc] at hat hup
  obtain ⟨hdone, hissued, hahead, hfits, hlen, hname⟩ := hat
  rw [need_cons] at hlen
  have hdown : s.down ++ serverOwes s.server = tag m due ++ [] := by
    rw [List.append_nil, h.down]
  have htake : (due.take c.len).length = c.len := by
    rw [List.length_take]
    omega
  obtain ⟨hgot, hrest⟩ :=
    recvFrom_tag hdown (List.take_append_drop c.len due).symm htake hr
  obtain ⟨filebuf', hplace, hfits'⟩ := place_of_fits hfits htake
  rw [hgot, map_snd_tag]
  refine ⟨filebuf', due.drop c.len, hplace, hup, ?_, h.sent, h.numbers, h.issued, h.server,
    ⟨hdone, hissued, hahead, hfits', ?_, hname⟩, h.current, h.latest⟩
  · rw [List.append_nil] at hrest
    exact hrest
  · rw [List.length_drop, hlen]
    omega

end ClientSteps

/-! ## The server's steps -/

section ServerSteps

variable {s : Session} {k m : Nat} {body due : List Byte} {ahead : List Issued}

/-- Nothing comes after a GET. -/
theorem ClientAt.after_get {issued done : Nat} {c : Issued} {cs : List Issued}
    {place : ClientPlace} (h : ClientAt issued done (c :: cs) due place) (hget : c.IsGet) :
    ∃ n, place = .awaiting n ∧ done = n ∧ issued = n + 1 ∧ cs = [] ∧ due = [] := by
  have hnot : ¬ c.IsPut := fun hput => absurd (hget.command.symm.trans hput.command) (by decide)
  cases place with
  | prompt => exact absurd (h.2.2 c (List.mem_cons_self ..)) hnot
  | sending n blocks => exact absurd (h.2.2.2 c (List.mem_cons_self ..)) hnot
  | awaiting n =>
      obtain ⟨hdone, hissued, ⟨puts, g, hahead, -, hputs, hdue⟩ | ⟨hahead, -⟩⟩ := h
      · cases puts with
        | nil => exact ⟨n, rfl, hdone, hissued, (List.cons.inj hahead).2, hdue⟩
        | cons p puts =>
            obtain ⟨rfl, -⟩ := List.cons.inj hahead
            exact absurd (hputs c (List.mem_cons_self ..)) hnot
      · exact nomatch hahead
  | receiving n respMsg calls filebuf => exact nomatch h.2.2.1
  | dead => exact h.elim

/-- After a PUT the client is where it was. -/
theorem ClientAt.after_put {issued done : Nat} {c : Issued} {cs : List Issued}
    {place : ClientPlace} (h : ClientAt issued done (c :: cs) due place) (hput : c.IsPut) :
    ClientAt issued done cs due place := by
  cases place with
  | prompt => exact ⟨h.1, h.2.1, fun p hp => h.2.2 p (List.mem_cons_of_mem c hp)⟩
  | sending n blocks =>
      exact ⟨h.1, h.2.1, h.2.2.1, fun p hp => h.2.2.2 p (List.mem_cons_of_mem c hp)⟩
  | awaiting n =>
      obtain ⟨hdone, hissued, ⟨puts, g, hahead, hget, hputs, hdue⟩ | ⟨hahead, -⟩⟩ := h
      · cases puts with
        | nil =>
            obtain ⟨rfl, -⟩ := List.cons.inj hahead
            exact absurd (hput.command.symm.trans hget.command) (by decide)
        | cons p puts =>
            obtain ⟨rfl, hcs⟩ := List.cons.inj hahead
            exact ⟨hdone, hissued, Or.inl ⟨puts, g, hcs, hget,
              fun q hq => hputs q (List.mem_cons_of_mem c hq), hdue⟩⟩
      · exact nomatch hahead
  | receiving n respMsg calls filebuf => exact nomatch h.2.2.1
  | dead => exact h.elim

/-- Every command ahead of the server is a PUT or a GET. -/
theorem ClientAt.put_or_get {issued done : Nat} {place : ClientPlace}
    (h : ClientAt issued done ahead due place) : ∀ c ∈ ahead, c.IsPut ∨ c.IsGet := by
  cases place with
  | prompt => exact fun c hc => Or.inl (h.2.2 c hc)
  | sending n blocks => exact fun c hc => Or.inl (h.2.2.2 c hc)
  | awaiting n =>
      obtain ⟨-, -, ⟨puts, g, rfl, hget, hputs, -⟩ | ⟨rfl, -⟩⟩ := h
      · intro c hc
        rcases List.mem_append.mp hc with hp | hg
        · exact Or.inl (hputs c hp)
        · rw [List.mem_singleton.mp hg]
          exact Or.inr hget
      · exact List.forall_mem_nil _
  | receiving n respMsg calls filebuf =>
      rw [h.2.2.1]
      exact List.forall_mem_nil _
  | dead => exact h.elim

/-- **HEADER**: what `clithread` reads is the header of the command in front. -/
theorem Account.front (h : Account s k body ahead m due) {r : Channel × Channel}
    (hs : s.server = .header) (hr : recvFrom s.up messageLen = some r) :
    ∃ c cs, ahead = c :: cs ∧ r.1 = c.header
      ∧ r.2 ++ clientOwes s.client = tag c.number c.data ++ cs.flatMap Issued.bytes
      ∧ incoming s = some c.msg := by
  have hat := h.server
  have hup := h.up
  rw [hs] at hat
  rw [hat.2, tag_nil, List.nil_append] at hup
  cases ahead with
  | nil =>
      have hnil := (List.append_eq_nil_iff.mp hup).1
      rw [hnil] at hr
      cases hr
  | cons c cs =>
      obtain ⟨hgot, hrest⟩ := recvFrom_tag (n := c.number) hup rfl (length_encode c.msg) hr
      refine ⟨c, cs, rfl, hgot, hrest, ?_⟩
      rw [recvFrom] at hr
      split at hr
      · rename_i hlen
        have htake : s.up.take messageLen = tag c.number (encode c.msg) :=
          (congrArg Prod.fst (Option.some.inj hr)).trans hgot
        rw [incoming, hs]
        simp only
        rw [if_pos hlen, htake, map_snd_tag, decode_encode]
      · cases hr

/-- The rest of the account after a header was read. -/
theorem Account.tail {c : Issued} {cs : List Issued} (h : Account s k body (c :: cs) m due) :
    c.number = s.served ∧ s.sent = s.read ++ [c.header] ++ cs.map Issued.header
      ∧ cs.map Issued.number = List.range' (s.served + 1) cs.length
      ∧ s.issued = s.served + 1 + cs.length := by
  have hnumbers := h.numbers
  rw [List.map_cons, List.length_cons, List.range'_succ] at hnumbers
  obtain ⟨hnumber, hrest⟩ := List.cons.inj hnumbers
  refine ⟨hnumber, ?_, hrest, ?_⟩
  · rw [h.sent, List.map_cons, List.append_assoc]
    rfl
  · rw [h.issued, List.length_cons]
    omega

/-- **STEP**: `put_handler` begins. -/
theorem Account.startPut {c : Issued} {cs : List Issued} {disk : Disk} {mem : Memory}
    {up' : Channel} (h : Account s k body (c :: cs) m due) (hs : s.server = .header)
    (hup : up' ++ clientOwes s.client = tag c.number c.data ++ cs.flatMap Issued.bytes)
    (hput : c.IsPut) (hcreates : ∀ name, name ≠ [] → disk.creates name = true)
    (hrem : mem.old.size.tmod socketioBufferSize = c.msg.size.tmod socketioBufferSize)
    (hsmall : c.msg.size < socketioBufferSize → c.msg.size = 0) :
    Account { s with
      server := startHandler disk mem s.served c.msg
      up := up'
      served := s.served + 1
      read := s.read ++ [c.header] } c.number c.data cs m due := by
  have hat := h.server
  have hdown := h.down
  rw [hs] at hat hdown
  obtain ⟨hnumber, hsent, hnumbers, hissued⟩ := h.tail
  obtain ⟨name, hname, hne⟩ := hput.name
  rw [hput.size] at hsmall hrem
  obtain ⟨hfits, hneed⟩ := fits_recvCalls (mem.old.size.tmod socketioBufferSize)
    (length_lt_of_size hput.size) (fun hlt => by omega) (length_malloc mem c.data.length)
    (by rw [hrem]; exact remBytes_natCast c.data.length)
  have hstart : startHandler disk mem s.served c.msg = .receiving s.served
      (recvCalls c.data.length (mem.old.size.tmod socketioBufferSize))
      (malloc mem c.data.length) := by
    rw [startHandler, if_neg (by rw [hput.command]; decide), if_pos hput.command,
      FtpSession.startPut, hname]
    simp only
    rw [if_pos (hcreates name hne), hput.size, if_neg (Int.not_lt.mpr (Int.natCast_nonneg _)),
      Int.toNat_natCast]
  rw [hstart]
  exact ⟨hup, hdown, hsent, hnumbers, hissued, ⟨hat.1, rfl, hfits, hneed.symm⟩,
    h.client.after_put hput, by rw [hnumber]; exact Nat.le_of_eq hat.1, h.latest⟩

/-- **STEP**: `get_handler` begins. -/
theorem Account.startGet {c : Issued} {cs : List Issued} {disk : Disk} {up' : Channel}
    (h : Account s k body (c :: cs) m due) (mem : Memory) (hs : s.server = .header)
    (hup : up' ++ clientOwes s.client = tag c.number c.data ++ cs.flatMap Issued.bytes)
    (hget : c.IsGet)
    (hopens : ∀ name, fnameString c.msg = some name → ∃ file, disk.opens name = some file
      ∧ file.length < 2 ^ 31 ∧ (file.length < socketioBufferSize → file = [])) :
    ∃ m' due', Account { s with
      server := startHandler disk mem s.served c.msg
      up := up'
      served := s.served + 1
      read := s.read ++ [c.header] } c.number c.data cs m' due' := by
  have hat := h.server
  have hdown := h.down
  rw [hs] at hat hdown
  obtain ⟨hnumber, hsent, hnumbers, hissued⟩ := h.tail
  obtain ⟨n, hplace, hdone, hn, rfl, rfl⟩ := h.client.after_get hget
  obtain ⟨name, hname, hisName⟩ := hget.name
  obtain ⟨file, hfile, hsize, hsmall⟩ := hopens name hname
  obtain ⟨respMsg, hback, hdata, hrun⟩ := getHandler_sends mem ⟨[], .pending⟩ hname hfile
    hisName.fits hisName.string hsize
  have hlen : (dataSends mem.heap file file.length).flatten.length = file.length :=
    ChatGet.length_dataSends ..
  have hstart : startHandler disk mem s.served c.msg = .sending s.served
      (encode respMsg :: dataSends mem.heap file file.length) 0 := by
    rw [startHandler, if_pos hget.command, hrun]
    rfl
  -- the server has caught up with the client
  have hserved : s.served = n := by
    have hlast := hissued
    rw [hn, List.length_nil] at hlast
    omega
  have hempty : s.down = [] := by
    rw [tag_nil] at hdown
    exact (List.append_eq_nil_iff.mp hdown).1
  refine ⟨s.served, encode respMsg ++ (dataSends mem.heap file file.length).flatten, ?_⟩
  rw [hstart]
  refine ⟨hup, ?_, hsent, hnumbers, hissued, ⟨hat.1, rfl, rfl, hget.data⟩, ?_, ?_, ?_⟩
  · show s.down ++ _ = _
    rw [hempty]
    rfl
  · show ClientAt s.issued s.clientDone [] _ s.client
    rw [hplace]
    refine ⟨hdone, hn, Or.inr ⟨rfl, respMsg, _, rfl, ⟨name, hback, hisName.nonempty⟩, ?_, ?_⟩⟩
    · rw [size_of_dataSize hsize hdata, hlen]
    · rw [hlen]
      exact fun hlt => by rw [hsmall hlt, List.length_nil]
  · rw [hnumber]
    exact Nat.le_of_eq hat.1
  · show s.clientDone ≤ s.served
    rw [hdone, hserved]

/-- **STEP**: `put_handler` receives a chunk or the remainder. -/
theorem Account.serverChunk (h : Account s k body ahead m due) {n : Nat} {c : Call}
    {cs : List Call} {buff : List Byte} {r : Channel × Channel}
    (hs : s.server = .receiving n (c :: cs) buff) (hr : recvFrom s.up c.len = some r) :
    ∃ buff' body', place c.off (r.1.map Prod.snd) buff = .ok buff'
      ∧ Account { s with server := .receiving n cs buff', up := r.2 }
        k body' ahead m due := by
  have hat := h.server
  have hdown := h.down
  rw [hs] at hat hdown
  obtain ⟨hdone, hserved, hfits, hlen⟩ := hat
  rw [need_cons] at hlen
  have htake : (body.take c.len).length = c.len := by
    rw [List.length_take]
    omega
  obtain ⟨hgot, hrest⟩ :=
    recvFrom_tag h.up (List.take_append_drop c.len body).symm htake hr
  obtain ⟨buff', hplace, hfits'⟩ := place_of_fits hfits htake
  rw [hgot, map_snd_tag]
  refine ⟨buff', body.drop c.len, hplace, hrest, hdown, h.sent, h.numbers, h.issued,
    ⟨hdone, hserved, hfits', ?_⟩, h.client, h.current, h.latest⟩
  rw [List.length_drop, hlen]
  omega

/-- **STEP**: a handler returns. -/
theorem Account.serverReturn (h : Account s k body ahead m due) {n : Nat}
    (howes : serverOwes s.server = []) (hserved : s.served = n + 1) (hbody : body = []) :
    Account { s with server := .header, serverDone := n + 1 }
      (n + 1) [] ahead m due := by
  have hup := h.up
  have hdown := h.down
  rw [hbody] at hup
  rw [howes] at hdown
  exact ⟨hup, hdown, h.sent, h.numbers, h.issued, ⟨hserved.symm, rfl⟩, h.client,
    Nat.le_refl _, h.latest⟩

/-- **STEP**: a handler sends a block. -/
theorem Account.serverSend (h : Account s k body ahead m due) {n : Nat} {buff : List Byte}
    {rest : List (List Byte)} {ret : Int} (hs : s.server = .sending n (buff :: rest) ret) :
    Account { s with server := .sending n rest ret, down := s.down ++ tag n buff }
      k body ahead m due := by
  have hat := h.server
  have hdown := h.down
  rw [hs] at hat hdown
  refine ⟨h.up, ?_, h.sent, h.numbers, h.issued, hat, h.client, h.current, h.latest⟩
  show s.down ++ tag n buff ++ tag n rest.flatten = _
  rw [← hdown, List.append_assoc, ← tag_append]
  rfl

end ServerSteps

/-! ## Whole sessions -/

section Sessions

variable {s s' : Session} {k m : Nat} {body due : List Byte} {ahead : List Issued}

/-- **STEP**: `put` is typed. -/
theorem Account.put (h : Account s k body ahead m due) {disk : Disk} {mem : Memory}
    {name hdr : List Byte} {blocks : List (List Byte)} (hc : s.client = .prompt)
    (hsucceeds : succeeds s (.put disk mem name))
    (hput : commPut disk mem name = .ok (hdr :: blocks)) :
    Accounted { s with
      client := .sending s.issued blocks
      up := s.up ++ tag s.issued hdr
      issued := s.issued + 1
      sent := s.sent ++ [tag s.issued hdr] } := by
  have hat := h.client
  rw [hc] at hat
  obtain ⟨hdone, hdue, hputs⟩ := hat
  obtain ⟨hname, file, hopens, hsize⟩ := hsucceeds
  obtain ⟨msg, hback, hcommand, hdata, hrun⟩ :=
    commPut_sends mem hopens hname.fits hname.string
  obtain ⟨rfl, rfl⟩ := List.cons.inj (Except.ok.inj (hput.symm.trans hrun))
  have hisPut : Issued.IsPut
      ⟨s.issued, msg, (dataSends mem.heap file file.length).flatten⟩ := by
    refine ⟨hcommand, ⟨name, hback, hname.nonempty⟩, ?_⟩
    rw [size_of_dataSize hsize hdata, ChatGet.length_dataSends]
  have hplace : ClientAt (s.issued + 1) s.clientDone
      (ahead ++ [⟨s.issued, msg, (dataSends mem.heap file file.length).flatten⟩]) due
      (.sending s.issued (dataSends mem.heap file file.length)) :=
    ⟨hdone, rfl, hdue,
      List.forall_mem_append.mpr ⟨hputs, List.forall_mem_singleton.mpr hisPut⟩⟩
  exact ⟨k, body, _, m, due, h.issue (by rw [hc]; rfl) rfl rfl hplace⟩

/-- **STEP**: `get` is typed. -/
theorem Account.get (h : Account s k body ahead m due) {mem : Memory} {name : List Byte}
    {msg : Message} (hc : s.client = .prompt) (hname : IsName name)
    (hmsg : getRequest mem name = some msg) :
    Accounted { s with
      client := .awaiting s.issued
      up := s.up ++ tag s.issued (encode msg)
      issued := s.issued + 1
      sent := s.sent ++ [tag s.issued (encode msg)] } := by
  have hat := h.client
  rw [hc] at hat
  obtain ⟨hdone, hdue, hputs⟩ := hat
  obtain ⟨hback, hcommand, -⟩ := fnameString_fill hname.fits hname.string hmsg
  have hbytes : tag s.issued (encode msg) = (Issued.mk s.issued msg []).header := rfl
  have hisGet : Issued.IsGet ⟨s.issued, msg, []⟩ := ⟨hcommand, ⟨name, hback, hname⟩, rfl⟩
  have hplace : ClientAt (s.issued + 1) s.clientDone (ahead ++ [⟨s.issued, msg, []⟩]) due
      (.awaiting s.issued) :=
    ⟨hdone, rfl, Or.inl ⟨ahead, _, rfl, hisGet, hputs, hdue⟩⟩
  rw [hbytes]
  exact ⟨k, body, _, m, due, h.issue (by rw [hc]; rfl) rfl rfl hplace⟩

/-- `comm_put` gets as far as its header. -/
theorem put_goes_on {disk : Disk} {mem : Memory} {name : List Byte}
    (h : succeeds s (.put disk mem name)) :
    ∃ hdr blocks, commPut disk mem name = .ok (hdr :: blocks) := by
  obtain ⟨hname, file, hopens, -⟩ := h
  obtain ⟨msg, -, -, -, hrun⟩ := commPut_sends mem hopens hname.fits hname.string
  exact ⟨_, _, hrun⟩

/-- `comm_get` gets as far as its request. -/
theorem get_goes_on {name : List Byte} (mem : Memory) (h : IsName name) :
    ∃ msg, getRequest mem name = some msg :=
  fill_eq_some mem.old .GET 0 h.fits

/-- **STEP**: `clithread` reads a header and calls its handler. -/
theorem Account.readHeader (h : Account s k body ahead m due) {disk : Disk} {mem : Memory}
    {r : Channel × Channel} (hs : s.server = .header)
    (hr : recvFrom s.up messageLen = some r) (hsucceeds : succeeds s (.serverRecv disk mem))
    (hsteady : steady s (.serverRecv disk mem)) :
    Accounted { s with
      server := startHandler disk mem s.served (headerOf mem r.1)
      up := r.2
      served := s.served + 1
      read := s.read ++ [r.1] } := by
  obtain ⟨hcreates, hopens⟩ := hsucceeds
  obtain ⟨c, cs, rfl, hgot, hrest, hincoming⟩ := h.front hs hr
  have hmsg : headerOf mem r.1 = c.msg := by
    rw [headerOf, hgot, Issued.header, map_snd_tag, decode_overlay]
  obtain ⟨hsteadyPut, hsteadyGet⟩ := hsteady c.msg hincoming
  rw [hmsg, hgot]
  -- what the client sends as a command is one of these two
  rcases h.client.put_or_get c (List.mem_cons_self ..) with hput | hget
  · obtain ⟨hrem, hsmall⟩ := hsteadyPut hput.command
    exact ⟨_, _, _, _, _, h.startPut hs hrest hput hcreates hrem hsmall⟩
  · obtain ⟨m', due', hacc'⟩ := h.startGet mem hs hrest hget (by
      intro name hname
      obtain ⟨file, hfile, hsize⟩ := hopens c.msg name hincoming hget.command hname
      exact ⟨file, hfile, hsize, hsteadyGet hget.command name file hname hfile⟩)
    exact ⟨_, _, _, m', due', hacc'⟩

/-- **STEP**: steady steps keep the account. -/
theorem accounted_step {a : SessionAct} (h : Accounted s) (ha : succeeds s a ∧ steady s a)
    (hstep : SessionStep s a s') : Accounted s' := by
  obtain ⟨k, body, ahead, m, due, hacc⟩ := h
  obtain ⟨hsucceeds, hsteady⟩ := ha
  have hclient := hacc.client
  have hserver := hacc.server
  cases hstep with
  | put hc hput => exact hacc.put hc hsucceeds hput
  | putStops hc hstops =>
      obtain ⟨hdr, blocks, hput⟩ := put_goes_on hsucceeds
      exact absurd hput (hstops hdr blocks)
  | get hc hmsg => exact hacc.get hc hsucceeds hmsg
  | @getStops mem name hc hnone =>
      obtain ⟨msg, hmsg⟩ := get_goes_on mem hsucceeds
      exact nomatch hnone.symm.trans hmsg
  | clientSend hc => exact ⟨k, body, ahead, m, due, hacc.clientSend hc⟩
  | @putDone n hc =>
      rw [hc] at hclient
      obtain ⟨-, hissued, hdue, hputs⟩ := hclient
      exact ⟨k, body, ahead, n + 1, [], hacc.prompt (by rw [hc]; rfl) hissued hdue hputs⟩
  | @respond disk mem n r hc hr =>
      obtain ⟨due', hacc'⟩ := hacc.respond mem hc hr
      exact ⟨k, body, ahead, m, due', hacc'⟩
  | clientChunk hc hr hplace =>
      obtain ⟨filebuf', due', hfits, hacc'⟩ := hacc.clientChunk hc hr
      obtain rfl := Except.ok.inj (hfits.symm.trans hplace)
      exact ⟨k, body, ahead, m, due', hacc'⟩
  | clientFaults hc hr hplace =>
      obtain ⟨filebuf', due', hfits, -⟩ := hacc.clientChunk hc hr
      exact nomatch hfits.symm.trans hplace
  | @getDone disk mem n respMsg filebuf hc hfinish =>
      rw [hc] at hclient
      obtain ⟨-, hissued, hahead, -, hlen, -⟩ := hclient
      have hputs : ∀ c ∈ ahead, c.IsPut := by
        rw [hahead]
        exact List.forall_mem_nil _
      exact ⟨k, body, ahead, n + 1, [], hacc.prompt (by rw [hc]; rfl) hissued
        (List.eq_nil_of_length_eq_zero hlen) hputs⟩
  | @getFaults disk mem n respMsg filebuf hc hfinish =>
      -- the response carries the name, so `fopen` succeeds
      rw [hc] at hclient
      obtain ⟨-, -, -, -, -, name, hname, hne⟩ := hclient
      refine absurd ?_ hfinish
      rw [finishGet, hname]
      exact hsucceeds name hne
  | header hs hr => exact hacc.readHeader hs hr hsucceeds hsteady
  | serverChunk hs hr hplace =>
      obtain ⟨buff', body', hfits, hacc'⟩ := hacc.serverChunk hs hr
      obtain rfl := Except.ok.inj (hfits.symm.trans hplace)
      exact ⟨k, body', ahead, m, due, hacc'⟩
  | serverFaults hs hr hplace =>
      obtain ⟨buff', body', hfits, -⟩ := hacc.serverChunk hs hr
      -- no call of a steady session leaves the block
      exact nomatch hfits.symm.trans hplace
  | @stored disk mem n buff hs =>
      rw [hs] at hserver
      obtain ⟨-, hserved, -, hlen⟩ := hserver
      exact ⟨n + 1, [], ahead, m, due, hacc.serverReturn (by rw [hs]; rfl) hserved
        (List.eq_nil_of_length_eq_zero hlen)⟩
  | serverSend hs => exact ⟨k, body, ahead, m, due, hacc.serverSend hs⟩
  | @serverReturn n ret hs =>
      rw [hs] at hserver
      obtain ⟨-, hserved, rfl, hbody⟩ := hserver
      rw [if_neg (by decide)]
      exact ⟨n + 1, [], ahead, m, due, hacc.serverReturn (by rw [hs]; rfl) hserved hbody⟩

end Sessions

/-- **IN STEP**: in every session of steady steps in which all file operations succeed,
    the server reads the headers that were sent, and nothing of a finished command is
    left unread. -/
theorem inStep_run {s : Session}
    (h : Run session (fun s a => succeeds s a ∧ steady s a) s) : InStep s := by
  obtain ⟨k, body, ahead, m, due, hacc⟩ :=
    Run.invariant (I := Accounted) ⟨0, [], [], 0, [], account_init⟩
      (fun _ _ _ hs ha hstep => accounted_step hs ha (rule_of_sessionStep hstep)) h
  exact hacc.inStep

theorem party_creates (name file : List Byte) :
    ∀ n, n ≠ [] → (party name file).disk.creates n = true :=
  fun _ h => decide_eq_true h

theorem isName_letter : IsName [102] where
  nonempty := by decide
  fits := by decide
  string := by rw [IsString]; decide

/-- A chunk. -/
def chunkFile : List Byte := List.replicate 512 120

/-- A machine that has it as the file `f`. -/
def chunkDisk : Disk := (party [102] chunkFile).disk

/-- Memory with a stale size of two chunks. -/
def chunkMemory : Memory :=
  { (party [] []).mem with old := { (party [] []).mem.old with dataSize := 1024 } }

/-- A PUT of the chunk, and a GET that is typed before the server has read anything. -/
def putAndGet : List SessionAct :=
  .put chunkDisk chunkMemory [102] :: List.replicate 3 .clientSend
    ++ .get chunkMemory [102] :: List.replicate 5 (.serverRecv chunkDisk chunkMemory)
    ++ List.replicate 4 .serverSend ++ List.replicate 4 (.clientRecv chunkDisk chunkMemory)

/-- The header of the PUT or the GET. -/
def chunkRequest (command : Command) (size : Nat) : Option Message :=
  fill chunkMemory.old [102] command (BitVec.ofNat 32 size)

/-- `clithread` reads no header but these two. -/
def ReadsThese (s : Session) : Prop :=
  incoming s = none ∨ incoming s = chunkRequest .PUT 512 ∨ incoming s = chunkRequest .GET 0

instance (s : Session) : Decidable (ReadsThese s) :=
  inferInstanceAs (Decidable (_ ∨ _ ∨ _))

theorem serverRecv_of_readsThese {s : Session} (h : ReadsThese s) :
    succeeds s (.serverRecv chunkDisk chunkMemory)
      ∧ steady s (.serverRecv chunkDisk chunkMemory) := by
  have hopens : chunkDisk.opens [102] = some chunkFile := rfl
  have hlen : chunkFile.length = 512 := List.length_replicate
  rcases h with hnone | hput | hget
  · refine ⟨⟨party_creates _ _, ?_⟩, ?_⟩
    · intro msg name hin
      rw [hnone] at hin
      cases hin
    · intro msg hin
      rw [hnone] at hin
      cases hin
  · refine ⟨⟨party_creates _ _, ?_⟩, ?_⟩
    · intro msg name hin hcommand
      obtain rfl := Option.some.inj (hput.symm.trans hin)
      exact absurd hcommand (by decide)
    · intro msg hin
      obtain rfl := Option.some.inj (hput.symm.trans hin)
      exact ⟨fun _ => by decide, fun hcommand => absurd hcommand (by decide)⟩
  · have hfile : ∀ msg name, incoming s = some msg → fnameString msg = some name →
        name = [102] := by
      intro msg name hin hname
      obtain rfl := Option.some.inj (hget.symm.trans hin)
      exact Option.some.inj (hname.symm.trans (by decide))
    refine ⟨⟨party_creates _ _, ?_⟩, ?_⟩
    · intro msg name hin _ hname
      obtain rfl := hfile msg name hin hname
      exact ⟨chunkFile, hopens, by rw [hlen]; decide⟩
    · intro msg hin
      refine ⟨fun hcommand => ?_, fun _ name file hname hfound hshort => ?_⟩
      · obtain rfl := Option.some.inj (hget.symm.trans hin)
        exact absurd hcommand (by decide)
      · obtain rfl := hfile msg name hin hname
        obtain rfl := Option.some.inj (hopens.symm.trans hfound)
        rw [hlen] at hshort
        exact absurd hshort (by decide)

theorem follows_putAndGet :
    Follows session (fun s a => succeeds s a ∧ steady s a) sessionInit putAndGet := by
  have hreads : Follows session (fun s _ => ReadsThese s) sessionInit putAndGet := by
    decide +kernel
  refine hreads.imp_of_mem (fun a ha s hs => ?_)
  have hsize : chunkFile.length < 2 ^ 31 := by
    rw [chunkFile, List.length_replicate]
    decide
  simp only [putAndGet, List.mem_append, List.mem_cons, List.mem_replicate] at ha
  rcases ha with (((rfl | ⟨-, rfl⟩) | (rfl | ⟨-, rfl⟩)) | ⟨-, rfl⟩) | ⟨-, rfl⟩
  · exact ⟨⟨isName_letter, chunkFile, rfl, hsize⟩, trivial⟩
  · exact ⟨trivial, trivial⟩
  · exact ⟨isName_letter, trivial⟩
  · exact serverRecv_of_readsThese hs
  · exact ⟨trivial, trivial⟩
  · exact ⟨party_creates _ _, trivial⟩

/-- What is left of the session. -/
def putAndGetEnd : Session := (play session sessionInit putAndGet).getD sessionInit

theorem play_putAndGet : play session sessionInit putAndGet = some putAndGetEnd := by
  have hsome : (play session sessionInit putAndGet).isSome := by decide +kernel
  exact (Option.getD_of_ne_none (Option.isSome_iff_ne_none.mp hsome) _).symm

/-- Both commands are over on both sides, and both were in step. -/
theorem inStep_putAndGet :
    putAndGetEnd.clientDone = 2 ∧ putAndGetEnd.serverDone = 2 ∧ InStep putAndGetEnd :=
  ⟨by decide +kernel, by decide +kernel,
    inStep_run (Run.of_play putAndGet follows_putAndGet play_putAndGet)⟩

/-- A PUT of a file, up to the end of `put_handler`; the server's memory is all zero. -/
def putOf (file : List Byte) : List SessionAct :=
  [.put (party [102] file).disk (party [102] file).mem [102], .clientSend, .clientSend,
   .serverRecv (party [] []).disk (party [] []).mem,
   .serverRecv (party [] []).disk (party [] []).mem,
   .serverRecv (party [] []).disk (party [] []).mem]

/-- **ONE BYTE LEFT**: after a PUT of one byte the server has stored a file and is in the
    `recv` of the next header, and the byte is still there. -/
theorem byte_left_unread :
    ¬ ∀ s, Run session succeeds s → InStep s := by
  intro h
  have hrun := h _ (Run.of_play (putOf [97]) (by
    refine Follows.cons ⟨isName_letter, [97], rfl, by decide⟩ rfl ?_
    refine Follows.cons trivial rfl ?_
    refine Follows.cons trivial rfl ?_
    refine Follows.cons ⟨party_creates _ _, ?_⟩ rfl ?_
    · intro msg name hin hget
      obtain rfl := Option.some.inj hin
      exact absurd hget (by decide)
    refine Follows.cons ⟨party_creates _ _, fun _ _ hin => nomatch hin⟩ rfl ?_
    exact Follows.cons ⟨party_creates _ _, fun _ _ hin => nomatch hin⟩ rfl trivial) rfl)
  exact absurd (hrun.unread 0 (by decide) (by decide) (0, 0) (by decide)) (by decide)

end FtpSession
