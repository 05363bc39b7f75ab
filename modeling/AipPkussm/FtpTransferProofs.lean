import AipPkussm.ChatGetProofs

/-! # The chunk loops of a file transfer

    `comm_put` and `get_handler` send a file, `comm_get` and `put_handler`
    receive one; the chatroom has copies of all four.  Each is a loop over
    chunks of 512 bytes and one call for the remainder, at offset
    `(i - 1) * 512` with `i` the number of chunks: the remainder is taken from,
    and put to, the place of the last chunk, or 512 bytes before the block.

    `recvAll_sent` says what one loop makes of what the other one sent.  The
    whole chunks arrive, and the tail of the block keeps what `malloc` found
    there (`received_eq_iff`). -/

namespace FtpTransfer

open LittleEndian ChatReceive ChatGet Interleave

/-- What becomes of a `recv` for more bytes than there are: it waits for them, it
    returns those that are there, or it returns -1. -/
inductive Ending where
  | pending
  | closed
  | reset
  deriving DecidableEq

/-- One direction of a connection: the bytes on their way, and what comes after
    them. -/
@[ext] structure Link where
  input : List Byte
  ending : Ending
  deriving DecidableEq

/-- Why a transfer stops: a `recv` waits, a call returned -1, or memory outside a
    block was accessed. -/
inductive Stop where
  | waits
  | failed
  | fault
  deriving DecidableEq

/-- `recv` of `req` bytes, which returns all of them when they come; a request of 0 bytes
    is taken to return at once. -/
def recv (l : Link) (req : Nat) : Except Stop (List Byte × Link) :=
  if req ≤ l.input.length then
    .ok (l.input.take req, { l with input := l.input.drop req })
  else
    match l.ending with
    | .pending => .error .waits
    | .closed => .ok (l.input, { l with input := [] })
    | .reset => .error .failed

/-- A `recv` into a block: the offset and the number of bytes it asks for. -/
structure Call where
  off : Int
  len : Nat
  deriving DecidableEq

/-- The `recv` for chunk `i`. -/
def chunkCall (i : Nat) : Call := ⟨chunkOffset i, socketioBufferSize⟩

/-- The calls of a loop that receives `dataSize` bytes, `remBytes` of them in the
    end. -/
def recvCalls (dataSize remBytes : Int) : List Call :=
  let remNum := (dataSize.tdiv socketioBufferSize).toNat
  (List.range remNum).map chunkCall
    ++ [⟨lastOffset remNum, (BitVec.ofInt 32 remBytes).toNat⟩]

/-- The bytes that a `recv` returned go to their place in a block. -/
def place (off : Int) (got buff : List Byte) : Except Stop (List Byte) :=
  if got = [] then .ok buff
  else if 0 ≤ off ∧ off + got.length ≤ buff.length then .ok (patch off.toNat got buff)
  else .error .fault

/-- The calls of a loop, one after another. -/
def recvAll : List Call → List Byte → Link → Except Stop (List Byte × Link)
  | [], buff, l => .ok (buff, l)
  | c :: cs, buff, l =>
      match recv l c.len with
      | .error e => .error e
      | .ok (got, l') =>
          match place c.off got buff with
          | .error e => .error e
          | .ok buff' => recvAll cs buff' l'

/-- Bytes on their way, each with the number of the command or frame it belongs to. -/
abbrev Channel := List (Nat × Byte)

/-- `recv` on a channel: all the bytes it asks for, as soon as they are there. -/
def recvFrom (channel : Channel) (req : Nat) : Option (Channel × Channel) :=
  if req ≤ channel.length then some (channel.take req, channel.drop req) else none

/-- The number of chunks of a file. -/
abbrev chunks (file : List Byte) : Nat := file.length / socketioBufferSize

/-- How many bytes the chunks of a file hold. -/
abbrev chunksLen (file : List Byte) : Nat := chunks file * socketioBufferSize

/-- How many bytes of a file are left after its chunks. -/
abbrev remainder (file : List Byte) : Nat := file.length % socketioBufferSize

theorem chunksLen_add_remainder (file : List Byte) :
    chunksLen file + remainder file = file.length := Nat.div_add_mod' ..

/-! ## One call -/

/-- A `recv` of bytes that are there. -/
theorem recv_full {l : Link} {got rest : List Byte} {req : Nat}
    (hin : l.input = got ++ rest) (hlen : got.length = req) :
    recv l req = .ok (got, { l with input := rest }) := by
  subst hlen
  rw [recv, if_pos (by rw [hin, List.length_append]; omega), hin, List.take_left,
    List.drop_left]

/-- A `recv` of bytes that do not come. -/
theorem recv_waits {l : Link} {req : Nat} (hend : l.ending = .pending)
    (hlen : l.input.length < req) : recv l req = .error .waits := by
  rw [recv, if_neg (Nat.not_le.mpr hlen), hend]

/-- The front of a channel: a `recv` of bytes that belong together. -/
theorem recvFrom_tag {channel owes rest : Channel} {n : Nat} {l got more : List Byte}
    {req : Nat} (h : channel ++ owes = tag n l ++ rest) (hl : l = got ++ more)
    (hlen : got.length = req) {r : Channel × Channel} (hr : recvFrom channel req = some r) :
    r.1 = tag n got ∧ r.2 ++ owes = tag n more ++ rest := by
  rw [recvFrom] at hr
  split at hr
  · rename_i hreq
    obtain rfl := Option.some.inj hr
    have htag : (tag n got).length = req := by rw [tag, List.length_map, hlen]
    have hsplit : channel.take req ++ (channel.drop req ++ owes)
        = tag n got ++ (tag n more ++ rest) := by
      rw [← List.append_assoc, List.take_append_drop, h, hl, tag_append, List.append_assoc]
    exact List.append_inj hsplit (by rw [List.length_take, Nat.min_eq_left hreq, htag])
  · cases hr

/-- Bytes that are put inside a block. -/
theorem place_inside {got buff : List Byte} {off : Nat} {o : Int} (hoff : o = off)
    (h : off + got.length ≤ buff.length) : place o got buff = .ok (patch off got buff) := by
  rw [place]
  by_cases hnil : got = []
  · rw [if_pos hnil, hnil, patch, List.length_nil, Nat.add_zero, List.nil_append,
      List.take_append_drop]
  · rw [if_neg hnil, if_pos (by omega), hoff, Int.toNat_natCast]

/-- Bytes that are put before a block. -/
theorem place_before {got buff : List Byte} {o : Int} (hoff : o < 0) (hne : got ≠ []) :
    place o got buff = .error .fault := by
  rw [place, if_neg hne, if_neg (fun h => absurd h.1 (Int.not_le.mpr hoff))]

/-- Nothing but a fault stops bytes from being put. -/
theorem place_error {off : Int} {got buff : List Byte} {e : Stop}
    (h : place off got buff = .error e) : e = .fault := by
  rw [place] at h
  split at h
  · cases h
  · split at h
    · cases h
    · exact (Except.error.inj h).symm

/-- A call that goes well. -/
theorem recvAll_cons {c : Call} {cs : List Call} {buff buff' got : List Byte} {l l' : Link}
    (hrecv : recv l c.len = .ok (got, l')) (hplace : place c.off got buff = .ok buff') :
    recvAll (c :: cs) buff l = recvAll cs buff' l' := by
  rw [recvAll, hrecv]
  simp only [hplace]

/-- A call whose `recv` stops the loop. -/
theorem recvAll_stops {c : Call} {cs : List Call} {buff : List Byte} {l : Link} {e : Stop}
    (hrecv : recv l c.len = .error e) : recvAll (c :: cs) buff l = .error e := by
  rw [recvAll, hrecv]

/-- A call that stops the loop by what it does to memory. -/
theorem recvAll_faults {c : Call} {cs : List Call} {buff got : List Byte} {l l' : Link}
    {e : Stop} (hrecv : recv l c.len = .ok (got, l'))
    (hplace : place c.off got buff = .error e) : recvAll (c :: cs) buff l = .error e := by
  rw [recvAll, hrecv]
  simp only [hplace]

/-- The bytes inside a block are those of the block. -/
theorem bytesAt_inside (heap : Int → Byte) {buff : List Byte} {off len : Nat} {o : Int}
    (hoff : o = off) (h : off + len ≤ buff.length) :
    bytesAt heap buff o len = slice off len buff := by
  apply List.ext_getElem (by rw [length_bytesAt, length_slice h])
  intro k h₁ h₂
  rw [length_bytesAt] at h₁
  have hk : (0 : Int) ≤ o + (k : Nat) := by omega
  have hnat : (o + (k : Nat)).toNat = off + k := by omega
  simp only [bytesAt, slice, List.getElem_map, List.getElem_range, if_pos hk, hnat,
    List.getElem_take, List.getElem_drop]
  exact List.getD_eq_getElem _ _ (by omega)

/-- The bytes that calls ask for. -/
def need (calls : List Call) : Nat := (calls.map Call.len).sum

theorem need_cons (c : Call) (cs : List Call) : need (c :: cs) = c.len + need cs := rfl

theorem need_append (cs ds : List Call) : need (cs ++ ds) = need cs + need ds := by
  rw [need, List.map_append, List.sum_append, need, need]

theorem need_chunks (q : Nat) :
    need ((List.range q).map chunkCall) = q * socketioBufferSize := by
  induction q with
  | zero => rw [Nat.zero_mul]; rfl
  | succ q ih =>
      rw [List.range_succ, List.map_append, need_append, ih, Nat.succ_mul]
      rfl

/-- The calls of a loop ask for as many bytes as are announced. -/
theorem need_recvCalls {n : Nat} {rem : Int}
    (hrem : (BitVec.ofInt 32 rem).toNat = n % socketioBufferSize) :
    need (recvCalls n rem) = n := by
  rw [recvCalls, toNat_tdiv_natCast, hrem, need_append, need_chunks]
  exact Nat.div_add_mod' ..

/-! ## What is sent -/

/-- The chunks of a file, sent one after another. -/
theorem flatten_chunks (heap : Int → Byte) {file : List Byte}
    (hsize : file.length < 2 ^ 31) (q : Nat) (hq : q * socketioBufferSize ≤ file.length) :
    ((List.range q).map (fun i =>
        bytesAt heap file (chunkOffset i) socketioBufferSize)).flatten
      = file.take (q * socketioBufferSize) := by
  induction q with
  | zero => rw [List.range_zero, List.map_nil, List.flatten_nil, Nat.zero_mul, List.take_zero]
  | succ q ih =>
      rw [Nat.succ_mul] at hq
      rw [List.range_succ, List.map_append, List.flatten_append, ih (by omega),
        List.map_singleton, List.flatten_singleton,
        bytesAt_inside heap (chunkOffset_eq (by omega)) hq, Nat.succ_mul, slice, List.take_add]

/-- The bytes that are sent for the remainder. -/
def lastSent (heap : Int → Byte) (file : List Byte) : List Byte :=
  bytesAt heap file (lastOffset (chunks file)) (remainder file)

@[simp] theorem length_lastSent (heap : Int → Byte) (file : List Byte) :
    (lastSent heap file).length = remainder file := length_bytesAt ..

/-- After at least one chunk, what is sent for the remainder is the beginning of the
    last chunk. -/
theorem lastSent_eq (heap : Int → Byte) {file : List Byte} {q : Nat}
    (hsize : file.length < 2 ^ 31) (hq : chunks file = q + 1) :
    lastSent heap file = slice (q * socketioBufferSize) (remainder file) file := by
  have hlen := chunksLen_add_remainder file
  rw [chunksLen, hq, Nat.succ_mul] at hlen
  rw [lastSent, hq, lastOffset_succ]
  exact bytesAt_inside heap (chunkOffset_eq (by omega)) (by omega)

/-- **SENT**: the chunks of a file, and what is sent for the remainder. -/
theorem flatten_dataSends (heap : Int → Byte) {file : List Byte}
    (hsize : file.length < 2 ^ 31) :
    (dataSends heap file file.length).flatten
      = file.take (chunksLen file) ++ lastSent heap file := by
  rw [dataSends, toNat_tdiv_natCast, toNat_tmod_natCast, List.flatten_append,
    List.flatten_singleton, flatten_chunks heap hsize _ (Nat.div_mul_le_self ..), lastSent]

/-! ## What is received -/

/-- **LOOP**: the chunks go to their places, and the rest of the block keeps what was
    in it. -/
theorem recvAll_chunks (q : Nat) : ∀ (body rest buff : List Byte) (cs : List Call)
    (e : Ending), body.length = q * socketioBufferSize →
    q * socketioBufferSize ≤ buff.length → buff.length < 2 ^ 31 →
    recvAll ((List.range q).map chunkCall ++ cs) buff ⟨body ++ rest, e⟩
      = recvAll cs (body ++ buff.drop (q * socketioBufferSize)) ⟨rest, e⟩ := by
  induction q with
  | zero =>
      intro body rest buff cs e hlen _ _
      rw [Nat.zero_mul] at hlen
      rw [List.eq_nil_of_length_eq_zero hlen, Nat.zero_mul]
      rfl
  | succ q ih =>
      intro body rest buff cs e hlen hfit hbound
      rw [Nat.succ_mul] at hlen hfit
      have hfront : (body.take (q * socketioBufferSize)).length = q * socketioBufferSize := by
        rw [List.length_take]
        omega
      have hchunk : (body.drop (q * socketioBufferSize)).length = socketioBufferSize := by
        rw [List.length_drop]
        omega
      have hsplit : body ++ rest = body.take (q * socketioBufferSize)
          ++ (body.drop (q * socketioBufferSize) ++ rest) := by
        rw [← List.append_assoc, List.take_append_drop]
      have hplace : place (chunkOffset q) (body.drop (q * socketioBufferSize))
          (body.take (q * socketioBufferSize) ++ buff.drop (q * socketioBufferSize))
          = .ok (body ++ buff.drop ((q + 1) * socketioBufferSize)) := by
        rw [place_inside (chunkOffset_eq (by omega)), patch_behind hfront,
          ← List.append_assoc, List.take_append_drop, List.drop_drop, hchunk, Nat.succ_mul]
        rw [List.length_append, hfront, hchunk, List.length_drop]
        omega
      rw [List.range_succ, List.map_append, List.append_assoc, hsplit,
        ih _ _ buff _ e hfront (by omega) hbound]
      exact recvAll_cons (recv_full rfl hchunk) hplace

/-- The `recv` for the remainder: from the bytes sent for it, put to the place that
    they were taken from. -/
theorem recvAll_last (heap : Int → Byte) {file buff : List Byte} (rem : Nat)
    (hsize : file.length < 2 ^ 31) (hbuff : buff.length = file.length)
    (hchunks : buff.take (chunksLen file) = file.take (chunksLen file)) :
    recvAll [⟨lastOffset (chunks file), rem⟩] buff ⟨lastSent heap file, .pending⟩
      = if remainder file < rem then .error .waits
        else if chunks file = 0 ∧ rem ≠ 0 then .error .fault
        else .ok (buff, ⟨(lastSent heap file).drop rem, .pending⟩) := by
  by_cases hwait : remainder file < rem
  · rw [if_pos hwait]
    exact recvAll_stops (recv_waits rfl (by rw [length_lastSent]; exact hwait))
  · rw [if_neg hwait]
    have hgot : ((lastSent heap file).take rem).length = rem := by
      rw [List.length_take, length_lastSent]
      omega
    have hrecv : recv ⟨lastSent heap file, .pending⟩ rem
        = .ok ((lastSent heap file).take rem, ⟨(lastSent heap file).drop rem, .pending⟩) :=
      recv_full (List.take_append_drop rem _).symm hgot
    cases hq : chunks file with
    | zero =>
        by_cases hrem : rem = 0
        · subst hrem
          rw [if_neg (fun h => h.2 rfl)]
          exact recvAll_cons hrecv (if_pos List.take_zero)
        · have hne : (lastSent heap file).take rem ≠ [] := by
            intro hnil
            rw [hnil] at hgot
            exact hrem hgot.symm
          rw [if_pos ⟨rfl, hrem⟩]
          exact recvAll_faults hrecv (place_before lastOffset_zero hne)
    | succ q =>
        have hlen := chunksLen_add_remainder file
        rw [chunksLen, hq, Nat.succ_mul] at hlen
        have hlt : remainder file < socketioBufferSize := Nat.mod_lt _ (by decide)
        have hslice : ∀ l : List Byte, slice (q * socketioBufferSize) rem l
            = slice (q * socketioBufferSize) rem (l.take (chunksLen file)) := by
          intro l
          rw [slice, slice, List.drop_take, List.take_take, chunksLen, hq, Nat.succ_mul,
            Nat.min_eq_left (by omega)]
        -- the same bytes are there already
        have hsame : (lastSent heap file).take rem
            = slice (q * socketioBufferSize) rem buff := by
          rw [lastSent_eq heap hsize hq, slice, List.take_take, Nat.min_eq_left (by omega)]
          show slice _ rem file = _
          rw [hslice file, hslice buff, hchunks]
        have hoff : lastOffset (q + 1) = (q * socketioBufferSize : Nat) := by
          rw [lastOffset_succ, chunkOffset_eq (by omega)]
        rw [if_neg (fun h => absurd h.1 (Nat.succ_ne_zero q))]
        refine recvAll_cons hrecv ?_
        rw [place_inside hoff (by rw [hgot]; omega), hsame, patch_slice (by omega)]

/-- **RECEIVED**: what a loop that ends with `rem` bytes makes of a file that was
    sent: whole chunks, and in the end what the block held before. -/
theorem recvAll_sent (heap : Int → Byte) {file buff : List Byte} (rem : Int)
    (hsize : file.length < 2 ^ 31) (hbuff : buff.length = file.length) :
    recvAll (recvCalls file.length rem) buff
        ⟨(dataSends heap file file.length).flatten, .pending⟩
      = if remainder file < (BitVec.ofInt 32 rem).toNat then .error .waits
        else if chunks file = 0 ∧ (BitVec.ofInt 32 rem).toNat ≠ 0 then .error .fault
        else .ok (file.take (chunksLen file) ++ buff.drop (chunksLen file),
          ⟨(lastSent heap file).drop (BitVec.ofInt 32 rem).toNat, .pending⟩) := by
  have hle : chunks file * socketioBufferSize ≤ file.length := Nat.div_mul_le_self ..
  have htake : (file.take (chunksLen file)).length = chunks file * socketioBufferSize := by
    rw [List.length_take, Nat.min_eq_left hle]
  rw [recvCalls, toNat_tdiv_natCast, flatten_dataSends heap hsize,
    recvAll_chunks _ _ _ buff _ _ htake (by omega) (by omega)]
  refine recvAll_last heap _ hsize ?_ ?_
  · rw [List.length_append, htake, List.length_drop]
    omega
  · rw [List.take_append_of_le_length (Nat.le_of_eq htake.symm), List.take_take, Nat.min_self]

/-- A block already holds the tail of a file that comes after the chunks. -/
def HoldsTail (heap : Nat → Byte) (file : List Byte) : Prop :=
  ∀ k, chunksLen file ≤ k → k < file.length → heap k = file.getD k 0

/-- **THE TAIL**: what is received is the file exactly when the block held the tail of
    it before. -/
theorem received_eq_iff (heap : Nat → Byte) (file : List Byte) :
    file.take (chunksLen file) ++ (overlay file.length [] heap).drop (chunksLen file) = file
      ↔ HoldsTail heap file := by
  have hle : chunksLen file ≤ file.length := Nat.div_mul_le_self ..
  have hold : ∀ k, k < file.length → (overlay file.length [] heap).getD k 0 = heap k :=
    fun k hk => getD_overlay_old hk (Nat.zero_le k)
  constructor
  · intro h k hlow hhigh
    have hk := congrArg (fun l => l.getD k 0) h
    simp only [List.getD_append_right _ _ _ _
      (show (file.take (chunksLen file)).length ≤ k by rw [List.length_take]; omega),
      List.length_take, Nat.min_eq_left hle] at hk
    rw [← hk, ← hold k hhigh, List.getD_eq_getElem?_getD, List.getD_eq_getElem?_getD,
      List.getElem?_drop, Nat.add_sub_cancel' hlow]
  · intro h
    have htail : (overlay file.length [] heap).drop (chunksLen file)
        = file.drop (chunksLen file) := by
      apply List.ext_getElem
      · rw [List.length_drop, List.length_drop, length_overlay]
      · intro k h₁ h₂
        rw [List.length_drop] at h₂
        rw [List.getElem_drop, List.getElem_drop, getElem_overlay, List.getD_nil,
          h _ (Nat.le_add_right ..) (by omega), List.getD_eq_getElem _ _ (by omega)]
    rw [htail, List.take_append_drop]

end FtpTransfer
