import AipPkussm.ChatReceiveProofs

/-! # What `parse_msg` puts together

    The chunks of a body go to the front of the block, one after another.  The
    remainder goes to `(i - 1) * 512`, and `i` is one more than it should be only
    when there is no chunk: behind chunks, the remainder is written over the
    front of the last of them and the end of the block is never written.

    So the block is the body when there is no remainder or nothing else
    (`reassembled_short`, `reassembled_multiple`), and otherwise its last byte is
    what `malloc` found there (`reassembled_last`). -/

namespace ChatReassembly

open LittleEndian ChatMessage ByteSocket ChatReceive

section Block

variable {body buff : List Byte}

/-- A body of less than a chunk. -/
theorem reassembled_short (hlen : body.length = buff.length)
    (hshort : body.length < socketioBufferSize) : reassembled body buff = body := by
  have hzero : body.length / socketioBufferSize = 0 := Nat.div_eq_of_lt hshort
  rw [reassembled, hzero, if_pos rfl, Nat.zero_mul, List.take_zero, List.drop_zero, patch_nil]
  exact patch_full hlen

/-- A body of chunks only. -/
theorem reassembled_multiple (hlen : body.length = buff.length)
    (hdvd : socketioBufferSize ∣ body.length) : reassembled body buff = body := by
  have hall : body.length / socketioBufferSize * socketioBufferSize = body.length :=
    Nat.div_mul_cancel hdvd
  rw [reassembled, hall, List.take_length, List.drop_length, patch_nil]
  exact patch_full hlen

/-- A chunk and a remainder: the last byte is not written. -/
theorem reassembled_last (hlen : body.length = buff.length)
    (hchunk : socketioBufferSize ≤ body.length) (hdvd : ¬ socketioBufferSize ∣ body.length) :
    (reassembled body buff).getD (body.length - 1) 0 = buff.getD (body.length - 1) 0 := by
  have hsize : 0 < socketioBufferSize := by decide
  have hpos : 0 < body.length / socketioBufferSize := Nat.div_pos hchunk hsize
  have hrem : 0 < body.length % socketioBufferSize :=
    Nat.pos_of_ne_zero (fun h => hdvd (Nat.dvd_of_mod_eq_zero h))
  have hdiv : body.length / socketioBufferSize * socketioBufferSize
      + body.length % socketioBufferSize = body.length := Nat.div_add_mod' ..
  have hfront : (body.take (body.length / socketioBufferSize * socketioBufferSize)).length
      = body.length / socketioBufferSize * socketioBufferSize := by
    rw [List.length_take]
    omega
  have hback : (body.drop (body.length / socketioBufferSize * socketioBufferSize)).length
      = body.length % socketioBufferSize := by
    rw [List.length_drop]
    omega
  have hprev : (body.length / socketioBufferSize - 1) * socketioBufferSize
      = body.length / socketioBufferSize * socketioBufferSize - socketioBufferSize := by
    rw [Nat.sub_mul, Nat.one_mul]
  have hkeep : (patch 0 (body.take (body.length / socketioBufferSize * socketioBufferSize))
      buff).length = buff.length := length_patch (by omega)
  have hchunks : socketioBufferSize ≤ body.length / socketioBufferSize * socketioBufferSize :=
    Nat.le_mul_of_pos_left _ hpos
  rw [reassembled, if_neg (Nat.pos_iff_ne_zero.mp hpos), hprev, getD_patch_of_le,
    getD_patch_of_le (Nat.zero_le _)]
  · omega
  · omega
  · omega

end Block

/-- **THE BLOCK**: it is the body, whatever it contained before, exactly when the body is
    less than a chunk or chunks only. -/
theorem reassembled_iff (body : List Byte) :
    (∀ heap, reassembled body (overlay body.length [] heap) = body)
      ↔ body.length < socketioBufferSize ∨ socketioBufferSize ∣ body.length := by
  have hlen : ∀ heap, body.length = (overlay body.length [] heap).length :=
    fun heap => (length_overlay ..).symm
  constructor
  · intro h
    by_contra hboth
    obtain ⟨hchunk, hdvd⟩ := not_or.mp hboth
    have hsize : 0 < socketioBufferSize := by decide
    have hlast := reassembled_last (hlen (fun _ => ~~~ body.getD (body.length - 1) 0))
      (Nat.le_of_not_lt hchunk) hdvd
    rw [h, getD_overlay_old (by omega) (Nat.zero_le _)] at hlast
    exact complement_ne _ hlast.symm
  · rintro (hshort | hdvd) heap
    · exact reassembled_short (hlen heap) hshort
    · exact reassembled_multiple (hlen heap) hdvd

/-- What a call on an undivided stream leaves is the body when the block is. -/
theorem parseMsg_body_iff (mem : Memory) (f : Frame) (rest : List Byte) (calls : Nat) :
    (∃ p s, parseMsg mem whole ⟨f.bytes ++ rest, calls⟩ = (.ok p, s) ∧ p.body = f.body)
      ↔ reassembled f.body (overlay f.body.length [] mem.heap) = f.body := by
  have hin : (⟨f.bytes ++ rest, calls⟩ : Socket).input = f.bytes ++ rest := rfl
  obtain ⟨p, hparse, -, -, hbody⟩ := parseMsg_whole mem hin
  rw [f.body_length, ← hbody]
  constructor
  · rintro ⟨q, s, hq, hqbody⟩
    rw [hparse] at hq
    obtain ⟨hpq, -⟩ := Prod.mk.inj hq
    obtain rfl := Except.ok.inj hpq
    exact hqbody
  · intro h
    exact ⟨p, _, hparse, h⟩

/-- **REASSEMBLY**: `parse_msg` leaves the body in the block, whatever `malloc` found there,
    exactly when `data_size` is less than a chunk or a multiple of it. -/
theorem reassembles_iff (stack : Nat → Byte) (ptr : BitVec 32) (f : Frame)
    (hpos : 1 ≤ f.hdr.size) (rest : List Byte) (calls : Nat) :
    (∀ heap, ∃ p s, parseMsg ⟨stack, ptr, heap⟩ whole ⟨f.bytes ++ rest, calls⟩ = (.ok p, s)
      ∧ p.body = f.body)
      ↔ f.hdr.size < socketioBufferSize ∨ (socketioBufferSize : Int) ∣ f.hdr.size := by
  have hsize : f.hdr.size = (f.body.length : Int) := by
    rw [f.body_length]
    exact (Int.toNat_of_nonneg (by omega)).symm
  rw [hsize, Int.ofNat_lt, Int.natCast_dvd_natCast, ← reassembled_iff]
  exact forall_congr' (fun heap => parseMsg_body_iff ⟨stack, ptr, heap⟩ f rest calls)

/-- A line of two bytes. -/
theorem reassembles_textPacket :
    (∀ heap, ∃ p s, parseMsg ⟨fun _ => 7, 4096, heap⟩ whole
        ⟨textPacket.toFrame.bytes ++ [], 0⟩ = (.ok p, s) ∧ p.body = textPacket.body)
      ↔ textPacket.hdr.size < socketioBufferSize
        ∨ (socketioBufferSize : Int) ∣ textPacket.hdr.size :=
  reassembles_iff (fun _ => 7) 4096 textPacket.toFrame (by decide) [] 0

/-- A frame of a chunk and one byte. -/
def longFrame : Frame where
  hdr := { blankMessage with dataSize := 513 }
  body := List.replicate 513 97
  body_length := List.length_replicate

/-- Its last byte is not received. -/
theorem not_reassembled : ¬ ∀ (mem : Memory) (f : Frame) (rest : List Byte), 1 ≤ f.hdr.size →
    ∃ p s, parseMsg mem whole ⟨f.bytes ++ rest, 0⟩ = (.ok p, s) ∧ p.body = f.body := by
  intro h
  have hblock : ∀ heap, reassembled longFrame.body
      (overlay longFrame.body.length [] heap) = longFrame.body := fun heap =>
    (parseMsg_body_iff ⟨fun _ => 0, 0, heap⟩ longFrame [] 0).mp
      (h ⟨fun _ => 0, 0, heap⟩ longFrame [] (by decide))
  have hlen : longFrame.body.length = 513 := List.length_replicate
  have hiff := (reassembled_iff longFrame.body).mp hblock
  rw [hlen] at hiff
  exact absurd hiff (by decide)

end ChatReassembly
