import AipPkussm.LittleEndianProofs
import AipPkussm.TransitionProofs

/-! # Files that several writers have open

    Each `FILE` has its own offset, and what is written there goes over what
    somebody else has put at the same place.  A `write` behind the end of a file
    that was truncated in the meantime leaves a hole, which reads as zeros.

    * `Sourced`: every byte of a file may stand at its place, or is in a hole.  Every
      `write` of a piece of a block with such bytes keeps this, and so does
      truncation (`Sourced.writeAt`, `Sourced.nil`).
    * `store`: files that are put and got as a whole.  A list of puts and of gets with
      their answers is explained by a store that plays it. -/

namespace SharedFiles

open LittleEndian Transition

/-! ## Writing at an offset -/

/-- A file after `write` of a piece at an offset. -/
def writeAt (off : Nat) (piece file : List Byte) : List Byte :=
  if piece = [] then file
  else file.take off ++ (List.replicate (off - file.length) 0
    ++ (piece ++ file.drop (off + piece.length)))

/-- Every byte is one that may stand at its place, or is in a hole. -/
def Sourced (src : Nat → Byte → Prop) (file : List Byte) : Prop :=
  ∀ k, k < file.length → file.getD k 0 = 0 ∨ src k (file.getD k 0)

section WriteAt

variable {off n k : Nat} {piece file block : List Byte}

/-- In front of the piece stands a byte of the file or of a hole. -/
theorem getD_writeAt_of_lt (h : k < off) : (writeAt off piece file).getD k 0 = file.getD k 0 := by
  rw [writeAt]
  split
  · rfl
  · rcases Nat.lt_or_ge k file.length with hin | hout
    · rw [List.getD_append _ _ _ _ (by rw [List.length_take]; omega),
        List.getD_eq_getElem?_getD, List.getD_eq_getElem?_getD, List.getElem?_take_of_lt h]
    · rw [List.getD_append_right _ _ _ _ (by rw [List.length_take]; omega),
        List.getD_append _ _ _ _ (by rw [List.length_take, List.length_replicate]; omega),
        List.getD_replicate, List.getD_eq_default file 0 hout]
      rw [List.length_take]
      omega

/-- Inside the piece stands a byte of it. -/
theorem getD_writeAt_inside (h : off ≤ k) (hk : k < off + piece.length) :
    (writeAt off piece file).getD k 0 = piece.getD (k - off) 0 := by
  have hne : piece ≠ [] := by
    rintro rfl
    rw [List.length_nil] at hk
    omega
  have hfront : (file.take off).length + (off - file.length) = off := by
    rw [List.length_take]
    omega
  rw [writeAt, if_neg hne, List.getD_append_right _ _ _ _ (by omega),
    List.getD_append_right _ _ _ _ (by rw [List.length_replicate]; omega), List.length_replicate,
    Nat.sub_sub, hfront, List.getD_append _ _ _ _ (by omega)]

/-- Behind the piece stands a byte of the file. -/
theorem getD_writeAt_of_le (h : off + piece.length ≤ k) :
    (writeAt off piece file).getD k 0 = file.getD k 0 := by
  have hfront : (file.take off).length + (off - file.length) = off := by
    rw [List.length_take]
    omega
  rw [writeAt]
  split
  · rfl
  · rw [List.getD_append_right _ _ _ _ (by omega),
      List.getD_append_right _ _ _ _ (by rw [List.length_replicate]; omega),
      List.length_replicate, Nat.sub_sub, hfront, List.getD_append_right _ _ _ _ (by omega),
      List.getD_eq_getElem?_getD, List.getElem?_drop, List.getD_eq_getElem?_getD]
    congr 2
    omega

/-- A file as long as the offset gets longer by the piece. -/
theorem writeAt_end (h : file.length = off) : writeAt off piece file = file ++ piece := by
  rw [writeAt]
  split
  · next hnil => rw [hnil, List.append_nil]
  · rw [List.take_of_length_le (by omega), Nat.sub_eq_zero_of_le (by omega),
      List.drop_of_length_le (by omega), List.replicate_zero, List.nil_append, List.append_nil]

/-- A block over the front of a file. -/
theorem writeAt_zero (file block : List Byte) :
    writeAt 0 block file = block ++ file.drop block.length := by
  rw [writeAt]
  split
  · next hnil => rw [hnil, List.length_nil, List.drop_zero, List.nil_append]
  · rw [List.take_zero, Nat.zero_sub, List.replicate_zero, List.nil_append, List.nil_append,
      Nat.zero_add]

end WriteAt

/-! ## Where the bytes are from -/

namespace Sourced

variable {src src' : Nat → Byte → Prop} {file block : List Byte}

/-- An empty file has no bytes. -/
theorem nil (src : Nat → Byte → Prop) : Sourced src [] :=
  fun _ hk => absurd hk (Nat.not_lt_zero _)

theorem mono (h : Sourced src file) (hsub : ∀ k b, src k b → src' k b) : Sourced src' file :=
  fun k hk => (h k hk).imp_right (hsub k _)

/-- The beginning of a file. -/
theorem take (h : Sourced src file) (n : Nat) : Sourced src (file.take n) := by
  intro k hk
  rw [List.length_take] at hk
  have hbyte : (file.take n).getD k 0 = file.getD k 0 := by
    rw [List.getD_eq_getElem?_getD, List.getD_eq_getElem?_getD, List.getElem?_take_of_lt (by omega)]
  rw [hbyte]
  exact h k (by omega)

/-- **WRITE**: a piece of a block goes to its place. -/
theorem writeAt (h : Sourced src file) {off n : Nat}
    (hblock : ∀ k, k < block.length → src k (block.getD k 0)) (hin : off + n ≤ block.length) :
    Sourced src (SharedFiles.writeAt off (slice off n block) file) := by
  have hlen := length_slice hin
  intro k hk
  rcases Nat.lt_or_ge k off with hlow | hlow
  · rw [getD_writeAt_of_lt hlow]
    rcases Nat.lt_or_ge k file.length with hold | hhole
    · exact h k hold
    · exact Or.inl (List.getD_eq_default file 0 hhole)
  · rcases Nat.lt_or_ge k (off + n) with hhigh | hhigh
    · rw [getD_writeAt_inside hlow (by omega), getD_slice off (by omega), Nat.add_sub_cancel' hlow]
      exact Or.inr (hblock k (by omega))
    · rw [getD_writeAt_of_le (by omega)]
      rcases Nat.lt_or_ge k file.length with hold | hhole
      · exact h k hold
      · exact Or.inl (List.getD_eq_default file 0 hhole)

/-- **READ**: a piece of a file behind what is there already. -/
theorem append_slice {buff : List Byte} {off n : Nat} (h : Sourced src (buff.take off))
    (hfile : Sourced src file) (hoff : off ≤ buff.length) (hin : off + n ≤ file.length) :
    Sourced src (buff.take off ++ slice off n file) := by
  have hfront : (buff.take off).length = off := by
    rw [List.length_take]
    omega
  have hlen := length_slice hin
  intro k hk
  rw [List.length_append] at hk
  rcases Nat.lt_or_ge k off with hlow | hlow
  · rw [List.getD_append _ _ _ _ (by omega)]
    exact h k (by omega)
  · rw [List.getD_append_right _ _ _ _ (by omega), hfront, getD_slice off (by omega),
      Nat.add_sub_cancel' hlow]
    exact hfile k (by omega)

end Sourced

/-- What a buffer holds after a piece was put behind its first bytes. -/
theorem take_patch {off : Nat} {got buff : List Byte} (h : off ≤ buff.length) :
    (patch off got buff).take (off + got.length) = buff.take off ++ got := by
  have hfront : (buff.take off).length = off := by
    rw [List.length_take]
    omega
  rw [patch, ← List.append_assoc, List.take_left']
  rw [List.length_append, hfront]

/-! ## A store -/

section Store

variable {φ : Type} [DecidableEq φ]

/-- A file is put, or got with an answer: what it held, or that it is not there. -/
inductive StoreAct (φ : Type) where
  | put (f : φ) (block : List Byte)
  | get (f : φ) (answer : Option (List Byte))

/-- One operation; an answer must be the right one. -/
def storeStep (files : φ → Option (List Byte)) : StoreAct φ → Option (φ → Option (List Byte))
  | .put f block => some (Function.update files f (some block))
  | .get f answer => if files f = answer then some files else none

/-- Files that are put and got as a whole. -/
def store (files : φ → Option (List Byte)) :
    Machine (φ → Option (List Byte)) (StoreAct φ) where
  init := files
  step := storeStep

/-- One more operation. -/
theorem play_store_concat {files₀ files files' : φ → Option (List Byte)}
    {acts : List (StoreAct φ)} {a : StoreAct φ} (h : play (store files₀) files₀ acts = some files)
    (hstep : storeStep files a = some files') :
    play (store files₀) files₀ (acts ++ [a]) = some files' := by
  rw [play_append, h]
  show (storeStep files a).bind some = some files'
  rw [hstep]
  rfl

end Store

end SharedFiles
