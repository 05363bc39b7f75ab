import Mathlib.Data.List.TakeWhile
import AipPkussm.MaximalRunsProofs
import AipPkussm.TracerouteProofs

/-! # The addresses of a hop

    `setIP` keeps the addresses that answered in one string with blanks between them,
    and it compares the whole string with the next address to see whether it is there
    already.  That is the right question while one address is there.

    As a list, an address is added unless it is all there is (`note`).  What comes out
    is the addresses in order of first arrival exactly when nothing is repeated but
    the first address at the very start (`addresses_iff`). -/

namespace Traceroute

open LittleEndian MaximalRuns

/-! ## First arrivals -/

section Arrivals

variable {α : Type*} [BEq α] [LawfulBEq α]

/-- An arrival is noted unless it is the only one so far. -/
def note (noted : List α) (a : α) : List α := if noted == [a] then noted else noted ++ [a]

/-- After the start nothing comes twice: what follows the first arrival and its immediate
    repetitions has no repetition, and does not have the first arrival again. -/
def RepeatsAtStart : List α → Prop
  | [] => True
  | a :: as => (a :: as.dropWhile (· == a)).Nodup

instance repeatsAtStartDecidable [DecidableEq α] (as : List α) : Decidable (RepeatsAtStart as) :=
  match as with
  | [] => isTrue trivial
  | a :: as => inferInstanceAs (Decidable (a :: as.dropWhile (· == a)).Nodup)

theorem foldl_note_of_two (as : List α) {noted : List α} (hnoted : 2 ≤ noted.length) :
    as.foldl note noted = noted ++ as := by
  induction as generalizing noted with
  | nil => exact (List.append_nil noted).symm
  | cons a as ih =>
    have hne : ¬ (noted == [a]) = true := by
      rw [beq_iff_eq]
      rintro rfl
      simp at hnoted
    have hlen : 2 ≤ (noted ++ [a]).length := by
      rw [List.length_append]
      omega
    rw [List.foldl_cons, note, if_neg hne, ih hlen, List.append_assoc, List.singleton_append]

/-- **NOTED**: behind the first arrival its immediate repetitions are missing, no others. -/
theorem foldl_note (a : α) (as : List α) :
    as.foldl note [a] = a :: as.dropWhile (· == a) := by
  induction as with
  | nil => rfl
  | cons b as ih =>
    rw [List.foldl_cons, note]
    by_cases hba : b = a
    · subst hba
      rw [if_pos (beq_self_eq_true [b]), ih, List.dropWhile_cons, beq_self_eq_true, if_pos rfl]
    · have hne : ¬ ([a] == [b]) = true := by simpa using fun h => hba h.symm
      have hkeep : ¬ (b == a) = true := by simpa using hba
      rw [if_neg hne, List.dropWhile_cons, if_neg hkeep, foldl_note_of_two as (by simp)]
      rfl

theorem eraseDups_eq_self {as : List α} (h : as.Nodup) : as.eraseDups = as := by
  induction as with
  | nil => rfl
  | cons a as ih =>
    obtain ⟨hnotin, hnodup⟩ := List.nodup_cons.mp h
    have hfilter : as.filter (fun b => !b == a) = as := by
      refine List.filter_eq_self.mpr ?_
      intro b hb
      have hne : b ≠ a := by
        rintro rfl
        exact hnotin hb
      simpa using hne
    rw [List.eraseDups_cons, hfilter, ih hnodup]

theorem nodup_eraseDups : ∀ as : List α, as.eraseDups.Nodup
  | [] => List.nodup_nil
  | a :: as => by
    rw [List.eraseDups_cons]
    refine List.nodup_cons.mpr ⟨?_, nodup_eraseDups (as.filter fun b => !b == a)⟩
    simp
termination_by as => as.length
decreasing_by exact Nat.lt_succ_of_le (List.length_filter_le _ as)

/-- **ARRIVALS**: what is noted is the distinct arrivals when only the start repeats. -/
theorem foldl_note_eq_eraseDups_iff (as : List α) :
    as.foldl note [] = as.eraseDups ↔ RepeatsAtStart as := by
  cases as with
  | nil => exact iff_of_true rfl trivial
  | cons a as =>
    have hfirst : (a :: as).foldl note [] = as.foldl note [a] := rfl
    rw [hfirst, foldl_note, RepeatsAtStart]
    constructor
    · intro heq
      rw [heq]
      exact nodup_eraseDups (a :: as)
    · intro hnodup
      obtain ⟨hnotin, hrest⟩ := List.nodup_cons.mp hnodup
      have hstart : (as.takeWhile (· == a)).filter (fun b => !b == a) = [] := by
        refine List.filter_eq_nil_iff.mpr ?_
        intro b hb
        simpa using List.mem_takeWhile_imp hb
      have hrest' : (as.dropWhile (· == a)).filter (fun b => !b == a)
          = as.dropWhile (· == a) := by
        refine List.filter_eq_self.mpr ?_
        intro b hb
        have hne : b ≠ a := by
          rintro rfl
          exact hnotin hb
        simpa using hne
      have hfilter : as.filter (fun b => !b == a) = as.dropWhile (· == a) := by
        conv_lhs => rw [← List.takeWhile_append_dropWhile (p := (· == a)) (l := as)]
        rw [List.filter_append, hstart, hrest', List.nil_append]
      rw [List.eraseDups_cons, hfilter, eraseDups_eq_self hrest]

end Arrivals

/-! ## Strings -/

/-- A string with something in it and no blank. -/
structure IsAddress (a : List Byte) : Prop where
  nonempty : a ≠ []
  noBlank : (32 : Byte) ∉ a

/-- A list of addresses as a string, with blanks between them. -/
def spaced (as : List (List Byte)) : List Byte := List.intercalate [32] as

theorem IsAddress.words {a : List Byte} (h : IsAddress a) : words (· == 32) a = [a] := by
  refine words_of_inside h.nonempty ?_
  intro c hc
  rw [beq_eq_false_iff_ne]
  rintro rfl
  exact h.noBlank hc

/-- The words of the string are the addresses. -/
theorem words_spaced {as : List (List Byte)} (has : ∀ a ∈ as, IsAddress a) :
    words (· == 32) (spaced as) = as := by
  induction as with
  | nil => rfl
  | cons a as ih =>
    obtain ⟨ha, has⟩ := List.forall_mem_cons.mp has
    cases as with
    | nil =>
      rw [spaced, List.intercalate_singleton]
      exact ha.words
    | cons b as =>
      have hsplit : spaced (a :: b :: as) = a ++ 32 :: spaced (b :: as) := by
        rw [spaced, List.intercalate_cons_cons, List.append_assoc]
        rfl
      rw [hsplit, words_append_sep a (by rfl), ha.words, ih has, List.singleton_append]

/-- Different lists are different strings. -/
theorem spaced_inj {as bs : List (List Byte)} (has : ∀ a ∈ as, IsAddress a)
    (hbs : ∀ b ∈ bs, IsAddress b) : spaced as = spaced bs ↔ as = bs := by
  constructor
  · intro h
    rw [← words_spaced has, h, words_spaced hbs]
  · rintro rfl
    rfl

theorem spaced_concat {as : List (List Byte)} (hne : as ≠ []) (a : List Byte) :
    spaced (as ++ [a]) = spaced as ++ 32 :: a := by
  induction as with
  | nil => exact absurd rfl hne
  | cons b as ih =>
    cases as with
    | nil => simp [spaced, List.intercalate_cons_cons]
    | cons c as =>
      have ih := ih (List.cons_ne_nil c as)
      rw [spaced, List.cons_append, List.cons_append, List.intercalate_cons_cons,
        ← List.cons_append, ← spaced, ih, spaced, spaced, List.intercalate_cons_cons]
      simp

/-! ## The record -/

/-- What `processPacket` does to the record. -/
def Packet.record (p : Packet) (ipAddress : List Byte) : Packet := (p.setIP ipAddress).signNew

/-- The string of a list of addresses, and one more. -/
theorem ip_setIP {p : Packet} {noted : List (List Byte)} {a : List Byte}
    (hnoted : ∀ b ∈ noted, IsAddress b) (ha : IsAddress a) (hp : p.ip = spaced noted) :
    (p.setIP a).ip = spaced (note noted a) := by
  have hsingle : spaced [a] = a := List.intercalate_singleton
  rw [note, Packet.setIP]
  cases noted with
  | nil =>
    have hempty : p.ip = [] := hp
    rw [if_pos hempty, if_neg (by simp), List.nil_append, hsingle]
  | cons b noted =>
    have hwords := words_spaced hnoted
    have hne : p.ip ≠ [] := by
      intro hempty
      rw [← hp, hempty] at hwords
      exact List.cons_ne_nil b noted hwords.symm
    have hsame : p.ip = a ↔ b :: noted = [a] := by
      rw [hp, ← spaced_inj hnoted (List.forall_mem_singleton.mpr ha), hsingle]
    rw [if_neg hne]
    by_cases heq : p.ip = a
    · rw [if_neg (not_not.mpr heq), if_pos (beq_iff_eq.mpr (hsame.mp heq)), hp]
    · have hnew : ¬ (b :: noted == [a]) = true := fun h => heq (hsame.mpr (beq_iff_eq.mp h))
      rw [if_pos heq, if_neg hnew, spaced_concat (List.cons_ne_nil b noted), ← hp]

/-- **RUN**: the string is that of the noted addresses, and they are addresses. -/
theorem ip_foldl_record {as : List (List Byte)} (has : ∀ a ∈ as, IsAddress a) {p : Packet}
    {noted : List (List Byte)} (hnoted : ∀ b ∈ noted, IsAddress b) (hp : p.ip = spaced noted) :
    (as.foldl Packet.record p).ip = spaced (as.foldl note noted)
      ∧ ∀ b ∈ as.foldl note noted, IsAddress b := by
  induction as generalizing p noted with
  | nil => exact ⟨hp, hnoted⟩
  | cons a as ih =>
    obtain ⟨ha, has⟩ := List.forall_mem_cons.mp has
    have hnext : ∀ b ∈ note noted a, IsAddress b := by
      rw [note]
      split
      · exact hnoted
      · exact List.forall_mem_append.mpr ⟨hnoted, List.forall_mem_singleton.mpr ha⟩
    exact ih has hnext (ip_setIP hnoted ha hp)

@[simp] theorem Packet.record_came (p : Packet) (ipAddress : List Byte) :
    (p.record ipAddress).came = p.came + 1 := by
  rw [record, signNew, setIP_came]

/-- **CALL**: `processPacket` puts the record back with the address. -/
theorem packets_processPacket {maxhops seq : Nat} (hseq : seq ≤ maxhops) {s : Trace}
    (hroom : (s.packets seq).came < intMax) (ipAddress : List Byte) :
    (s.processPacket maxhops seq ipAddress).packets seq = (s.packets seq).record ipAddress := by
  rw [Trace.processPacket, if_pos hseq]
  simp only [hroom, if_true, Function.update_self]
  rfl

/-- **CALLS**: as long as the count is an `int`, each call puts the record back with its
    address. -/
theorem packets_foldl_processPacket {maxhops seq : Nat} (hseq : seq ≤ maxhops)
    (as : List (List Byte)) {s : Trace} (hroom : (s.packets seq).came + as.length ≤ intMax) :
    (as.foldl (fun s a => s.processPacket maxhops seq a) s).packets seq
      = as.foldl Packet.record (s.packets seq) := by
  induction as generalizing s with
  | nil => rfl
  | cons a as ih =>
    rw [List.length_cons] at hroom
    have hcall := packets_processPacket hseq (s := s) (by omega) a
    have hnext : ((s.processPacket maxhops seq a).packets seq).came + as.length ≤ intMax := by
      rw [hcall, Packet.record_came]
      omega
    rw [List.foldl_cons, List.foldl_cons, ih hnext, hcall]

/-- **EACH ONCE**: from an empty record the string becomes the list of the distinct addresses,
    in order of first arrival, exactly when nothing is repeated but the first address at
    the very start.  The record is the one that `processPacket` keeps in the table. -/
theorem addresses_iff {as : List (List Byte)} (has : ∀ a ∈ as, IsAddress a) (seq : Nat) :
    ((as.foldl Packet.record (newPacket seq)).ip = spaced as.eraseDups ↔ RepeatsAtStart as)
      ∧ ∀ maxhops (s : Trace), seq ≤ maxhops → s.packets seq = newPacket seq →
        as.length ≤ intMax →
        (as.foldl (fun s a => s.processPacket maxhops seq a) s).packets seq
          = as.foldl Packet.record (newPacket seq) := by
  constructor
  · have hempty : (newPacket seq).ip = spaced [] := rfl
    obtain ⟨hip, hnoted⟩ := ip_foldl_record has (List.forall_mem_nil _) hempty
    have hdistinct : ∀ b ∈ as.eraseDups, IsAddress b :=
      fun b hb => has b (List.mem_eraseDups.mp hb)
    rw [hip, spaced_inj hnoted hdistinct, foldl_note_eq_eraseDups_iff]
  · intro maxhops s hseq hs hlen
    have hroom : (s.packets seq).came + as.length ≤ intMax := by
      rw [hs]
      show (0 : Int) + as.length ≤ intMax
      omega
    rw [packets_foldl_processPacket hseq as hroom, hs]

/-- One router answers twice, and then another one. -/
theorem addresses_twice : ([[49], [49], [50]].foldl Packet.record (newPacket 1)).ip
    = spaced [[49], [50]] := by
  have hall : ∀ a ∈ ([[49], [49], [50]] : List (List Byte)), IsAddress a := by
    simp only [List.forall_mem_cons]
    exact ⟨⟨by decide, by decide⟩, ⟨by decide, by decide⟩, ⟨by decide, by decide⟩,
      List.forall_mem_nil _⟩
  exact ((addresses_iff hall 1).1).mpr (by decide)

/-- Two routers in turns: the first one is listed again. -/
theorem not_addresses : ¬ ∀ as : List (List Byte), (∀ a ∈ as, IsAddress a) → ∀ seq,
    (as.foldl Packet.record (newPacket seq)).ip = spaced as.eraseDups := by
  intro h
  have hall : ∀ a ∈ ([[49], [50], [49]] : List (List Byte)), IsAddress a := by
    simp only [List.forall_mem_cons]
    exact ⟨⟨by decide, by decide⟩, ⟨by decide, by decide⟩, ⟨by decide, by decide⟩,
      List.forall_mem_nil _⟩
  exact absurd (h [[49], [50], [49]] hall 1) (by decide)

end Traceroute
