import Mathlib.Data.Int.ModEq
import Mathlib.Tactic.Ring
import AipPkussm.LittleEndianProofs

/-! # One's complement sums

    Words below a base, added with end-around carry: what is left of a number
    modulo `base - 1`, except that a sum of anything but zeros is never 0
    (`sum_eq_iff`).

    A program may add in wide arithmetic and bring the high part down at the end.
    `fold` is one such step, for a number that may be negative; two of them are
    enough for a number below the square of the base (`folded_mod`).

    Last, the words of a block of bytes: pairs, least significant byte first, and
    an odd byte in the end for itself. -/

namespace OnesComplement

open LittleEndian

/-! ## Sums of words -/

/-- Addition with end-around carry. -/
def add (base a b : Nat) : Nat := (a + b) % base + (a + b) / base

/-- The sum of a list of words. -/
def sum (base : Nat) (ws : List Nat) : Nat := ws.foldl (add base) 0

section Sums

variable {base : Nat}

/-- The carry is not lost. -/
theorem add_modEq (hbase : 1 ≤ base) (a b : Nat) : add base a b ≡ a + b [MOD base - 1] := by
  have hsplit := Nat.mod_add_div (a + b) base
  obtain ⟨n, rfl⟩ := Nat.exists_eq_add_of_le' hbase
  rw [Nat.add_mul, Nat.one_mul] at hsplit
  have hfar : add (n + 1) a b + n * ((a + b) / (n + 1)) = a + b := by
    rw [add]
    omega
  rw [Nat.add_sub_cancel, Nat.ModEq]
  conv_rhs => rw [← hfar, Nat.add_mul_mod_self_left]

theorem add_lt {a b : Nat} (ha : a < base) (hb : b < base) : add base a b < base := by
  rw [add]
  by_cases hcarry : a + b < base
  · rw [Nat.mod_eq_of_lt hcarry, Nat.div_eq_of_lt hcarry]
    omega
  · have hle : base ≤ a + b := Nat.le_of_not_lt hcarry
    have hdiv : (a + b) / base = 1 := Nat.div_eq_of_lt_le (by omega) (by omega)
    rw [Nat.mod_eq_sub_mod hle, Nat.mod_eq_of_lt (by omega), hdiv]
    omega

theorem add_eq_zero_iff {a b : Nat} : add base a b = 0 ↔ a = 0 ∧ b = 0 := by
  constructor
  · intro h
    have hsplit := Nat.mod_add_div (a + b) base
    rw [add, Nat.add_eq_zero_iff] at h
    rw [h.1, h.2, Nat.mul_zero] at hsplit
    omega
  · rintro ⟨rfl, rfl⟩
    rw [add, Nat.zero_mod, Nat.zero_div]

/-- The loop that adds words to what was added before. -/
theorem foldl_add (hbase : 1 ≤ base) (ws : List Nat) : ∀ acc, acc < base →
    (∀ w ∈ ws, w < base) →
    ws.foldl (add base) acc < base
      ∧ ws.foldl (add base) acc ≡ acc + ws.sum [MOD base - 1]
      ∧ (ws.foldl (add base) acc = 0 ↔ acc + ws.sum = 0) := by
  induction ws with
  | nil =>
      intro acc hacc _
      exact ⟨hacc, Nat.ModEq.rfl, Iff.rfl⟩
  | cons w ws ih =>
      intro acc hacc hws
      have hw : w < base := hws w (List.mem_cons_self ..)
      obtain ⟨hlt, hmod, hzero⟩ := ih (add base acc w) (add_lt hacc hw)
        (fun v hv => hws v (List.mem_cons_of_mem w hv))
      refine ⟨hlt, ?_, ?_⟩
      · rw [List.sum_cons, ← Nat.add_assoc]
        exact hmod.trans ((add_modEq hbase acc w).add_right _)
      · rw [List.foldl_cons, hzero, Nat.add_eq_zero_iff, add_eq_zero_iff, List.sum_cons]
        omega

/-- **ALL ONES**: a sum of words is the largest word exactly when they add up to a multiple
    of it that is not 0. -/
theorem sum_eq_iff (hbase : 2 ≤ base) {ws : List Nat} (hws : ∀ w ∈ ws, w < base) :
    sum base ws = base - 1 ↔ base - 1 ∣ ws.sum ∧ ws.sum ≠ 0 := by
  obtain ⟨hlt, hmod, hzero⟩ := foldl_add (by omega) ws 0 (by omega) hws
  rw [Nat.zero_add] at hmod hzero
  rw [sum]
  constructor
  · intro h
    rw [h] at hmod hzero
    refine ⟨?_, fun hsum => ?_⟩
    · exact Nat.modEq_zero_iff_dvd.mp
        (hmod.symm.trans (Nat.modEq_zero_iff_dvd.mpr (Nat.dvd_refl _)))
    · have := hzero.mpr hsum
      omega
  · rintro ⟨hdvd, hne⟩
    have hpos : ws.foldl (add base) 0 ≠ 0 := fun h => hne (hzero.mp h)
    obtain ⟨k, hk⟩ := Nat.modEq_zero_iff_dvd.mp (hmod.trans (Nat.modEq_zero_iff_dvd.mpr hdvd))
    -- a multiple of `base - 1` between 1 and `base - 1`
    cases k with
    | zero => exact absurd hk hpos
    | succ k =>
        rw [Nat.mul_succ] at hk
        omega

end Sums

/-! ## Folding -/

/-- The high part of a number is added to its low part. -/
def fold (base s : Int) : Int := s / base + s % base

/-- What two such steps leave, cut to a word. -/
def folded (base s : Int) : Int := (fold base s + fold base s / base) % base

section Folding

variable {base : Int}

theorem fold_modEq (base s : Int) : fold base s ≡ s [ZMOD base - 1] := by
  have hfar : s - fold base s = (base - 1) * (s / base) := by
    have := Int.mul_ediv_add_emod s base
    rw [fold, Int.sub_mul]
    omega
  exact Int.modEq_iff_dvd.mpr ⟨_, hfar⟩

/-- A second step leaves a word. -/
theorem fold_fold {t : Int} (hlow : -base < t) (hhigh : t ≤ 2 * base - 2) :
    0 ≤ fold base t ∧ fold base t < base := by
  rw [fold]
  rcases Int.lt_or_le t 0 with hneg | hpos
  · have hdiv : t / base = -1 := by
      rw [Int.ediv_eq_iff_of_pos (by omega)]
      omega
    have hmod : t % base = t + base := by
      rw [Int.emod_def, hdiv]
      omega
    omega
  · rcases Int.lt_or_le t base with hsmall | hbig
    · rw [Int.ediv_eq_zero_of_lt hpos hsmall, Int.emod_eq_of_lt hpos hsmall]
      omega
    · have hdiv : t / base = 1 := by
        rw [Int.ediv_eq_iff_of_pos (by omega)]
        omega
      have hmod : t % base = t - base := by
        rw [Int.emod_def, hdiv]
        omega
      omega

/-- Cutting to a word instead of folding once more makes no difference. -/
theorem folded_eq (hlow : -base < fold base s) (hhigh : fold base s ≤ 2 * base - 2) :
    folded base s = fold base (fold base s) := by
  obtain ⟨hnonneg, hlt⟩ := fold_fold hlow hhigh
  have hsplit : fold base s + fold base s / base
      = fold base (fold base s) + base * (fold base s / base) := by
    have := Int.mul_ediv_add_emod (fold base s) base
    conv_rhs => rw [fold]
    omega
  rw [folded, hsplit, Int.add_mul_emod_self_left, Int.emod_eq_of_lt hnonneg hlt]

/-- **TWO FOLDS ARE ENOUGH**, with carries and with borrows. -/
theorem folded_mod {s : Int} (hbase : 2 ≤ base) (hlow : -(base - 1) ≤ s / base)
    (hhigh : s / base ≤ base - 1) :
    0 ≤ folded base s ∧ folded base s < base ∧ folded base s ≡ s [ZMOD base - 1] := by
  have hrem := Int.emod_nonneg s (by omega : base ≠ 0)
  have hrem' := Int.emod_lt_of_pos s (by omega : 0 < base)
  have hfold : fold base s = s / base + s % base := rfl
  have heq : folded base s = fold base (fold base s) :=
    folded_eq (by omega) (by omega)
  obtain ⟨hnonneg, hlt⟩ : 0 ≤ fold base (fold base s) ∧ fold base (fold base s) < base :=
    fold_fold (by omega) (by omega)
  rw [heq]
  exact ⟨hnonneg, hlt, (fold_modEq base _).trans (fold_modEq base s)⟩

end Folding

/-! ## The words of a block -/

/-- The 16-bit words of a block, an odd byte in the end padded by 0. -/
def words : List Byte → List Nat
  | [] => []
  | [b] => [b.toNat]
  | a :: b :: rest => (a.toNat + 256 * b.toNat) :: words rest

/-- How many of its full words have their top bit set. -/
def negatives : List Byte → Nat
  | _ :: b :: rest => (if 128 ≤ b.toNat then 1 else 0) + negatives rest
  | _ => 0

theorem words_lt (l : List Byte) : ∀ w ∈ words l, w < 2 ^ 16 := by
  induction l using words.induct with
  | case1 => exact List.forall_mem_nil _
  | case2 b =>
      have hb : b.toNat < 256 := b.isLt
      exact List.forall_mem_singleton.mpr (by omega)
  | case3 a b rest ih =>
      have ha : a.toNat < 256 := a.isLt
      have hb : b.toNat < 256 := b.isLt
      exact List.forall_mem_cons.mpr ⟨by omega, ih⟩

/-- Behind an even number of bytes the words go on. -/
theorem words_append {l : List Byte} (l' : List Byte) (h : l.length % 2 = 0) :
    words (l ++ l') = words l ++ words l' := by
  induction l using words.induct with
  | case1 => rfl
  | case2 b => simp at h
  | case3 a b rest ih =>
      rw [List.cons_append, List.cons_append, words, words, ih (by simp at h; omega)]
      rfl

theorem negatives_le (l : List Byte) : negatives l ≤ l.length / 2 := by
  induction l using negatives.induct with
  | case1 _ b rest ih =>
      rw [negatives, List.length_cons, List.length_cons]
      split <;> omega
  | case2 l hshort =>
      rw [negatives.eq_def]
      split
      · exact absurd rfl (hshort _ _ _)
      · exact Nat.zero_le _

/-- No top bit is set when all high bytes are below 128. -/
theorem negatives_eq_zero_iff (l : List Byte) :
    negatives l = 0 ↔ ∀ k, 2 * k + 1 < l.length → (l.getD (2 * k + 1) 0).toNat < 128 := by
  induction l using negatives.induct with
  | case1 a b rest ih =>
      rw [negatives, Nat.add_eq_zero_iff, ih]
      constructor
      · rintro ⟨hb, hrest⟩ k hk
        cases k with
        | zero =>
            show b.toNat < 128
            split at hb <;> omega
        | succ k => exact hrest k (by simp at hk; omega)
      · intro h
        refine ⟨?_, fun k hk => h (k + 1) (by simp; omega)⟩
        have hb : b.toNat < 128 := h 0 (by simp)
        rw [if_neg (by omega)]
  | case2 l hshort =>
      have hlen : l.length < 2 := by
        rcases l with _ | ⟨a, _ | ⟨b, rest⟩⟩
        · exact Nat.zero_lt_two
        · exact Nat.one_lt_two
        · exact absurd rfl (hshort a b rest)
      rw [negatives.eq_def]
      split
      · exact absurd rfl (hshort _ _ _)
      · exact iff_of_true rfl (fun k hk => absurd hk (by omega))

end OnesComplement
