import Mathlib.Data.Fintype.Pigeonhole
import Mathlib.Logic.Relation
import Mathlib.Order.WellFounded

/-! # Nested calls — recursion over finitely many keys

    A recursion is a relation between a call and the calls it makes.  Each call that
    makes one works on a key, and there are finitely many keys.

    A chain of nested calls cannot be long without a key coming again, so a recursion
    in which none does is well founded (`acc_of_not_repeats`).  Where the key decides
    what a call does, it is the other way round as well: what has come again once
    comes again for ever (`not_repeats_of_acc`). -/

namespace NestedCalls

open Relation

variable {α β : Type*} {calls : α → α → Prop} {key : α → Option β}

/-- Among a call and those made on behalf of it are two, one made on behalf of the other,
    that work on one key. -/
def Repeats (calls : α → α → Prop) (key : α → Option β) (a : α) : Prop :=
  ∃ b c k, ReflTransGen calls a b ∧ TransGen calls b c ∧ key b = some k ∧ key c = some k

theorem reflTransGen_chain {f : ℕ → α} (hf : ∀ n, calls (f n) (f (n + 1))) (n : ℕ) :
    ReflTransGen calls (f 0) (f n) := by
  induction n with
  | zero => exact ReflTransGen.refl
  | succ n ih => exact ih.tail (hf n)

theorem transGen_chain {f : ℕ → α} (hf : ∀ n, calls (f n) (f (n + 1))) {m n : ℕ}
    (hlt : m < n) : TransGen calls (f m) (f n) := by
  induction n with
  | zero => exact absurd hlt (Nat.not_lt_zero m)
  | succ n ih =>
    rcases Nat.lt_succ_iff_lt_or_eq.mp hlt with hlt | rfl
    · exact (ih hlt).tail (hf n)
    · exact TransGen.single (hf m)

/-- **NO KEY TWICE**: the recursion ends, for an endless chain of calls has more calls than
    there are keys. -/
theorem acc_of_not_repeats [Finite β] (hkey : ∀ a b, calls a b → ∃ k, key a = some k) {a : α}
    (h : ¬ Repeats calls key a) : Acc (Function.swap calls) a := by
  by_contra hacc
  obtain ⟨f, rfl, hf⟩ := not_acc_iff_exists_descending_chain.mp hacc
  choose k hk using fun n => hkey (f n) (f (n + 1)) (hf n)
  obtain ⟨m, n, hne, heq⟩ := Finite.exists_ne_map_eq_of_infinite k
  have hrepeats : ∀ {m n}, m < n → k m = k n → Repeats calls key (f 0) := by
    intro m n hlt heq
    exact ⟨f m, f n, k m, reflTransGen_chain hf m, transGen_chain hf hlt, hk m,
      (hk n).trans (congrArg some heq.symm)⟩
  rcases Nat.lt_or_gt_of_ne hne with hlt | hlt
  · exact h (hrepeats hlt heq)
  · exact h (hrepeats hlt heq.symm)

section Decided

variable (hsame : ∀ a b c k, key a = some k → key b = some k → calls a c →
  ∃ c', calls b c' ∧ key c' = key c)

include hsame

/-- A chain of calls can be made again from a call with the same key. -/
theorem transGen_again (hkey : ∀ a b, calls a b → ∃ k, key a = some k) {a b c : α} {k : β}
    (ha : key a = some k) (hb : key b = some k) (h : TransGen calls a c) :
    ∃ c', TransGen calls b c' ∧ key c' = key c := by
  induction h with
  | single hcall =>
    obtain ⟨c', hcall', heq⟩ := hsame _ _ _ k ha hb hcall
    exact ⟨c', TransGen.single hcall', heq⟩
  | tail _ hcall ih =>
    obtain ⟨d', hd', heq⟩ := ih
    obtain ⟨k', hk'⟩ := hkey _ _ hcall
    obtain ⟨c', hcall', heq'⟩ := hsame _ _ _ k' hk' (heq.trans hk') hcall
    exact ⟨c', hd'.tail hcall', heq'⟩

/-- **A KEY AGAIN**: the recursion does not end, for the second call with the key does what
    the first did. -/
theorem not_repeats_of_acc (hkey : ∀ a b, calls a b → ∃ k, key a = some k) {a : α}
    (hacc : Acc (Function.swap calls) a) : ¬ Repeats calls key a := by
  rintro ⟨b, c, k, hab, hbc, hkb, hkc⟩
  have hb : Acc (TransGen (Function.swap calls)) b := by
    rcases reflTransGen_iff_eq_or_transGen.mp hab with rfl | hab
    · exact hacc.transGen
    · exact hacc.transGen.inv (transGen_swap.mpr hab)
  -- by induction on `b`: the chain from `b` to `c` can be made again from `c`
  induction hb generalizing c with
  | intro b _ ih =>
    obtain ⟨c', hcc', heq⟩ := transGen_again hsame hkey hkb hkc hbc
    exact ih c (transGen_swap.mpr hbc) c' (hab.trans hbc.to_reflTransGen) hcc' hkc
      (heq.trans hkc)

end Decided

end NestedCalls
