import Mathlib.Data.List.TakeWhile
import Mathlib.Data.List.Forall2

/-! # Lines of fields

    A printed line puts its fields one behind another, with a delimiter between
    them, some of them filled up to a width from the left.  What can be taken
    apart again is what holds no delimiter: a field in front of one
    (`split_unique`), a field with delimiters in front of it as well
    (`split_pad_unique`), and the lines of a text (`lines_unique`). -/

namespace Fields

variable {α : Type} {d : α} {a b l l' : List α}

/-- **FIELD**: in front of the first delimiter stands one field. -/
theorem split_unique (ha : d ∉ a) (hb : d ∉ b) (h : a ++ d :: l = b ++ d :: l') :
    a = b ∧ l = l' := by
  induction a generalizing b with
  | nil =>
      cases b with
      | nil => exact ⟨rfl, (List.cons.inj h).2⟩
      | cons c b =>
          obtain ⟨rfl, -⟩ := List.cons.inj h
          exact absurd (List.mem_cons_self ..) hb
  | cons c a ih =>
      cases b with
      | nil =>
          obtain ⟨rfl, -⟩ := List.cons.inj h
          exact absurd (List.mem_cons_self ..) ha
      | cons c' b =>
          obtain ⟨rfl, htail⟩ := List.cons.inj h
          obtain ⟨rfl, hrest⟩ := ih (fun hd => ha (List.mem_cons_of_mem _ hd))
            (fun hd => hb (List.mem_cons_of_mem _ hd)) htail
          exact ⟨rfl, hrest⟩

/-- A field of at least `n` symbols. -/
def pad (d : α) (n : Nat) (a : List α) : List α := List.replicate (n - a.length) d ++ a

theorem length_pad (n : Nat) (a : List α) : (pad d n a).length = max n a.length := by
  rw [pad, List.length_append, List.length_replicate]
  omega

/-- A field that is long enough stays as it is. -/
theorem pad_of_le {n : Nat} (h : n ≤ a.length) : pad d n a = a := by
  rw [pad, Nat.sub_eq_zero_of_le h]
  rfl

/-- What is filled in is the delimiter. -/
theorem not_mem_pad {c : α} {n : Nat} (hc : c ≠ d) (ha : c ∉ a) : c ∉ pad d n a := by
  intro hmem
  rcases List.mem_append.mp hmem with hfill | hfield
  · exact hc (List.eq_of_mem_replicate hfill)
  · exact ha hfield

section Pad

variable [DecidableEq α]

/-- What was filled in is found again. -/
theorem dropWhile_pad {n : Nat} (hne : a ≠ []) (ha : d ∉ a) (rest : List α) :
    (pad d n a ++ rest).dropWhile (fun x => x = d) = a ++ rest := by
  obtain ⟨c, a', rfl⟩ := List.exists_cons_of_ne_nil hne
  have hfill : ∀ x ∈ List.replicate (n - (c :: a').length) d, decide (x = d) = true := by
    intro x hx
    exact decide_eq_true (List.eq_of_mem_replicate hx)
  have hfirst : c ≠ d := by
    rintro rfl
    exact ha (List.mem_cons_self ..)
  rw [pad, List.append_assoc, List.dropWhile_append_of_pos hfill, List.cons_append,
    List.dropWhile_cons_of_neg (by simpa using hfirst)]

/-- **FILLED FIELD**: in front of the first delimiter stands one field, also when it was
    filled up to some width. -/
theorem split_pad_unique {n m : Nat} (hne : a ≠ []) (hne' : b ≠ []) (ha : d ∉ a) (hb : d ∉ b)
    (h : pad d n a ++ d :: l = pad d m b ++ d :: l') : a = b ∧ l = l' := by
  have hdrop := congrArg (List.dropWhile (fun x => decide (x = d))) h
  rw [dropWhile_pad hne ha, dropWhile_pad hne' hb] at hdrop
  exact split_unique ha hb hdrop

/-- A filled field on its own. -/
theorem pad_inj {n m : Nat} (hne : a ≠ []) (hne' : b ≠ []) (ha : d ∉ a) (hb : d ∉ b)
    (h : pad d n a = pad d m b) : a = b := by
  have hdrop := congrArg (List.dropWhile (fun x => decide (x = d))) h
  rw [← List.append_nil (pad d n a), ← List.append_nil (pad d m b), dropWhile_pad hne ha,
    dropWhile_pad hne' hb, List.append_nil, List.append_nil] at hdrop
  exact hdrop

end Pad

/-- **LINES**: a text is taken apart into its lines. -/
theorem lines_unique {as bs : List (List α)} (has : ∀ a ∈ as, d ∉ a) (hbs : ∀ b ∈ bs, d ∉ b)
    (h : as.flatMap (fun a => a ++ [d]) = bs.flatMap (fun b => b ++ [d])) : as = bs := by
  induction as generalizing bs with
  | nil =>
      cases bs with
      | nil => rfl
      | cons b bs =>
          rw [List.flatMap_nil, List.flatMap_cons] at h
          exact absurd (List.append_eq_nil_iff.mp (List.append_eq_nil_iff.mp h.symm).1).2
            (List.cons_ne_nil d [])
  | cons a as ih =>
      cases bs with
      | nil =>
          rw [List.flatMap_nil, List.flatMap_cons] at h
          exact absurd (List.append_eq_nil_iff.mp (List.append_eq_nil_iff.mp h).1).2
            (List.cons_ne_nil d [])
      | cons b bs =>
          rw [List.flatMap_cons, List.flatMap_cons, List.append_assoc, List.append_assoc] at h
          obtain ⟨rfl, hrest⟩ := split_unique (has a (List.mem_cons_self ..))
            (hbs b (List.mem_cons_self ..)) h
          rw [ih (fun x hx => has x (List.mem_cons_of_mem _ hx))
            (fun x hx => hbs x (List.mem_cons_of_mem _ hx)) hrest]

end Fields
