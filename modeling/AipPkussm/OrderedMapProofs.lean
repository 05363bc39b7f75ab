import Mathlib.Data.List.Lex
import Mathlib.Data.List.Perm.Basic
import Mathlib.Data.List.Nodup

/-! # A map kept in the order of its keys

    A list of keys with their values, in strictly ascending order, as an ordered map
    is walked from its beginning to its end.  `alter` changes the value of a key, and
    puts the key in at its place where it is not there.

    What is found after `alter` is what was there before, but for the key
    (`get_alter`), and a map is what is found in it: two ordered lists in which the
    same is found are the same list (`Sorted.ext`). -/

namespace OrderedMap

variable {κ ν : Type} (r : κ → κ → Prop)

/-- Strictly ascending keys. -/
def Sorted (m : List (κ × ν)) : Prop := m.Pairwise (fun e e' => r e.1 e'.1)

/-- The value of `k` becomes `f` of what it was. -/
def alter [DecidableRel r] (k : κ) (f : Option ν → ν) : List (κ × ν) → List (κ × ν)
  | [] => [(k, f none)]
  | e :: m =>
      if r k e.1 then (k, f none) :: e :: m
      else if r e.1 k then e :: alter k f m
      else (e.1, f (some e.2)) :: m

/-- The value of a key. -/
def get [DecidableEq κ] (k : κ) : List (κ × ν) → Option ν
  | [] => none
  | e :: m => if e.1 = k then some e.2 else get k m

section Get

variable {r} [DecidableEq κ]

theorem get_nil (k : κ) : get k ([] : List (κ × ν)) = none := rfl

theorem get_cons (k : κ) (e : κ × ν) (m : List (κ × ν)) :
    get k (e :: m) = if e.1 = k then some e.2 else get k m := rfl

/-- Where a key is not, nothing is found. -/
theorem get_eq_none {k : κ} {m : List (κ × ν)} (h : ∀ e ∈ m, e.1 ≠ k) : get k m = none := by
  induction m with
  | nil => rfl
  | cons e m ih =>
      rw [get_cons, if_neg (h e (List.mem_cons_self ..))]
      exact ih (fun e' he' => h e' (List.mem_cons_of_mem _ he'))

/-- In an ordered map what is there is found. -/
theorem Sorted.get_eq_some [IsStrictTotalOrder κ r] {k : κ} {v : ν} {m : List (κ × ν)}
    (h : Sorted r m) : get k m = some v ↔ (k, v) ∈ m := by
  induction m with
  | nil => exact iff_of_false (Option.some_ne_none v).symm List.not_mem_nil
  | cons e m ih =>
      obtain ⟨hfirst, htail⟩ := List.pairwise_cons.mp h
      rw [get_cons, List.mem_cons]
      by_cases hk : e.1 = k
      · subst hk
        rw [if_pos rfl]
        constructor
        · intro hv
          exact Or.inl (Prod.ext rfl (Option.some.inj hv).symm)
        · rintro (heq | hmem)
          · exact congrArg (fun p => some p.2) heq.symm
          · exact absurd (hfirst _ hmem) (irrefl_of r e.1)
      · rw [if_neg hk, ih htail]
        constructor
        · exact Or.inr
        · rintro (heq | hmem)
          · exact absurd (congrArg Prod.fst heq).symm hk
          · exact hmem

/-- **EXTENSIONALITY**: an ordered map is what is found in it. -/
theorem Sorted.ext [IsStrictTotalOrder κ r] {m m' : List (κ × ν)} (h : Sorted r m)
    (h' : Sorted r m') (heq : ∀ k, get k m = get k m') : m = m' := by
  have hnodup : ∀ {l : List (κ × ν)}, Sorted r l → l.Nodup := by
    intro l hl
    refine List.Pairwise.imp ?_ hl
    rintro e e' hlt rfl
    exact irrefl_of r e.1 hlt
  have hperm : m.Perm m' := by
    rw [List.perm_ext_iff_of_nodup (hnodup h) (hnodup h')]
    rintro ⟨k, v⟩
    rw [← h.get_eq_some, ← h'.get_eq_some, heq k]
  refine hperm.eq_of_pairwise ?_ h h'
  intro e e' _ _ hlt hgt
  exact absurd hgt (asymm_of r hlt)

end Get

section Alter

variable {r} [DecidableRel r] [IsStrictTotalOrder κ r]

omit [DecidableRel r] in
/-- Keys that are neither before nor behind each other are the same. -/
theorem eq_of_not_lt {k k' : κ} (h : ¬ r k k') (h' : ¬ r k' k) : k = k' :=
  Std.Trichotomous.trichotomous (r := r) k k' h h'

omit [IsStrictTotalOrder κ r] in
/-- The keys after `alter`. -/
theorem key_of_mem_alter {k : κ} {f : Option ν → ν} {m : List (κ × ν)} {e : κ × ν}
    (h : e ∈ alter r k f m) : e.1 = k ∨ ∃ e' ∈ m, e'.1 = e.1 := by
  induction m with
  | nil => exact Or.inl (congrArg Prod.fst (List.mem_singleton.mp h))
  | cons e₀ m ih =>
      rw [alter] at h
      split at h
      · rcases List.mem_cons.mp h with rfl | hmem
        · exact Or.inl rfl
        · exact Or.inr ⟨e, hmem, rfl⟩
      · split at h
        · rcases List.mem_cons.mp h with rfl | hmem
          · exact Or.inr ⟨e, List.mem_cons_self .., rfl⟩
          · rcases ih hmem with hk | ⟨e', he', heq⟩
            · exact Or.inl hk
            · exact Or.inr ⟨e', List.mem_cons_of_mem _ he', heq⟩
        · rcases List.mem_cons.mp h with rfl | hmem
          · exact Or.inr ⟨e₀, List.mem_cons_self .., rfl⟩
          · exact Or.inr ⟨e, List.mem_cons_of_mem _ hmem, rfl⟩

/-- **ORDER**: the keys stay in order. -/
theorem Sorted.alter {m : List (κ × ν)} (h : Sorted r m) (k : κ) (f : Option ν → ν) :
    Sorted r (alter r k f m) := by
  induction m with
  | nil => exact List.pairwise_singleton _ _
  | cons e m ih =>
      obtain ⟨hfirst, htail⟩ := List.pairwise_cons.mp h
      rw [OrderedMap.alter]
      split
      · next hlt =>
        refine List.pairwise_cons.mpr ⟨fun e' he' => ?_, h⟩
        rcases List.mem_cons.mp he' with rfl | hmem
        · exact hlt
        · exact trans_of r hlt (hfirst e' hmem)
      · split
        · next hgt =>
          refine List.pairwise_cons.mpr ⟨fun e' he' => ?_, ih htail⟩
          rcases key_of_mem_alter he' with hk | ⟨e'', hmem, hk⟩
          · rw [hk]
            exact hgt
          · rw [← hk]
            exact hfirst e'' hmem
        · exact List.pairwise_cons.mpr ⟨hfirst, htail⟩

/-- **VALUE**: what is found after `alter`. -/
theorem Sorted.get_alter [DecidableEq κ] {m : List (κ × ν)} (h : Sorted r m) (k k' : κ)
    (f : Option ν → ν) :
    get k' (OrderedMap.alter r k f m) = if k' = k then some (f (get k m)) else get k' m := by
  induction m with
  | nil =>
      rw [OrderedMap.alter, get_cons, get_nil, get_nil]
      by_cases hk : k' = k
      · rw [if_pos hk, if_pos hk.symm]
      · rw [if_neg hk, if_neg (Ne.symm hk)]
  | cons e m ih =>
      obtain ⟨hfirst, htail⟩ := List.pairwise_cons.mp h
      rw [OrderedMap.alter]
      split
      · next hlt =>
        -- the key is before all others
        have hnone : get k (e :: m) = none := by
          refine get_eq_none (fun e' he' => ?_)
          rintro rfl
          rcases List.mem_cons.mp he' with rfl | hmem
          · exact irrefl_of r _ hlt
          · exact asymm_of r hlt (hfirst e' hmem)
        rw [get_cons, hnone]
        by_cases hk : k' = k
        · rw [if_pos hk, if_pos hk.symm]
        · rw [if_neg hk, if_neg (Ne.symm hk)]
      · next hle =>
        split
        · next hgt =>
          have hne : e.1 ≠ k := by
            rintro rfl
            exact irrefl_of r _ hgt
          rw [get_cons, ih htail, get_cons k, if_neg hne, get_cons]
          by_cases hk : k' = k
          · rw [hk, if_neg hne, if_pos rfl, if_pos rfl]
          · rw [if_neg hk, if_neg hk]
        · next hge =>
          have heq : k = e.1 := eq_of_not_lt hle hge
          rw [heq, get_cons, get_cons e.1, if_pos rfl, get_cons]
          by_cases hk : e.1 = k'
          · rw [if_pos hk, if_pos hk.symm]
          · rw [if_neg hk, if_neg (Ne.symm hk), if_neg hk]

end Alter

end OrderedMap
