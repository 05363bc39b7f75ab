import Mathlib.Data.List.TakeWhile
import Mathlib.Data.List.Infix

/-! # Splitting at the matches of a regular expression

    A match is tried alternative by alternative and repetition greedily, the first
    success counts: `ends` lists what may be left behind a match at the front, in
    the order in which it is tried.  `search` is the leftmost match, and `tokens`
    what stands between successive matches, with the tail unless it is empty.

    `Splits` says the same without fuel; for expressions that match nothing empty
    the two agree (`splits_tokens`), and `Splits` determines the tokens. -/

namespace RegexSplit

variable {α : Type*}

/-- Regular expressions over classes of characters. -/
inductive Pattern (α : Type*) where
  | set (p : α → Bool)
  | alt (e f : Pattern α)
  | seq (e f : Pattern α)
  | opt (e : Pattern α)
  | plus (e : Pattern α)

/-- Once or more often, as often as possible first. -/
def repeats (ends : List α → List (List α)) : Nat → List α → List (List α)
  | 0, _ => []
  | fuel + 1, l =>
    (ends l).flatMap fun rest =>
      if rest.length < l.length then repeats ends fuel rest ++ [rest] else [rest]

/-- What is left behind a match at the front, in the order of preference. -/
def ends : Pattern α → List α → List (List α)
  | .set _, [] => []
  | .set p, c :: l => if p c then [l] else []
  | .alt e f, l => ends e l ++ ends f l
  | .seq e f, l => (ends e l).flatMap (ends f)
  | .opt e, l => ends e l ++ [l]
  | .plus e, l => repeats (ends e) (l.length + 1) l

/-- An expression that matches nothing empty. -/
def Pattern.consumes : Pattern α → Bool
  | .set _ => true
  | .alt e f => e.consumes && f.consumes
  | .seq e f => e.consumes || f.consumes
  | .opt _ => false
  | .plus e => e.consumes

/-- The leftmost match: what is before it and what is behind it. -/
def search (e : Pattern α) : List α → Option (List α × List α)
  | [] => (ends e []).head?.map fun rest => ([], rest)
  | c :: l =>
    match (ends e (c :: l)).head? with
    | some rest => some ([], rest)
    | none => (search e l).map fun m => (c :: m.1, m.2)

/-- What stands between successive matches, and the tail unless it is empty. -/
def tokens (e : Pattern α) : Nat → List α → List (List α)
  | 0, _ => []
  | fuel + 1, l =>
    match search e l with
    | some (pre, rest) => pre :: tokens e fuel rest
    | none => if l.isEmpty then [] else [l]

/-- A list with the tokens it is split into. -/
inductive Splits (e : Pattern α) : List α → List (List α) → Prop where
  | done : search e [] = none → Splits e [] []
  | tail {l : List α} : l ≠ [] → search e l = none → Splits e l [l]
  | token {l pre rest : List α} {ts : List (List α)} :
      search e l = some (pre, rest) → Splits e rest ts → Splits e l (pre :: ts)

/-! ## Matching -/

@[simp] theorem ends_set_nil (p : α → Bool) : ends (.set p) [] = [] := rfl

@[simp] theorem ends_set_cons (p : α → Bool) (c : α) (l : List α) :
    ends (.set p) (c :: l) = if p c then [l] else [] := rfl

@[simp] theorem ends_alt (e f : Pattern α) (l : List α) :
    ends (.alt e f) l = ends e l ++ ends f l := rfl

@[simp] theorem ends_seq (e f : Pattern α) (l : List α) :
    ends (.seq e f) l = (ends e l).flatMap (ends f) := rfl

@[simp] theorem ends_opt (e : Pattern α) (l : List α) : ends (.opt e) l = ends e l ++ [l] := rfl

theorem of_mem_repeats {m : List α → List (List α)} {P : Nat → Nat → Prop}
    (hstep : ∀ l, ∀ rest ∈ m l, P rest.length l.length)
    (htrans : ∀ i j k, P i j → P j k → P i k) {fuel : Nat} {l rest : List α}
    (hmem : rest ∈ repeats m fuel l) : P rest.length l.length := by
  induction fuel generalizing l with
  | zero => simp [repeats] at hmem
  | succ fuel ih =>
    obtain ⟨next, hnext, hrest⟩ := List.mem_flatMap.mp hmem
    have hone := hstep l next hnext
    split at hrest
    · rcases List.mem_append.mp hrest with hrest | hrest
      · exact htrans _ _ _ (ih hrest) hone
      · obtain rfl := List.mem_singleton.mp hrest
        exact hone
    · obtain rfl := List.mem_singleton.mp hrest
      exact hone

/-- A match does not add to the list. -/
theorem length_le_of_mem_ends {e : Pattern α} {l rest : List α} (hmem : rest ∈ ends e l) :
    rest.length ≤ l.length := by
  induction e generalizing l rest with
  | set p =>
    cases l with
    | nil => simp at hmem
    | cons c l =>
      obtain ⟨-, rfl⟩ : p c = true ∧ rest = l := by simpa using hmem
      simp
  | alt e f ihe ihf =>
    rcases List.mem_append.mp hmem with hmem | hmem
    · exact ihe hmem
    · exact ihf hmem
  | seq e f ihe ihf =>
    obtain ⟨next, hnext, hrest⟩ := List.mem_flatMap.mp hmem
    exact Nat.le_trans (ihf hrest) (ihe hnext)
  | opt e ih =>
    rcases List.mem_append.mp hmem with hmem | hmem
    · exact ih hmem
    · obtain rfl := List.mem_singleton.mp hmem
      exact Nat.le_refl _
  | plus e ih =>
    exact of_mem_repeats (P := (· ≤ ·)) (fun l rest => ih) (fun i j k => Nat.le_trans) hmem

/-- A match of an expression that matches nothing empty takes something away. -/
theorem length_lt_of_mem_ends {e : Pattern α} (hconsumes : e.consumes = true) {l rest : List α}
    (hmem : rest ∈ ends e l) : rest.length < l.length := by
  induction e generalizing l rest with
  | set p =>
    cases l with
    | nil => simp at hmem
    | cons c l =>
      obtain ⟨-, rfl⟩ : p c = true ∧ rest = l := by simpa using hmem
      simp
  | alt e f ihe ihf =>
    obtain ⟨he, hf⟩ := Bool.and_eq_true_iff.mp hconsumes
    rcases List.mem_append.mp hmem with hmem | hmem
    · exact ihe he hmem
    · exact ihf hf hmem
  | seq e f ihe ihf =>
    obtain ⟨next, hnext, hrest⟩ := List.mem_flatMap.mp hmem
    rcases Bool.or_eq_true_iff.mp hconsumes with he | hf
    · exact Nat.lt_of_le_of_lt (length_le_of_mem_ends hrest) (ihe he hnext)
    · exact Nat.lt_of_lt_of_le (ihf hf hrest) (length_le_of_mem_ends hnext)
  | opt e ih => simp [Pattern.consumes] at hconsumes
  | plus e ih =>
    exact of_mem_repeats (P := (· < ·)) (fun l rest => ih hconsumes)
      (fun i j k => Nat.lt_trans) hmem

theorem head?_repeats_set (p : α → Bool) {fuel : Nat} {l : List α} (hfuel : l.length < fuel) :
    (repeats (ends (.set p)) fuel l).head?
      = if l.head?.any p then some (l.dropWhile p) else none := by
  induction l generalizing fuel with
  | nil =>
    obtain ⟨fuel, rfl⟩ := Nat.exists_eq_add_of_lt hfuel
    rfl
  | cons c l ih =>
    cases fuel with
    | zero => omega
    | succ fuel =>
      cases hc : p c
      · simp [repeats, hc]
      · have hlt : l.length < fuel := by simpa using hfuel
        have ih := ih hlt
        have hrest : (repeats (ends (.set p)) (fuel + 1) (c :: l)).head?
            = (repeats (ends (.set p)) fuel l ++ [l]).head? := by
          simp [repeats, hc]
        rw [hrest, List.head?_append, ih]
        cases l with
        | nil => simp [hc]
        | cons d l => cases hd : p d <;> simp [hc, hd]

/-- A class is repeated as far as it goes. -/
theorem head?_ends_plus_set (p : α → Bool) (l : List α) :
    (ends (.plus (.set p)) l).head? = if l.head?.any p then some (l.dropWhile p) else none :=
  head?_repeats_set p (Nat.lt_succ_self _)

/-! ## Searching -/

theorem search_of_match {e : Pattern α} {l rest : List α} (h : (ends e l).head? = some rest) :
    search e l = some ([], rest) := by
  cases l <;> simp [search, h]

/-- Where no match can start the search goes on. -/
theorem search_append {e : Pattern α} {pre : List α}
    (hpre : ∀ c ∈ pre, ∀ l, ends e (c :: l) = []) (l : List α) :
    search e (pre ++ l) = (search e l).map fun m => (pre ++ m.1, m.2) := by
  induction pre with
  | nil => simp
  | cons c pre ih =>
    have ih := ih fun d hd => hpre d (List.mem_cons_of_mem c hd)
    rw [List.cons_append, search, hpre c (by simp), ih]
    simp [Function.comp_def]

/-- What a search finds: a match, with no match before it. -/
theorem of_search {e : Pattern α} {l pre rest : List α} (h : search e l = some (pre, rest)) :
    ∃ found, l = pre ++ found ∧ (ends e found).head? = some rest
      ∧ ∀ c ∈ pre, ∃ l', ends e (c :: l') = [] := by
  induction l generalizing pre with
  | nil =>
    obtain ⟨rest', hends, heq⟩ := Option.map_eq_some_iff.mp h
    obtain ⟨rfl, rfl⟩ := Prod.mk.inj heq
    exact ⟨[], rfl, hends, by simp⟩
  | cons c l ih =>
    rw [search] at h
    cases hends : (ends e (c :: l)).head? with
    | some rest' =>
      rw [hends] at h
      obtain ⟨rfl, rfl⟩ := Prod.mk.inj (Option.some.inj h)
      exact ⟨c :: l, rfl, hends, by simp⟩
    | none =>
      rw [hends] at h
      obtain ⟨⟨pre', rest'⟩, hsearch, heq⟩ := Option.map_eq_some_iff.mp h
      obtain ⟨rfl, rfl⟩ := Prod.mk.inj heq
      obtain ⟨found, rfl, hfound, hclear⟩ := ih hsearch
      refine ⟨found, rfl, hfound, ?_⟩
      intro d hd
      rcases List.mem_cons.mp hd with rfl | hd
      · exact ⟨pre' ++ found, List.head?_eq_none_iff.mp hends⟩
      · exact hclear d hd

/-! ## Splitting -/

/-- **TOKENS**: when every match takes something, there is a split, and it is computed. -/
theorem splits_tokens {e : Pattern α} (hconsumes : e.consumes = true) {fuel : Nat}
    {l : List α} (hfuel : l.length < fuel) : Splits e l (tokens e fuel l) := by
  induction fuel generalizing l with
  | zero => omega
  | succ fuel ih =>
    rw [tokens]
    cases hsearch : search e l with
    | none =>
      cases l with
      | nil => exact .done hsearch
      | cons c l => exact .tail (List.cons_ne_nil c l) hsearch
    | some m =>
      obtain ⟨pre, rest⟩ := m
      obtain ⟨found, rfl, hfound, -⟩ := of_search hsearch
      have hlt := length_lt_of_mem_ends hconsumes (List.mem_of_mem_head? hfound)
      refine .token hsearch (ih ?_)
      rw [List.length_append] at hfuel
      omega

theorem Splits.unique {e : Pattern α} {l : List α} {ts ts' : List (List α)}
    (h : Splits e l ts) (h' : Splits e l ts') : ts = ts' := by
  induction h generalizing ts' with
  | done hnone =>
    cases h' with
    | done _ => rfl
    | tail hne _ => exact absurd rfl hne
    | token hsome _ => simp [hnone] at hsome
  | tail hne hnone =>
    cases h' with
    | done _ => exact absurd rfl hne
    | tail _ _ => rfl
    | token hsome _ => simp [hnone] at hsome
  | token hsome _ ih =>
    cases h' with
    | done hnone => simp [hnone] at hsome
    | tail _ hnone => simp [hnone] at hsome
    | token hsome' hrest =>
      rw [hsome] at hsome'
      obtain ⟨rfl, rfl⟩ := Prod.mk.inj (Option.some.inj hsome')
      rw [ih hrest]

end RegexSplit
