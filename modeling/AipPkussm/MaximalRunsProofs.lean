import Mathlib.Data.List.Pairwise
import Mathlib.Data.List.Nodup
import Mathlib.Data.List.Sort
import Mathlib.Data.Set.Card

/-! # Maximal runs — the words between separators

    A run stands in a list at a position: it is nonempty, has no separator, and a
    separator or the end of the list is on either side (`IsRun`).  `runs` lists the
    runs from left to right, `words` forgets the positions.

    Leaving out separators can only join runs, so it leaves the words alone exactly
    when it leaves their number alone (`words_filter`, `length_words_filter_lt`). -/

namespace MaximalRuns

variable {α : Type*} (sep : α → Bool)

/-- `w` stands at position `i` of `l` as a maximal run of elements that are no separators. -/
structure IsRun (l : List α) (i : Nat) (w : List α) : Prop where
  nonempty : w ≠ []
  inside : ∀ c ∈ w, sep c = false
  stands : ∃ pre post, l = pre ++ (w ++ post) ∧ pre.length = i
    ∧ (∀ c ∈ pre.getLast?, sep c = true) ∧ (∀ c ∈ post.head?, sep c = true)

/-- A list opens with a run. -/
def opens (l : List α) : Bool := l.head?.any (!sep ·)

/-- A list ends in a run. -/
def endsOpen (l : List α) : Bool := l.getLast?.any (!sep ·)

/-- The runs of a list with their positions, from left to right. -/
def runs : List α → List (Nat × List α)
  | [] => []
  | c :: l =>
    let later := (runs l).map fun r => (r.1 + 1, r.2)
    if sep c then later
    else if opens sep l then later.modifyHead fun r => (0, c :: r.2)
    else (0, [c]) :: later

/-- The runs of a list, from left to right. -/
def words (l : List α) : List (List α) := (runs sep l).map Prod.snd

/-! ## Recursion equations -/

@[simp] theorem words_nil : words sep ([] : List α) = [] := rfl

@[simp] theorem opens_nil : opens sep ([] : List α) = false := rfl

@[simp] theorem opens_cons (c : α) (l : List α) : opens sep (c :: l) = !sep c := rfl

variable {sep}

theorem words_cons_sep {c : α} (hsep : sep c = true) (l : List α) :
    words sep (c :: l) = words sep l := by
  simp [words, runs, hsep, Function.comp_def]

theorem words_cons_opens {c : α} {l : List α} (hsep : sep c = false) (hopens : opens sep l = true) :
    words sep (c :: l) = (words sep l).modifyHead (c :: ·) := by
  cases hruns : runs sep l <;>
    simp [words, runs, hsep, hopens, hruns, Function.comp_def]

theorem words_cons_new {c : α} {l : List α} (hsep : sep c = false) (hopens : opens sep l = false) :
    words sep (c :: l) = [c] :: words sep l := by
  simp [words, runs, hsep, hopens, Function.comp_def]

/-- A word is added where a run opens. -/
theorem length_words_cons (c : α) (l : List α) :
    (words sep (c :: l)).length
      = (words sep l).length + if sep c = false ∧ opens sep l = false then 1 else 0 := by
  cases hsep : sep c
  · cases hopens : opens sep l
    · simp [words_cons_new hsep hopens]
    · simp [words_cons_opens hsep hopens]
  · simp [words_cons_sep hsep]

theorem words_ne_nil_of_opens {l : List α} (hopens : opens sep l = true) : words sep l ≠ [] := by
  cases l with
  | nil => simp at hopens
  | cons c l =>
    have hsep : sep c = false := by simpa using hopens
    cases hnext : opens sep l
    · simp [words_cons_new hsep hnext]
    · have hne := words_ne_nil_of_opens hnext
      simpa [words_cons_opens hsep hnext] using hne

/-! ## The list of runs -/

theorem IsRun.opens {l w : List α} (h : IsRun sep l 0 w) : opens sep l = true := by
  obtain ⟨pre, post, rfl, hpos, -, -⟩ := h.stands
  obtain rfl : pre = [] := List.length_eq_zero_iff.mp hpos
  cases w with
  | nil => exact absurd rfl h.nonempty
  | cons c w => simp [h.inside c (by simp)]

/-- Past the first element a run stands where it stood, unless it opens the tail and
    the first element is part of it. -/
theorem isRun_cons_succ {c : α} {l w : List α} {i : Nat} :
    IsRun sep (c :: l) (i + 1) w ↔ IsRun sep l i w ∧ (i = 0 → sep c = true) := by
  constructor
  · rintro ⟨hne, hin, pre, post, heq, hpos, hleft, hright⟩
    cases pre with
    | nil => simp at hpos
    | cons d pre =>
      obtain ⟨rfl, rfl⟩ := List.cons.inj heq
      obtain rfl : pre.length = i := by simpa using hpos
      refine ⟨⟨hne, hin, pre, post, rfl, rfl, ?_, hright⟩, ?_⟩
      · intro e he
        exact hleft e (by rw [Option.mem_def] at he ⊢; rw [List.getLast?_cons, he]; rfl)
      · intro hzero
        obtain rfl : pre = [] := List.length_eq_zero_iff.mp hzero
        exact hleft c (by simp)
  · rintro ⟨⟨hne, hin, pre, post, rfl, rfl, hleft, hright⟩, hsep⟩
    refine ⟨hne, hin, c :: pre, post, rfl, rfl, ?_, hright⟩
    intro e he
    cases pre with
    | nil =>
      obtain rfl : c = e := by simpa using he
      exact hsep rfl
    | cons d pre => exact hleft e (by simpa using he)

/-- The run at the very start. -/
theorem isRun_cons_zero {c : α} {l w : List α} :
    IsRun sep (c :: l) 0 w ↔ sep c = false
      ∧ (opens sep l = false ∧ w = [c] ∨ ∃ w', w = c :: w' ∧ IsRun sep l 0 w') := by
  constructor
  · rintro ⟨hne, hin, pre, post, heq, hpos, hleft, hright⟩
    obtain rfl : pre = [] := List.length_eq_zero_iff.mp hpos
    cases w with
    | nil => exact absurd rfl hne
    | cons d w =>
      obtain ⟨rfl, rfl⟩ := List.cons.inj heq
      refine ⟨hin c (by simp), ?_⟩
      cases w with
      | nil =>
        left
        refine ⟨?_, rfl⟩
        cases post with
        | nil => rfl
        | cons e post => simpa using hright e (by simp)
      | cons e w =>
        right
        refine ⟨e :: w, rfl, by simp, ?_, [], post, rfl, rfl, by simp, hright⟩
        intro f hf
        exact hin f (List.mem_cons_of_mem c hf)
  · rintro ⟨hsep, ⟨hopens, rfl⟩ | ⟨w', rfl, hne, hin, pre, post, heq, hpos, -, hright⟩⟩
    · refine ⟨by simp, by simpa using hsep, [], l, rfl, rfl, by simp, ?_⟩
      intro e he
      cases l with
      | nil => simp at he
      | cons d l =>
        obtain rfl : d = e := by simpa using he
        simpa using hopens
    · obtain rfl : pre = [] := List.length_eq_zero_iff.mp hpos
      refine ⟨by simp, ?_, [], post, by rw [heq]; rfl, rfl, by simp, hright⟩
      intro e he
      rcases List.mem_cons.mp he with rfl | he
      · exact hsep
      · exact hin e he

theorem not_isRun_nil {i : Nat} {w : List α} : ¬ IsRun sep [] i w := by
  rintro ⟨hne, -, pre, post, heq, -, -, -⟩
  have hw : w = [] := by
    have := List.append_eq_nil_iff.mp heq.symm
    exact (List.append_eq_nil_iff.mp this.2).1
  exact hne hw

theorem runs_of_opens {l : List α} (hopens : opens sep l = true) :
    ∃ w later, runs sep l = (0, w) :: later := by
  cases l with
  | nil => simp at hopens
  | cons c l =>
    have hsep : sep c = false := by simpa using hopens
    cases hnext : opens sep l
    · exact ⟨[c], _, by simp only [runs, hsep, hnext]; rfl⟩
    · obtain ⟨w, later, hruns⟩ := runs_of_opens hnext
      exact ⟨c :: w, later.map fun r => (r.1 + 1, r.2), by
        simp [runs, hsep, hnext, hruns]⟩

/-- The positions increase. -/
theorem sorted_runs (l : List α) : (runs sep l).Pairwise (·.1 < ·.1) := by
  induction l with
  | nil => exact List.Pairwise.nil
  | cons c l ih =>
    have hlater : ((runs sep l).map fun r => (r.1 + 1, r.2)).Pairwise (·.1 < ·.1) := by
      refine List.pairwise_map.mpr (ih.imp ?_)
      intro r r' hlt
      exact Nat.succ_lt_succ hlt
    cases hsep : sep c
    · cases hopens : opens sep l
      · simp only [runs, hsep, hopens, Bool.false_eq_true, if_false]
        refine List.Pairwise.cons ?_ hlater
        intro r hr
        obtain ⟨r', -, rfl⟩ := List.mem_map.mp hr
        exact Nat.succ_pos _
      · obtain ⟨w, later, hruns⟩ := runs_of_opens hopens
        rw [hruns, List.map_cons] at hlater
        obtain ⟨hhead, htail⟩ := List.pairwise_cons.mp hlater
        simp only [runs, hsep, hopens, hruns, Bool.false_eq_true, if_false, if_true,
          List.map_cons, List.modifyHead_cons]
        refine List.Pairwise.cons ?_ htail
        intro r hr
        exact Nat.lt_trans Nat.zero_lt_one (hhead r hr)
    · simpa only [runs, hsep, if_true] using hlater

/-- The list of runs holds the runs. -/
theorem mem_runs {l w : List α} {i : Nat} : (i, w) ∈ runs sep l ↔ IsRun sep l i w := by
  induction l generalizing i w with
  | nil => simp [runs, not_isRun_nil]
  | cons c l ih =>
    have hnone : opens sep l = false → ∀ w', ¬ IsRun sep l 0 w' := by
      intro hopens w' hrun
      simp [hrun.opens] at hopens
    cases hsep : sep c
    · cases hopens : opens sep l
      · -- a symbol in front of a separator, or of nothing, is a run of its own
        cases i with
        | zero => simp [runs, hsep, hopens, isRun_cons_zero, hnone hopens]
        | succ i =>
          have hpos : IsRun sep l i w → ¬ i = 0 := by
            rintro hrun rfl
            exact hnone hopens w hrun
          simpa [runs, hsep, hopens, isRun_cons_succ, ih] using hpos
      · -- a symbol in front of a run is put to it
        obtain ⟨w₀, later, hruns⟩ := runs_of_opens hopens
        have hpos : ∀ r ∈ later, 0 < r.1 := by
          have hsorted : (runs sep l).Pairwise (·.1 < ·.1) := sorted_runs l
          rw [hruns] at hsorted
          exact (List.pairwise_cons.mp hsorted).1
        cases i with
        | zero =>
          have hfirst : ∀ w', IsRun sep l 0 w' ↔ w' = w₀ := by
            intro w'
            rw [← ih, hruns, List.mem_cons, Prod.mk.injEq]
            constructor
            · rintro (⟨-, rfl⟩ | hmem)
              · rfl
              · exact absurd (hpos _ hmem) (Nat.lt_irrefl 0)
            · rintro rfl
              exact Or.inl ⟨rfl, rfl⟩
          simp [runs, hsep, hopens, hruns, isRun_cons_zero, hfirst]
        | succ i =>
          have hlater : (i, w) ∈ later ↔ (i, w) ∈ runs sep l ∧ ¬ i = 0 := by
            rw [hruns, List.mem_cons, Prod.mk.injEq]
            constructor
            · intro hmem
              exact ⟨Or.inr hmem, Nat.ne_of_gt (hpos _ hmem)⟩
            · rintro ⟨⟨hzero, -⟩ | hmem, hne⟩
              · exact absurd hzero hne
              · exact hmem
          have hcons : runs sep (c :: l)
              = (0, c :: w₀) :: later.map fun r => (r.1 + 1, r.2) := by
            simp [runs, hsep, hopens, hruns]
          rw [hcons, isRun_cons_succ, ← ih]
          simpa [hsep] using hlater
    · cases i with
      | zero => simp [runs, hsep, isRun_cons_zero]
      | succ i => simp [runs, hsep, isRun_cons_succ, ih]

/-- **OCCURRENCES**: a word is listed as often as it stands in the list as a run. -/
theorem count_words [DecidableEq α] (l w : List α) :
    (words sep l).count w = Set.ncard {i | IsRun sep l i w} := by
  have hnodup : ((runs sep l).map Prod.fst).Nodup :=
    (List.pairwise_map.mpr ((sorted_runs l).imp fun h => Nat.ne_of_lt h))
  have hset : {i | IsRun sep l i w}
      = ((((runs sep l).filter (·.2 == w)).map Prod.fst).toFinset : Set Nat) := by
    ext i
    simp [← mem_runs]
  have hsub : (((runs sep l).filter (·.2 == w)).map Prod.fst).Nodup :=
    hnodup.sublist (List.filter_sublist.map Prod.fst)
  rw [hset, Set.ncard_coe_finset, List.toFinset_card_of_nodup hsub, List.length_map, words,
    List.count_eq_countP, List.countP_map, List.countP_eq_length_filter]
  rfl

theorem mem_words {l w : List α} : w ∈ words sep l ↔ ∃ i, IsRun sep l i w := by
  simp [words, mem_runs]

/-- `ws` is the runs of a list in order of occurrence: none is left out, nothing else is
    in, and each is there once for the place where it stands. -/
def Listed (sep : α → Bool) (l : List α) (ws : List (List α)) : Prop :=
  ∃ rs : List (Nat × List α), ws = rs.map Prod.snd ∧ rs.Pairwise (fun r r' => r.1 < r'.1)
    ∧ ∀ i w, (i, w) ∈ rs ↔ IsRun sep l i w

/-- **IN ORDER**: there is one list of the runs. -/
theorem listed_iff {l : List α} {ws : List (List α)} : Listed sep l ws ↔ ws = words sep l := by
  constructor
  · rintro ⟨rs, rfl, hsorted, hmem⟩
    have : Std.Irrefl fun r r' : Nat × List α => r.1 < r'.1 :=
      ⟨fun r => Nat.lt_irrefl r.1⟩
    have : Std.Antisymm fun r r' : Nat × List α => r.1 < r'.1 :=
      ⟨fun _ _ hlt hgt => absurd hgt (Nat.lt_asymm hlt)⟩
    have heq : rs = runs sep l := hsorted.eq_of_mem_iff (sorted_runs l) fun r =>
      (hmem r.1 r.2).trans mem_runs.symm
    rw [heq, words]
  · rintro rfl
    exact ⟨runs sep l, rfl, sorted_runs l, fun i w => mem_runs⟩

/-! ## Words of an append -/

/-- A separator parts the words before it from those after it. -/
theorem words_append_sep (u : List α) {c : α} (hsep : sep c = true) (l : List α) :
    words sep (u ++ c :: l) = words sep u ++ words sep l := by
  induction u with
  | nil => exact words_cons_sep hsep l
  | cons d u ih =>
    cases hd : sep d
    · have hopens : opens sep (u ++ c :: l) = opens sep u := by
        cases u with
        | nil => simp [hsep]
        | cons e u => rfl
      rw [List.cons_append]
      cases hu : opens sep u
      · rw [words_cons_new hd (hopens.trans hu), words_cons_new hd hu, ih, List.cons_append]
      · rw [words_cons_opens hd (hopens.trans hu), words_cons_opens hd hu, ih]
        cases hwords : words sep u with
        | nil => exact absurd hwords (words_ne_nil_of_opens hu)
        | cons w ws => rfl
    · rw [List.cons_append, words_cons_sep hd, words_cons_sep hd, ih]

/-- What has no separator is one word. -/
theorem words_of_inside {w : List α} (hne : w ≠ []) (hin : ∀ c ∈ w, sep c = false) :
    words sep w = [w] := by
  induction w with
  | nil => exact absurd rfl hne
  | cons c w ih =>
    have hc : sep c = false := hin c (by simp)
    cases w with
    | nil => exact words_cons_new hc rfl
    | cons d w =>
      have hd : opens sep (d :: w) = true := by simp [hin d (by simp)]
      rw [words_cons_opens hc hd, ih (by simp) fun e he => hin e (List.mem_cons_of_mem c he)]
      rfl

/-! ## Words that a separator ends -/

/-- The words of a list, less one at its very end. -/
def closedWords (sep : α → Bool) (l : List α) : List (List α) :=
  if endsOpen sep l then (words sep l).dropLast else words sep l

theorem endsOpen_append_sep (u : List α) {c : α} (hsep : sep c = true) (l : List α) :
    endsOpen sep (u ++ c :: l) = endsOpen sep l := by
  cases l with
  | nil => simp [endsOpen, hsep]
  | cons d l => simp [endsOpen, List.getLast?_append, List.getLast?_cons]

theorem words_ne_nil_of_endsOpen {l : List α} (hopen : endsOpen sep l = true) :
    words sep l ≠ [] := by
  induction l with
  | nil => simp [endsOpen] at hopen
  | cons c l ih =>
    cases l with
    | nil =>
      have hsep : sep c = false := by simpa [endsOpen] using hopen
      exact words_ne_nil_of_opens (by simp [hsep])
    | cons d l =>
      have hne := ih (by simpa [endsOpen, List.getLast?_cons_cons] using hopen)
      have hlen := @length_words_cons _ sep c (d :: l)
      intro hnil
      rw [hnil] at hlen
      exact hne (List.length_eq_zero_iff.mp (by simp only [List.length_nil] at hlen; omega))

theorem closedWords_append_sep (u : List α) {c : α} (hsep : sep c = true) (l : List α) :
    closedWords sep (u ++ c :: l) = words sep u ++ closedWords sep l := by
  rw [closedWords, closedWords, endsOpen_append_sep u hsep, words_append_sep u hsep]
  cases hopen : endsOpen sep l
  · rfl
  · exact List.dropLast_append_of_ne_nil (words_ne_nil_of_endsOpen hopen)

theorem closedWords_of_inside {w : List α} (hin : ∀ c ∈ w, sep c = false) :
    closedWords sep w = [] := by
  cases w with
  | nil => rfl
  | cons c w =>
    have hlast : endsOpen sep (c :: w) = true := by
      rw [endsOpen, List.getLast?_eq_some_getLast (List.cons_ne_nil c w)]
      simp [hin _ (List.getLast_mem (List.cons_ne_nil c w))]
    rw [closedWords, hlast, if_pos rfl, words_of_inside (List.cons_ne_nil c w) hin]
    rfl

theorem length_closedWords_le (l : List α) :
    (closedWords sep l).length ≤ (words sep l).length := by
  rw [closedWords]
  split
  · simp
  · exact Nat.le_refl _

/-- All words are there when none is at the very end. -/
theorem closedWords_eq_words_iff {l : List α} :
    closedWords sep l = words sep l ↔ ∀ c ∈ l.getLast?, sep c = true := by
  have hends : endsOpen sep l = false ↔ ∀ c ∈ l.getLast?, sep c = true := by
    rw [endsOpen]
    cases l.getLast? <;> simp
  rw [← hends, closedWords]
  cases hopen : endsOpen sep l with
  | false => simp
  | true =>
    have hne := words_ne_nil_of_endsOpen hopen
    rw [if_pos rfl, iff_false_right (by simp)]
    intro heq
    have hlen := congrArg List.length heq
    have hpos := List.length_pos_of_ne_nil hne
    rw [List.length_dropLast] at hlen
    omega

/-- A word at the very end is lost. -/
theorem length_closedWords_lt {l : List α} (hopen : endsOpen sep l = true) :
    (closedWords sep l).length < (words sep l).length := by
  have hpos := List.length_pos_of_ne_nil (words_ne_nil_of_endsOpen hopen)
  rw [closedWords, hopen, if_pos rfl, List.length_dropLast]
  omega

/-! ## Leaving out separators -/

/-- Runs are joined: between two of them stand elements that are left out, and nothing else. -/
def Joins (sep keep : α → Bool) (l : List α) : Prop :=
  ∃ pre a ns b post, l = pre ++ a :: (ns ++ b :: post) ∧ ns ≠ []
    ∧ (∀ c ∈ ns, keep c = false) ∧ sep a = false ∧ sep b = false

variable {keep : α → Bool}

/-- What is left opens with a run behind what is left out. -/
theorem opens_filter {l : List α} : opens sep (l.filter keep) = true
    ↔ ∃ ns b post, l = ns ++ b :: post ∧ (∀ c ∈ ns, keep c = false) ∧ keep b = true
      ∧ sep b = false := by
  have hhead : opens sep (l.filter keep) = true ↔ ∃ b, l.find? keep = some b ∧ sep b = false := by
    rw [opens, List.head?_filter]
    cases l.find? keep <;> simp
  rw [hhead]
  constructor
  · rintro ⟨b, hfind, hsep⟩
    obtain ⟨hkeep, ns, post, rfl, hns⟩ := List.find?_eq_some_iff_append.mp hfind
    exact ⟨ns, b, post, rfl, fun c hc => by simpa using hns c hc, hkeep, hsep⟩
  · rintro ⟨ns, b, post, rfl, hns, hkeep, hsep⟩
    refine ⟨b, List.find?_eq_some_iff_append.mpr ⟨hkeep, ns, post, rfl, ?_⟩, hsep⟩
    intro c hc
    simp [hns c hc]

theorem keep_of_inside (hdrop : ∀ c, keep c = false → sep c = true) {c : α}
    (hsep : sep c = false) : keep c = true := by
  by_contra hkeep
  simp [hdrop c (by simpa using hkeep)] at hsep

/-- Only separators are left out, so what opens with a run still does. -/
theorem opens_filter_of_opens (hdrop : ∀ c, keep c = false → sep c = true) {l : List α}
    (hopens : opens sep l = true) : opens sep (l.filter keep) = true := by
  cases l with
  | nil => simp at hopens
  | cons b l =>
    have hb : sep b = false := by simpa using hopens
    exact opens_filter.mpr ⟨[], b, l, rfl, by simp, keep_of_inside hdrop hb, hb⟩

theorem closed_of_filter (hdrop : ∀ c, keep c = false → sep c = true) {l : List α}
    (hclosed : opens sep (l.filter keep) = false) : opens sep l = false := by
  by_contra hopens
  have := opens_filter_of_opens hdrop (l := l) (by simpa using hopens)
  simp [this] at hclosed

/-- Runs are joined at the front, or further on. -/
theorem joins_cons (hdrop : ∀ c, keep c = false → sep c = true) {c : α} {l : List α} :
    Joins sep keep (c :: l) ↔ Joins sep keep l
      ∨ sep c = false ∧ opens sep l = false ∧ opens sep (l.filter keep) = true := by
  constructor
  · rintro ⟨pre, a, ns, b, post, heq, hne, hns, ha, hb⟩
    cases pre with
    | nil =>
      obtain ⟨rfl, rfl⟩ := List.cons.inj heq
      right
      refine ⟨ha, ?_, opens_filter.mpr ⟨ns, b, post, rfl, hns, keep_of_inside hdrop hb, hb⟩⟩
      cases ns with
      | nil => exact absurd rfl hne
      | cons d ns => simp [hdrop d (hns d (by simp))]
    | cons d pre =>
      obtain ⟨rfl, rfl⟩ := List.cons.inj heq
      exact Or.inl ⟨pre, a, ns, b, post, rfl, hne, hns, ha, hb⟩
  · rintro (⟨pre, a, ns, b, post, rfl, hne, hns, ha, hb⟩ | ⟨hc, hclosed, hopens⟩)
    · exact ⟨c :: pre, a, ns, b, post, rfl, hne, hns, ha, hb⟩
    · obtain ⟨ns, b, post, rfl, hns, -, hb⟩ := opens_filter.mp hopens
      refine ⟨[], c, ns, b, post, rfl, ?_, hns, hc, hb⟩
      rintro rfl
      simp [hb] at hclosed

/-- **NO JOIN**: where no runs are joined, the words stay the same. -/
theorem words_filter (hdrop : ∀ c, keep c = false → sep c = true) {l : List α}
    (hjoins : ¬ Joins sep keep l) : words sep (l.filter keep) = words sep l := by
  induction l with
  | nil => rfl
  | cons c l ih =>
    rw [joins_cons hdrop, not_or] at hjoins
    have ih := ih hjoins.1
    cases hsep : sep c
    · rw [List.filter_cons_of_pos (keep_of_inside hdrop hsep)]
      cases hopens : opens sep l
      · have hopens' : opens sep (l.filter keep) = false := by
          by_contra hopens'
          exact hjoins.2 ⟨hsep, hopens, by simpa using hopens'⟩
        rw [words_cons_new hsep hopens', words_cons_new hsep hopens, ih]
      · rw [words_cons_opens hsep (opens_filter_of_opens hdrop hopens),
          words_cons_opens hsep hopens, ih]
    · cases hkeep : keep c
      · rw [List.filter_cons_of_neg (by simp [hkeep]), words_cons_sep hsep, ih]
      · rw [List.filter_cons_of_pos hkeep, words_cons_sep hsep, words_cons_sep hsep, ih]

/-- A word more at the front is a word more after the filter, unless it is joined there. -/
theorem length_words_filter_cons (hdrop : ∀ c, keep c = false → sep c = true) (c : α)
    (l : List α) :
    (words sep ((c :: l).filter keep)).length = (words sep (l.filter keep)).length
      + if sep c = false ∧ opens sep (l.filter keep) = false then 1 else 0 := by
  cases hkeep : keep c
  · rw [List.filter_cons_of_neg (by simp [hkeep])]
    simp [hdrop c hkeep]
  · rw [List.filter_cons_of_pos hkeep, length_words_cons]

theorem length_words_filter_le (hdrop : ∀ c, keep c = false → sep c = true) (l : List α) :
    (words sep (l.filter keep)).length ≤ (words sep l).length := by
  induction l with
  | nil => exact Nat.le_refl _
  | cons c l ih =>
    rw [length_words_filter_cons hdrop, length_words_cons]
    by_cases hnew : sep c = false ∧ opens sep (l.filter keep) = false
    · rw [if_pos hnew, if_pos ⟨hnew.1, closed_of_filter hdrop hnew.2⟩]
      omega
    · rw [if_neg hnew]
      omega

/-- **JOIN**: where runs are joined, words are lost. -/
theorem length_words_filter_lt (hdrop : ∀ c, keep c = false → sep c = true) {l : List α}
    (hjoins : Joins sep keep l) : (words sep (l.filter keep)).length < (words sep l).length := by
  induction l with
  | nil =>
    obtain ⟨pre, a, ns, b, post, heq, -⟩ := hjoins
    simp at heq
  | cons c l ih =>
    have hle := length_words_filter_le hdrop l
    rw [length_words_filter_cons hdrop, length_words_cons]
    rcases (joins_cons hdrop).mp hjoins with hlater | ⟨hsep, hclosed, hopens⟩
    · have hlt := ih hlater
      by_cases hnew : sep c = false ∧ opens sep (l.filter keep) = false
      · rw [if_pos hnew, if_pos ⟨hnew.1, closed_of_filter hdrop hnew.2⟩]
        omega
      · rw [if_neg hnew]
        omega
    · rw [if_neg (by simp [hopens]), if_pos ⟨hsep, hclosed⟩]
      omega

end MaximalRuns
