import Mathlib.Data.List.Sublists

/-! # Labelled machines — guarded runs, invariants and simulation

    A machine is a start state and a partial step function; a label is enabled
    in a state when the step function is defined there.  A GUARDED run takes
    only steps whose label and state before it meet a condition.  Three rules
    carry the run-level results built on this file:

    * `Run.invariant`: what one step preserves, a whole run preserves;
    * `Run.simulate`: a machine whose steps are matched by another one reaches
      only states that the other one reaches, up to the relation;
    * `Run.of_play`: a concrete list of labels gives a run.

    `follows_congr` compares two conditions along a list of labels, and
    `play_follows` tells the plays that meet a condition all along from those
    that break something for good. -/

namespace Transition

variable {σ τ α β : Type}

/-- A machine: a start state, and what a label does to a state (`none` where
    the label is not enabled). -/
structure Machine (σ α : Type) where
  init : σ
  step : σ → α → Option σ

/-- The states reached by runs whose every step meets `allowed`, a condition on
    the state before the step and on the label. -/
inductive Run (M : Machine σ α) (allowed : σ → α → Prop) : σ → Prop where
  | start : Run M allowed M.init
  | next {s s' : σ} {a : α} : Run M allowed s → allowed s a →
      M.step s a = some s' → Run M allowed s'

/-- No condition: every enabled step may be taken. -/
def anyStep : σ → α → Prop := fun _ _ => True

/-- The state after a list of labels, each enabled in its turn. -/
def play (M : Machine σ α) : σ → List α → Option σ
  | s, [] => some s
  | s, a :: as => (M.step s a).bind (fun s' => play M s' as)

/-- Every step of a list of labels meets `allowed`. -/
def Follows (M : Machine σ α) (allowed : σ → α → Prop) : σ → List α → Prop
  | _, [] => True
  | s, a :: as => allowed s a ∧
      (match M.step s a with
        | none => True
        | some s' => Follows M allowed s' as)

instance followsDecidable (M : Machine σ α) (allowed : σ → α → Prop)
    [∀ s a, Decidable (allowed s a)] :
    (s : σ) → (as : List α) → Decidable (Follows M allowed s as)
  | _, [] => isTrue trivial
  | s, a :: as =>
      @instDecidableAnd _ _ inferInstance
        (match M.step s a with
          | none => isTrue trivial
          | some s' => followsDecidable M allowed s' as)

/-- One more label in front. -/
theorem Follows.cons {M : Machine σ α} {allowed : σ → α → Prop} {s s' : σ} {a : α}
    {as : List α} (ha : allowed s a) (hs : M.step s a = some s')
    (h : Follows M allowed s' as) : Follows M allowed s (a :: as) := by
  refine ⟨ha, ?_⟩
  rw [hs]
  exact h

/-- A condition that is weaker for the labels of a list is met along it. -/
theorem Follows.imp_of_mem {M : Machine σ α} {p q : σ → α → Prop} {s : σ} {as : List α}
    (himp : ∀ a ∈ as, ∀ s, p s a → q s a) (h : Follows M p s as) : Follows M q s as := by
  induction as generalizing s with
  | nil => trivial
  | cons a as ih =>
      obtain ⟨ha, hrest⟩ := h
      refine ⟨himp a (List.mem_cons_self ..) s ha, ?_⟩
      cases hstep : M.step s a with
      | none => trivial
      | some s' =>
          rw [hstep] at hrest
          exact ih (fun b hb => himp b (List.mem_cons_of_mem a hb)) hrest

/-- A weaker condition is met along the same lists. -/
theorem Follows.imp {M : Machine σ α} {p q : σ → α → Prop} (himp : ∀ s a, p s a → q s a)
    {s : σ} {as : List α} (h : Follows M p s as) : Follows M q s as :=
  h.imp_of_mem (fun a _ s => himp s a)

theorem play_cons (M : Machine σ α) (s : σ) (a : α) (as : List α) :
    play M s (a :: as) = (M.step s a).bind (fun s' => play M s' as) := rfl

/-- A first step and the play after it. -/
theorem play_cons_some {M : Machine σ α} {s t : σ} {a : α} {as : List α}
    (h : play M s (a :: as) = some t) :
    ∃ s', M.step s a = some s' ∧ play M s' as = some t := by
  rw [play_cons] at h
  cases hs : M.step s a with
  | none =>
      rw [hs] at h
      exact nomatch h
  | some s' =>
      rw [hs] at h
      exact ⟨s', rfl, h⟩

/-- Playing two lists is playing them one after the other. -/
theorem play_append (M : Machine σ α) (s : σ) (as bs : List α) :
    play M s (as ++ bs) = (play M s as).bind (fun s' => play M s' bs) := by
  induction as generalizing s with
  | nil => rfl
  | cons a as ih =>
      rw [List.cons_append, play_cons, play_cons]
      cases M.step s a with
      | none => rfl
      | some s' => exact ih s'

/-- The state before a label of a play, and the step the label took. -/
theorem play_split {M : Machine σ α} {s t : σ} {as bs : List α} {a : α}
    (h : play M s (as ++ a :: bs) = some t) :
    ∃ s₁ s₂, play M s as = some s₁ ∧ M.step s₁ a = some s₂ := by
  rw [play_append] at h
  cases h₁ : play M s as with
  | none =>
      rw [h₁] at h
      exact nomatch h
  | some s₁ =>
      rw [h₁] at h
      obtain ⟨s₂, h₂, -⟩ := play_cons_some h
      exact ⟨s₁, s₂, rfl, h₂⟩

namespace Run

variable {M : Machine σ α} {N : Machine τ β}
variable {allowed : σ → α → Prop} {permitted : τ → β → Prop}

/-- **RUN INVARIANT**: what holds at the start and is kept by each allowed step
    holds in every state reached. -/
theorem invariant {I : σ → Prop} (h0 : I M.init)
    (hstep : ∀ s a s', I s → allowed s a → M.step s a = some s' → I s')
    {s : σ} (h : Run M allowed s) : I s := by
  induction h with
  | start => exact h0
  | next _ ha hs ih => exact hstep _ _ _ ih ha hs

/-- A weaker condition allows more runs. -/
theorem mono {allowed' : σ → α → Prop}
    (himp : ∀ s a, allowed s a → allowed' s a)
    {s : σ} (h : Run M allowed s) : Run M allowed' s := by
  induction h with
  | start => exact Run.start
  | next _ ha hs ih => exact Run.next ih (himp _ _ ha) hs

/-- **FORWARD SIMULATION**: when every allowed step of `M` is matched by no step
    or by one permitted step of `N`, every state `M` reaches is related to one
    that `N` reaches. -/
theorem simulate {R : σ → τ → Prop} (h0 : R M.init N.init)
    (hstep : ∀ s t a s', R s t → allowed s a → M.step s a = some s' →
      R s' t ∨ ∃ b t', permitted t b ∧ N.step t b = some t' ∧ R s' t')
    {s : σ} (h : Run M allowed s) : ∃ t, Run N permitted t ∧ R s t := by
  induction h with
  | start => exact ⟨N.init, Run.start, h0⟩
  | next _ ha hs ih =>
      obtain ⟨t, ht, hR⟩ := ih
      rcases hstep _ t _ _ hR ha hs with hkeep | ⟨b, t', hp, hb, hR'⟩
      · exact ⟨t, ht, hkeep⟩
      · exact ⟨t', Run.next ht hp hb, hR'⟩

/-- One step. -/
theorem single {f : σ → α → Option σ} {s s' : σ} {a : α} (ha : allowed s a)
    (hs : f s a = some s') : Run ⟨s, f⟩ allowed s' :=
  Run.next Run.start ha hs

/-- A run from where another one ended. -/
theorem trans {f : σ → α → Option σ} {s s' s'' : σ} (h : Run ⟨s, f⟩ allowed s')
    (h' : Run ⟨s', f⟩ allowed s'') : Run ⟨s, f⟩ allowed s'' := by
  induction h' with
  | start => exact h
  | next _ ha hs ih => exact Run.next ih ha hs

/-- A run goes on along a list of labels that meets the condition. -/
theorem play_from {s t : σ} (h : Run M allowed s) :
    ∀ as : List α, Follows M allowed s as → play M s as = some t →
      Run M allowed t := by
  intro as
  induction as generalizing s with
  | nil =>
      intro _ hp
      rw [← Option.some.inj hp]
      exact h
  | cons a as ih =>
      intro hf hp
      obtain ⟨s', hs, hp'⟩ := play_cons_some hp
      obtain ⟨ha, hrest⟩ := hf
      rw [hs] at hrest
      exact ih (Run.next h ha hs) hrest hp'

/-- A concrete list of labels gives a run from the start. -/
theorem of_play {t : σ} (as : List α) (hf : Follows M allowed M.init as)
    (hp : play M M.init as = some t) : Run M allowed t :=
  play_from Run.start as hf hp

end Run

/-- A condition on labels alone is met along a list when each label meets it. -/
theorem follows_of_forall {M : Machine σ α} {allowed : σ → α → Prop}
    (as : List α) (h : ∀ a ∈ as, ∀ s, allowed s a) (s : σ) :
    Follows M allowed s as := by
  induction as generalizing s with
  | nil => trivial
  | cons a as ih =>
      refine ⟨h a (List.mem_cons_self ..) s, ?_⟩
      cases M.step s a with
      | none => trivial
      | some s' => exact ih (fun b hb => h b (List.mem_cons_of_mem a hb)) s'

/-- Conversely, when all labels of the list are taken. -/
theorem forall_of_follows {M : Machine σ α} {q : α → Prop} {s t : σ} {as : List α}
    (hf : Follows M (fun _ a => q a) s as) (hp : play M s as = some t) : ∀ a ∈ as, q a := by
  induction as generalizing s with
  | nil => exact fun a ha => absurd ha List.not_mem_nil
  | cons a as ih =>
      obtain ⟨s', hs, hp'⟩ := play_cons_some hp
      obtain ⟨ha, hrest⟩ := hf
      rw [hs] at hrest
      intro b hb
      rcases List.mem_cons.mp hb with rfl | hb'
      · exact ha
      · exact ih hrest hp' b hb'

/-- Two conditions that agree wherever an invariant holds are met along the same
    lists, among those that keep the invariant. -/
theorem follows_congr {M : Machine σ α} {I : σ → Prop} {g p q : σ → α → Prop}
    (hI : ∀ s a s', I s → g s a → M.step s a = some s' → I s')
    (hpq : ∀ s a, I s → g s a → (p s a ↔ q s a)) (as : List α) :
    ∀ s, I s → Follows M g s as → (Follows M p s as ↔ Follows M q s as) := by
  induction as with
  | nil => exact fun _ _ _ => Iff.rfl
  | cons a as ih =>
      intro s hs hg
      obtain ⟨hga, hrest⟩ := hg
      refine and_congr (hpq s a hs hga) ?_
      cases hstep : M.step s a with
      | none => exact Iff.rfl
      | some s' =>
          rw [hstep] at hrest
          exact ih s' (hI s a s' hs hga hstep) hrest

/-- What holds all along a play holds at its start. -/
theorem of_follows_always {M : Machine σ α} {I : σ → Prop} {s t : σ} {as : List α}
    (hf : Follows M (fun s _ => I s) s as) (ht : I t) (hp : play M s as = some t) : I s := by
  cases as with
  | nil =>
      rw [Option.some.inj hp]
      exact ht
  | cons a as => exact hf.1

/-- A fact that a step keeps exactly when it meets `p` holds all along a play
    exactly when every step of it does. -/
theorem always_iff_follows {M : Machine σ α} {I : σ → Prop} {p : σ → α → Prop}
    (hstep : ∀ s a s', I s → M.step s a = some s' → (p s a ↔ I s')) (as : List α) :
    ∀ s t, I s → play M s as = some t →
      ((Follows M (fun s _ => I s) s as ∧ I t) ↔ Follows M p s as) := by
  induction as with
  | nil =>
      intro s t hs hp
      rw [← Option.some.inj hp]
      exact iff_of_true ⟨trivial, hs⟩ trivial
  | cons a as ih =>
      intro s t hs hp
      obtain ⟨s', hs', hp'⟩ := play_cons_some hp
      have hI : Follows M (fun s _ => I s) s (a :: as)
          ↔ Follows M (fun s _ => I s) s' as := by
        rw [Follows, hs']
        exact and_iff_right hs
      have hpf : Follows M p s (a :: as) ↔ p s a ∧ Follows M p s' as := by
        rw [Follows, hs']
      rw [hI, hpf, hstep s a s' hs hs']
      constructor
      · rintro ⟨hf, ht⟩
        have hmid := of_follows_always hf ht hp'
        exact ⟨hmid, (ih s' t hmid hp').mp ⟨hf, ht⟩⟩
      · rintro ⟨hmid, hf⟩
        exact (ih s' t hmid hp').mpr hf

/-- **PLAYED ALONG**: what one machine plays the other one plays, label for label, when each
    allowed step of the first is matched by a permitted step of the second. -/
theorem play_simulate_guarded {γ : Type} {M : Machine σ α} {N : Machine τ β} {R : σ → τ → Prop}
    {allowed : σ → α → Prop} {permitted : τ → β → Prop} {f : γ → α} {g : γ → β}
    (hstep : ∀ s t c s', R s t → allowed s (f c) → M.step s (f c) = some s' →
      permitted t (g c) ∧ ∃ t', N.step t (g c) = some t' ∧ R s' t') (cs : List γ) :
    ∀ s t s', R s t → Follows M allowed s (cs.map f) → play M s (cs.map f) = some s' →
      ∃ t', play N t (cs.map g) = some t' ∧ Follows N permitted t (cs.map g) ∧ R s' t' := by
  induction cs with
  | nil =>
      intro s t s' hR _ hplay
      obtain rfl := Option.some.inj hplay
      exact ⟨t, rfl, trivial, hR⟩
  | cons c cs ih =>
      intro s t s' hR hfollows hplay
      obtain ⟨s₁, hs₁, hplay₁⟩ := play_cons_some hplay
      obtain ⟨hallowed, hrest⟩ := hfollows
      rw [hs₁] at hrest
      obtain ⟨hpermitted, t₁, ht₁, hR₁⟩ := hstep s t c s₁ hR hallowed hs₁
      obtain ⟨t', ht', hfollows', hR'⟩ := ih s₁ t₁ s' hR₁ hrest hplay₁
      refine ⟨t', ?_, hfollows'.cons hpermitted ht₁, hR'⟩
      rw [List.map_cons, play_cons, ht₁, Option.bind_some, ht']

/-- A step that is simulated under every label gives a run that is simulated. -/
theorem play_simulate {γ : Type} {M : Machine σ α} {N : Machine τ β} {R : σ → τ → Prop}
    {f : γ → α} {g : γ → β}
    (hstep : ∀ s t c s', R s t → M.step s (f c) = some s' →
      ∃ t', N.step t (g c) = some t' ∧ R s' t') (cs : List γ) (s : σ) (t : τ) (s' : σ)
    (hR : R s t) (hplay : play M s (cs.map f) = some s') :
    ∃ t', play N t (cs.map g) = some t' ∧ R s' t' := by
  have hany : Follows M anyStep s (cs.map f) := follows_of_forall _ (fun _ _ _ => trivial) s
  have hguarded : ∀ s t c s', R s t → anyStep s (f c) → M.step s (f c) = some s' →
      anyStep t (g c) ∧ ∃ t', N.step t (g c) = some t' ∧ R s' t' :=
    fun s t c s' hR _ hs => ⟨trivial, hstep s t c s' hR hs⟩
  obtain ⟨t', ht', -, hR'⟩ := play_simulate_guarded hguarded cs s t s' hR hany hplay
  exact ⟨t', ht', hR'⟩

/-- A step that breaks something for good: a play of steps that meet `g` meets `p` all
    along and ends with `I`, or it does not and ends with `B`. -/
theorem play_follows_guarded {M : Machine σ α} {I B : σ → Prop} {g p : σ → α → Prop}
    (hkeep : ∀ s a s', I s → g s a → p s a → M.step s a = some s' → I s')
    (hbreak : ∀ s a s', I s → g s a → ¬ p s a → M.step s a = some s' → B s')
    (hstay : ∀ s a s', B s → M.step s a = some s' → B s') (as : List α) :
    ∀ s t, I s → Follows M g s as → play M s as = some t →
      (Follows M p s as ∧ I t) ∨ (¬ Follows M p s as ∧ B t) := by
  have hbroken : ∀ (bs : List α) (s t : σ), B s → play M s bs = some t → B t := by
    intro bs
    induction bs with
    | nil =>
        intro s t hs hp
        rwa [← Option.some.inj hp]
    | cons b bs ih =>
        intro s t hs hp
        obtain ⟨s', hstep, hp'⟩ := play_cons_some hp
        exact ih s' t (hstay s b s' hs hstep) hp'
  induction as with
  | nil =>
      intro s t hs _ hp
      rw [← Option.some.inj hp]
      exact Or.inl ⟨trivial, hs⟩
  | cons a as ih =>
      intro s t hs hg hp
      obtain ⟨s', hstep, hp'⟩ := play_cons_some hp
      obtain ⟨hga, hrest⟩ := hg
      rw [hstep] at hrest
      have hfollows : Follows M p s (a :: as) ↔ p s a ∧ Follows M p s' as := by
        rw [Follows, hstep]
      by_cases hpa : p s a
      · rcases ih s' t (hkeep s a s' hs hga hpa hstep) hrest hp' with ⟨hf, ht⟩ | ⟨hf, ht⟩
        · exact Or.inl ⟨hfollows.mpr ⟨hpa, hf⟩, ht⟩
        · exact Or.inr ⟨fun h => hf (hfollows.mp h).2, ht⟩
      · exact Or.inr ⟨fun h => hpa (hfollows.mp h).1,
          hbroken as s' t (hbreak s a s' hs hga hpa hstep) hp'⟩

/-- An invariant that stands or breaks with `p`, under a condition `g` on the labels
    alone. -/
theorem play_follows {M : Machine σ α} {I B : σ → Prop} {g : α → Prop} {p : σ → α → Prop}
    (hkeep : ∀ s a s', I s → g a → p s a → M.step s a = some s' → I s')
    (hbreak : ∀ s a s', I s → g a → ¬ p s a → M.step s a = some s' → B s')
    (hstay : ∀ s a s', B s → M.step s a = some s' → B s') (as : List α) (s t : σ)
    (hs : I s) (hg : ∀ a ∈ as, g a) (hplay : play M s as = some t) :
    (Follows M p s as ∧ I t) ∨ (¬ Follows M p s as ∧ B t) :=
  play_follows_guarded (g := fun _ a => g a) hkeep hbreak hstay as s t hs
    (follows_of_forall as (fun a ha _ => hg a ha) s) hplay

end Transition
