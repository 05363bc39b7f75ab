import Mathlib.Logic.Function.Basic
import AipPkussm.TransitionProofs

/-! # A room of parties that talk through one queue

    Parties arrive, greet and say things, each at its own pace.  Somebody reads what
    a party wrote, in its order: a greeting makes it a member, anything else goes to
    the end of a common queue.  What is in front of the queue is delivered to all
    members that are to hear it, and what is behind it is lost.

    A room is `Calm` as long as a message goes to the queue only while nothing is in
    it.  Then between two parties nothing is doubled, nothing overtakes and nothing is
    lost but what was delivered before the listener was a member (`heard_suffix`); to
    a member nothing is lost at all (`heard_all`). -/

namespace Room

open Transition

variable {ι μ : Type} [DecidableEq ι]

/-- What a party writes. -/
inductive Note (μ : Type) where
  | greeting
  | message (m : μ)
  deriving DecidableEq

/-- The parties that are there and that have greeted, what is written and not read yet, the
    members, the queue, and what each party has heard from whom. -/
structure State (ι μ : Type) where
  here : ι → Bool
  greeted : ι → Bool
  unread : ι → List (Note μ)
  member : ι → Bool
  queue : List (ι × μ)
  heard : ι → List (ι × μ)

/-- What happens in the room. -/
inductive Act (ι μ : Type) where
  | arrive (i : ι)
  | greet (i : ι)
  | say (i : ι) (m : μ)
  | read (i : ι)
  | deliver
  deriving DecidableEq

/-- One step, where `hears m j` says that `m` is for `j`. -/
def step (hears : μ → ι → Bool) (s : State ι μ) : Act ι μ → Option (State ι μ)
  | .arrive i => if s.here i then none else some { s with here := Function.update s.here i true }
  | .greet i =>
      if s.here i && !s.greeted i then
        some { s with
          greeted := Function.update s.greeted i true
          unread := Function.update s.unread i (s.unread i ++ [.greeting]) }
      else none
  | .say i m =>
      if s.greeted i then
        some { s with unread := Function.update s.unread i (s.unread i ++ [.message m]) }
      else none
  | .read i =>
      match s.unread i with
      | [] => none
      | .greeting :: rest =>
          some { s with
            member := Function.update s.member i true
            unread := Function.update s.unread i rest }
      | .message m :: rest =>
          some { s with
            queue := s.queue ++ [(i, m)]
            unread := Function.update s.unread i rest }
  | .deliver =>
      match s.queue with
      | [] => none
      | e :: _ =>
          -- what is behind the front is lost
          some { s with
            queue := []
            heard := fun j => if s.member j && hears e.2 j then s.heard j ++ [e] else s.heard j }

/-- An empty room. -/
def empty : State ι μ where
  here := fun _ => false
  greeted := fun _ => false
  unread := fun _ => []
  member := fun _ => false
  queue := []
  heard := fun _ => []

/-- The room. -/
def room (hears : μ → ι → Bool) : Machine (State ι μ) (Act ι μ) where
  init := empty
  step := step hears

/-! ## What a step can do -/

/-- The rules of the step function. -/
inductive Step (hears : μ → ι → Bool) (s : State ι μ) : Act ι μ → State ι μ → Prop where
  | arrive {i : ι} (hhere : s.here i = false) :
      Step hears s (.arrive i) { s with here := Function.update s.here i true }
  | greet {i : ι} (hhere : s.here i = true) (hfirst : s.greeted i = false) :
      Step hears s (.greet i)
        { s with
          greeted := Function.update s.greeted i true
          unread := Function.update s.unread i (s.unread i ++ [.greeting]) }
  | say {i : ι} {m : μ} (hgreeted : s.greeted i = true) :
      Step hears s (.say i m)
        { s with unread := Function.update s.unread i (s.unread i ++ [.message m]) }
  | join {i : ι} {rest : List (Note μ)} (hunread : s.unread i = .greeting :: rest) :
      Step hears s (.read i)
        { s with
          member := Function.update s.member i true
          unread := Function.update s.unread i rest }
  | post {i : ι} {m : μ} {rest : List (Note μ)} (hunread : s.unread i = .message m :: rest) :
      Step hears s (.read i)
        { s with
          queue := s.queue ++ [(i, m)]
          unread := Function.update s.unread i rest }
  | deliver {e : ι × μ} {rest : List (ι × μ)} (hqueue : s.queue = e :: rest) :
      Step hears s .deliver
        { s with
          queue := []
          heard := fun j => if s.member j && hears e.2 j then s.heard j ++ [e] else s.heard j }

/-- **STEP INVERSION**: a step is an instance of a rule. -/
theorem rule_of_step {hears : μ → ι → Bool} {s s' : State ι μ} {a : Act ι μ}
    (h : step hears s a = some s') : Step hears s a s' := by
  cases a with
  | arrive i =>
      rw [step] at h
      split at h
      · exact nomatch h
      · next hhere =>
        obtain rfl := Option.some.inj h
        exact Step.arrive ((Bool.not_eq_true _).mp hhere)
  | greet i =>
      rw [step] at h
      split at h
      · next hboth =>
        obtain rfl := Option.some.inj h
        obtain ⟨hhere, hfirst⟩ := (Bool.and_eq_true _ _).mp hboth
        exact Step.greet hhere (by simpa using hfirst)
      · exact nomatch h
  | say i m =>
      rw [step] at h
      split at h
      · next hgreeted =>
        obtain rfl := Option.some.inj h
        exact Step.say hgreeted
      · exact nomatch h
  | read i =>
      rw [step] at h
      split at h
      · exact nomatch h
      · next rest hunread =>
        obtain rfl := Option.some.inj h
        exact Step.join hunread
      · next m rest hunread =>
        obtain rfl := Option.some.inj h
        exact Step.post hunread
  | deliver =>
      rw [step] at h
      split at h
      · exact nomatch h
      · next e rest hqueue =>
        obtain rfl := Option.some.inj h
        exact Step.deliver hqueue

/-! ## Who has said what -/

/-- The messages among some notes. -/
def messages (notes : List (Note μ)) : List μ :=
  notes.filterMap fun n => match n with
    | .greeting => none
    | .message m => some m

/-- What `i` has sent among some entries. -/
def sentBy (i : ι) (es : List (ι × μ)) : List μ :=
  es.filterMap fun e => if e.1 = i then some e.2 else none

/-- What `i` says in an act. -/
def saidBy (i : ι) : Act ι μ → List μ
  | .say i' m => if i' = i then [m] else []
  | .arrive _ => []
  | .greet _ => []
  | .read _ => []
  | .deliver => []

/-- What `i` says in some acts. -/
def saidIn (i : ι) (as : List (Act ι μ)) : List μ := as.flatMap (saidBy i)

/-- What `i` has written for `j` and `j` has not heard yet. -/
def toCome (hears : μ → ι → Bool) (s : State ι μ) (i j : ι) : List μ :=
  (sentBy i s.queue ++ messages (s.unread i)).filter (fun m => hears m j)

theorem saidIn_cons (i : ι) (a : Act ι μ) (as : List (Act ι μ)) :
    saidIn i (a :: as) = saidBy i a ++ saidIn i as := List.flatMap_cons ..

/-- What `i` has written for `j`, heard or not. -/
def between (hears : μ → ι → Bool) (s : State ι μ) (i j : ι) : List μ :=
  sentBy i (s.heard j) ++ toCome hears s i j

@[simp] theorem messages_nil : messages ([] : List (Note μ)) = [] := rfl

theorem messages_append (ns ns' : List (Note μ)) :
    messages (ns ++ ns') = messages ns ++ messages ns' := List.filterMap_append ..

@[simp] theorem messages_greeting (ns : List (Note μ)) :
    messages (.greeting :: ns) = messages ns := rfl

@[simp] theorem messages_message (m : μ) (ns : List (Note μ)) :
    messages (.message m :: ns) = m :: messages ns := rfl

@[simp] theorem sentBy_nil (i : ι) : sentBy i ([] : List (ι × μ)) = [] := rfl

theorem sentBy_append (i : ι) (es es' : List (ι × μ)) :
    sentBy i (es ++ es') = sentBy i es ++ sentBy i es' := List.filterMap_append ..

theorem sentBy_cons (i : ι) (e : ι × μ) (es : List (ι × μ)) :
    sentBy i (e :: es) = if e.1 = i then e.2 :: sentBy i es else sentBy i es := by
  rw [sentBy, List.filterMap_cons]
  by_cases hi : e.1 = i
  · rw [if_pos hi, if_pos hi]
    rfl
  · rw [if_neg hi, if_neg hi]
    rfl

/-! ## Calm rooms -/

/-- Whether a message goes to the queue behind another one. -/
def crowds (s : State ι μ) : Act ι μ → Bool
  | .read i =>
      match s.unread i with
      | .message _ :: _ => !s.queue.isEmpty
      | _ => false
  | _ => false

/-- A message goes to the queue only while nothing is in it. -/
def Calm (s : State ι μ) (a : Act ι μ) : Prop := crowds s a = false

instance decidableCalm (s : State ι μ) (a : Act ι μ) : Decidable (Calm s a) :=
  inferInstanceAs (Decidable (crowds s a = false))

/-- At most one message is in the queue. -/
def Single (s : State ι μ) : Prop := s.queue.length ≤ 1

/-- **STEP**: a calm step leaves at most one message there. -/
theorem Single.step {hears : μ → ι → Bool} {s s' : State ι μ} {a : Act ι μ} (h : Single s)
    (hcalm : Calm s a) (hstep : Step hears s a s') : Single s' := by
  cases hstep with
  | @post i m rest hunread =>
      have hnone : s.queue = [] := by
        rw [Calm, crowds, hunread] at hcalm
        simpa using hcalm
      show (s.queue ++ [(i, m)]).length ≤ 1
      rw [hnone]
      exact Nat.le_refl 1
  | deliver => exact Nat.zero_le 1
  | arrive => exact h
  | greet => exact h
  | say => exact h
  | join => exact h

/-- **RUN**: a calm room never has more. -/
theorem single_of_play {hears : μ → ι → Bool} {as : List (Act ι μ)} {t : State ι μ}
    (hcalm : Follows (room hears) Calm empty as) (hplay : play (room hears) empty as = some t) :
    Single t :=
  Run.invariant (M := room hears) (Nat.zero_le 1)
    (fun _ _ _ h ha hstep => h.step ha (rule_of_step hstep)) (Run.of_play as hcalm hplay)

/-! ## Invariants -/

/-- Nobody writes before greeting, nor greets before arriving, and only members hear. -/
structure Tidy (s : State ι μ) : Prop where
  unread : ∀ i, s.greeted i = false → s.unread i = []
  greeted : ∀ i, s.here i = false → s.greeted i = false
  heard : ∀ j, s.member j = false → s.heard j = []

omit [DecidableEq ι] in
theorem tidy_empty : Tidy (empty : State ι μ) where
  unread := fun _ _ => rfl
  greeted := fun _ _ => rfl
  heard := fun _ _ => rfl

/-- What was `true` before a change to `true` is `true` behind it. -/
theorem of_update_true {f : ι → Bool} {i j : ι} (h : Function.update f i true j = false) :
    j ≠ i ∧ f j = false := by
  by_cases hij : j = i
  · rw [hij, Function.update_self] at h
    exact nomatch h
  · rw [Function.update_of_ne hij] at h
    exact ⟨hij, h⟩

/-- **STEP**: a step keeps the order of things. -/
theorem Tidy.step {hears : μ → ι → Bool} {s s' : State ι μ} {a : Act ι μ} (h : Tidy s)
    (hstep : Step hears s a s') : Tidy s' := by
  cases hstep with
  | arrive hhere => exact ⟨h.unread, fun j hj => h.greeted j (of_update_true hj).2, h.heard⟩
  | greet hhere hfirst =>
      refine ⟨fun j hj => ?_, fun j hj => ?_, h.heard⟩
      · obtain ⟨hne, hold⟩ := of_update_true hj
        exact (Function.update_of_ne hne ..).trans (h.unread j hold)
      · refine (Function.update_of_ne ?_ ..).trans (h.greeted j hj)
        rintro rfl
        exact absurd (hhere.symm.trans hj) Bool.noConfusion
  | say hgreeted =>
      refine ⟨fun j hj => ?_, h.greeted, h.heard⟩
      refine (Function.update_of_ne ?_ ..).trans (h.unread j hj)
      rintro rfl
      exact absurd (hgreeted.symm.trans hj) Bool.noConfusion
  | join hunread =>
      refine ⟨fun j hj => ?_, h.greeted, fun j hj => h.heard j (of_update_true hj).2⟩
      refine (Function.update_of_ne ?_ ..).trans (h.unread j hj)
      rintro rfl
      rw [h.unread _ hj] at hunread
      exact nomatch hunread
  | post hunread =>
      refine ⟨fun j hj => ?_, h.greeted, h.heard⟩
      refine (Function.update_of_ne ?_ ..).trans (h.unread j hj)
      rintro rfl
      rw [h.unread _ hj] at hunread
      exact nomatch hunread
  | deliver hqueue =>
      refine ⟨h.unread, h.greeted, fun j hj => ?_⟩
      have hnone : s.member j = false := hj
      show (if s.member j && hears _ j then _ else s.heard j) = []
      rw [hnone, Bool.false_and, if_neg Bool.false_ne_true]
      exact h.heard j hnone

omit [DecidableEq ι] in
/-- Behind a single message there is none. -/
theorem nothing_behind {s : State ι μ} {e : ι × μ} {rest : List (ι × μ)} (hsingle : Single s)
    (hqueue : s.queue = e :: rest) : rest = [] := by
  rw [Single, hqueue, List.length_cons] at hsingle
  exact List.eq_nil_of_length_eq_zero (by omega)

/-- **STEP**: between two parties a step only adds what the one says, as long as the other
    misses nothing. -/
theorem between_step {hears : μ → ι → Bool} {s s' : State ι μ} {a : Act ι μ} (i j : ι)
    (hsingle : Single s) (hstep : Step hears s a s') (hj : s.member j = true ∨ a ≠ .deliver) :
    between hears s' i j
      = between hears s i j ++ (saidBy i a).filter (fun m => hears m j) := by
  cases hstep with
  | arrive hhere => exact (List.append_nil _).symm
  | @greet i₀ hhere hfirst =>
      rw [saidBy, List.filter_nil, List.append_nil, between, between,
        toCome, toCome]
      by_cases hi : i = i₀
      · subst hi
        simp only [Function.update_self, messages_append, messages_greeting, messages_nil,
          List.append_nil]
      · simp only [Function.update_of_ne hi]
  | @say i₀ m hgreeted =>
      by_cases hi : i₀ = i
      · subst hi
        simp only [between, toCome, Function.update_self, messages_append, messages_message,
          messages_nil, saidBy, if_true, List.filter_append, List.append_assoc]
      · rw [saidBy, if_neg hi, List.filter_nil, List.append_nil, between, between, toCome,
          toCome]
        simp only [Function.update_of_ne (Ne.symm hi)]
  | @join i₀ rest hunread =>
      rw [saidBy, List.filter_nil, List.append_nil, between, between,
        toCome, toCome]
      by_cases hi : i = i₀
      · subst hi
        simp only [Function.update_self, hunread, messages_greeting]
      · simp only [Function.update_of_ne hi]
  | @post i₀ m rest hunread =>
      rw [saidBy, List.filter_nil, List.append_nil, between, between,
        toCome, toCome]
      by_cases hi : i = i₀
      · subst hi
        simp only [Function.update_self, hunread, messages_message, sentBy_append, sentBy_cons,
          if_true, List.append_assoc]
        rfl
      · simp only [Function.update_of_ne hi, sentBy_append, sentBy_cons, if_neg (Ne.symm hi)]
        simp only [sentBy_nil, List.append_nil]
  | @deliver e rest hqueue =>
      have hmember : s.member j = true := hj.resolve_right (fun h => h rfl)
      -- the front is all there is, so nothing is lost
      obtain rfl := nothing_behind hsingle hqueue
      rw [saidBy, List.filter_nil, List.append_nil, between, between,
        toCome, toCome, hqueue]
      simp only [hmember, Bool.true_and, sentBy_cons]
      by_cases hfor : hears e.2 j = true
      · rw [if_pos hfor, sentBy_append, sentBy_cons]
        by_cases hi : e.1 = i
        · simp only [if_pos hi, List.cons_append, List.filter_cons, hfor, if_true, sentBy_nil,
            List.append_assoc, List.nil_append]
        · simp only [if_neg hi, sentBy_nil, List.append_nil]
      · rw [if_neg hfor]
        by_cases hi : e.1 = i
        · simp only [if_pos hi, List.cons_append, List.filter_cons, if_neg hfor]
        · simp only [if_neg hi]

/-- Who is a member stays one. -/
theorem member_step {hears : μ → ι → Bool} {s s' : State ι μ} {a : Act ι μ} {j : ι}
    (hstep : Step hears s a s') (hj : s.member j = true) : s'.member j = true := by
  cases hstep with
  | @join i₀ rest hunread =>
      show Function.update s.member i₀ true j = true
      by_cases hji : j = i₀
      · rw [hji, Function.update_self]
      · rw [Function.update_of_ne hji]
        exact hj
  | arrive => exact hj
  | greet => exact hj
  | say => exact hj
  | post => exact hj
  | deliver => exact hj

/-- What is delivered to somebody who is no member is the next thing to come. -/
theorem missed_step {hears : μ → ι → Bool} {s s' : State ι μ} (h : Tidy s) (i j : ι)
    (hsingle : Single s) (hstep : Step hears s .deliver s') (hj : s.member j = false) :
    between hears s' i j <:+ between hears s i j := by
  cases hstep with
  | @deliver e rest hqueue =>
      have hnone : s.heard j = [] := h.heard j hj
      obtain rfl := nothing_behind hsingle hqueue
      rw [between, between, toCome, toCome, hqueue, hnone]
      simp only [hj, Bool.false_and, Bool.false_eq_true, if_false, hnone, sentBy_nil,
        List.nil_append, sentBy_cons]
      by_cases hi : e.1 = i
      · rw [if_pos hi, List.cons_append, List.filter_cons]
        split
        · exact List.suffix_cons ..
        · exact List.suffix_refl _
      · simp only [if_neg hi, List.nil_append]
        exact List.suffix_refl _

/-! ## Runs -/

/-- **TO A MEMBER** everything comes: what it has heard from somebody, with what is still to
    come, is what it had before and what was said since, in order. -/
theorem heard_all {hears : μ → ι → Bool} {j : ι} (i : ι) {as : List (Act ι μ)} :
    ∀ {s t : State ι μ}, Single s → s.member j = true → Follows (room hears) Calm s as →
      play (room hears) s as = some t → between hears t i j
        = between hears s i j ++ (saidIn i as).filter (fun m => hears m j) := by
  induction as with
  | nil =>
      intro s t _ _ _ hplay
      obtain rfl := Option.some.inj hplay
      exact (List.append_nil _).symm
  | cons a as ih =>
      intro s t hsingle hj hcalm hplay
      obtain ⟨s', hs, hplay'⟩ := play_cons_some hplay
      obtain ⟨ha, hrest⟩ := hcalm
      rw [show (room hears).step s a = some s' from hs] at hrest
      have hstep := rule_of_step hs
      rw [ih (hsingle.step ha hstep) (member_step hstep hj) hrest hplay',
        between_step i j hsingle hstep (Or.inl hj), saidIn_cons, List.filter_append,
        List.append_assoc]

/-- **TO ANYBODY** the last things come, all of them and in order. -/
theorem heard_suffix {hears : μ → ι → Bool} (i j : ι) {as : List (Act ι μ)} :
    ∀ (said : List μ) {s t : State ι μ}, Tidy s → Single s →
      between hears s i j <:+ said.filter (fun m => hears m j) →
      Follows (room hears) Calm s as → play (room hears) s as = some t →
      between hears t i j <:+ (said ++ saidIn i as).filter (fun m => hears m j) := by
  induction as with
  | nil =>
      intro said s t _ _ hsaid _ hplay
      obtain rfl := Option.some.inj hplay
      rw [saidIn, List.flatMap_nil, List.append_nil]
      exact hsaid
  | cons a as ih =>
      intro said s t htidy hsingle hsaid hcalm hplay
      obtain ⟨s', hs, hplay'⟩ := play_cons_some hplay
      obtain ⟨ha, hcalm'⟩ := hcalm
      rw [show (room hears).step s a = some s' from hs] at hcalm'
      have hstep := rule_of_step hs
      rw [saidIn_cons, ← List.append_assoc]
      refine ih (said ++ saidBy i a) (htidy.step hstep) (hsingle.step ha hstep) ?_ hcalm' hplay'
      rw [List.filter_append]
      by_cases hmiss : s.member j = false ∧ a = .deliver
      · obtain ⟨hj, rfl⟩ := hmiss
        rw [saidBy, List.filter_nil, List.append_nil]
        exact (missed_step htidy i j hsingle hstep hj).trans hsaid
      · have hj : s.member j = true ∨ a ≠ .deliver := by
          by_contra hnot
          obtain ⟨hj, ha⟩ := not_or.mp hnot
          exact hmiss ⟨(Bool.not_eq_true _).mp hj, not_not.mp ha⟩
        rw [between_step i j hsingle hstep hj]
        obtain ⟨front, hfront⟩ := hsaid
        exact ⟨front, by rw [← hfront, List.append_assoc]⟩

end Room
