import Mathlib.Data.List.Basic

/-! # Words of a code on a shared stream

    Several writers append words of a code to one stream, each word in one or
    more pieces.  Here every symbol keeps the number of the word it belongs to,
    so that a stream is WHOLE when it is a sequence of words each of which
    stands in it in one piece.

    When no word of the code is the beginning of another, a word with a foreign
    symbol in the middle spoils the stream for good (`not_whole_of_cut`). -/

namespace Interleave

variable {β φ : Type} {code : φ → List β}

/-- The symbols of a word with its number. -/
def tag (n : Nat) (l : List β) : List (Nat × β) := l.map (fun b => (n, b))

@[simp] theorem tag_nil (n : Nat) : tag n ([] : List β) = [] := rfl

@[simp] theorem tag_append (n : Nat) (l l' : List β) :
    tag n (l ++ l') = tag n l ++ tag n l' := List.map_append

/-- The symbols without their numbers. -/
@[simp] theorem map_snd_tag (n : Nat) (l : List β) : (tag n l).map Prod.snd = l := by
  rw [tag, List.map_map]
  exact List.map_id' l

theorem fst_of_mem_tag {n : Nat} {l : List β} {x : Nat × β} (h : x ∈ tag n l) :
    x.1 = n := by
  obtain ⟨b, -, rfl⟩ := List.mem_map.mp h
  rfl

/-- The stream of numbered words, each in one piece. -/
def words (code : φ → List β) (ws : List (Nat × φ)) : List (Nat × β) :=
  ws.flatMap (fun w => tag w.1 (code w.2))

/-- A stream of words in one piece each. -/
def Whole (code : φ → List β) (out : List (Nat × β)) : Prop := ∃ ws, out = words code ws

/-- One more word. -/
theorem words_snoc (ws : List (Nat × φ)) (n : Nat) (f : φ) :
    words code (ws ++ [(n, f)]) = words code ws ++ tag n (code f) := by
  rw [words, List.flatMap_append, List.flatMap_singleton]
  rfl

/-- A whole stream is a concatenation of words. -/
theorem Whole.symbols {out : List (Nat × β)} (h : Whole code out) :
    ∃ fs : List φ, out.map Prod.snd = fs.flatMap code := by
  obtain ⟨ws, rfl⟩ := h
  refine ⟨ws.map Prod.snd, ?_⟩
  rw [words, List.map_flatMap, List.flatMap_map]
  simp only [map_snd_tag]

/-- No word is empty, and none is the beginning of another. -/
structure PrefixFree (code : φ → List β) : Prop where
  nonempty : ∀ f, code f ≠ []
  unique : ∀ f g rest, code f = code g ++ rest → f = g

namespace PrefixFree

/-- What follows the first word of a stream is determined. -/
theorem cancel (h : PrefixFree code) {n m : Nat} {f g : φ} {a b : List (Nat × β)}
    (heq : tag n (code f) ++ a = tag m (code g) ++ b) : a = b := by
  have hsymbols := congrArg (List.map Prod.snd) heq
  rw [List.map_append, List.map_append, map_snd_tag, map_snd_tag] at hsymbols
  have hfg : f = g := by
    rcases List.append_eq_append_iff.mp hsymbols with ⟨c, hc, -⟩ | ⟨c, hc, -⟩
    · exact (h.unique g f c hc).symm
    · exact h.unique f g c hc
  subst hfg
  refine (List.append_inj heq ?_).2
  simp only [tag, List.length_map]

/-- What follows whole words in a whole stream is whole. -/
theorem whole_of_append (h : PrefixFree code) (ws : List (Nat × φ))
    {rest : List (Nat × β)} (hw : Whole code (words code ws ++ rest)) :
    Whole code rest := by
  induction ws with
  | nil => exact hw
  | cons w ws ih =>
      obtain ⟨vs, hvs⟩ := hw
      have hsplit : tag w.1 (code w.2) ++ (words code ws ++ rest) = words code vs := by
        rw [← hvs, ← List.append_assoc]
        rfl
      cases vs with
      | nil =>
          have hnil := (List.append_eq_nil_iff.mp hsplit).1
          exact absurd (List.map_eq_nil_iff.mp hnil) (h.nonempty w.2)
      | cons v vs => exact ih ⟨vs, h.cancel hsplit⟩

/-- **CUT**: a stream with a symbol of another word in the middle of a word is not
    whole, whatever follows. -/
theorem not_whole_of_cut (h : PrefixFree code) {ws : List (Nat × φ)} {f : φ}
    {u v : List β} {n m : Nat} {b : β} {rest : List (Nat × β)}
    (hf : code f = u ++ v) (hu : u ≠ []) (hv : v ≠ []) (hm : m ≠ n) :
    ¬ Whole code (words code ws ++ (tag n u ++ (m, b) :: rest)) := by
  intro hw
  obtain ⟨vs, hvs⟩ := h.whole_of_append ws hw
  -- no word ends before the foreign symbol
  have hlong : ∀ g w, u ≠ code g ++ w := by
    intro g w hgw
    rw [hgw, List.append_assoc] at hf
    obtain rfl := h.unique f g _ hf
    have hnil := List.append_cancel_left (hf.symm.trans (List.append_nil _).symm)
    exact hv (List.append_eq_nil_iff.mp hnil).2
  cases vs with
  | nil => exact nomatch (List.append_eq_nil_iff.mp hvs).2
  | cons w vs =>
      have hsplit : tag n u ++ (m, b) :: rest = tag w.1 (code w.2) ++ words code vs := hvs
      rcases List.append_eq_append_iff.mp hsplit with ⟨c, hc, hcb⟩ | ⟨c, hc, -⟩
      · cases c with
        | nil =>
            have hsymbols := congrArg (List.map Prod.snd) hc
            rw [List.append_nil, map_snd_tag, map_snd_tag] at hsymbols
            exact hlong w.2 [] (by rw [List.append_nil, hsymbols])
        | cons x c =>
            -- the first word has symbols of both
            obtain ⟨rfl, -⟩ := List.cons.inj hcb
            obtain ⟨b₀, u', rfl⟩ := List.exists_cons_of_ne_nil hu
            have hfirst : (n, b₀) ∈ tag w.1 (code w.2) := by
              rw [hc]
              exact List.mem_cons_self ..
            have hforeign : (m, b) ∈ tag w.1 (code w.2) := by
              rw [hc]
              exact List.mem_append_right _ (List.mem_cons_self ..)
            exact hm ((fst_of_mem_tag hforeign).trans (fst_of_mem_tag hfirst).symm)
      · have hsymbols := congrArg (List.map Prod.snd) hc
        rw [List.map_append, map_snd_tag, map_snd_tag] at hsymbols
        exact hlong w.2 _ hsymbols

end PrefixFree

end Interleave
