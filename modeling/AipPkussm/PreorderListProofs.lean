import Mathlib.Data.List.Infix
import Mathlib.Data.List.Nodup
import Mathlib.Data.Set.Insert

/-! # Preorder lists — every node before what is below it, and nothing in between

    A node of a tree is the list of the names on the way to it, and it is below
    another one when that one is a prefix of it.  A list of nodes is contiguous when
    what is below a node comes directly behind it and nowhere else.

    `Enumerates` says that a list has each node of a part of a tree once and is
    contiguous.  Such lists are put together as a traversal does it: subtrees side by
    side (`append`), and a node in front of what is below it (`cons`). -/

namespace PreorderList

variable {α : Type*}

/-- Directly behind a node comes all that is below it. -/
def Contiguous (nodes : List (List α)) : Prop :=
  ∀ pre p post, nodes = pre ++ p :: post → ∃ below rest, post = below ++ rest
    ∧ (∀ q ∈ below, p <+: q) ∧ ∀ q ∈ pre ++ rest, ¬ p <+: q

/-- A list has the nodes of a part of a tree, each of them once, and is contiguous. -/
structure Enumerates (part : Set (List α)) (nodes : List (List α)) : Prop where
  nodup : nodes.Nodup
  mem : ∀ p, p ∈ nodes ↔ p ∈ part
  contiguous : Contiguous nodes

theorem Enumerates.nil : Enumerates (∅ : Set (List α)) [] where
  nodup := List.nodup_nil
  mem := by simp
  contiguous := by
    intro pre p post heq
    simp at heq

/-- Parts side by side. -/
theorem Enumerates.append {left right : Set (List α)} {nodes nodes' : List (List α)}
    (h : Enumerates left nodes) (h' : Enumerates right nodes')
    (hapart : ∀ p ∈ left, ∀ q ∈ right, ¬ p <+: q ∧ ¬ q <+: p) :
    Enumerates (left ∪ right) (nodes ++ nodes') where
  nodup := by
    refine h.nodup.append h'.nodup ?_
    intro p hp hp'
    exact (hapart p ((h.mem p).mp hp) p ((h'.mem p).mp hp')).1 (List.prefix_refl p)
  mem := by
    intro p
    rw [List.mem_append, h.mem, h'.mem, Set.mem_union]
  contiguous := by
    intro pre p post heq
    rcases List.append_eq_append_iff.mp heq with ⟨mid, hpre, hright⟩ | ⟨mid, hleft, hpost⟩
    · -- the node is on the right
      obtain ⟨below, rest, rfl, hbelow, hnot⟩ := h'.contiguous mid p post hright
      have hp : p ∈ right := (h'.mem p).mp (by simp [hright])
      refine ⟨below, rest, rfl, hbelow, ?_⟩
      intro q hq
      rw [hpre, List.append_assoc] at hq
      rcases List.mem_append.mp hq with hq | hq
      · exact (hapart q ((h.mem q).mp hq) p hp).2
      · exact hnot q hq
    · cases mid with
      | nil =>
        have hright : nodes' = p :: post := hpost.symm
        obtain ⟨below, rest, rfl, hbelow, hnot⟩ := h'.contiguous [] p post hright
        have hp : p ∈ right := (h'.mem p).mp (by simp [hright])
        refine ⟨below, rest, rfl, hbelow, ?_⟩
        intro q hq
        rcases List.mem_append.mp hq with hq | hq
        · have hq : q ∈ nodes := by simpa [hleft] using hq
          exact (hapart q ((h.mem q).mp hq) p hp).2
        · exact hnot q (List.mem_append_right _ hq)
      | cons p' mid =>
        -- the node is on the left
        obtain ⟨rfl, rfl⟩ := List.cons.inj hpost
        obtain ⟨below, rest, rfl, hbelow, hnot⟩ := h.contiguous pre p mid hleft
        have hp : p ∈ left := (h.mem p).mp (by simp [hleft])
        refine ⟨below, rest ++ nodes', List.append_assoc below rest nodes', hbelow, ?_⟩
        intro q hq
        rw [← List.append_assoc] at hq
        rcases List.mem_append.mp hq with hq | hq
        · exact hnot q hq
        · exact (hapart p hp q ((h'.mem q).mp hq)).1

/-- A node in front of what is below it. -/
theorem Enumerates.cons {part : Set (List α)} {nodes : List (List α)} {p : List α}
    (h : Enumerates part nodes) (hbelow : ∀ q ∈ part, p <+: q ∧ q ≠ p) :
    Enumerates (insert p part) (p :: nodes) where
  nodup := by
    refine List.nodup_cons.mpr ⟨?_, h.nodup⟩
    intro hp
    exact (hbelow p ((h.mem p).mp hp)).2 rfl
  mem := by
    intro q
    rw [List.mem_cons, h.mem, Set.mem_insert_iff]
  contiguous := by
    intro pre q post heq
    cases pre with
    | nil =>
      obtain ⟨rfl, rfl⟩ := List.cons.inj heq
      refine ⟨nodes, [], (List.append_nil _).symm, ?_, by simp⟩
      intro q hq
      exact (hbelow q ((h.mem q).mp hq)).1
    | cons p' pre =>
      obtain ⟨rfl, rfl⟩ := List.cons.inj heq
      obtain ⟨below, rest, rfl, hpre, hnot⟩ := h.contiguous pre q post rfl
      obtain ⟨hpq, hne⟩ := hbelow q ((h.mem q).mp (by simp))
      refine ⟨below, rest, rfl, hpre, ?_⟩
      intro r hr
      rcases List.mem_cons.mp hr with rfl | hr
      · intro hqp
        exact hne (hqp.eq_of_length_le hpq.length_le)
      · exact hnot r hr

end PreorderList
