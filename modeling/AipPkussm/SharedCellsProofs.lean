import Mathlib.Data.Fintype.Basic
import Mathlib.Logic.Function.Basic

/-! # Cells of a shared memory, and a copy of the memory onto itself

    A memory is a value for each cell.  A COPY of it onto itself loads each cell
    into a register and stores the register back, in any order and while others
    write; it changes nothing by itself, but what was written to a cell between
    the load and the store of that cell is gone after the store.

    * `Sourced` says where the values in memory and in a copy's registers come
      from; every operation keeps it;
    * `Current` says that the registers hold what memory holds: a store of a
      current copy changes nothing (`Current.store_mem`), and only a write to a
      loaded cell ends it (`Current.write`);
    * `exists_finish`: from any point a copy can be finished. -/

namespace SharedCells

variable {L : Type} [DecidableEq L] {V : L → Type}

/-- How far a copy is with a cell. -/
inductive Progress (X : Type) where
  | todo
  | loaded (v : X)
  | stored

/-- The copy is done with the cell. -/
def Progress.isStored {X : Type} : Progress X → Bool
  | .stored => true
  | _ => false

theorem Progress.isStored_iff {X : Type} {p : Progress X} :
    p.isStored = true ↔ p = .stored := by
  cases p with
  | todo => exact iff_of_false Bool.false_ne_true (fun h => by cases h)
  | loaded v => exact iff_of_false Bool.false_ne_true (fun h => by cases h)
  | stored => exact iff_of_true rfl rfl

/-- A copy under way. -/
abbrev Copy (V : L → Type) := (l : L) → Progress (V l)

/-- A copy that has not begun. -/
def Copy.start : Copy V := fun _ => .todo

/-- A copy with every cell stored. -/
def Copy.Finished (c : Copy V) : Prop := ∀ l, c l = .stored

omit [DecidableEq L] in
theorem Copy.finished_iff (c : Copy V) : (∀ l, (c l).isStored = true) ↔ c.Finished :=
  forall_congr' (fun _ => Progress.isStored_iff)

instance finishedDecidable [Fintype L] (c : Copy V) : Decidable c.Finished :=
  decidable_of_iff _ c.finished_iff

/-- The copy loads a cell. -/
def load (mem : (l : L) → V l) (c : Copy V) (l : L) : Option (Copy V) :=
  match c l with
  | .todo => some (Function.update c l (.loaded (mem l)))
  | _ => none

/-- The copy stores a cell. -/
def store (mem : (l : L) → V l) (c : Copy V) (l : L) :
    Option (((l : L) → V l) × Copy V) :=
  match c l with
  | .loaded v => some (Function.update mem l v, Function.update c l .stored)
  | _ => none

/-- A load, and what it read. -/
theorem load_eq_some {mem : (l : L) → V l} {c c' : Copy V} {l : L}
    (h : load mem c l = some c') :
    c l = .todo ∧ c' = Function.update c l (.loaded (mem l)) := by
  rw [load] at h
  cases hc : c l with
  | todo =>
      rw [hc] at h
      exact ⟨rfl, (Option.some.inj h).symm⟩
  | loaded v =>
      rw [hc] at h
      cases h
  | stored =>
      rw [hc] at h
      cases h

/-- A store, and what it wrote. -/
theorem store_eq_some {mem mem' : (l : L) → V l} {c c' : Copy V} {l : L}
    (h : store mem c l = some (mem', c')) :
    ∃ v, c l = .loaded v ∧ mem' = Function.update mem l v
      ∧ c' = Function.update c l .stored := by
  rw [store] at h
  cases hc : c l with
  | todo =>
      rw [hc] at h
      cases h
  | loaded v =>
      rw [hc] at h
      obtain ⟨rfl, rfl⟩ := Prod.mk.inj (Option.some.inj h)
      exact ⟨v, rfl, rfl, rfl⟩
  | stored =>
      rw [hc] at h
      cases h

/-- A register that is still loaded after a store is another cell's. -/
theorem loaded_of_update {c : Copy V} {l k : L} {v : V k}
    (h : Function.update c l .stored k = .loaded v) : c k = .loaded v := by
  by_cases hkl : k = l
  · subst hkl
    rw [Function.update_self] at h
    cases h
  · rwa [Function.update_of_ne hkl] at h

/-! ## Where values come from -/

/-- Every value, in memory and in the registers of a copy, is one that `P` allows
    for its cell. -/
def Sourced (P : (l : L) → V l → Prop) (mem : (l : L) → V l) : Prop := ∀ l, P l (mem l)

/-- The registers of a copy hold values that `P` allows. -/
def Copy.Sourced (P : (l : L) → V l → Prop) (c : Copy V) : Prop :=
  ∀ l v, c l = .loaded v → P l v

section Source

variable {P : (l : L) → V l → Prop} {mem mem' : (l : L) → V l} {c c' : Copy V} {l : L}

omit [DecidableEq L] in
theorem Copy.sourced_start : (Copy.start : Copy V).Sourced P := by
  intro l v h
  cases h

/-- A write of an allowed value. -/
theorem Sourced.write (h : Sourced P mem) {v : V l} (hv : P l v) :
    Sourced P (Function.update mem l v) := by
  intro k
  by_cases hk : k = l
  · subst hk
    rw [Function.update_self]
    exact hv
  · rw [Function.update_of_ne hk]
    exact h k

/-- A load takes an allowed value from memory. -/
theorem Sourced.load (h : Sourced P mem) (hc : c.Sourced P)
    (hl : load mem c l = some c') : c'.Sourced P := by
  obtain ⟨-, rfl⟩ := load_eq_some hl
  intro k v hk
  by_cases hkl : k = l
  · subst hkl
    rw [Function.update_self] at hk
    cases hk
    exact h k
  · rw [Function.update_of_ne hkl] at hk
    exact hc k v hk

/-- A store brings an allowed value back. -/
theorem Sourced.store (h : Sourced P mem) (hc : c.Sourced P)
    (hs : store mem c l = some (mem', c')) : Sourced P mem' ∧ c'.Sourced P := by
  obtain ⟨v, hv, rfl, rfl⟩ := store_eq_some hs
  exact ⟨h.write (hc l v hv), fun k w hk => hc k w (loaded_of_update hk)⟩

end Source

/-! ## Copies that are up to date -/

/-- The registers of the copy hold what memory holds. -/
def Current (mem : (l : L) → V l) (c : Copy V) : Prop :=
  ∀ l v, c l = .loaded v → v = mem l

section Current

variable {mem mem' : (l : L) → V l} {c c' : Copy V} {l : L}

omit [DecidableEq L] in
theorem current_start (mem : (l : L) → V l) : Current mem Copy.start := by
  intro l v h
  cases h

theorem Current.load (h : Current mem c) (hl : load mem c l = some c') : Current mem c' := by
  obtain ⟨-, rfl⟩ := load_eq_some hl
  intro k v hk
  by_cases hkl : k = l
  · subst hkl
    rw [Function.update_self] at hk
    cases hk
    rfl
  · rw [Function.update_of_ne hkl] at hk
    exact h k v hk

/-- **STEP**: a store of a current copy changes nothing in memory. -/
theorem Current.store_mem (h : Current mem c) (hs : store mem c l = some (mem', c')) :
    mem' = mem := by
  obtain ⟨v, hv, rfl, -⟩ := store_eq_some hs
  rw [h l v hv]
  exact Function.update_eq_self l mem

theorem Current.store (h : Current mem c) (hs : store mem c l = some (mem', c')) :
    Current mem' c' := by
  rw [h.store_mem hs]
  obtain ⟨v, -, -, rfl⟩ := store_eq_some hs
  exact fun k w hk => h k w (loaded_of_update hk)

/-- **STEP**: a copy stays current when the cell written is not one that it has
    loaded and not yet stored, or when the value is the one it has loaded. -/
theorem Current.write (h : Current mem c) {v : V l}
    (hv : ∀ w, c l = .loaded w → w = v) : Current (Function.update mem l v) c := by
  intro k w hk
  by_cases hkl : k = l
  · subst hkl
    rw [Function.update_self]
    exact hv w hk
  · rw [Function.update_of_ne hkl]
    exact h k w hk

end Current

/-! ## Finishing a copy -/

/-- Loads and stores of one copy, one after another. -/
inductive Copying : ((l : L) → V l) → Copy V → ((l : L) → V l) → Copy V → Prop where
  | refl (mem : (l : L) → V l) (c : Copy V) : Copying mem c mem c
  | load {mem mem' : (l : L) → V l} {c c₁ c' : Copy V} (l : L)
      (hl : load mem c l = some c₁) (h : Copying mem c₁ mem' c') : Copying mem c mem' c'
  | store {mem mem₁ mem' : (l : L) → V l} {c c₁ c' : Copy V} (l : L)
      (hs : store mem c l = some (mem₁, c₁)) (h : Copying mem₁ c₁ mem' c') :
      Copying mem c mem' c'

theorem Copying.trans {mem₁ mem₂ mem₃ : (l : L) → V l} {c₁ c₂ c₃ : Copy V}
    (h : Copying mem₁ c₁ mem₂ c₂) (h' : Copying mem₂ c₂ mem₃ c₃) :
    Copying mem₁ c₁ mem₃ c₃ := by
  induction h with
  | refl => exact h'
  | load l hl _ ih => exact Copying.load l hl (ih h')
  | store l hs _ ih => exact Copying.store l hs (ih h')

/-- One cell can be brought to its end, and the cells that were there stay there. -/
theorem exists_stored (mem : (l : L) → V l) (c : Copy V) (l : L) :
    ∃ mem' c', Copying mem c mem' c' ∧ c' l = .stored
      ∧ ∀ k, c k = .stored → c' k = .stored := by
  have hkeep : ∀ (d : Copy V) (k : L), d k = .stored →
      Function.update d l .stored k = .stored := by
    intro d k hk
    by_cases hkl : k = l
    · rw [hkl, Function.update_self]
    · rw [Function.update_of_ne hkl, hk]
  have hstore : ∀ (d : Copy V) (v : V l), d l = .loaded v →
      store mem d l = some (Function.update mem l v, Function.update d l .stored) := by
    intro d v hd
    rw [store, hd]
  cases hc : c l with
  | stored => exact ⟨mem, c, Copying.refl mem c, hc, fun _ hk => hk⟩
  | loaded v =>
      exact ⟨_, _, Copying.store l (hstore c v hc) (Copying.refl ..),
        Function.update_self .., hkeep c⟩
  | todo =>
      let c₁ := Function.update c l (.loaded (mem l))
      have hl : load mem c l = some c₁ := by rw [load, hc]
      have hs := hstore c₁ (mem l) (Function.update_self ..)
      refine ⟨_, _, Copying.load l hl (Copying.store l hs (Copying.refl ..)),
        Function.update_self .., ?_⟩
      intro k hk
      by_cases hkl : k = l
      · rw [hkl, Function.update_self]
      · rw [Function.update_of_ne hkl]
        show Function.update c l _ k = _
        rw [Function.update_of_ne hkl, hk]

/-- The cells of a list can be brought to their end. -/
theorem exists_stored_list (ls : List L) (mem : (l : L) → V l) (c : Copy V) :
    ∃ mem' c', Copying mem c mem' c' ∧ (∀ l ∈ ls, c' l = .stored)
      ∧ ∀ k, c k = .stored → c' k = .stored := by
  induction ls generalizing mem c with
  | nil =>
      exact ⟨mem, c, Copying.refl mem c, fun _ h => absurd h List.not_mem_nil,
        fun _ hk => hk⟩
  | cons l ls ih =>
      obtain ⟨mem₁, c₁, h₁, hl, hkeep₁⟩ := exists_stored mem c l
      obtain ⟨mem₂, c₂, h₂, hls, hkeep₂⟩ := ih mem₁ c₁
      refine ⟨mem₂, c₂, h₁.trans h₂, ?_, fun k hk => hkeep₂ k (hkeep₁ k hk)⟩
      intro k hk
      rcases List.mem_cons.mp hk with rfl | hk'
      · exact hkeep₂ k hl
      · exact hls k hk'

/-- **PROGRESS**: a copy of a finite memory can be finished from any point. -/
theorem exists_finish [Fintype L] (mem : (l : L) → V l) (c : Copy V) :
    ∃ mem' c', Copying mem c mem' c' ∧ c'.Finished := by
  obtain ⟨mem', c', h, hall, -⟩ := exists_stored_list Finset.univ.toList mem c
  exact ⟨mem', c', h, fun l => hall l (Finset.mem_toList.mpr (Finset.mem_univ l))⟩

end SharedCells
