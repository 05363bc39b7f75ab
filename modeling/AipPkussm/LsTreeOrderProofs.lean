import Mathlib.Data.Set.Insert
import AipPkussm.LsTreeProofs

/-! # The order of the tree listing

    `compare` is to put directories first, but it asks `IS_DIR` about the address of a
    name instead of the mode of a file.  Bits 12 to 15 of the two addresses decide
    what it returns, and for two addresses that both do not look like the mode of a
    directory it returns nothing (`compare_eq`).

    What it returns is right for a pair now and then (`right_compare_iff`), and for all
    pairs of a set exactly when all addresses look like directories and there is
    nothing to sort (`directoriesFirst_iff`). -/

namespace LsTree

/-- What `scandir` hands to its comparison: the address of `d_name`, and the mode of the
    file that has the name. -/
structure Dirent where
  dName : BitVec 32
  mode : Nat
  deriving DecidableEq

/-- `compare`, which ends without a `return` where it has no value here. -/
def compare (ent1 ent2 : Dirent) : Option Int :=
  if isDir ent1.dName.toNat && isDir ent2.dName.toNat then some 0
  else if isDir ent1.dName.toNat && !isDir ent2.dName.toNat then some (-1)
  else if !isDir ent1.dName.toNat && isDir ent2.dName.toNat then some 1
  else none

/-- What `compare` returns depends on the addresses. -/
theorem compare_eq (a b : Dirent) : compare a b =
    match isDir a.dName.toNat, isDir b.dName.toNat with
    | true, true => some 0
    | true, false => some (-1)
    | false, true => some 1
    | false, false => none := by
  rw [compare]
  cases isDir a.dName.toNat <;> cases isDir b.dName.toNat <;> rfl

/-! ## Directories first -/

/-- The sign of a comparison of two entries is that of their types, a directory first. -/
def Right (cmp : Dirent → Dirent → Option Int) (a b : Dirent) : Prop :=
  ∃ v, cmp a b = some v ∧ (v < 0 ↔ isDir a.mode = true ∧ isDir b.mode = false)
    ∧ (0 < v ↔ isDir a.mode = false ∧ isDir b.mode = true)

/-- A comparison of the entries of a set that a sort can rely on: it has the sign of the
    types for all pairs, depends on the types only, and is an order. -/
structure DirectoriesFirst (E : Set Dirent) (cmp : Dirent → Dirent → Option Int) : Prop where
  right : ∀ a ∈ E, ∀ b ∈ E, Right cmp a b
  types : ∀ a ∈ E, ∀ b ∈ E, ∀ a' ∈ E, ∀ b' ∈ E, isDir a.mode = isDir a'.mode →
    isDir b.mode = isDir b'.mode → cmp a b = cmp a' b'
  antisymmetric : ∀ a ∈ E, ∀ b ∈ E, ∀ v w, cmp a b = some v → cmp b a = some w →
    v.sign = -w.sign
  transitive : ∀ a ∈ E, ∀ b ∈ E, ∀ c ∈ E, ∀ v w x, cmp a b = some v → cmp b c = some w →
    cmp a c = some x → v ≤ 0 → w ≤ 0 → x ≤ 0

/-- **A PAIR**: the answer is right when one address looks like a directory, and the
    addresses differ where the types do, in the same way. -/
theorem right_compare_iff (a b : Dirent) : Right compare a b
    ↔ (isDir a.dName.toNat = true ∧ isDir b.dName.toNat = true ∧ isDir a.mode = isDir b.mode)
      ∨ (isDir a.dName.toNat ≠ isDir b.dName.toNat ∧ isDir a.mode = isDir a.dName.toNat
        ∧ isDir b.mode = isDir b.dName.toNat) := by
  rw [Right, compare_eq]
  cases isDir a.dName.toNat <;> cases isDir b.dName.toNat <;>
    cases isDir a.mode <;> cases isDir b.mode <;> simp

/-- An entry is compared with itself when its address looks like a directory. -/
theorem isDir_dName_of_right {a : Dirent} (h : Right compare a a) :
    isDir a.dName.toNat = true := by
  rcases (right_compare_iff a a).mp h with ⟨haddr, -⟩ | ⟨hne, -⟩
  · exact haddr
  · exact absurd rfl hne

/-- Between such addresses nothing comes first. -/
theorem compare_of_isDir {a b : Dirent} (ha : isDir a.dName.toNat = true)
    (hb : isDir b.dName.toNat = true) : compare a b = some 0 := by
  rw [compare, ha, hb]
  rfl

/-- **THE ORDER**: `compare` puts directories first exactly when every name is at an address
    that looks like the mode of a directory, and all entries are of one type. -/
theorem directoriesFirst_iff (E : Set Dirent) : DirectoriesFirst E compare
    ↔ (∀ a ∈ E, isDir a.dName.toNat = true) ∧ ∀ a ∈ E, ∀ b ∈ E, isDir a.mode = isDir b.mode := by
  constructor
  · intro h
    have haddr : ∀ a ∈ E, isDir a.dName.toNat = true :=
      fun a ha => isDir_dName_of_right (h.right a ha a ha)
    refine ⟨haddr, ?_⟩
    intro a ha b hb
    rcases (right_compare_iff a b).mp (h.right a ha b hb) with ⟨-, -, hmode⟩ | ⟨hne, -⟩
    · exact hmode
    · exact absurd ((haddr a ha).trans (haddr b hb).symm) hne
  · rintro ⟨haddr, hmode⟩
    have hzero : ∀ a ∈ E, ∀ b ∈ E, compare a b = some 0 :=
      fun a ha b hb => compare_of_isDir (haddr a ha) (haddr b hb)
    constructor
    · intro a ha b hb
      exact (right_compare_iff a b).mpr (Or.inl ⟨haddr a ha, haddr b hb, hmode a ha b hb⟩)
    · intro a ha b hb a' ha' b' hb' _ _
      rw [hzero a ha b hb, hzero a' ha' b' hb']
    · intro a ha b hb v w hv hw
      rw [hzero a ha b hb] at hv
      rw [hzero b hb a ha] at hw
      obtain rfl := Option.some.inj hv
      obtain rfl := Option.some.inj hw
      rfl
    · intro a ha b hb c hc v w x _ _ hx _ _
      rw [hzero a ha c hc] at hx
      exact (Option.some.inj hx).ge

/-- A directory at 0x0804B013 and a file at 0x0804B033, which are not compared at all. -/
theorem not_directoriesFirst : ¬ ∀ E : Set Dirent, DirectoriesFirst E compare := by
  intro h
  have hfirst := h {⟨0x0804B013, sIfdir⟩, ⟨0x0804B033, 0o100644⟩}
  obtain ⟨v, hv, -⟩ := hfirst.right _ (Set.mem_insert ..) _
    (Set.mem_insert_of_mem _ (Set.mem_singleton _))
  exact absurd hv (by simp [compare, isDir, sIfmt, sIfdir])

end LsTree
