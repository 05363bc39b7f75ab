import Mathlib.Data.Fin.VecNotation
import AipPkussm.LsTreeProofs
import AipPkussm.NestedCallsProofs

/-! # Links and locked directories

    `print_file` goes into a directory by its path, which `stat` and `chdir` follow
    through links, and leaves it by `..`.  Nobody looks whether `chdir` worked.

    A call comes back to its directory when the step down is undone by the step up,
    and all calls that return do so exactly when it is for all of them
    (`comesBack_iff`).  Through a link to a directory elsewhere it is not.

    The recursion ends when no directory is entered on behalf of a call that lists it
    already; where the listing of a directory is always the same, it ends in no other
    case (`ends_iff`).  A link to a directory above its own, or a directory that
    cannot be entered, is entered again and again. -/

namespace LsTree

open LittleEndian MaximalRuns NestedCalls Relation

variable {Dir : Type}

/-! ## One call -/

/-- The directory after `chdir(path)`. -/
def goTo (fs : FileSystem Dir) (path : List Byte) (d : Dir) : Dir := (fs.chdir d path).getD d

/-- The directory after `chdir("..")`. -/
def up (fs : FileSystem Dir) (d : Dir) : Dir := goTo fs dotdot d

/-- The directory that a call for an entry of `d` lists, if `stat` takes the entry for a
    directory. -/
def enters (fs : FileSystem Dir) (d : Dir) (name : Name) : Option Dir :=
  let path := fs.currentDirName d ++ slash :: name
  match fs.stat d path with
  | none => none
  | some mode => if isDir mode then some (goTo fs path d) else none

theorem chdir_eq (fs : FileSystem Dir) (path : List Byte) (s : State Dir) :
    chdir fs path s = ⟨goTo fs path s.cwd, s.out⟩ := by
  rw [chdir, goTo]
  cases fs.chdir s.cwd path <;> rfl

/-- **CALL**: the line is printed, and then the entry decides. -/
theorem printFile_succ (fs : FileSystem Dir) (fuel ident : Nat) (name : Name) (d : Dir)
    (out : List (List Byte)) :
    printFile fs (fuel + 1) ident name ⟨d, out⟩ =
      match enters fs d name with
      | none =>
        if (fs.stat d (fs.currentDirName d ++ slash :: name)).isSome then
          some (.returned ⟨d, out ++ [fileLine ident name]⟩)
        else some (.exited ⟨d, out ++ [fileLine ident name]⟩)
      | some e =>
        match fs.scandir (out ++ [fileLine ident name]) e with
        | none => some (.returned ⟨up fs e, out ++ [fileLine ident name]⟩)
        | some namelist =>
          match printEntries (printFile fs fuel (ident + 1)) namelist.reverse
              ⟨e, out ++ [fileLine ident name]⟩ with
          | some (.returned s) => some (.returned ⟨up fs s.cwd, s.out⟩)
          | stopped => stopped := by
  simp only [printFile, getMode, getPath, enters, chdir_eq]
  cases fs.stat d (fs.currentDirName d ++ slash :: name) with
  | none => rfl
  | some mode =>
    by_cases hdir : isDir mode = true
    · simp only [hdir, if_true]
      rfl
    · simp [hdir]

/-- A call that ends does so in one way. -/
theorem printFile_det {fs : FileSystem Dir} {fuel fuel' ident : Nat} {name : Name}
    {s : State Dir} {o o' : Outcome Dir} (h : printFile fs fuel ident name s = some o)
    (h' : printFile fs fuel' ident name s = some o') : o = o' := by
  have hmax := printFile_mono (Nat.le_max_left fuel fuel') h
  rw [printFile_mono (Nat.le_max_right fuel fuel') h'] at hmax
  exact (Option.some.inj hmax).symm

/-! ## Coming back -/

/-- `scandir` finds the name in the directory, and it is not one of the two special ones. -/
def IsEntry (fs : FileSystem Dir) (d : Dir) (name : Name) : Prop :=
  ¬ (name = dot ∨ name = dotdot) ∧ ∃ out namelist, fs.scandir out d = some namelist
    ∧ name ∈ namelist

/-- A call for an entry of `d` returns, and the working directory is `d'` then. -/
def ReturnsIn (fs : FileSystem Dir) (d : Dir) (name : Name) (d' : Dir) : Prop :=
  ∃ fuel ident out out', printFile fs fuel ident name ⟨d, out⟩ = some (.returned ⟨d', out'⟩)

/-- Where a call goes down from `d`, the step up leads to `d` again. -/
def LeadsBack (fs : FileSystem Dir) (d : Dir) (name : Name) : Prop :=
  ∀ e, enters fs d name = some e → up fs e = d

/-- **LOOP**: calls that come back leave the loop in its directory. -/
theorem printEntries_comesBack {call : Name → State Dir → Option (Outcome Dir)} {d : Dir}
    {names : List Name}
    (hcall : ∀ name ∈ names, ¬ (name = dot ∨ name = dotdot) → ∀ out s,
      call name ⟨d, out⟩ = some (.returned s) → s.cwd = d) {out : List (List Byte)}
    {s : State Dir} (h : printEntries call names ⟨d, out⟩ = some (.returned s)) : s.cwd = d := by
  induction names generalizing out with
  | nil =>
    obtain rfl : ⟨d, out⟩ = s := by simpa [printEntries] using h
    rfl
  | cons name names ih =>
    have hrest := fun n hn => hcall n (List.mem_cons_of_mem name hn)
    rw [printEntries] at h
    split at h
    · exact ih hrest h
    · next hdots =>
      cases hrun : call name ⟨d, out⟩ with
      | none => simp [hrun] at h
      | some o =>
        rw [hrun] at h
        cases o with
        | exited s' => simp at h
        | returned s' =>
          obtain ⟨d', out'⟩ := s'
          obtain rfl : d' = d := hcall name (List.mem_cons_self ..) hdots out _ hrun
          exact ih hrest h

/-- **STEP**: when the nested calls come back, a call is where the step up led it. -/
theorem returned_cwd {fs : FileSystem Dir} {fuel : Nat}
    (hnested : ∀ ident e name, IsEntry fs e name → ∀ out s,
      printFile fs fuel ident name ⟨e, out⟩ = some (.returned s) → s.cwd = e)
    {ident : Nat} {name : Name} {d : Dir} {out : List (List Byte)} {s : State Dir}
    (h : printFile fs (fuel + 1) ident name ⟨d, out⟩ = some (.returned s)) :
    s.cwd = ((enters fs d name).map (up fs)).getD d := by
  rw [printFile_succ] at h
  cases henters : enters fs d name with
  | none =>
    rw [henters] at h
    simp only at h
    split at h
    · obtain rfl : _ = s := by simpa using h
      rfl
    · simp at h
  | some e =>
    simp only [henters] at h
    cases hscan : fs.scandir (out ++ [fileLine ident name]) e with
    | none =>
      simp only [hscan] at h
      obtain rfl : _ = s := by simpa using h
      rfl
    | some namelist =>
      simp only [hscan] at h
      split at h
      · next s' hrun =>
        have hcwd : s'.cwd = e := by
          refine printEntries_comesBack ?_ hrun
          intro n hn hdots out' s₁ hs₁
          exact hnested (ident + 1) e n ⟨hdots, _, _, hscan, List.mem_reverse.mp hn⟩ out' s₁ hs₁
        obtain rfl : _ = s := by simpa using h
        simp [hcwd]
      · next stopped hnot =>
        exact absurd h (hnot s)

theorem getD_of_leadsBack {fs : FileSystem Dir} {d : Dir} {name : Name} :
    ((enters fs d name).map (up fs)).getD d = d ↔ LeadsBack fs d name := by
  rw [LeadsBack]
  cases enters fs d name <;> simp

/-- **COMING BACK**: all calls for entries that return do so to their own directory exactly
    when for each of them the step up undoes the step down. -/
theorem comesBack_iff (fs : FileSystem Dir) :
    (∀ d name, IsEntry fs d name → ∀ d', ReturnsIn fs d name d' → d' = d)
      ↔ ∀ d name, IsEntry fs d name → (∃ d', ReturnsIn fs d name d') → LeadsBack fs d name := by
  constructor
  · intro hback d name hentry hreturns
    obtain ⟨d', fuel, ident, out, out', hrun⟩ := hreturns
    obtain rfl : d' = d := hback d name hentry d' ⟨fuel, ident, out, out', hrun⟩
    cases fuel with
    | zero => simp [printFile] at hrun
    | succ fuel =>
      have hcwd := returned_cwd (fun ident e n hn out s hs =>
        hback e n hn s.cwd ⟨fuel, ident, out, s.out, hs⟩) hrun
      exact getD_of_leadsBack.mp hcwd.symm
  · intro hleads d name hentry d' hreturns
    obtain ⟨fuel, ident, out, out', hrun⟩ := hreturns
    -- by induction on the fuel, for all entries at once
    have hall : ∀ fuel ident e n, IsEntry fs e n → ∀ out s,
        printFile fs fuel ident n ⟨e, out⟩ = some (.returned s) → s.cwd = e := by
      intro fuel
      induction fuel with
      | zero =>
        intro ident e n _ out s hs
        simp [printFile] at hs
      | succ fuel ih =>
        intro ident e n hn out s hs
        rw [returned_cwd ih hs]
        exact getD_of_leadsBack.mpr (hleads e n hn ⟨s.cwd, _, _, _, s.out, hs⟩)
    exact hall fuel ident d name hentry out _ hrun

/-! ## Nested calls -/

/-- A call of `print_file`, and the state in which it is made. -/
structure Call (Dir : Type) where
  ident : Nat
  name : Name
  s : State Dir

/-- The call returns or exits. -/
def Ends (fs : FileSystem Dir) (c : Call Dir) : Prop :=
  ∃ fuel o, printFile fs fuel c.ident c.name c.s = some o

/-- The directory that a call lists. -/
def lists (fs : FileSystem Dir) (c : Call Dir) : Option Dir := enters fs c.s.cwd c.name

/-- The loop over the entries comes to a name in a state, after the calls for the names
    before it have returned. -/
inductive Takes (fs : FileSystem Dir) (ident : Nat) :
    List Name → State Dir → Name → State Dir → Prop where
  | here {name : Name} {names : List Name} {s : State Dir} :
      ¬ (name = dot ∨ name = dotdot) → Takes fs ident (name :: names) s name s
  | dots {name name' : Name} {names : List Name} {s s' : State Dir} :
      (name = dot ∨ name = dotdot) → Takes fs ident names s name' s' →
      Takes fs ident (name :: names) s name' s'
  | next {name name' : Name} {names : List Name} {s s₁ s' : State Dir} {fuel : Nat} :
      ¬ (name = dot ∨ name = dotdot) →
      printFile fs fuel ident name s = some (.returned s₁) →
      Takes fs ident names s₁ name' s' → Takes fs ident (name :: names) s name' s'

/-- A call, and one that it makes itself. -/
inductive SubCall (fs : FileSystem Dir) : Call Dir → Call Dir → Prop where
  | intro {ident : Nat} {name name' : Name} {d e : Dir} {out : List (List Byte)}
      {namelist : List Name} {s : State Dir} :
      enters fs d name = some e → fs.scandir (out ++ [fileLine ident name]) e = some namelist →
      Takes fs (ident + 1) namelist.reverse ⟨e, out ++ [fileLine ident name]⟩ name' s →
      SubCall fs ⟨ident, name, ⟨d, out⟩⟩ ⟨ident + 1, name', s⟩

/-- A directory is entered on behalf of a call that lists it. -/
def Reenters (fs : FileSystem Dir) (c : Call Dir) : Prop :=
  Repeats (SubCall fs) (lists fs) c

variable {fs : FileSystem Dir}

theorem lists_of_subCall (c c' : Call Dir) (h : SubCall fs c c') : ∃ e, lists fs c = some e := by
  cases h with
  | intro henters => exact ⟨_, henters⟩

/-- **LOOP**: it ends when the calls that it comes to do. -/
theorem printEntries_ends {ident : Nat} {names : List Name} {s : State Dir}
    (h : ∀ name s', Takes fs ident names s name s' → Ends fs ⟨ident, name, s'⟩) :
    ∃ fuel o, printEntries (printFile fs fuel ident) names s = some o := by
  induction names generalizing s with
  | nil => exact ⟨0, .returned s, rfl⟩
  | cons name names ih =>
    by_cases hdots : name = dot ∨ name = dotdot
    · obtain ⟨fuel, o, hrun⟩ := ih fun n s' hn => h n s' (.dots hdots hn)
      exact ⟨fuel, o, by rw [printEntries, if_pos hdots, hrun]⟩
    · obtain ⟨fuel, o, hcall⟩ := h name s (.here hdots)
      cases o with
      | exited s' => exact ⟨fuel, .exited s', by simp only [printEntries, if_neg hdots, hcall]⟩
      | returned s₁ =>
        obtain ⟨fuel', o, hrun⟩ := ih fun n s' hn => h n s' (.next hdots hcall hn)
        have hcall := printFile_mono (Nat.le_max_left fuel fuel') hcall
        have hrun := printEntries_mono
          (fun n s' o' => printFile_mono (Nat.le_max_right fuel fuel')) hrun
        exact ⟨max fuel fuel', o, by simp only [printEntries, if_neg hdots, hcall, hrun]⟩

/-- When the loop ends, the calls that it comes to have ended. -/
theorem ends_of_takes {ident : Nat} {names : List Name} {s s' : State Dir} {name : Name}
    (h : Takes fs ident names s name s') {fuel : Nat} {o : Outcome Dir}
    (hrun : printEntries (printFile fs fuel ident) names s = some o) :
    ∃ o', printFile fs fuel ident name s' = some o' := by
  induction h with
  | @here name names s hdots =>
    rw [printEntries, if_neg hdots] at hrun
    cases hcall : printFile fs fuel ident name s with
    | none => simp [hcall] at hrun
    | some o' => exact ⟨o', rfl⟩
  | dots hdots _ ih =>
    rw [printEntries, if_pos hdots] at hrun
    exact ih hrun
  | @next name _ _ s _ _ _ hdots hreturned _ ih =>
    rw [printEntries, if_neg hdots] at hrun
    cases hcall : printFile fs fuel ident name s with
    | none => simp [hcall] at hrun
    | some o' =>
      obtain rfl := printFile_det hcall hreturned
      rw [hcall] at hrun
      exact ih hrun

/-- **STEP**: a call ends when those that it makes do. -/
theorem ends_of_subCalls {c : Call Dir} (h : ∀ c', SubCall fs c c' → Ends fs c') :
    Ends fs c := by
  obtain ⟨ident, name, d, out⟩ := c
  cases henters : enters fs d name with
  | none =>
    refine ⟨1, ?_⟩
    simp only [printFile_succ, henters]
    split <;> exact ⟨_, rfl⟩
  | some e =>
    cases hscan : fs.scandir (out ++ [fileLine ident name]) e with
    | none =>
      refine ⟨1, ?_⟩
      simp only [printFile_succ, henters, hscan]
      exact ⟨_, rfl⟩
    | some namelist =>
      obtain ⟨fuel, o, hloop⟩ := printEntries_ends fun n s' hn => h _ (.intro henters hscan hn)
      refine ⟨fuel + 1, ?_⟩
      simp only [printFile_succ, henters, hscan, hloop]
      cases o with
      | returned s' => exact ⟨_, rfl⟩
      | exited s' => exact ⟨_, rfl⟩

/-- When a call ends, the calls that it makes end with less fuel. -/
theorem ends_of_subCall {c c' : Call Dir} (h : SubCall fs c c') {fuel : Nat} {o : Outcome Dir}
    (hrun : printFile fs (fuel + 1) c.ident c.name c.s = some o) :
    ∃ o', printFile fs fuel c'.ident c'.name c'.s = some o' := by
  cases h with
  | @intro ident name name' d e out namelist s henters hscan htakes =>
    simp only [printFile_succ, henters, hscan] at hrun
    cases hloop : printEntries (printFile fs fuel (ident + 1)) namelist.reverse
        ⟨e, out ++ [fileLine ident name]⟩ with
    | none => simp [hloop] at hrun
    | some o' => exact ends_of_takes htakes hloop

/-- **RECURSION**: a call ends exactly when there is no endless chain of nested calls. -/
theorem ends_iff_acc (c : Call Dir) : Ends fs c ↔ Acc (Function.swap (SubCall fs)) c := by
  constructor
  · rintro ⟨fuel, o, hrun⟩
    induction fuel generalizing c o with
    | zero => simp [printFile] at hrun
    | succ fuel ih =>
      refine Acc.intro c ?_
      intro c' hc'
      obtain ⟨o', hrun'⟩ := ends_of_subCall hc' hrun
      exact ih c' o' hrun'
  · intro hacc
    induction hacc with
    | intro c _ ih => exact ends_of_subCalls ih

/-! ## Listings that are always the same -/

/-- Where a call leaves the program, if it returns. -/
def Outcome.cwd : Outcome Dir → Option Dir
  | .returned s => some s.cwd
  | .exited _ => none

/-- What `scandir` returns for a directory does not depend on what has been printed. -/
def SameListings (fs : FileSystem Dir) : Prop :=
  ∀ out out' d, fs.scandir out d = fs.scandir out' d

/-- Two calls that leave the program in the same place. -/
theorem cwd_cases {r r' : Option (Outcome Dir)} (h : r.map Outcome.cwd = r'.map Outcome.cwd) :
    (r = none ∧ r' = none)
      ∨ (∃ s s', r = some (.exited s) ∧ r' = some (.exited s'))
      ∨ ∃ d out out', r = some (.returned ⟨d, out⟩) ∧ r' = some (.returned ⟨d, out'⟩) := by
  rcases r with _ | ⟨⟨d, out⟩⟩ | ⟨s⟩ <;> rcases r' with _ | ⟨⟨d', out'⟩⟩ | ⟨s'⟩ <;>
    simp only [Option.map, Outcome.cwd] at h <;> simp at h ⊢
  exact h.symm

theorem printEntries_cwd {f g : Name → State Dir → Option (Outcome Dir)}
    (hfg : ∀ name d out out',
      (f name ⟨d, out⟩).map Outcome.cwd = (g name ⟨d, out'⟩).map Outcome.cwd)
    (names : List Name) (d : Dir) (out out' : List (List Byte)) :
    (printEntries f names ⟨d, out⟩).map Outcome.cwd
      = (printEntries g names ⟨d, out'⟩).map Outcome.cwd := by
  induction names generalizing d out out' with
  | nil => rfl
  | cons name names ih =>
    simp only [printEntries]
    split
    · exact ih d out out'
    · rcases cwd_cases (hfg name d out out') with ⟨hf, hg⟩ | ⟨s, s', hf, hg⟩ | ⟨e, o, o', hf, hg⟩
      · rw [hf, hg]
      · rw [hf, hg]
        rfl
      · rw [hf, hg]
        exact ih e o o'

/-- **SAME WAY**: then neither do the ways of a call. -/
theorem printFile_cwd (hsame : SameListings fs) (fuel ident ident' : Nat) (name : Name) (d : Dir)
    (out out' : List (List Byte)) :
    (printFile fs fuel ident name ⟨d, out⟩).map Outcome.cwd
      = (printFile fs fuel ident' name ⟨d, out'⟩).map Outcome.cwd := by
  induction fuel generalizing ident ident' name d out out' with
  | zero => rfl
  | succ fuel ih =>
    rw [printFile_succ, printFile_succ]
    cases henters : enters fs d name with
    | none =>
      simp only
      split <;> rfl
    | some e =>
      simp only [hsame (out ++ [fileLine ident name]) (out' ++ [fileLine ident' name]) e]
      cases fs.scandir (out' ++ [fileLine ident' name]) e with
      | none => rfl
      | some namelist =>
        have hloop := printEntries_cwd (ih (ident + 1) (ident' + 1)) namelist.reverse e
          (out ++ [fileLine ident name]) (out' ++ [fileLine ident' name])
        rcases cwd_cases hloop with ⟨hf, hg⟩ | ⟨s, s', hf, hg⟩ | ⟨e', o, o', hf, hg⟩ <;>
          simp only [hf, hg] <;> rfl

/-- The loop comes to the same names in the same directories. -/
theorem takes_again (hsame : SameListings fs) {ident : Nat} (ident' : Nat) {names : List Name}
    {s s' : State Dir} {name : Name} (h : Takes fs ident names s name s')
    (out : List (List Byte)) :
    ∃ out', Takes fs ident' names ⟨s.cwd, out⟩ name ⟨s'.cwd, out'⟩ := by
  induction h generalizing out with
  | here hdots => exact ⟨out, .here hdots⟩
  | dots hdots _ ih =>
    obtain ⟨out', htakes⟩ := ih out
    exact ⟨out', .dots hdots htakes⟩
  | @next name _ _ s s₁ _ fuel hdots hreturned _ ih =>
    have hcwd := printFile_cwd hsame fuel ident ident' name s.cwd s.out out
    rcases cwd_cases hcwd with ⟨hf, -⟩ | ⟨_, _, hf, -⟩ | ⟨e, o, o', hf, hg⟩
    · simp [hreturned] at hf
    · simp [hreturned] at hf
    · obtain rfl : s₁ = ⟨e, o⟩ := by simpa [hreturned] using hf
      obtain ⟨out', htakes⟩ := ih o'
      exact ⟨out', .next hdots hg htakes⟩

/-- The directory that a call lists decides which calls it makes. -/
theorem subCall_again (hsame : SameListings fs) (b c b' : Call Dir) (e : Dir)
    (hb : lists fs b = some e) (hc : lists fs c = some e) (h : SubCall fs b b') :
    ∃ c', SubCall fs c c' ∧ lists fs c' = lists fs b' := by
  cases h with
  | @intro ident name name' d e' out namelist s henters hscan htakes =>
    obtain rfl : e' = e := Option.some.inj (henters.symm.trans hb)
    obtain ⟨ident', name₂, d', out₂⟩ := c
    have hscan' := (hsame _ (out₂ ++ [fileLine ident' name₂]) e').symm.trans hscan
    obtain ⟨out', htakes'⟩ := takes_again hsame (ident' + 1) htakes
      (out₂ ++ [fileLine ident' name₂])
    exact ⟨_, .intro hc hscan' htakes', rfl⟩

/-- **THE END**: among finitely many directories a call ends when none is entered on behalf
    of a call that lists it; where a directory is always listed in the same way, it ends
    in no other case. -/
theorem ends_iff [Finite Dir] (fs : FileSystem Dir) (c : Call Dir) :
    (¬ Reenters fs c → Ends fs c) ∧ (SameListings fs → Ends fs c → ¬ Reenters fs c) := by
  constructor
  · intro h
    exact (ends_iff_acc c).mpr (acc_of_not_repeats lists_of_subCall h)
  · intro hsame hends
    exact not_repeats_of_acc (subCall_again hsame) lists_of_subCall ((ends_iff_acc c).mp hends)

/-! ## Directories that lead to themselves -/

/-- A step down from one directory to another. -/
def Down (fs : FileSystem Dir) (d e : Dir) : Prop :=
  ∃ name, IsEntry fs d name ∧ enters fs d name = some e

section Back

variable (hback : ∀ d name, IsEntry fs d name → ∀ d', ReturnsIn fs d name d' → d' = d)

include hback

/-- When calls come back, the loop stays in its directory. -/
theorem takes_cwd {ident : Nat} {names : List Name} {s s' : State Dir} {name : Name}
    (h : Takes fs ident names s name s')
    (hnames : ∀ n ∈ names, ¬ (n = dot ∨ n = dotdot) → IsEntry fs s.cwd n) :
    s'.cwd = s.cwd ∧ IsEntry fs s.cwd name := by
  induction h with
  | here hdots => exact ⟨rfl, hnames _ (List.mem_cons_self ..) hdots⟩
  | dots _ _ ih => exact ih fun n hn => hnames n (List.mem_cons_of_mem _ hn)
  | @next name _ _ s s₁ _ fuel hdots hreturned _ ih =>
    have hcwd : s₁.cwd = s.cwd := hback s.cwd name (hnames _ (List.mem_cons_self ..) hdots) s₁.cwd
      ⟨fuel, ident, s.out, s₁.out, hreturned⟩
    rw [hcwd] at ih
    exact ih fun n hn => hnames n (List.mem_cons_of_mem _ hn)

/-- A nested call is made for an entry of the directory that is listed. -/
theorem subCall_cwd {c c' : Call Dir} (h : SubCall fs c c') :
    lists fs c = some c'.s.cwd ∧ IsEntry fs c'.s.cwd c'.name := by
  cases h with
  | intro henters hscan htakes =>
    obtain ⟨hcwd, hentry⟩ := takes_cwd hback htakes fun n hn hdots =>
      ⟨hdots, _, _, hscan, List.mem_reverse.mp hn⟩
    rw [hcwd]
    exact ⟨henters, hentry⟩

theorem transGen_down {b c : Call Dir} {d e : Dir} (h : TransGen (SubCall fs) b c)
    (hb : lists fs b = some d) (hc : lists fs c = some e) : TransGen (Down fs) d e := by
  induction h generalizing e with
  | single hcall =>
    obtain ⟨hlists, hentry⟩ := subCall_cwd hback hcall
    obtain rfl := Option.some.inj (hlists.symm.trans hb)
    exact TransGen.single ⟨_, hentry, hc⟩
  | tail _ hcall ih =>
    obtain ⟨hlists, hentry⟩ := subCall_cwd hback hcall
    exact (ih hlists).tail ⟨_, hentry, hc⟩

/-- **NO CIRCLE**: when calls come back and no way down leads from a directory to itself,
    every call ends. -/
theorem ends_of_no_circle [Finite Dir] (hdown : ∀ d, ¬ TransGen (Down fs) d d) (c : Call Dir) :
    Ends fs c := by
  refine (ends_iff_acc c).mpr (acc_of_not_repeats lists_of_subCall ?_)
  rintro ⟨b, c', d, -, hcalls, hb, hc'⟩
  exact hdown d (transGen_down hback hcalls hb hc')

end Back

/-! ## A system with links -/

/-- What a name stands for, links followed. -/
inductive Node (Dir : Type) where
  | file
  | directory (d : Dir)

/-- Directories with their entries, each entry with what `stat` finds behind it. -/
structure Graph (Dir : Type) where
  root : Dir
  parent : Dir → Dir
  way : Dir → List Name
  entries : Dir → List (Name × Node Dir)
  readable : Dir → Bool
  searchable : Dir → Bool

def Graph.lookup (g : Graph Dir) (d : Dir) (name : Name) : Option (Node Dir) :=
  if name = dot then some (.directory d)
  else if name = dotdot then some (.directory (g.parent d))
  else (g.entries d).lookup name

/-- The steps of a path; a directory has to be searched for the next one. -/
def Graph.follow (g : Graph Dir) : Node Dir → List Name → Option (Node Dir)
  | node, [] => some node
  | .file, _ :: _ => none
  | .directory d, name :: names =>
    if g.searchable d then (g.lookup d name).bind fun node => g.follow node names else none

def Graph.resolve (g : Graph Dir) (cwd : Dir) (path : List Byte) : Option (Node Dir) :=
  g.follow (.directory (if path.head? = some slash then g.root else cwd)) (words (· == slash) path)

/-- The system on such directories. -/
def graphFs (g : Graph Dir) : FileSystem Dir where
  currentDirName cwd :=
    if g.way cwd = [] then [slash] else (g.way cwd).flatMap fun name => slash :: name
  stat cwd path := (g.resolve cwd path).map fun node =>
    match node with
    | .file => 0o100644
    | .directory _ => sIfdir
  chdir cwd path := (g.resolve cwd path).bind fun node =>
    match node with
    | .file => none
    | .directory d => if g.searchable d then some d else none
  scandir _ d :=
    if g.readable d then some (dot :: dotdot :: (g.entries d).map Prod.fst) else none

/-- A directory `a` with a link `l` to the directory `c` in another directory `b`. -/
def crossLink : Graph (Fin 4) where
  root := 0
  parent := ![0, 0, 0, 2]
  way := ![[], [[97]], [[98]], [[98], [99]]]
  entries := ![[([97], .directory 1), ([98], .directory 2)], [([108], .directory 3)],
    [([99], .directory 3)], []]
  readable _ := true
  searchable _ := true

/-- After the call for `l` in `a` the program is in `b`. -/
theorem not_comesBack : ¬ ∀ (Dir : Type) (fs : FileSystem Dir) (d : Dir) (name : Name),
    IsEntry fs d name → ∀ d', ReturnsIn fs d name d' → d' = d := by
  intro h
  have hentry : IsEntry (graphFs crossLink) 1 [108] :=
    ⟨by decide, [], [dot, dotdot, [108]], rfl, by decide⟩
  have hreturns : ReturnsIn (graphFs crossLink) 1 [108] 2 :=
    ⟨1, 0, [], [fileLine 0 [108]], rfl⟩
  exact absurd (h _ _ 1 [108] hentry 2 hreturns) (by decide)

/-- With the two crossed links no directory is listed twice. -/
theorem ends_crossLink : ¬ Reenters (graphFs crossLink) ⟨0, [108], ⟨1, []⟩⟩ :=
  (ends_iff (graphFs crossLink) ⟨0, [108], ⟨1, []⟩⟩).2 (fun _ _ _ => rfl) ⟨1, _, rfl⟩

/-- A root directory with a link `l` to itself. -/
def selfLink : Graph (Fin 1) where
  root := 0
  parent := ![0]
  way := ![[]]
  entries := ![[([108], .directory 0)]]
  readable _ := true
  searchable _ := true

/-- Each call for the link makes another one. -/
theorem printFile_selfLink (fuel ident : Nat) (out : List (List Byte)) :
    printFile (graphFs selfLink) fuel ident [108] ⟨0, out⟩ = none := by
  induction fuel generalizing ident out with
  | zero => rfl
  | succ fuel ih =>
    have henters : enters (graphFs selfLink) 0 [108] = some 0 := by rfl
    have hscan : (graphFs selfLink).scandir (out ++ [fileLine ident [108]]) 0
        = some [dot, dotdot, [108]] := rfl
    have hreverse : [dot, dotdot, [108]].reverse = [[108], dotdot, dot] := rfl
    simp only [printFile_succ, henters, hscan, hreverse]
    rw [printEntries, if_neg (by decide), ih]

theorem not_ends : ¬ ∀ (Dir : Type) [Finite Dir] (fs : FileSystem Dir) (c : Call Dir),
    IsEntry fs c.s.cwd c.name → Ends fs c := by
  intro h
  obtain ⟨fuel, o, hrun⟩ := h (Fin 1) (graphFs selfLink) ⟨0, [108], ⟨0, []⟩⟩
    ⟨by decide, [], [dot, dotdot, [108]], rfl, by decide⟩
  rw [printFile_selfLink] at hrun
  exact Option.some_ne_none o hrun.symm

end LsTree
