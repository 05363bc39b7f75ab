import Mathlib.Data.Finset.Basic
import AipPkussm.LittleEndianProofs
import AipPkussm.MaximalRunsProofs
import AipPkussm.PreorderListProofs

/-! # The tree listing

    `print_file` prints the line of an entry of the current directory and, when the
    entry is a directory, goes there, calls itself on the entries in the order of
    `scandir`, the last one first, and goes up again.

    The calls of the system are a parameter (`FileSystem`).  In a tree without links
    the path that `get_path` builds leads to the entry (`resolve_getPath`), so a call
    comes back to its directory and prints the part of the tree at its entry once,
    in preorder (`printFile_tree`), whatever the orders are. -/

namespace LsTree

open LittleEndian MaximalRuns PreorderList

/-- A name of a directory entry, and a path as a string. -/
abbrev Name := List Byte

def slash : Byte := 47

/-- `.` -/
def dot : Name := [46]

/-- `..` -/
def dotdot : Name := [46, 46]

/-! ## The program -/

/-- The calls of the system, by the directory in which they are made.  The order in which
    `scandir` returns the entries may depend on all that has been printed. -/
structure FileSystem (Dir : Type) where
  currentDirName : Dir → List Byte
  stat : Dir → List Byte → Option Nat
  chdir : Dir → List Byte → Option Dir
  scandir : List (List Byte) → Dir → Option (List Name)

/-- The working directory, and the lines on standard output. -/
structure State (Dir : Type) where
  cwd : Dir
  out : List (List Byte)

/-- How a call ends: it returns, or the program exits. -/
inductive Outcome (Dir : Type) where
  | returned (s : State Dir)
  | exited (s : State Dir)

variable {Dir : Type}

def getPath (fs : FileSystem Dir) (name : Name) (s : State Dir) : List Byte :=
  fs.currentDirName s.cwd ++ slash :: name

/-- `get_mode`, which exits where it returns nothing here. -/
def getMode (fs : FileSystem Dir) (name : Name) (s : State Dir) : Option Nat :=
  fs.stat s.cwd (getPath fs name s)

def sIfmt : Nat := 0o170000

def sIfdir : Nat := 0o040000

def isDir (mode : Nat) : Bool := (mode &&& sIfmt) ^^^ sIfdir == 0

/-- `chdir`, whose result nobody looks at. -/
def chdir (fs : FileSystem Dir) (path : List Byte) (s : State Dir) : State Dir :=
  match fs.chdir s.cwd path with
  | some dir => { s with cwd := dir }
  | none => s

/-- What `print_file` prints for the entry itself. -/
def fileLine (ident : Nat) (name : Name) : List Byte :=
  (if ident ≠ 0 then [124] else []) ++ (List.replicate ident [32, 32, 32]).flatten
    ++ [124, 45, 45, 32] ++ name ++ [10]

/-- The loop over the entries, in the order in which it takes them. -/
def printEntries (printFile : Name → State Dir → Option (Outcome Dir)) :
    List Name → State Dir → Option (Outcome Dir)
  | [], s => some (.returned s)
  | name :: names, s =>
    if name = dot ∨ name = dotdot then printEntries printFile names s
    else
      match printFile name s with
      | some (.returned s) => printEntries printFile names s
      | stopped => stopped

def printFile (fs : FileSystem Dir) : Nat → Nat → Name → State Dir → Option (Outcome Dir)
  | 0, _, _, _ => none
  | fuel + 1, ident, name, s =>
    let s := { s with out := s.out ++ [fileLine ident name] }
    match getMode fs name s with
    | none => some (.exited s)
    | some mode =>
      if isDir mode then
        let s := chdir fs (getPath fs name s) s
        match fs.scandir s.out s.cwd with
        | none => some (.returned (chdir fs dotdot s))
        | some namelist =>
          -- `while (n--)` starts at the end
          match printEntries (printFile fs fuel (ident + 1)) namelist.reverse s with
          | some (.returned s) => some (.returned (chdir fs dotdot s))
          | stopped => stopped
      else some (.returned s)

def main (fs : FileSystem Dir) (fuel : Nat) (s : State Dir) : Option (Outcome Dir) :=
  match fs.scandir s.out s.cwd with
  | none => some (.returned s)
  | some namelist => printEntries (printFile fs fuel 0) namelist.reverse s

/-! ## Indentation -/

/-- Blanks between the first bar of a line and what comes next, three for a step. -/
def indentation (text : List Byte) : Nat := ((text.drop 1).takeWhile (· == 32)).length / 3

/-- The indentation of a line is the `ident` of its call. -/
theorem indentation_fileLine (ident : Nat) (name : Name) :
    indentation (fileLine ident name) = ident := by
  cases ident with
  | zero => simp [indentation, fileLine]
  | succ n =>
    have hblanks : ∀ c ∈ (List.replicate (n + 1) ([32, 32, 32] : List Byte)).flatten,
        (c == 32) = true := by
      intro c hc
      obtain ⟨l, hl, hcl⟩ := List.mem_flatten.mp hc
      obtain rfl := List.eq_of_mem_replicate hl
      simpa using hcl
    have htext : (fileLine (n + 1) name).drop 1
        = (List.replicate (n + 1) ([32, 32, 32] : List Byte)).flatten
          ++ 124 :: ([45, 45, 32] ++ name ++ [10]) := by
      simp [fileLine]
    rw [indentation, htext, List.takeWhile_append_of_pos hblanks,
      List.takeWhile_cons_of_neg (by decide), List.append_nil, List.length_flatten,
      List.map_replicate, List.sum_replicate]
    simp

/-! ## A tree without links -/

/-- What can be the name of an entry. -/
structure IsName (name : Name) : Prop where
  nonempty : name ≠ []
  noSlash : slash ∉ name
  neDot : name ≠ dot
  neDotdot : name ≠ dotdot

/-- All files and directories of a file system without links, each with the names on the
    way from the root, and their modes. -/
structure DirTree where
  paths : Finset (List Name)
  mode : List Name → Nat
  closed : ∀ p ∈ paths, ∀ q, q <+: p → q ∈ paths
  dirs : ∀ p name, p ++ [name] ∈ paths → isDir (mode p) = true
  names : ∀ p ∈ paths, ∀ name ∈ p, IsName name

/-- The steps of a path, from the directory `cur`. -/
def walk (t : DirTree) : List Name → List Name → Option (List Name)
  | cur, [] => some cur
  | cur, name :: names =>
    if isDir (t.mode cur) then
      if name = dot then walk t cur names
      else if name = dotdot then walk t cur.dropLast names
      else if cur ++ [name] ∈ t.paths then walk t (cur ++ [name]) names
      else none
    else none

/-- What a path string leads to: its components are the words between slashes. -/
def resolve (t : DirTree) (cwd : List Name) (path : List Byte) : Option (List Name) :=
  walk t (if path.head? = some slash then [] else cwd) (words (· == slash) path)

/-- The system on a tree: everything can be looked at, entered and read. -/
def treeFs (t : DirTree) (order : List (List Byte) → List Name → List Name) :
    FileSystem (List Name) where
  currentDirName cwd :=
    if cwd = [] then [slash] else cwd.flatMap fun name => slash :: name
  stat cwd path := (resolve t cwd path).map t.mode
  chdir cwd path := (resolve t cwd path).filter fun p => isDir (t.mode p)
  scandir out cwd := if isDir (t.mode cwd) then some (order out cwd) else none

/-- `scandir` returns the entries of a directory, each once, with or without `.` and `..`. -/
def Orders (t : DirTree) (order : List (List Byte) → List Name → List Name) : Prop :=
  ∀ out, ∀ p ∈ t.paths, isDir (t.mode p) = true → (order out p).Nodup
    ∧ ∀ name, name ≠ dot → name ≠ dotdot → (name ∈ order out p ↔ p ++ [name] ∈ t.paths)

variable {t : DirTree} {order : List (List Byte) → List Name → List Name}

theorem DirTree.parent {p : List Name} {name : Name} (h : p ++ [name] ∈ t.paths) :
    p ∈ t.paths := t.closed _ h p (List.prefix_append p [name])

theorem DirTree.isName {p : List Name} {name : Name} (h : p ++ [name] ∈ t.paths) :
    IsName name := t.names _ h name (by simp)

theorem IsName.words {name : Name} (h : IsName name) : words (· == slash) name = [name] := by
  refine words_of_inside h.nonempty ?_
  intro c hc
  rw [beq_eq_false_iff_ne]
  rintro rfl
  exact h.noSlash hc

/-- The components of the name of a directory are the names on the way to it. -/
theorem words_currentDirName {p : List Name} (hp : ∀ name ∈ p, IsName name) :
    words (· == slash) ((treeFs t order).currentDirName p) = p := by
  have hflat : words (· == slash) (p.flatMap fun name => slash :: name) = p := by
    induction p using List.reverseRecOn with
    | nil => rfl
    | append_singleton p name ih =>
      have ih := ih fun n hn => hp n (List.mem_append_left _ hn)
      rw [List.flatMap_append, List.flatMap_singleton, words_append_sep _ (by simp), ih,
        (hp name (by simp)).words]
  by_cases hroot : p = []
  · subst hroot
    rfl
  · simpa [treeFs, hroot] using hflat

/-- A walk along the names of a path stays on the path. -/
theorem walk_names {cur q : List Name} (h : cur ++ q ∈ t.paths) :
    walk t cur q = some (cur ++ q) := by
  induction q generalizing cur with
  | nil => simp [walk]
  | cons name q ih =>
    have hassoc : cur ++ name :: q = (cur ++ [name]) ++ q := by simp
    rw [hassoc] at h ⊢
    have hnext : cur ++ [name] ∈ t.paths := t.closed _ h _ (List.prefix_append _ q)
    have hname := DirTree.isName hnext
    rw [walk, if_pos (t.dirs cur name hnext), if_neg hname.neDot, if_neg hname.neDotdot,
      if_pos hnext, ih h]

/-- **PATH**: the path that `get_path` builds leads to the entry. -/
theorem resolve_getPath {p : List Name} {name : Name} (h : p ++ [name] ∈ t.paths)
    (out : List (List Byte)) :
    resolve t p (getPath (treeFs t order) name ⟨p, out⟩) = some (p ++ [name]) := by
  have hname := DirTree.isName h
  have hslash : (getPath (treeFs t order) name ⟨p, out⟩).head? = some slash := by
    cases p <;> simp [getPath, treeFs]
  have hwords : words (· == slash) (getPath (treeFs t order) name ⟨p, out⟩) = p ++ [name] := by
    rw [getPath, words_append_sep _ (by simp), hname.words]
    rw [words_currentDirName (t.names p (DirTree.parent h))]
  have hroot : [] ++ (p ++ [name]) ∈ t.paths := h
  rw [resolve, hslash, if_pos rfl, hwords]
  exact walk_names hroot

theorem getMode_entry {p : List Name} {name : Name} (h : p ++ [name] ∈ t.paths)
    (out : List (List Byte)) :
    getMode (treeFs t order) name ⟨p, out⟩ = some (t.mode (p ++ [name])) := by
  change (resolve t p (getPath (treeFs t order) name ⟨p, out⟩)).map t.mode = _
  rw [resolve_getPath h]
  rfl

/-- `chdir` into a directory of the tree. -/
theorem chdir_entry {p : List Name} {name : Name} (h : p ++ [name] ∈ t.paths)
    (hdir : isDir (t.mode (p ++ [name])) = true) (out : List (List Byte)) :
    chdir (treeFs t order) (getPath (treeFs t order) name ⟨p, out⟩) ⟨p, out⟩
      = ⟨p ++ [name], out⟩ := by
  have hchdir : (treeFs t order).chdir p (getPath (treeFs t order) name ⟨p, out⟩)
      = some (p ++ [name]) := by
    change (resolve t p (getPath (treeFs t order) name ⟨p, out⟩)).filter _ = _
    rw [resolve_getPath h, Option.filter_some, hdir, if_pos rfl]
  rw [chdir, hchdir]

/-- `chdir` to the parent. -/
theorem chdir_dotdot {p : List Name} {name : Name} (h : p ++ [name] ∈ t.paths)
    (hdir : isDir (t.mode (p ++ [name])) = true) (out : List (List Byte)) :
    chdir (treeFs t order) dotdot ⟨p ++ [name], out⟩ = ⟨p, out⟩ := by
  have hwords : words (· == slash) dotdot = [dotdot] := by decide
  have hhead : dotdot.head? ≠ some slash := by decide
  have hresolve : resolve t (p ++ [name]) dotdot = some p := by
    rw [resolve, if_neg hhead, hwords, walk, if_pos hdir, if_neg (by decide), if_pos rfl,
      List.dropLast_concat, walk]
  have hchdir : (treeFs t order).chdir (p ++ [name]) dotdot = some p := by
    simp [treeFs, hresolve, t.dirs p name h]
  rw [chdir, hchdir]

/-! ## The traversal -/

/-- A file or directory with all that is below it. -/
def subtree (t : DirTree) (p : List Name) : Set (List Name) := {q | q ∈ t.paths ∧ p <+: q}

/-- The subtrees of some entries of a directory. -/
def subtrees (t : DirTree) (p names : List Name) : Set (List Name) :=
  {q | q ∈ t.paths ∧ ∃ name ∈ names, p ++ [name] <+: q}

/-- The line of the node `p`, when the nodes with `depth` names have `ident`. -/
def nodeLine (ident depth : Nat) (p : List Name) : List Byte :=
  fileLine (ident + (p.length - depth)) (p.getLastD [])

/-- A call for an entry of `p` comes back to `p`, and lists the subtree of the entry. -/
def ListsEntries (t : DirTree) (p : List Name) (ident : Nat)
    (printFile : Name → State (List Name) → Option (Outcome (List Name))) : Prop :=
  ∀ name out, p ++ [name] ∈ t.paths → ∃ nodes,
    printFile name ⟨p, out⟩
        = some (.returned ⟨p, out ++ nodes.map (nodeLine ident (p.length + 1))⟩)
      ∧ Enumerates (subtree t (p ++ [name])) nodes

/-- Different entries have nothing in common. -/
theorem not_prefix_of_ne {p q q' : List Name} {name name' : Name} (hne : name ≠ name')
    (h : p ++ [name] <+: q) (h' : p ++ [name'] <+: q') : ¬ q <+: q' := by
  intro hq
  have heq : p ++ [name] = p ++ [name'] :=
    (List.prefix_of_prefix_length_le (h.trans hq) h' (by simp)).eq_of_length (by simp)
  exact hne (by simpa using heq)

theorem subtrees_nil (p : List Name) : subtrees t p [] = ∅ := by
  ext q
  simp [subtrees]

theorem subtrees_cons (p names : List Name) (name : Name) :
    subtrees t p (name :: names) = subtree t (p ++ [name]) ∪ subtrees t p names := by
  ext q
  simp only [subtrees, subtree, List.mem_cons, exists_eq_or_imp, Set.mem_ofPred_eq, Set.mem_union]
  exact and_or_left

/-- No node lies below `.` or `..`. -/
theorem subtree_dots {p : List Name} {name : Name} (h : name = dot ∨ name = dotdot) :
    subtree t (p ++ [name]) = ∅ := by
  refine Set.eq_empty_iff_forall_notMem.mpr ?_
  rintro q ⟨hq, hbelow⟩
  have hname := DirTree.isName (t.closed q hq _ hbelow)
  rcases h with h | h
  · exact hname.neDot h
  · exact hname.neDotdot h

/-- A directory is its own node and the subtrees of its entries. -/
theorem subtree_eq {p names : List Name} (hp : p ∈ t.paths)
    (hnames : ∀ name, p ++ [name] ∈ t.paths → name ∈ names) :
    subtree t p = insert p (subtrees t p names) := by
  ext q
  constructor
  · rintro ⟨hq, rest, rfl⟩
    cases rest with
    | nil => exact Or.inl (List.append_nil p)
    | cons name rest =>
      have hbelow : p ++ [name] <+: p ++ name :: rest := ⟨rest, by simp⟩
      exact Or.inr ⟨hq, name, hnames name (t.closed _ hq _ hbelow), hbelow⟩
  · rintro (rfl | ⟨hq, name, -, hbelow⟩)
    · exact ⟨hp, List.prefix_refl _⟩
    · exact ⟨hq, (List.prefix_append p [name]).trans hbelow⟩

theorem below_of_mem_subtrees {p names q : List Name} (h : q ∈ subtrees t p names) :
    p <+: q ∧ q ≠ p ∧ p.length < q.length := by
  obtain ⟨-, name, -, hbelow⟩ := h
  have hlen : p.length < q.length := by
    have := hbelow.length_le
    simpa using this
  refine ⟨(List.prefix_append p [name]).trans hbelow, ?_, hlen⟩
  rintro rfl
  exact Nat.lt_irrefl _ hlen

/-- **ENTRIES**: the loop lists the subtrees of the entries, one after the other. -/
theorem printEntries_tree {p : List Name} {ident : Nat}
    {printFile : Name → State (List Name) → Option (Outcome (List Name))}
    (hprint : ListsEntries t p ident printFile) {names : List Name} (hnodup : names.Nodup)
    (hnames : ∀ name ∈ names, name ≠ dot → name ≠ dotdot → p ++ [name] ∈ t.paths)
    (out : List (List Byte)) :
    ∃ nodes, printEntries printFile names ⟨p, out⟩
        = some (.returned ⟨p, out ++ nodes.map (nodeLine ident (p.length + 1))⟩)
      ∧ Enumerates (subtrees t p names) nodes := by
  induction names generalizing out with
  | nil =>
    refine ⟨[], by simp [printEntries], ?_⟩
    rw [subtrees_nil]
    exact Enumerates.nil
  | cons name names ih =>
    obtain ⟨hnotin, hnodup⟩ := List.nodup_cons.mp hnodup
    have ih := ih hnodup fun n hn => hnames n (List.mem_cons_of_mem name hn)
    rw [printEntries, subtrees_cons]
    by_cases hdots : name = dot ∨ name = dotdot
    · rw [if_pos hdots, subtree_dots hdots, Set.empty_union]
      exact ih out
    · obtain ⟨hdot, hdotdot⟩ := not_or.mp hdots
      obtain ⟨nodes, hrun, henum⟩ := hprint name out (hnames name (by simp) hdot hdotdot)
      obtain ⟨nodes', hrun', henum'⟩ := ih (out ++ nodes.map (nodeLine ident (p.length + 1)))
      refine ⟨nodes ++ nodes', ?_, henum.append henum' ?_⟩
      · rw [if_neg hdots, hrun, List.map_append, ← List.append_assoc]
        exact hrun'
      · rintro q ⟨-, hq⟩ q' ⟨-, name', hname', hq'⟩
        have hne : name ≠ name' := by
          rintro rfl
          exact hnotin hname'
        exact ⟨not_prefix_of_ne hne hq hq', not_prefix_of_ne hne.symm hq' hq⟩

/-- The loop over what `scandir` returns lists all that is below a directory. -/
theorem printEntries_scandir (horder : Orders t order) {p : List Name} (hp : p ∈ t.paths)
    (hdir : isDir (t.mode p) = true) {ident : Nat}
    {printFile : Name → State (List Name) → Option (Outcome (List Name))}
    (hprint : ListsEntries t p ident printFile) (before out : List (List Byte)) :
    ∃ nodes, printEntries printFile (order before p).reverse ⟨p, out⟩
        = some (.returned ⟨p, out ++ nodes.map (nodeLine ident (p.length + 1))⟩)
      ∧ Enumerates (subtrees t p (order before p)) nodes
      ∧ subtree t p = insert p (subtrees t p (order before p)) := by
  obtain ⟨hnodup, hmem⟩ := horder before p hp hdir
  have hnodup : (order before p).reverse.Nodup := List.nodup_reverse.mpr hnodup
  obtain ⟨nodes, hrun, henum⟩ := printEntries_tree hprint hnodup
    (fun name hname hdot hdotdot => (hmem name hdot hdotdot).mp (List.mem_reverse.mp hname)) out
  have hreverse : subtrees t p (order before p).reverse = subtrees t p (order before p) := by
    simp only [subtrees, List.mem_reverse]
  rw [hreverse] at henum
  refine ⟨nodes, hrun, henum, subtree_eq hp ?_⟩
  intro name h
  have hname := DirTree.isName h
  exact (hmem name hname.neDot hname.neDotdot).mpr h

/-- Within a subtree a step down is a step of indentation. -/
theorem nodeLine_succ {ident depth : Nat} {p : List Name} (h : depth < p.length) :
    nodeLine (ident + 1) (depth + 1) p = nodeLine ident depth p := by
  have hident : ident + 1 + (p.length - (depth + 1)) = ident + (p.length - depth) := by omega
  rw [nodeLine, nodeLine, hident]

/-- **CALL**: with fuel for the height of what is below, a call comes back and lists the
    subtree of its entry. -/
theorem printFile_tree (horder : Orders t order) {fuel : Nat} {p : List Name}
    (hfuel : ∀ q ∈ t.paths, q.length ≤ p.length + fuel) (ident : Nat) :
    ListsEntries t p ident (printFile (treeFs t order) fuel ident) := by
  induction fuel generalizing p ident with
  | zero =>
    intro name out h
    have := hfuel _ h
    simp at this
  | succ fuel ih =>
    intro name out h
    have hline : nodeLine ident (p.length + 1) (p ++ [name]) = fileLine ident name := by
      simp [nodeLine]
    rw [printFile]
    simp only [getMode_entry h]
    by_cases hdir : isDir (t.mode (p ++ [name])) = true
    · -- one level down, one unit of fuel less is enough
      have hheight : ∀ q ∈ t.paths, q.length ≤ (p ++ [name]).length + fuel := by
        intro q hq
        have := hfuel q hq
        simp only [List.length_append, List.length_singleton]
        omega
      obtain ⟨nodes, hrun, henum, hsubtree⟩ := printEntries_scandir horder h hdir
        (ih hheight (ident + 1)) (out ++ [fileLine ident name]) (out ++ [fileLine ident name])
      have hscandir : (treeFs t order).scandir (out ++ [fileLine ident name]) (p ++ [name])
          = some (order (out ++ [fileLine ident name]) (p ++ [name])) := if_pos hdir
      have hlines : nodes.map (nodeLine (ident + 1) ((p ++ [name]).length + 1))
          = nodes.map (nodeLine ident (p.length + 1)) := by
        refine List.map_congr_left ?_
        intro q hq
        have hlen := (below_of_mem_subtrees ((henum.mem q).mp hq)).2.2
        rw [List.length_append, List.length_singleton] at hlen ⊢
        exact nodeLine_succ hlen
      refine ⟨(p ++ [name]) :: nodes, ?_, ?_⟩
      · rw [if_pos hdir, chdir_entry h hdir]
        simp only [hscandir, hrun, chdir_dotdot h hdir]
        rw [hlines, List.map_cons, hline, List.append_assoc, List.singleton_append]
      · rw [hsubtree]
        refine henum.cons ?_
        intro q hq
        obtain ⟨hbelow, hne, -⟩ := below_of_mem_subtrees hq
        exact ⟨hbelow, hne⟩
    · refine ⟨[p ++ [name]], ?_, ?_⟩
      · rw [if_neg hdir, List.map_singleton, hline]
      · have hleaf : ∀ name', (p ++ [name]) ++ [name'] ∈ t.paths → name' ∈ [] := by
          intro name' h'
          exact absurd (t.dirs _ _ h') hdir
        rw [subtree_eq h hleaf, subtrees_nil]
        exact Enumerates.nil.cons (by simp)

/-! ## More fuel -/

theorem printEntries_mono {f g : Name → State Dir → Option (Outcome Dir)}
    (hfg : ∀ name s o, f name s = some o → g name s = some o) {names : List Name}
    {s : State Dir} {o : Outcome Dir} (h : printEntries f names s = some o) :
    printEntries g names s = some o := by
  induction names generalizing s with
  | nil => exact h
  | cons name names ih =>
    rw [printEntries] at h ⊢
    split at h
    · next hdots =>
      rw [if_pos hdots]
      exact ih h
    · next hdots =>
      rw [if_neg hdots]
      cases hf : f name s with
      | none => simp [hf] at h
      | some o' =>
        rw [hfg name s o' hf]
        rw [hf] at h
        cases o' with
        | returned s' => exact ih h
        | exited s' => exact h

/-- A call that ends does so with more fuel. -/
theorem printFile_mono {fs : FileSystem Dir} {fuel fuel' : Nat} (hle : fuel ≤ fuel')
    {ident : Nat} {name : Name} {s : State Dir} {o : Outcome Dir}
    (h : printFile fs fuel ident name s = some o) :
    printFile fs fuel' ident name s = some o := by
  induction fuel generalizing fuel' ident name s o with
  | zero => simp [printFile] at h
  | succ fuel ih =>
    obtain ⟨fuel', rfl⟩ : ∃ k, fuel' = k + 1 := ⟨fuel' - 1, by omega⟩
    have hcall : ∀ name s o, printFile fs fuel (ident + 1) name s = some o →
        printFile fs fuel' (ident + 1) name s = some o :=
      fun name s o => ih (Nat.le_of_succ_le_succ hle)
    rw [printFile] at h ⊢
    dsimp only at h ⊢
    split at h
    · exact h
    · next mode hmode =>
      split at h
      · next hdir =>
        rw [if_pos hdir]
        split at h
        · exact h
        · next namelist hscandir =>
          split at h
          · next s' hrun => simpa only [printEntries_mono hcall hrun] using h
          · next stopped hnot =>
            rw [printEntries_mono hcall h]
            cases o with
            | returned s' => exact absurd h (hnot s')
            | exited s' => rfl
      · next hdir => rwa [if_neg hdir]

/-- **LISTING**: from a directory of a tree the program prints one line for each file and
    directory below it, in preorder and with its depth as indentation, whatever the orders
    of the entries are, and each call comes back to the directory it was made in. -/
theorem main_listing (horder : Orders t order) {start : List Name} (hstart : start ∈ t.paths)
    (hdir : isDir (t.mode start) = true) {fuel : Nat} (hfuel : ∀ q ∈ t.paths, q.length ≤ fuel) :
    (∃ nodes, main (treeFs t order) fuel ⟨start, []⟩
          = some (.returned ⟨start, nodes.map (nodeLine 0 (start.length + 1))⟩)
        ∧ Enumerates {q | q ∈ t.paths ∧ start <+: q ∧ q ≠ start} nodes
        ∧ ∀ q ∈ nodes,
          q.length = start.length + 1 + indentation (nodeLine 0 (start.length + 1) q))
      ∧ ∀ fuel' p ident name out o, p ++ [name] ∈ t.paths →
          printFile (treeFs t order) fuel' ident name ⟨p, out⟩ = some o →
          ∃ out', o = .returned ⟨p, out'⟩ := by
  have hheight : ∀ p : List Name, ∀ k, ∀ q ∈ t.paths, q.length ≤ p.length + (fuel + k) := by
    intro p k q hq
    have := hfuel q hq
    omega
  constructor
  · obtain ⟨nodes, hrun, henum, hsubtree⟩ := printEntries_scandir horder hstart hdir
      (printFile_tree horder (hheight start 0) 0) [] []
    have hscandir : (treeFs t order).scandir [] start = some (order [] start) := if_pos hdir
    have hpart : {q | q ∈ t.paths ∧ start <+: q ∧ q ≠ start}
        = subtrees t start (order [] start) := by
      ext q
      constructor
      · rintro ⟨hq, hbelow, hne⟩
        have hmem : q ∈ subtree t start := ⟨hq, hbelow⟩
        rw [hsubtree] at hmem
        exact hmem.resolve_left hne
      · intro hq
        obtain ⟨hbelow, hne, -⟩ := below_of_mem_subtrees hq
        exact ⟨hq.1, hbelow, hne⟩
    refine ⟨nodes, ?_, ?_, ?_⟩
    · rw [main]
      simp only [hscandir]
      exact hrun
    · rw [hpart]
      exact henum
    · intro q hq
      have hlen := (below_of_mem_subtrees ((henum.mem q).mp hq)).2.2
      rw [nodeLine, indentation_fileLine]
      omega
  · intro fuel' p ident name out o h hrun
    obtain ⟨nodes, hlist, -⟩ := printFile_tree horder (hheight p fuel') ident name out h
    rw [printFile_mono (by omega) hrun] at hlist
    exact ⟨_, Option.some.inj hlist⟩

/-- A directory `a` with a file `b`, and a file `c`. -/
def smallTree : DirTree where
  paths := {[], [[97]], [[97], [98]], [[99]]}
  mode p := if p = [] ∨ p = [[97]] then sIfdir else 0o100644
  closed := by
    have h : ∀ p ∈ ({[], [[97]], [[97], [98]], [[99]]} : Finset (List Name)), ∀ q ∈ p.inits,
        q ∈ ({[], [[97]], [[97], [98]], [[99]]} : Finset (List Name)) := by decide
    intro p hp q hq
    exact h p hp q ((List.mem_inits q p).mpr hq)
  dirs := by
    have h : ∀ q ∈ ({[], [[97]], [[97], [98]], [[99]]} : Finset (List Name)), q ≠ [] →
        isDir (if q.dropLast = [] ∨ q.dropLast = [[97]] then sIfdir else 0o100644) = true := by
      decide
    intro p name hp
    simpa using h _ hp (by simp)
  names := by
    have h : ∀ p ∈ ({[], [[97]], [[97], [98]], [[99]]} : Finset (List Name)), ∀ name ∈ p,
        name ≠ [] ∧ slash ∉ name ∧ name ≠ dot ∧ name ≠ dotdot := by decide
    intro p hp name hname
    obtain ⟨hne, hslash, hdot, hdotdot⟩ := h p hp name hname
    exact ⟨hne, hslash, hdot, hdotdot⟩

/-- Its entries, in the order of the letters. -/
def smallOrder (_ : List (List Byte)) (p : List Name) : List Name :=
  if p = [] then [dot, dotdot, [97], [99]]
  else if p = [[97]] then [dot, dotdot, [98]]
  else []

theorem orders_small : Orders smallTree smallOrder := by
  intro out p hp hdir
  have hcases : p = [] ∨ p = [[97]] := by
    by_contra hneither
    rw [smallTree] at hdir
    simp only [if_neg hneither] at hdir
    exact absurd hdir (by decide)
  have hroot : ([dot, dotdot, [97], [99]] : List Name).Nodup := by decide
  have hsub : ([dot, dotdot, [98]] : List Name).Nodup := by decide
  rcases hcases with rfl | rfl
  · refine ⟨hroot, ?_⟩
    intro name hdot hdotdot
    simp [smallOrder, smallTree, hdot, hdotdot]
  · refine ⟨hsub, ?_⟩
    intro name hdot hdotdot
    simp [smallOrder, smallTree, hdot, hdotdot]

theorem main_listing_small :
    (∃ nodes, main (treeFs smallTree smallOrder) 2 ⟨[], []⟩
          = some (.returned ⟨[], nodes.map (nodeLine 0 1)⟩)
        ∧ Enumerates {q | q ∈ smallTree.paths ∧ [] <+: q ∧ q ≠ []} nodes
        ∧ ∀ q ∈ nodes, q.length = 0 + 1 + indentation (nodeLine 0 1 q))
      ∧ ∀ fuel' p ident name out o, p ++ [name] ∈ smallTree.paths →
          printFile (treeFs smallTree smallOrder) fuel' ident name ⟨p, out⟩ = some o →
          ∃ out', o = .returned ⟨p, out'⟩ :=
  main_listing orders_small (by decide) (by decide) (by decide)

end LsTree
