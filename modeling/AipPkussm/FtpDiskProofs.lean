import AipPkussm.FtpStoreProofs
import AipPkussm.SharedFilesProofs

/-! # Many clients and one disk

    Each client of the file server has its `clithread`, and all of them read and
    write the same files.  `put_handler` truncates a file with `fopen`, waits for
    the client, and writes with `fwrite`, which passes the block to `write` in
    pieces; `get_handler` opens a file, asks for its size, and reads it.  Nothing
    keeps one thread from a file that another one is at work on.

    In every interleaving the bytes of a file are bytes that a `recv` brought for
    their places, bytes that the block of a PUT held where no `recv` brought any, or
    holes (`sourced_of_run`).  With at most one user of a file at a time, or several
    that only read it, the requests that are over are explained by a store of files
    that are put and got as a whole (`disk_refines_store`).  Otherwise they are not:
    any two files can be mixed (`exists_mixed`). -/

namespace FtpDisk

open LittleEndian FtpMessage FtpTransfer FtpHandlers SharedFiles Transition
open ChatReceive (socketioBufferSize)
open ChatGet (dataSends)

variable {ι φ : Type}

/-- The directory of the server: which file has a name, and whether `fopen` can create
    or truncate it. -/
structure Directory (φ : Type) where
  file : List Byte → φ
  creates : List Byte → Bool

/-- Where a `clithread` is: between two requests, in `put_handler` before and during
    `fwrite`, or in `get_handler` after `fopen` and during `fread`. -/
inductive Place (φ : Type) where
  | idle
  | receiving (f : φ) (msg : Message)
  | writing (f : φ) (buff : List Byte) (off : Nat)
  | opened (f : φ)
  | reading (f : φ) (buff : List Byte) (off : Nat)

/-- What `put_handler` has received: the request and its file, the block as `malloc`
    returned it, what each `recv` brought and for which offset, and the block then. -/
structure Receipt (φ : Type) where
  request : Message
  file : φ
  heap : List Byte
  pieces : List (Int × List Byte)
  block : List Byte

/-- What `get_handler` has read: the file, the block, and how many bytes of it. -/
structure Answer (φ : Type) where
  file : φ
  buff : List Byte
  got : Nat

/-- The disk and the threads.  As history, what was received, what was read, and the
    requests that are over: a PUT with its block, or an empty one where a `recv` has
    failed, and a GET with its answer. -/
structure DiskState (ι φ : Type) where
  files : φ → Option (List Byte)
  place : ι → Place φ
  received : List (Receipt φ)
  answered : List (Answer φ)
  done : List (StoreAct φ)

/-- What a thread does. -/
inductive DiskAct where
  /-- `fopen (msg->fname, "w+")` -/
  | put (msg : Message)
  /-- the block is received, or a `recv` fails -/
  | recv (mem : Memory) (l : Link)
  /-- `write` of the next `n` bytes of the block -/
  | write (n : Nat)
  /-- the block is written, and `fclose` -/
  | close
  /-- `fopen (msg->fname, "r")` -/
  | get (msg : Message)
  /-- `stat`, and `malloc` of a block of this size -/
  | stat (mem : Memory)
  /-- `read` of the next `n` bytes of the file -/
  | read (n : Nat)
  /-- the block is full or the file at its end, and the block is sent -/
  | send

namespace DiskState

section Goto

variable [DecidableEq ι]

/-- A thread elsewhere. -/
def goto (s : DiskState ι φ) (t : ι) (p : Place φ) : DiskState ι φ :=
  { s with place := Function.update s.place t p }

variable (s : DiskState ι φ) (t : ι) (p : Place φ)

@[simp] theorem goto_files : (s.goto t p).files = s.files := rfl
@[simp] theorem goto_place_self : (s.goto t p).place t = p := Function.update_self ..

variable {s t p} {u : ι}

theorem goto_place_of_ne (h : u ≠ t) : (s.goto t p).place u = s.place u :=
  Function.update_of_ne h ..

/-- What holds of the places of all threads holds of them after one has moved. -/
theorem forall_goto {P : Place φ → Prop} (h : ∀ u, P (s.place u)) (hp : P p) (u : ι) :
    P ((s.goto t p).place u) := by
  by_cases hu : u = t
  · rw [hu, goto_place_self]
    exact hp
  · rw [goto_place_of_ne hu]
    exact h u

end Goto

section SetFile

variable [DecidableEq φ]

/-- A file replaced. -/
def setFile (s : DiskState ι φ) (f : φ) (file : List Byte) : DiskState ι φ :=
  { s with files := Function.update s.files f (some file) }

variable (s : DiskState ι φ) (f : φ) (file : List Byte)

@[simp] theorem setFile_files_self : (s.setFile f file).files f = some file :=
  Function.update_self ..

variable {s f file} {g : φ}

theorem setFile_files_of_ne (h : g ≠ f) : (s.setFile f file).files g = s.files g :=
  Function.update_of_ne h ..

end SetFile

/-- A block is received. -/
def receive (s : DiskState ι φ) (r : Receipt φ) : DiskState ι φ :=
  { s with received := s.received ++ [r] }

/-- A block is answered. -/
def answer (s : DiskState ι φ) (a : Answer φ) : DiskState ι φ :=
  { s with answered := s.answered ++ [a] }

/-- A request is over. -/
def finish (s : DiskState ι φ) (a : StoreAct φ) : DiskState ι φ :=
  { s with done := s.done ++ [a] }

end DiskState

variable [DecidableEq ι] [DecidableEq φ]

/-- What the calls of a loop bring, and for which offset of the block. -/
def pieces : List Call → Link → List (Int × List Byte)
  | [], _ => []
  | c :: cs, l =>
      match FtpTransfer.recv l c.len with
      | .error _ => []
      | .ok (got, l') => (c.off, got) :: pieces cs l'

/-- One step. -/
def diskStep (dir : Directory φ) (s : DiskState ι φ) (l : ι × DiskAct) :
    Option (DiskState ι φ) :=
  match s.place l.1, l.2 with
  | .idle, .put msg =>
      (fnameString msg).map (fun name =>
        if dir.creates name then
          (s.setFile (dir.file name) []).goto l.1 (.receiving (dir.file name) msg)
        else s)
  | .receiving f msg, .recv mem link =>
      -- `malloc` returns NULL, and the one `recv`, for a place before it, fails
      if msg.size < 0 then some ((s.finish (.put f [])).goto l.1 .idle)
      else
        let calls := recvCalls msg.size (mem.old.size.tmod socketioBufferSize)
        let heap := malloc mem msg.size.toNat
        match recvAll calls heap link with
        | .ok (buff, _) =>
            some ((s.receive ⟨msg, f, heap, pieces calls link, buff⟩).goto l.1
              (.writing f buff 0))
        | .error .failed => some ((s.finish (.put f [])).goto l.1 .idle)
        | .error _ => none
  | .writing f buff off, .write n =>
      if 0 < n ∧ off + n ≤ buff.length then
        (s.files f).map (fun file =>
          (s.setFile f (writeAt off (slice off n buff) file)).goto l.1 (.writing f buff (off + n)))
      else none
  | .writing f buff off, .close =>
      if off = buff.length then some ((s.finish (.put f buff)).goto l.1 .idle) else none
  | .idle, .get msg =>
      (fnameString msg).map (fun name =>
        if (s.files (dir.file name)).isSome then s.goto l.1 (.opened (dir.file name))
        else s.finish (.get (dir.file name) none))
  | .opened f, .stat mem =>
      (s.files f).map (fun file => s.goto l.1 (.reading f (malloc mem file.length) 0))
  | .reading f buff off, .read n =>
      (s.files f).bind (fun file =>
        if 0 < n ∧ off + n ≤ buff.length ∧ off + n ≤ file.length then
          some (s.goto l.1 (.reading f (patch off (slice off n file) buff) (off + n)))
        else none)
  | .reading f buff off, .send =>
      (s.files f).bind (fun file =>
        if off = buff.length ∨ file.length ≤ off then
          some (((s.answer ⟨f, buff, off⟩).finish (.get f (some buff))).goto l.1 .idle)
        else none)
  | _, _ => none

/-- No thread has a request yet. -/
def diskInit (files : φ → Option (List Byte)) : DiskState ι φ where
  files := files
  place := fun _ => .idle
  received := []
  answered := []
  done := []

/-- The file server and its disk. -/
def disk (dir : Directory φ) (files : φ → Option (List Byte)) :
    Machine (DiskState ι φ) (ι × DiskAct) where
  init := diskInit files
  step := diskStep dir

/-- The rules of the step function. -/
inductive DiskStep (dir : Directory φ) (s : DiskState ι φ) (t : ι) :
    DiskAct → DiskState ι φ → Prop where
  | put {msg : Message} {name : List Byte} (hpc : s.place t = .idle)
      (hname : fnameString msg = some name) (hcreates : dir.creates name = true) :
      DiskStep dir s t (.put msg)
        ((s.setFile (dir.file name) []).goto t (.receiving (dir.file name) msg))
  | refused {msg : Message} {name : List Byte} (hpc : s.place t = .idle)
      (hname : fnameString msg = some name) (hcreates : dir.creates name = false) :
      DiskStep dir s t (.put msg) s
  | recv {f : φ} {msg : Message} {mem : Memory} {link link' : Link} {buff : List Byte}
      (hpc : s.place t = .receiving f msg) (hsize : 0 ≤ msg.size)
      (hrecv : recvAll (recvCalls msg.size (mem.old.size.tmod socketioBufferSize))
        (malloc mem msg.size.toNat) link = .ok (buff, link')) :
      DiskStep dir s t (.recv mem link)
        ((s.receive ⟨msg, f, malloc mem msg.size.toNat,
          pieces (recvCalls msg.size (mem.old.size.tmod socketioBufferSize)) link,
          buff⟩).goto t (.writing f buff 0))
  | failed {f : φ} {msg : Message} {mem : Memory} {link : Link}
      (hpc : s.place t = .receiving f msg)
      (hfails : msg.size < 0 ∨ 0 ≤ msg.size
        ∧ recvAll (recvCalls msg.size (mem.old.size.tmod socketioBufferSize))
          (malloc mem msg.size.toNat) link = .error .failed) :
      DiskStep dir s t (.recv mem link) ((s.finish (.put f [])).goto t .idle)
  | write {f : φ} {buff file : List Byte} {off n : Nat} (hpc : s.place t = .writing f buff off)
      (hn : 0 < n) (hin : off + n ≤ buff.length) (hfile : s.files f = some file) :
      DiskStep dir s t (.write n)
        ((s.setFile f (writeAt off (slice off n buff) file)).goto t (.writing f buff (off + n)))
  | close {f : φ} {buff : List Byte} (hpc : s.place t = .writing f buff buff.length) :
      DiskStep dir s t .close ((s.finish (.put f buff)).goto t .idle)
  | get {msg : Message} {name file : List Byte} (hpc : s.place t = .idle)
      (hname : fnameString msg = some name) (hfile : s.files (dir.file name) = some file) :
      DiskStep dir s t (.get msg) (s.goto t (.opened (dir.file name)))
  | missing {msg : Message} {name : List Byte} (hpc : s.place t = .idle)
      (hname : fnameString msg = some name) (hfile : s.files (dir.file name) = none) :
      DiskStep dir s t (.get msg) (s.finish (.get (dir.file name) none))
  | stat {f : φ} {mem : Memory} {file : List Byte} (hpc : s.place t = .opened f)
      (hfile : s.files f = some file) :
      DiskStep dir s t (.stat mem) (s.goto t (.reading f (malloc mem file.length) 0))
  | read {f : φ} {buff file : List Byte} {off n : Nat} (hpc : s.place t = .reading f buff off)
      (hn : 0 < n) (hbuff : off + n ≤ buff.length) (hin : off + n ≤ file.length)
      (hfile : s.files f = some file) :
      DiskStep dir s t (.read n)
        (s.goto t (.reading f (patch off (slice off n file) buff) (off + n)))
  | send {f : φ} {buff file : List Byte} {off : Nat} (hpc : s.place t = .reading f buff off)
      (hend : off = buff.length ∨ file.length ≤ off) (hfile : s.files f = some file) :
      DiskStep dir s t .send
        (((s.answer ⟨f, buff, off⟩).finish (.get f (some buff))).goto t .idle)

/-- **STEP INVERSION**: a step is an instance of a rule. -/
theorem rule_of_diskStep {dir : Directory φ} {s s' : DiskState ι φ} {t : ι} {a : DiskAct}
    (h : diskStep dir s (t, a) = some s') : DiskStep dir s t a s' := by
  simp only [diskStep] at h
  split at h
  · next msg hpc =>
    obtain ⟨name, hname, rfl⟩ := Option.map_eq_some_iff.mp h
    split
    · next hcreates => exact DiskStep.put hpc hname hcreates
    · next hcreates => exact DiskStep.refused hpc hname (Bool.eq_false_iff.mpr hcreates)
  · next f msg mem link hpc =>
    split at h
    · next hsize =>
      obtain rfl := Option.some.inj h
      exact DiskStep.failed hpc (Or.inl hsize)
    · next hsize =>
      split at h
      · next buff link' hrecv =>
        obtain rfl := Option.some.inj h
        exact DiskStep.recv hpc (Int.not_lt.mp hsize) hrecv
      · next hrecv =>
        obtain rfl := Option.some.inj h
        exact DiskStep.failed hpc (Or.inr ⟨Int.not_lt.mp hsize, hrecv⟩)
      · cases h
  · next f buff off n hpc =>
    split at h
    · next hn =>
      obtain ⟨file, hfile, rfl⟩ := Option.map_eq_some_iff.mp h
      exact DiskStep.write hpc hn.1 hn.2 hfile
    · cases h
  · next f buff off hpc =>
    split at h
    · next hoff =>
      obtain rfl := Option.some.inj h
      rw [hoff] at hpc
      exact DiskStep.close hpc
    · cases h
  · next msg hpc =>
    obtain ⟨name, hname, rfl⟩ := Option.map_eq_some_iff.mp h
    split
    · next hsome =>
      obtain ⟨file, hfile⟩ := Option.isSome_iff_exists.mp hsome
      exact DiskStep.get hpc hname hfile
    · next hnone => exact DiskStep.missing hpc hname (Option.not_isSome_iff_eq_none.mp hnone)
  · next f mem hpc =>
    obtain ⟨file, hfile, rfl⟩ := Option.map_eq_some_iff.mp h
    exact DiskStep.stat hpc hfile
  · next f buff off n hpc =>
    obtain ⟨file, hfile, hread⟩ := Option.bind_eq_some_iff.mp h
    split at hread
    · next hn =>
      obtain rfl := Option.some.inj hread
      exact DiskStep.read hpc hn.1 hn.2.1 hn.2.2 hfile
    · cases hread
  · next f buff off hpc =>
    obtain ⟨file, hfile, hsend⟩ := Option.bind_eq_some_iff.mp h
    split at hsend
    · next hend =>
      obtain rfl := Option.some.inj hsend
      exact DiskStep.send hpc hend hfile
    · cases hsend
  · cases h

/-- An instance of a rule is a step. -/
theorem diskStep_of_rule {dir : Directory φ} {s s' : DiskState ι φ} {t : ι} {a : DiskAct}
    (h : DiskStep dir s t a s') : diskStep dir s (t, a) = some s' := by
  cases h with
  | put hpc hname hcreates =>
      simp only [diskStep, hpc, hname, Option.map_some, hcreates]
      rfl
  | refused hpc hname hcreates =>
      simp only [diskStep, hpc, hname, Option.map_some, hcreates]
      rfl
  | recv hpc hsize hrecv =>
      simp only [diskStep, hpc, hrecv]
      exact if_neg (Int.not_lt.mpr hsize)
  | failed hpc hfails =>
      rcases hfails with hneg | ⟨hsize, hrecv⟩
      · simp only [diskStep, hpc]
        exact if_pos hneg
      · simp only [diskStep, hpc, hrecv]
        exact if_neg (Int.not_lt.mpr hsize)
  | write hpc hn hin hfile =>
      simp only [diskStep, hpc, hfile]
      exact if_pos ⟨hn, hin⟩
  | close hpc => simp only [diskStep, hpc, if_true]
  | get hpc hname hfile =>
      simp only [diskStep, hpc, hname, Option.map_some, hfile]
      rfl
  | missing hpc hname hfile =>
      simp only [diskStep, hpc, hname, Option.map_some, hfile]
      rfl
  | stat hpc hfile => simp only [diskStep, hpc, hfile, Option.map_some]
  | read hpc hn hbuff hin hfile =>
      simp only [diskStep, hpc, hfile, Option.bind_some]
      exact if_pos ⟨hn, hbuff, hin⟩
  | send hpc hend hfile =>
      simp only [diskStep, hpc, hfile, Option.bind_some]
      exact if_pos hend

/-! ## Where the bytes are from -/

/-- A `recv` brought this byte for this place of the block. -/
def Receipt.Brought (r : Receipt φ) (k : Nat) (b : Byte) : Prop :=
  ∃ p ∈ r.pieces, p.1 ≤ k ∧ k < p.1 + p.2.length ∧ p.2.getD (k - p.1.toNat) 0 = b

/-- No `recv` brought anything for this place of the block, which held this byte. -/
def Receipt.Left (r : Receipt φ) (k : Nat) (b : Byte) : Prop :=
  (∀ p ∈ r.pieces, ¬ (p.1 ≤ k ∧ k < p.1 + p.2.length)) ∧ k < r.heap.length
    ∧ r.heap.getD k 0 = b

/-- What may stand at a place of a file: what it held there at the beginning, or what the
    block of a PUT of this file held. -/
def Source (files₀ : φ → Option (List Byte)) (received : List (Receipt φ)) (f : φ) (k : Nat)
    (b : Byte) : Prop :=
  (∃ file, files₀ f = some file ∧ k < file.length ∧ file.getD k 0 = b)
    ∨ ∃ r ∈ received, r.file = f ∧ (r.Brought k b ∨ r.Left k b)

/-- A block keeps its length. -/
theorem length_place {off : Int} {got buff buff' : List Byte}
    (h : place off got buff = .ok buff') : buff'.length = buff.length := by
  rw [place] at h
  split at h
  · obtain rfl := Except.ok.inj h
    rfl
  · split at h
    · obtain rfl := Except.ok.inj h
      exact length_patch (by omega)
    · cases h

/-- A call puts what it brings to its place, and nothing else into the block. -/
theorem getD_place_cases {off : Int} {got buff buff' : List Byte}
    (h : place off got buff = .ok buff') (k : Nat) :
    (off ≤ k ∧ k < off + got.length ∧ got.getD (k - off.toNat) 0 = buff'.getD k 0)
      ∨ ¬ (off ≤ k ∧ k < off + got.length) ∧ buff'.getD k 0 = buff.getD k 0 := by
  by_cases hcovers : off ≤ k ∧ k < off + got.length
  · refine Or.inl ⟨hcovers.1, hcovers.2, ?_⟩
    rw [place] at h
    split at h
    · next hnil =>
      rw [hnil, List.length_nil] at hcovers
      omega
    · split at h
      · obtain rfl := Except.ok.inj h
        exact (getD_patch_inside (by omega) (by omega) (by omega)).symm
      · cases h
  · exact Or.inr ⟨hcovers, FtpReceive.getD_place h (by omega)⟩

/-- **BLOCK**: each byte of a block was brought by a call for its place, or no call brought
    one and it is what it was. -/
theorem getD_recvAll (calls : List Call) : ∀ (buff : List Byte) (l : Link) (buff' : List Byte)
    (l' : Link), recvAll calls buff l = .ok (buff', l') → ∀ k, k < buff'.length →
      k < buff.length
        ∧ ((∃ p ∈ pieces calls l, p.1 ≤ k ∧ k < p.1 + p.2.length
            ∧ p.2.getD (k - p.1.toNat) 0 = buff'.getD k 0)
          ∨ (∀ p ∈ pieces calls l, ¬ (p.1 ≤ k ∧ k < p.1 + p.2.length))
            ∧ buff.getD k 0 = buff'.getD k 0) := by
  induction calls with
  | nil =>
      intro buff l buff' l' h k hk
      obtain ⟨rfl, rfl⟩ := Prod.mk.inj (Except.ok.inj h)
      exact ⟨hk, Or.inr ⟨fun p hp => absurd hp List.not_mem_nil, rfl⟩⟩
  | cons c cs ih =>
      intro buff l buff' l' h k hk
      rw [recvAll] at h
      cases hrecv : FtpTransfer.recv l c.len with
      | error e =>
          rw [hrecv] at h
          cases h
      | ok r =>
          obtain ⟨got, l₁⟩ := r
          rw [hrecv] at h
          simp only at h
          cases hplace : place c.off got buff with
          | error e =>
              rw [hplace] at h
              cases h
          | ok buff₁ =>
              rw [hplace] at h
              obtain ⟨hk₁, hrest⟩ := ih buff₁ l₁ buff' l' h k hk
              have hlen : buff₁.length = buff.length := length_place hplace
              have hpieces : pieces (c :: cs) l = (c.off, got) :: pieces cs l₁ := by
                rw [pieces, hrecv]
              have hthis := getD_place_cases hplace k
              rw [hpieces]
              refine ⟨hlen ▸ hk₁, ?_⟩
              -- the last call that covers the place decides
              rcases hrest with ⟨p, hp, hcovers⟩ | ⟨hnone, hold⟩
              · exact Or.inl ⟨p, List.mem_cons_of_mem _ hp, hcovers⟩
              · rcases hthis with ⟨hlow, hhigh, hbyte⟩ | ⟨hnot, hbyte⟩
                · exact Or.inl ⟨_, List.mem_cons_self .., hlow, hhigh, hbyte.trans hold⟩
                · exact Or.inr ⟨List.forall_mem_cons.mpr ⟨hnot, hnone⟩,
                    hbyte.symm.trans hold⟩

omit [DecidableEq ι] [DecidableEq φ] in
theorem Source.mono {files₀ : φ → Option (List Byte)} {received more : List (Receipt φ)} {f : φ}
    {k : Nat} {b : Byte} (h : Source files₀ received f k b) :
    Source files₀ (received ++ more) f k b := by
  rcases h with hold | ⟨r, hr, hrest⟩
  · exact Or.inl hold
  · exact Or.inr ⟨r, List.mem_append_left _ hr, hrest⟩

/-- A block that is written, and what was read of one, are from the sources. -/
def TrackedPlace (src : φ → Nat → Byte → Prop) : Place φ → Prop
  | .writing f buff _ => ∀ k, k < buff.length → src f k (buff.getD k 0)
  | .reading f buff off => off ≤ buff.length ∧ Sourced (src f) (buff.take off)
  | _ => True

omit [DecidableEq φ] in
theorem TrackedPlace.mono {src src' : φ → Nat → Byte → Prop} {p : Place φ}
    (h : TrackedPlace src p) (hsub : ∀ f k b, src f k b → src' f k b) : TrackedPlace src' p := by
  cases p with
  | writing f buff off => exact fun k hk => hsub f k _ (h k hk)
  | reading f buff off => exact ⟨h.1, h.2.mono (hsub f)⟩
  | idle => trivial
  | receiving f msg => trivial
  | opened f => trivial

/-- All bytes are from the sources. -/
structure Tracked (files₀ : φ → Option (List Byte)) (s : DiskState ι φ) : Prop where
  files : ∀ f file, s.files f = some file → Sourced (Source files₀ s.received f) file
  places : ∀ u, TrackedPlace (Source files₀ s.received) (s.place u)
  answered : ∀ a ∈ s.answered, a.got ≤ a.buff.length
    ∧ Sourced (Source files₀ s.received a.file) (a.buff.take a.got)

section Tracked

variable {files₀ : φ → Option (List Byte)} {s : DiskState ι φ} {t : ι} {f : φ} {p : Place φ}
  {file : List Byte}

omit [DecidableEq φ] in
/-- A thread goes on. -/
theorem Tracked.goto (h : Tracked files₀ s) (hp : TrackedPlace (Source files₀ s.received) p) :
    Tracked files₀ (s.goto t p) where
  files := h.files
  places := DiskState.forall_goto h.places hp
  answered := h.answered

omit [DecidableEq ι] in
/-- A file may be replaced by one from the sources. -/
theorem Tracked.setFile (h : Tracked files₀ s)
    (hfile : Sourced (Source files₀ s.received f) file) :
    Tracked files₀ (s.setFile f file) where
  files := by
    intro g file' hg
    by_cases heq : g = f
    · subst heq
      rw [DiskState.setFile_files_self] at hg
      obtain rfl := Option.some.inj hg
      exact hfile
    · rw [DiskState.setFile_files_of_ne heq] at hg
      exact h.files g file' hg
  places := h.places
  answered := h.answered

omit [DecidableEq ι] [DecidableEq φ] in
/-- One more block is one more source. -/
theorem Tracked.receive (h : Tracked files₀ s) (r : Receipt φ) :
    Tracked files₀ (s.receive r) where
  files := fun g file hg => (h.files g file hg).mono (fun _ _ => Source.mono)
  places := fun u => (h.places u).mono (fun _ _ _ => Source.mono)
  answered := fun a ha => ⟨(h.answered a ha).1, (h.answered a ha).2.mono (fun _ _ => Source.mono)⟩

omit [DecidableEq ι] [DecidableEq φ] in
/-- That a request is over changes no byte. -/
theorem Tracked.finish (h : Tracked files₀ s) (a : StoreAct φ) : Tracked files₀ (s.finish a) :=
  ⟨h.files, h.places, h.answered⟩

/-- **STEP**: all bytes stay from the sources. -/
theorem tracked_step {dir : Directory φ} {s' : DiskState ι φ} {a : DiskAct}
    (h : Tracked files₀ s) (hstep : DiskStep dir s t a s') : Tracked files₀ s' := by
  cases hstep with
  | put => exact (h.setFile (Sourced.nil _)).goto trivial
  | refused => exact h
  | @recv f msg mem link link' buff hpc hsize hrecv =>
      refine (h.receive _).goto (fun k hk => Or.inr ⟨_, List.mem_append_right _
        (List.mem_singleton_self _), rfl, ?_⟩)
      obtain ⟨hin, hfrom⟩ := getD_recvAll _ _ _ _ _ hrecv k hk
      exact hfrom.imp_right (fun hleft => ⟨hleft.1, hin, hleft.2⟩)
  | failed => exact (h.finish _).goto trivial
  | @write f buff file off n hpc hn hin hfile =>
      have hbuff := h.places t
      rw [hpc] at hbuff
      exact (h.setFile ((h.files f file hfile).writeAt hbuff hin)).goto hbuff
  | close => exact (h.finish _).goto trivial
  | get => exact h.goto trivial
  | missing => exact h.finish _
  | stat =>
      refine h.goto ⟨Nat.zero_le _, ?_⟩
      rw [List.take_zero]
      exact Sourced.nil _
  | @read f buff file off n hpc hn hbuff hin hfile =>
      have hplace := h.places t
      rw [hpc] at hplace
      obtain ⟨hoff, hsrc⟩ := hplace
      have hlen := length_slice hin
      refine h.goto ⟨?_, ?_⟩
      · rw [length_patch (by omega)]
        exact hbuff
      · have htake : (patch off (slice off n file) buff).take (off + (slice off n file).length)
            = buff.take off ++ slice off n file := take_patch hoff
        rw [hlen] at htake
        rw [htake]
        exact hsrc.append_slice (h.files f file hfile) hoff hin
  | @send f buff file off hpc hend hfile =>
      have hplace := h.places t
      rw [hpc] at hplace
      have hanswer : Tracked files₀ (s.answer ⟨f, buff, off⟩) := by
        refine ⟨h.files, h.places, ?_⟩
        intro a ha
        rcases List.mem_append.mp ha with hold | hnew
        · exact h.answered a hold
        · rw [List.mem_singleton.mp hnew]
          exact hplace
      exact (hanswer.finish _).goto trivial

omit [DecidableEq ι] [DecidableEq φ] in
/-- At the beginning. -/
theorem tracked_init (files₀ : φ → Option (List Byte)) :
    Tracked files₀ (diskInit files₀ : DiskState ι φ) where
  files := fun _ file hf _ hk => Or.inr (Or.inl ⟨file, hf, hk, rfl⟩)
  places := fun _ => trivial
  answered := fun _ ha => absurd ha List.not_mem_nil

end Tracked

/-- **PROVENANCE**: in every interleaving, each byte of a file, and each byte that was read
    from one, is in a hole, or the file held it there at the beginning, or a `recv` of a PUT
    of this file brought it for this place, or none did and the block of the PUT held it. -/
theorem sourced_of_run {dir : Directory φ} {files₀ : φ → Option (List Byte)} {s : DiskState ι φ}
    (h : Run (disk dir files₀) anyStep s) :
    (∀ f file, s.files f = some file → Sourced (Source files₀ s.received f) file)
      ∧ ∀ a ∈ s.answered, Sourced (Source files₀ s.received a.file) (a.buff.take a.got) := by
  have htracked : Tracked files₀ s := by
    refine Run.invariant (tracked_init files₀) ?_ h
    rintro s₁ ⟨t, a⟩ s₂ h₁ - hstep
    exact tracked_step h₁ (rule_of_diskStep hstep)
  exact ⟨htracked.files, fun a ha => (htracked.answered a ha).2⟩

/-! ## What is put -/

/-- The request is for this file. -/
def Names (dir : Directory φ) (f : φ) (msg : Message) : Prop :=
  ∃ name, fnameString msg = some name ∧ dir.file name = f

/-- The block was received for a request of this file. -/
def ReceivedFor (dir : Directory φ) (received : List (Receipt φ)) (f : φ) (block : List Byte) :
    Prop :=
  ∃ r ∈ received, r.file = f ∧ Names dir f r.request ∧ r.block = block

/-- A thread in `put_handler` has a request for its file, and then a block received for it. -/
def RequestedPlace (dir : Directory φ) (received : List (Receipt φ)) : Place φ → Prop
  | .receiving f msg => Names dir f msg
  | .writing f buff _ => ReceivedFor dir received f buff
  | _ => True

/-- What is put was received for the file, or a `recv` has failed. -/
structure Requested (dir : Directory φ) (s : DiskState ι φ) : Prop where
  places : ∀ u, RequestedPlace dir s.received (s.place u)
  done : ∀ f block, StoreAct.put f block ∈ s.done →
    block = [] ∨ ReceivedFor dir s.received f block

section Requested

variable {dir : Directory φ} {s : DiskState ι φ} {t : ι} {p : Place φ}

omit [DecidableEq φ] in
/-- A thread goes on. -/
theorem Requested.goto (h : Requested dir s) (hp : RequestedPlace dir s.received p) :
    Requested dir (s.goto t p) :=
  ⟨DiskState.forall_goto h.places hp, h.done⟩

omit [DecidableEq ι] [DecidableEq φ] in
/-- One more block was received for one more request. -/
theorem Requested.receive (h : Requested dir s) (r : Receipt φ) : Requested dir (s.receive r) := by
  have hmore : ∀ f block, ReceivedFor dir s.received f block →
      ReceivedFor dir (s.received ++ [r]) f block := by
    rintro f block ⟨r', hr', hrest⟩
    exact ⟨r', List.mem_append_left _ hr', hrest⟩
  refine ⟨fun u => ?_, fun f block hdone => (h.done f block hdone).imp_right (hmore f block)⟩
  have hplace := h.places u
  show RequestedPlace dir (s.received ++ [r]) (s.place u)
  cases hpc : s.place u with
  | receiving f msg =>
      rw [hpc] at hplace
      exact hplace
  | writing f buff off =>
      rw [hpc] at hplace
      exact hmore f buff hplace
  | idle => trivial
  | opened f => trivial
  | reading f buff off => trivial

omit [DecidableEq ι] [DecidableEq φ] in
/-- One more request is over. -/
theorem Requested.finish (h : Requested dir s) {a : StoreAct φ}
    (ha : ∀ f block, a = .put f block → block = [] ∨ ReceivedFor dir s.received f block) :
    Requested dir (s.finish a) := by
  refine ⟨h.places, fun f block hmem => ?_⟩
  rcases List.mem_append.mp hmem with hold | hnew
  · exact h.done f block hold
  · exact ha f block (List.mem_singleton.mp hnew).symm

/-- **STEP**: what is put was received. -/
theorem requested_step {s' : DiskState ι φ} {a : DiskAct} (h : Requested dir s)
    (hstep : DiskStep dir s t a s') : Requested dir s' := by
  have hplace := h.places t
  cases hstep with
  | put hpc hname hcreates =>
      exact Requested.goto (s := s.setFile _ _) ⟨h.places, h.done⟩ ⟨_, hname, rfl⟩
  | refused => exact h
  | recv hpc hsize hrecv =>
      rw [hpc] at hplace
      exact (h.receive _).goto
        ⟨_, List.mem_append_right _ (List.mem_singleton_self _), rfl, hplace, rfl⟩
  | failed hpc hfails =>
      refine (h.finish (fun f block heq => Or.inl ?_)).goto trivial
      exact (StoreAct.put.inj heq).2.symm
  | write hpc hn hin hfile =>
      rw [hpc] at hplace
      exact Requested.goto (s := s.setFile _ _) ⟨h.places, h.done⟩ hplace
  | close hpc =>
      rw [hpc] at hplace
      refine (h.finish (fun f block heq => Or.inr ?_)).goto trivial
      obtain ⟨rfl, rfl⟩ := StoreAct.put.inj heq
      exact hplace
  | get => exact h.goto trivial
  | missing => exact h.finish (fun f block heq => by cases heq)
  | stat => exact h.goto trivial
  | read => exact h.goto trivial
  | @send f buff file off hpc hend hfile =>
      have hanswer : Requested dir (s.answer ⟨f, buff, off⟩) := ⟨h.places, h.done⟩
      exact (hanswer.finish (fun f block heq => by cases heq)).goto trivial

/-- **RUN**: what is put in a run was received for the file, or a `recv` has failed. -/
theorem requested_of_run {files₀ : φ → Option (List Byte)} (h : Run (disk dir files₀) anyStep s) :
    Requested dir s := by
  refine Run.invariant ⟨fun _ => trivial, fun _ _ hmem => absurd hmem List.not_mem_nil⟩ ?_ h
  rintro s₁ ⟨t, a⟩ s₂ h₁ - hstep
  exact requested_step h₁ (rule_of_diskStep hstep)

end Requested

/-! ## One user of a file at a time -/

/-- The file that a thread has open. -/
def Place.file : Place φ → Option φ
  | .idle => none
  | .receiving f _ => some f
  | .writing f _ _ => some f
  | .opened f => some f
  | .reading f _ _ => some f

/-- The file that a thread has open for writing. -/
def Place.writes : Place φ → Option φ
  | .receiving f _ => some f
  | .writing f _ _ => some f
  | _ => none

/-- A file is opened for writing while nobody has it open, and for reading while nobody has
    it open for writing. -/
def Apart (dir : Directory φ) (s : DiskState ι φ) (l : ι × DiskAct) : Prop :=
  match l.2 with
  | .put msg => ∀ name, fnameString msg = some name →
      ∀ u, (s.place u).file ≠ some (dir.file name)
  | .get msg => ∀ name, fnameString msg = some name →
      ∀ u, (s.place u).writes ≠ some (dir.file name)
  | _ => True

/-- What a thread and its file have in common, when nobody else writes there. -/
def Matches (files : φ → Option (List Byte)) : Place φ → Prop
  | .idle => True
  | .receiving f _ => files f = some []
  | .writing f buff off => files f = some (buff.take off) ∧ off ≤ buff.length
  | .opened f => ∃ file, files f = some file
  | .reading f buff off => ∃ file, files f = some file ∧ buff.length = file.length
      ∧ off ≤ file.length ∧ buff.take off = file.take off

/-- The disk as a store: each thread finds its file as it left it, and what is not being
    written is what was put. -/
structure AsStore (s : DiskState ι φ) (files : φ → Option (List Byte)) : Prop where
  places : ∀ u, Matches s.files (s.place u)
  alone : ∀ u v f, (s.place u).writes = some f → (s.place v).file = some f → u = v
  files : ∀ f, (∀ u, (s.place u).writes ≠ some f) → s.files f = files f

omit [DecidableEq φ] in
/-- Who writes to a file has it open. -/
theorem Place.file_of_writes {p : Place φ} {f : φ} (h : p.writes = some f) : p.file = some f := by
  cases p with
  | receiving g msg => exact h
  | writing g buff off => exact h
  | idle => cases h
  | opened g => cases h
  | reading g buff off => cases h

omit [DecidableEq φ] in
/-- It only matters what a thread finds in its own file. -/
theorem Matches.congr {files files' : φ → Option (List Byte)} {p : Place φ}
    (h : Matches files p) (hsame : ∀ f, p.file = some f → files' f = files f) :
    Matches files' p := by
  cases p with
  | idle => trivial
  | receiving f msg =>
      show files' f = some []
      rw [hsame f rfl]
      exact h
  | writing f buff off =>
      show files' f = some (buff.take off) ∧ off ≤ buff.length
      rw [hsame f rfl]
      exact h
  | opened f =>
      show ∃ file, files' f = some file
      rw [hsame f rfl]
      exact h
  | reading f buff off =>
      show ∃ file, files' f = some file ∧ _
      rw [hsame f rfl]
      exact h

section AsStore

variable {s : DiskState ι φ} {files : φ → Option (List Byte)} {t : ι} {f : φ} {p : Place φ}

omit [DecidableEq φ] in
/-- Who writes is still alone when a thread has moved, if nobody else has its new file open, or
    if it only reads that and nobody writes to it. -/
theorem alone_goto
    (h : ∀ u v f, (s.place u).writes = some f → (s.place v).file = some f → u = v)
    (hwrites : ∀ f, p.writes = some f → ∀ v, v ≠ t → (s.place v).file ≠ some f)
    (hfile : ∀ f, p.file = some f → ∀ u, u ≠ t → (s.place u).writes ≠ some f) :
    ∀ u v f, ((s.goto t p).place u).writes = some f → ((s.goto t p).place v).file = some f →
      u = v := by
  intro u v f hu hv
  by_cases hut : u = t
  · by_cases hvt : v = t
    · rw [hut, hvt]
    · rw [hut, DiskState.goto_place_self] at hu
      rw [DiskState.goto_place_of_ne hvt] at hv
      exact absurd hv (hwrites f hu v hvt)
  · rw [DiskState.goto_place_of_ne hut] at hu
    by_cases hvt : v = t
    · rw [hvt, DiskState.goto_place_self] at hv
      exact absurd hu (hfile f hv u hut)
    · rw [DiskState.goto_place_of_ne hvt] at hv
      exact h u v f hu hv

omit [DecidableEq φ] in
/-- A file to which nobody writes when a thread has moved. -/
theorem unwritten_goto (hf : ∀ u, ((s.goto t p).place u).writes ≠ some f) :
    p.writes ≠ some f ∧ ∀ u, u ≠ t → (s.place u).writes ≠ some f := by
  refine ⟨?_, fun u hu => ?_⟩
  · have hself := hf t
    rwa [DiskState.goto_place_self] at hself
  · have hother := hf u
    rwa [DiskState.goto_place_of_ne hu] at hother

omit [DecidableEq ι] [DecidableEq φ] in
/-- Nobody writes to a file if neither the one thread nor the others do. -/
theorem unwritten_of_others (ht : (s.place t).writes ≠ some f)
    (hothers : ∀ u, u ≠ t → (s.place u).writes ≠ some f) (u : ι) :
    (s.place u).writes ≠ some f := by
  by_cases hu : u = t
  · rw [hu]
    exact ht
  · exact hothers u hu

omit [DecidableEq φ] in
/-- A thread goes on with the file that it has open, or is done reading it. -/
theorem AsStore.goto (h : AsStore s files) (hp : Matches s.files p)
    (hwrites : p.writes = (s.place t).writes)
    (hfile : ∀ f, p.file = some f → (s.place t).file = some f) :
    AsStore (s.goto t p) files where
  places := DiskState.forall_goto h.places hp
  alone := by
    refine alone_goto h.alone (fun g hg v hv hvg => ?_) (fun g hg u hu hug => ?_)
    · exact hv (h.alone t v g (hwrites.symm.trans hg) hvg).symm
    · exact hu (h.alone u t g hug (hfile g hg))
  files := by
    intro g hg
    obtain ⟨hself, hothers⟩ := unwritten_goto hg
    rw [hwrites] at hself
    exact h.files g (unwritten_of_others hself hothers)

omit [DecidableEq ι] [DecidableEq φ] in
/-- That a request is over changes no file. -/
theorem AsStore.log (h : AsStore s files) (a : StoreAct φ) : AsStore (s.finish a) files :=
  ⟨h.places, h.alone, h.files⟩

/-- A thread opens a file for writing, which nobody has open. -/
theorem AsStore.created (h : AsStore s files) (hidle : (s.place t).writes = none)
    (hfree : ∀ u, (s.place u).file ≠ some f) (msg : Message) :
    AsStore ((s.setFile f []).goto t (.receiving f msg)) files where
  places := by
    have hempty : Matches (s.setFile f []).files (.receiving f msg) :=
      DiskState.setFile_files_self ..
    refine DiskState.forall_goto (fun u => (h.places u).congr ?_) hempty
    intro g hg
    refine DiskState.setFile_files_of_ne ?_
    rintro rfl
    exact hfree u hg
  alone := by
    refine alone_goto (s := s.setFile f []) h.alone (fun g hg v _ => ?_) (fun g hg u _ hug => ?_)
    · obtain rfl := Option.some.inj hg
      exact hfree v
    · obtain rfl := Option.some.inj hg
      exact hfree u (Place.file_of_writes hug)
  files := by
    intro g hg
    obtain ⟨hself, hothers⟩ := unwritten_goto hg
    have hne : g ≠ f := fun heq => hself (congrArg some heq.symm)
    have hnone : (s.place t).writes ≠ some g := by
      rw [hidle]
      exact nofun
    rw [DiskState.goto_files, DiskState.setFile_files_of_ne hne]
    exact h.files g (unwritten_of_others hnone hothers)

omit [DecidableEq φ] in
/-- A thread opens a file for reading, to which nobody writes. -/
theorem AsStore.opened (h : AsStore s files) (hidle : (s.place t).writes = none)
    (hfree : ∀ u, (s.place u).writes ≠ some f) {file : List Byte}
    (hfile : s.files f = some file) : AsStore (s.goto t (.opened f)) files where
  places := DiskState.forall_goto h.places ⟨file, hfile⟩
  alone := by
    refine alone_goto h.alone (fun g hg => nomatch hg) (fun g hg u _ => ?_)
    obtain rfl := Option.some.inj hg
    exact hfree u
  files := by
    intro g hg
    have hnone : (s.place t).writes ≠ some g := by
      rw [hidle]
      exact nofun
    exact h.files g (unwritten_of_others hnone (unwritten_goto hg).2)

/-- A thread writes to the file that it has open for writing. -/
theorem AsStore.setFile (h : AsStore s files) (hwrites : (s.place t).writes = some f)
    {file : List Byte} (hp : Matches (s.setFile f file).files p) (hpw : p.writes = some f)
    (hpf : p.file = some f) : AsStore ((s.setFile f file).goto t p) files where
  places := by
    intro u
    by_cases hu : u = t
    · rw [hu, DiskState.goto_place_self]
      exact hp
    · rw [DiskState.goto_place_of_ne hu]
      refine (h.places u).congr (fun g hg => DiskState.setFile_files_of_ne ?_)
      rintro rfl
      exact hu (h.alone t u g hwrites hg).symm
  alone := by
    refine alone_goto (s := s.setFile f file) h.alone (fun g hg v hv hvg => ?_)
      (fun g hg u hu hug => ?_)
    · exact hv (h.alone t v g (hwrites.trans (hpw.symm.trans hg)) hvg).symm
    · have hopen : (s.place t).file = some g :=
        Place.file_of_writes (hwrites.trans (hpf.symm.trans hg))
      exact hu (h.alone u t g hug hopen)
  files := by
    intro g hg
    obtain ⟨hself, hothers⟩ := unwritten_goto hg
    have hne : g ≠ f := fun heq => hself (hpw.trans (congrArg some heq.symm))
    have hnone : (s.place t).writes ≠ some g := by
      rw [hwrites]
      exact fun heq => hne (Option.some.inj heq).symm
    rw [DiskState.goto_files, DiskState.setFile_files_of_ne hne]
    exact h.files g (unwritten_of_others hnone hothers)

/-- A thread is done with its file, which is `file` now. -/
theorem AsStore.finish (h : AsStore s files) (hwrites : (s.place t).writes = some f)
    {file : List Byte} (hfile : s.files f = some file) :
    AsStore (s.goto t .idle) (Function.update files f (some file)) where
  places := DiskState.forall_goto h.places trivial
  alone := alone_goto h.alone (fun _ hg => nomatch hg) (fun _ hg => nomatch hg)
  files := by
    intro g hg
    by_cases heq : g = f
    · rw [heq, DiskState.goto_files, hfile]
      exact (Function.update_self f (some file) files).symm
    · have hnone : (s.place t).writes ≠ some g := by
        rw [hwrites]
        exact fun hsame => heq (Option.some.inj hsame).symm
      have hkept := h.files g (unwritten_of_others hnone (unwritten_goto hg).2)
      exact hkept.trans (Function.update_of_ne heq (some file) files).symm

omit [DecidableEq ι] in
/-- A `write` puts the next bytes of the block behind those that are there. -/
theorem Matches.write {s : DiskState ι φ} {buff file : List Byte} {off n : Nat}
    (h : Matches s.files (.writing f buff off)) (hin : off + n ≤ buff.length)
    (hfile : s.files f = some file) :
    Matches (s.setFile f (writeAt off (slice off n buff) file)).files
      (.writing f buff (off + n)) := by
  obtain ⟨hheld, hoff⟩ := h
  obtain rfl := Option.some.inj (hfile.symm.trans hheld)
  have hend : (buff.take off).length = off := by
    rw [List.length_take]
    omega
  refine ⟨?_, hin⟩
  rw [DiskState.setFile_files_self, writeAt_end hend, slice, List.take_add]

omit [DecidableEq φ] in
/-- A `read` puts the next bytes of the file behind those that were read. -/
theorem Matches.read {files : φ → Option (List Byte)} {buff file : List Byte} {off n : Nat}
    (h : Matches files (.reading f buff off)) (hin : off + n ≤ file.length)
    (hfile : files f = some file) :
    Matches files (.reading f (patch off (slice off n file) buff) (off + n)) := by
  obtain ⟨held, hheld, hlen, hoff, hsame⟩ := h
  obtain rfl := Option.some.inj (hfile.symm.trans hheld)
  have hslice := length_slice hin
  refine ⟨file, hfile, ?_, hin, ?_⟩
  · rw [length_patch (by omega), hlen]
  · have htake : (patch off (slice off n file) buff).take (off + (slice off n file).length)
        = buff.take off ++ slice off n file := take_patch (by omega)
    rw [hslice] at htake
    rw [htake, hsame, slice, List.take_add]

omit [DecidableEq φ] in
/-- A block that is full, or whose file is at its end, is the file. -/
theorem Matches.whole {files : φ → Option (List Byte)} {buff file : List Byte} {off : Nat}
    (h : Matches files (.reading f buff off)) (hend : off = buff.length ∨ file.length ≤ off)
    (hfile : files f = some file) : buff = file := by
  obtain ⟨held, hheld, hlen, hoff, hsame⟩ := h
  obtain rfl := Option.some.inj (hfile.symm.trans hheld)
  have hall : off = file.length := by omega
  rwa [hall, ← hlen, List.take_length, hlen, List.take_length] at hsame

end AsStore

/-- **STEP**: a step with one user of a file at a time finishes no request, or one that is an
    operation of the store. -/
theorem asStore_step {dir : Directory φ} {s s' : DiskState ι φ} {files : φ → Option (List Byte)}
    {t : ι} {a : DiskAct} (h : AsStore s files) (ha : Apart dir s (t, a))
    (hstep : DiskStep dir s t a s') :
    (s'.done = s.done ∧ AsStore s' files)
      ∨ ∃ b files', s'.done = s.done ++ [b] ∧ storeStep files b = some files'
        ∧ AsStore s' files' := by
  have hplace := h.places t
  cases hstep with
  | @put msg name hpc hname hcreates =>
      exact Or.inl ⟨rfl, h.created (by rw [hpc]; rfl) (ha name hname) msg⟩
  | refused => exact Or.inl ⟨rfl, h⟩
  | @recv f msg mem link link' buff hpc hsize hrecv =>
      rw [hpc] at hplace
      have hreceive : ∀ r, AsStore (s.receive r) files := fun r => ⟨h.places, h.alone, h.files⟩
      refine Or.inl ⟨rfl, (hreceive _).goto ⟨?_, Nat.zero_le _⟩ ?_ ?_⟩
      · rw [List.take_zero]
        exact hplace
      · show _ = (s.place t).writes
        rw [hpc]
        rfl
      · intro g hg
        show (s.place t).file = some g
        rw [hpc]
        exact hg
  | @failed f msg mem link hpc hfails =>
      -- the file is left as `fopen` has made it, which is what an empty PUT does
      rw [hpc] at hplace
      exact Or.inr ⟨.put f [], _, rfl, rfl,
        (h.log (.put f [])).finish (by show (s.place t).writes = _; rw [hpc]; rfl) hplace⟩
  | @write f buff file off n hpc hn hin hfile =>
      rw [hpc] at hplace
      exact Or.inl ⟨rfl, h.setFile (by rw [hpc]; rfl) (hplace.write hin hfile) rfl rfl⟩
  | @close f buff hpc =>
      rw [hpc] at hplace
      have hheld : s.files f = some buff := by
        rw [hplace.1, List.take_length]
      exact Or.inr ⟨.put f buff, _, rfl, rfl,
        (h.log (.put f buff)).finish (by show (s.place t).writes = _; rw [hpc]; rfl) hheld⟩
  | @get msg name file hpc hname hfile =>
      exact Or.inl ⟨rfl, h.opened (by rw [hpc]; rfl) (ha name hname) hfile⟩
  | @missing msg name hpc hname hfile =>
      refine Or.inr ⟨.get (dir.file name) none, files, rfl, ?_, h.log _⟩
      rw [storeStep, ← h.files _ (ha name hname), if_pos hfile]
  | @stat f mem file hpc hfile =>
      refine Or.inl ⟨rfl, h.goto ⟨file, hfile, length_malloc .., Nat.zero_le _, ?_⟩ ?_ ?_⟩
      · rw [List.take_zero, List.take_zero]
      · rw [hpc]
        rfl
      · intro g hg
        rw [hpc]
        exact hg
  | @read f buff file off n hpc hn _ hin hfile =>
      rw [hpc] at hplace
      refine Or.inl ⟨rfl, h.goto (hplace.read hin hfile) ?_ ?_⟩
      · rw [hpc]
        rfl
      · intro g hg
        rw [hpc]
        exact hg
  | @send f buff file off hpc hend hfile =>
      rw [hpc] at hplace
      have hread : buff = file := hplace.whole hend hfile
      -- nobody writes to the file while this thread reads it, so it is that of the store
      have hkept : files f = some buff := by
        rw [← h.files f, hfile, hread]
        intro u hu
        have hut := h.alone u t f hu (by rw [hpc]; rfl)
        rw [hut, hpc] at hu
        cases hu
      have hanswer : AsStore (s.answer ⟨f, buff, off⟩) files := ⟨h.places, h.alone, h.files⟩
      refine Or.inr ⟨.get f (some buff), files, rfl, if_pos hkept,
        (hanswer.log _).goto trivial ?_ (fun g hg => by cases hg)⟩
      show _ = (s.place t).writes
      rw [hpc]
      rfl

omit [DecidableEq ι] [DecidableEq φ] in
/-- At the beginning. -/
theorem asStore_init (files₀ : φ → Option (List Byte)) :
    AsStore (diskInit files₀ : DiskState ι φ) files₀ where
  places := fun _ => trivial
  alone := fun _ _ _ hu _ => by cases hu
  files := fun _ _ => rfl

/-- A file without a remainder is received as it was sent. -/
theorem recvAll_file (heap : Int → Byte) (mem : Memory) {file : List Byte}
    (hsize : file.length < 2 ^ 31) (hdvd : socketioBufferSize ∣ file.length)
    (hrem : mem.old.size = 0) :
    ∃ link', recvAll (recvCalls file.length (mem.old.size.tmod socketioBufferSize))
        (malloc mem file.length) ⟨(dataSends heap file file.length).flatten, .pending⟩
      = .ok (file, link') := by
  have hnone : remainder file = 0 := Nat.mod_eq_zero_of_dvd hdvd
  have hall : chunksLen file = file.length := by
    have hsum := chunksLen_add_remainder file
    omega
  have hrun := recvAll_sent heap (mem.old.size.tmod socketioBufferSize) hsize
    (length_malloc mem file.length)
  have hzero : (BitVec.ofInt 32 (mem.old.size.tmod socketioBufferSize)).toNat = 0 := by
    rw [hrem]
    rfl
  rw [hzero, if_neg (Nat.not_lt_zero _), if_neg (fun h => h.2 rfl), hall, List.take_length,
    List.drop_of_length_le (Nat.le_of_eq (length_malloc ..)), List.append_nil] at hrun
  exact ⟨_, hrun⟩

section Runs

variable {dir : Directory φ} {files₀ : φ → Option (List Byte)} {s : DiskState ι φ} {t : ι}

/-- A thread truncates a file. -/
theorem exists_opened (h : Run (disk dir files₀) anyStep s) (hpc : s.place t = .idle)
    {msg : Message} {name : List Byte} (hname : fnameString msg = some name)
    (hcreates : dir.creates name = true) :
    ∃ s', Run (disk dir files₀) anyStep s'
      ∧ s'.place t = .receiving (dir.file name) msg ∧ (∀ v, v ≠ t → s'.place v = s.place v)
      ∧ s'.files (dir.file name) = some [] ∧ s'.received = s.received ∧ s'.done = s.done :=
  ⟨_, h.next trivial (diskStep_of_rule (.put hpc hname hcreates)), DiskState.goto_place_self ..,
    fun _ hv => DiskState.goto_place_of_ne hv, DiskState.setFile_files_self .., rfl, rfl⟩

/-- A thread receives a file of chunks as the block for its file. -/
theorem exists_received (h : Run (disk dir files₀) anyStep s) {f : φ} {msg : Message}
    (hpc : s.place t = .receiving f msg) {file : List Byte} (hsize : file.length < 2 ^ 31)
    (hdata : msg.dataSize = BitVec.ofNat 32 file.length)
    (hdvd : socketioBufferSize ∣ file.length) :
    ∃ s', Run (disk dir files₀) anyStep s' ∧ s'.place t = .writing f file 0
      ∧ (∀ v, v ≠ t → s'.place v = s.place v) ∧ s'.files = s.files
      ∧ (∃ r : Receipt φ, s'.received = s.received ++ [r] ∧ r.file = f ∧ r.block = file)
      ∧ s'.done = s.done := by
  let mem : Memory := ⟨fun _ => 0, { msg with dataSize := 0 }, fun _ => 0⟩
  have hmsg : msg.size = file.length := size_of_dataSize hsize hdata
  obtain ⟨link', hrecv⟩ := recvAll_file (fun _ => 0) mem hsize hdvd rfl
  have hblock : recvAll (recvCalls msg.size (mem.old.size.tmod socketioBufferSize))
      (malloc mem msg.size.toNat) ⟨(dataSends (fun _ => 0) file file.length).flatten, .pending⟩
      = .ok (file, link') := by
    rw [hmsg, Int.toNat_natCast]
    exact hrecv
  exact ⟨_, h.next trivial (diskStep_of_rule (.recv hpc (by omega) hblock)),
    DiskState.goto_place_self .., fun _ hv => DiskState.goto_place_of_ne hv, rfl,
    ⟨_, rfl, rfl, rfl⟩, rfl⟩

/-- A thread writes its block over what is there. -/
theorem exists_written (h : Run (disk dir files₀) anyStep s) {f : φ} {buff file : List Byte}
    (hpc : s.place t = .writing f buff 0) (hfile : s.files f = some file) :
    ∃ s', Run (disk dir files₀) anyStep s' ∧ s'.place t = .idle
      ∧ (∀ v, v ≠ t → s'.place v = s.place v)
      ∧ s'.files f = some (buff ++ file.drop buff.length) ∧ s'.received = s.received
      ∧ s'.done = s.done ++ [.put f buff] := by
  by_cases hne : buff = []
  · subst hne
    exact ⟨_, h.next trivial (diskStep_of_rule (.close hpc)),
      DiskState.goto_place_self .., fun _ hv => DiskState.goto_place_of_ne hv, hfile, rfl, rfl⟩
  have hrule : DiskStep dir s t (.write buff.length) _ :=
    .write hpc (List.length_pos_of_ne_nil hne) (Nat.le_of_eq (Nat.zero_add _)) hfile
  rw [Nat.zero_add] at hrule
  let s₁ := (s.setFile f (writeAt 0 (slice 0 buff.length buff) file)).goto t
    (.writing f buff buff.length)
  have hclose : DiskStep dir s₁ t .close ((s₁.finish (.put f buff)).goto t .idle) :=
    .close (DiskState.goto_place_self ..)
  refine ⟨_, (h.next trivial (diskStep_of_rule hrule)).next trivial (diskStep_of_rule hclose),
    DiskState.goto_place_self .., ?_, ?_, rfl, rfl⟩
  · intro v hv
    rw [DiskState.goto_place_of_ne hv]
    exact DiskState.goto_place_of_ne hv
  · show s₁.files f = _
    rw [DiskState.goto_files, DiskState.setFile_files_self, slice_zero_self rfl, writeAt_zero]

/-- **ALONE**: what `put_handler` does when nobody interrupts it is a run of its thread. -/
theorem exists_putHandler (h : Run (disk dir files₀) anyStep s) (hpc : s.place t = .idle)
    {d : Disk} {mem : Memory} {msg : Message} {l : Link} {r : Handled}
    (hcreates : dir.creates = d.creates) (hput : putHandler d mem msg l = .ok r) :
    ∃ s', Run (disk dir files₀) anyStep s' ∧ s'.place t = .idle
      ∧ (r.stored = none → s' = s)
      ∧ ∀ name file, r.stored = some (name, file) → s'.files (dir.file name) = some file := by
  rw [putHandler] at hput
  cases hname : fnameString msg with
  | none =>
      rw [hname] at hput
      cases hput
  | some name =>
      rw [hname] at hput
      simp only at hput
      split at hput
      · next hable =>
        have hable' : dir.creates name = true := by rw [hcreates, hable]
        obtain ⟨s₁, h₁, hpc₁, -, hfile₁, -⟩ := exists_opened h hpc hname hable'
        -- without a successful `recv` the file stays empty
        have hfailed : ∀ mem link, DiskStep dir s₁ t (.recv mem link)
            ((s₁.finish (.put (dir.file name) [])).goto t .idle) →
            ∃ s', Run (disk dir files₀) anyStep s' ∧ s'.place t = .idle
              ∧ s'.files (dir.file name) = some [] := fun _ _ hrule =>
          ⟨_, h₁.next trivial (diskStep_of_rule hrule), DiskState.goto_place_self .., hfile₁⟩
        split at hput
        · next hneg =>
          obtain rfl := Except.ok.inj hput
          obtain ⟨s₂, h₂, hpc₂, hfile₂⟩ := hfailed mem l (.failed hpc₁ (Or.inl hneg))
          refine ⟨s₂, h₂, hpc₂, fun hnone => (by cases hnone), ?_⟩
          rintro name' file hstored
          obtain ⟨rfl, rfl⟩ := Prod.mk.inj (Option.some.inj hstored)
          exact hfile₂
        · next hsize =>
          split at hput
          · next buff l' hrecv =>
            obtain rfl := Except.ok.inj hput
            have h₂ := h₁.next trivial
              (diskStep_of_rule (.recv hpc₁ (Int.not_lt.mp hsize) hrecv))
            obtain ⟨s₃, h₃, hpc₃, -, hfile₃, -⟩ :=
              exists_written h₂ (DiskState.goto_place_self ..) hfile₁
            rw [List.drop_nil, List.append_nil] at hfile₃
            refine ⟨s₃, h₃, hpc₃, fun hnone => (by cases hnone), ?_⟩
            rintro name' file hstored
            obtain ⟨rfl, rfl⟩ := Prod.mk.inj (Option.some.inj hstored)
            exact hfile₃
          · next hrecv =>
            obtain rfl := Except.ok.inj hput
            obtain ⟨s₂, h₂, hpc₂, hfile₂⟩ :=
              hfailed mem l (.failed hpc₁ (Or.inr ⟨Int.not_lt.mp hsize, hrecv⟩))
            refine ⟨s₂, h₂, hpc₂, fun hnone => (by cases hnone), ?_⟩
            rintro name' file hstored
            obtain ⟨rfl, rfl⟩ := Prod.mk.inj (Option.some.inj hstored)
            exact hfile₂
          · cases hput
      · have hnone : r.stored = none := by
          rw [refuse] at hput
          split at hput
          · cases hput
          · obtain rfl := Except.ok.inj hput
            rfl
        exact ⟨s, h, hpc, fun _ => rfl, fun _ _ hstored => by rw [hnone] at hstored; cases hstored⟩

end Runs

/-- The shorter one of two files over the other is neither of them, unless it was its
    beginning. -/
theorem mixture_ne {file₁ file₂ : List Byte} (hlen : file₂.length < file₁.length)
    (hfront : ¬ file₂ <+: file₁) :
    file₂ ++ file₁.drop file₂.length ≠ file₁ ∧ file₂ ++ file₁.drop file₂.length ≠ file₂ := by
  constructor
  · intro heq
    exact hfront ⟨_, heq⟩
  · intro heq
    have hall := congrArg List.length heq
    rw [List.length_append, List.length_drop] at hall
    omega

/-- **MIXED**: two clients put files of the same name, each of which is received as it was
    sent.  There is an interleaving that leaves the beginning of the one and the end of the
    other, which in general is neither of them. -/
theorem exists_mixed {dir : Directory φ} (files₀ : φ → Option (List Byte)) {t u : ι} (htu : t ≠ u)
    {name : List Byte} (hcreates : dir.creates name = true) {msg₁ msg₂ : Message}
    (hname₁ : fnameString msg₁ = some name) (hname₂ : fnameString msg₂ = some name)
    {file₁ file₂ : List Byte} (hsize₁ : file₁.length < 2 ^ 31) (hsize₂ : file₂.length < 2 ^ 31)
    (hdata₁ : msg₁.dataSize = BitVec.ofNat 32 file₁.length)
    (hdata₂ : msg₂.dataSize = BitVec.ofNat 32 file₂.length)
    (hdvd₁ : socketioBufferSize ∣ file₁.length) (hdvd₂ : socketioBufferSize ∣ file₂.length) :
    ∃ s : DiskState ι φ, Run (disk dir files₀) anyStep s
      ∧ s.received.map (fun r => (r.file, r.block))
        = [(dir.file name, file₁), (dir.file name, file₂)]
      ∧ s.done = [.put (dir.file name) file₁, .put (dir.file name) file₂]
      ∧ (∀ v, s.place v = .idle)
      ∧ s.files (dir.file name) = some (file₂ ++ file₁.drop file₂.length)
      ∧ (file₂.length < file₁.length → ¬ file₂ <+: file₁ →
        s.files (dir.file name) ≠ some file₁ ∧ s.files (dir.file name) ≠ some file₂) := by
  -- both open the file, so that both find it empty
  obtain ⟨s₁, h₁, ht₁, ho₁, -, hr₁, hd₁⟩ :=
    exists_opened (t := t) (Run.start (M := disk dir files₀)) rfl hname₁ hcreates
  obtain ⟨s₂, h₂, hu₂, ho₂, hf₂, hr₂, hd₂⟩ :=
    exists_opened h₁ (t := u) (ho₁ u htu.symm) hname₂ hcreates
  -- both blocks come in
  obtain ⟨s₃, h₃, ht₃, ho₃, hf₃, ⟨r₃, hr₃, hfile₃, hblock₃⟩, hd₃⟩ :=
    exists_received h₂ ((ho₂ t htu).trans ht₁) hsize₁ hdata₁ hdvd₁
  obtain ⟨s₄, h₄, hu₄, ho₄, hf₄, ⟨r₄, hr₄, hfile₄, hblock₄⟩, hd₄⟩ :=
    exists_received h₃ ((ho₃ u htu.symm).trans hu₂) hsize₂ hdata₂ hdvd₂
  -- the second one is written over the first one from the beginning
  obtain ⟨s₅, h₅, ht₅, ho₅, hf₅, hr₅, hd₅⟩ := exists_written h₄ ((ho₄ t htu).trans ht₃)
    ((congrFun hf₄ _).trans ((congrFun hf₃ _).trans hf₂))
  obtain ⟨s₆, h₆, hu₆, ho₆, hf₆, hr₆, hd₆⟩ :=
    exists_written h₅ ((ho₅ u htu.symm).trans hu₄) hf₅
  rw [List.drop_nil, List.append_nil] at hf₆
  refine ⟨s₆, h₆, ?_, ?_, ?_, hf₆, fun hlen hfront => ?_⟩
  · rw [hr₆, hr₅, hr₄, hr₃, hr₂, hr₁, ← hfile₃, ← hblock₃, ← hblock₄]
    show [(r₃.file, r₃.block), (r₄.file, r₄.block)] = [(r₃.file, r₃.block), (r₃.file, r₄.block)]
    rw [hfile₄, hfile₃]
  · rw [hd₆, hd₅, hd₄, hd₃, hd₂, hd₁]
    rfl
  · intro v
    by_cases hvu : v = u
    · rw [hvu]
      exact hu₆
    · rw [ho₆ v hvu]
      by_cases hvt : v = t
      · rw [hvt]
        exact ht₅
      · rw [ho₅ v hvt, ho₄ v hvu, ho₃ v hvt, ho₂ v hvu, ho₁ v hvt]
        rfl
  · obtain ⟨hfirst, hsecond⟩ := mixture_ne hlen hfront
    rw [hf₆]
    exact ⟨fun h => hfirst (Option.some.inj h), fun h => hsecond (Option.some.inj h)⟩

/-! ## A run -/

/-- Names are files. -/
def flat : Directory (List Byte) where
  file := id
  creates := fun name => name ≠ []

/-- A request for a chunk and three bytes. -/
def putChunkAndThree : Message := { FtpStore.putChunk with dataSize := 515 }

/-- Memory that is full of letters. -/
def fullMemory : Memory := ⟨fun _ => 0, FtpStore.putChunk, fun _ => 97⟩

/-- A client puts a chunk and three bytes, of which only the chunk is received, and then
    another one gets the file. -/
def putThenGet : List (Bool × DiskAct) :=
  [(false, .put putChunkAndThree), (false, .recv fullMemory ⟨List.replicate 512 120, .pending⟩),
   (false, .write 300), (false, .write 215), (false, .close),
   (true, .get putChunkAndThree), (true, .stat FtpStore.blankMemory), (true, .read 515),
   (true, .send)]

/-- A request is made while nobody has a file open. -/
def quiet (s : DiskState Bool (List Byte)) (l : Bool × DiskAct) : Bool :=
  match l.2 with
  | .put _ => decide (∀ u, (s.place u).file = none)
  | .get _ => decide (∀ u, (s.place u).file = none)
  | _ => true

theorem apart_of_quiet (s : DiskState Bool (List Byte)) (l : Bool × DiskAct)
    (h : quiet s l = true) : Apart flat s l := by
  obtain ⟨t, a⟩ := l
  cases a with
  | put msg =>
      intro name _ u hu
      rw [of_decide_eq_true h u] at hu
      cases hu
  | get msg =>
      intro name _ u hu
      have hopen := Place.file_of_writes hu
      rw [of_decide_eq_true h u] at hopen
      cases hopen
  | recv | write | close | stat | read | send => trivial

/-- A disk without files, and two clients. -/
def twoClients : Machine (DiskState Bool (List Byte)) (Bool × DiskAct) :=
  disk flat (fun _ => none)

theorem follows_putThenGet : Follows twoClients (Apart flat) twoClients.init putThenGet := by
  have hquiet : Follows twoClients (fun s l => quiet s l = true) twoClients.init putThenGet := by
    decide +kernel
  exact hquiet.imp apart_of_quiet

/-- What is left on the disk. -/
def putThenGetEnd : DiskState Bool (List Byte) :=
  (play twoClients twoClients.init putThenGet).getD twoClients.init

theorem play_putThenGet : play twoClients twoClients.init putThenGet = some putThenGetEnd := by
  have hsome : (play twoClients twoClients.init putThenGet).isSome := by decide +kernel
  exact (Option.getD_of_ne_none (Option.isSome_iff_ne_none.mp hsome) _).symm

/-- The second client reads the chunk and three letters of the server's memory. -/
example : putThenGetEnd.answered.map Answer.buff
    = [List.replicate 512 120 ++ List.replicate 3 97] := by decide +kernel

/-- What it reads is from there. -/
theorem sourced_putThenGet :
    (∀ f file, putThenGetEnd.files f = some file →
        Sourced (Source (fun _ => none) putThenGetEnd.received f) file)
      ∧ ∀ a ∈ putThenGetEnd.answered,
        Sourced (Source (fun _ => none) putThenGetEnd.received a.file) (a.buff.take a.got) :=
  sourced_of_run (Run.of_play putThenGet (follows_putThenGet.imp (fun _ _ _ => trivial))
    play_putThenGet)

/-- A request for two chunks. -/
def putTwoChunks : Message := { FtpStore.putChunk with dataSize := 1024 }

/-- The one chunk goes over the front of the two. -/
theorem mixed_chunks : ∃ s : DiskState Bool (List Byte),
    Run twoClients anyStep s
      ∧ s.received.map (fun r => (r.file, r.block))
        = [([102], List.replicate 1024 97), ([102], List.replicate 512 98)]
      ∧ s.done = [.put [102] (List.replicate 1024 97), .put [102] (List.replicate 512 98)]
      ∧ (∀ v, s.place v = .idle)
      ∧ s.files [102] = some (List.replicate 512 98
          ++ (List.replicate 1024 97).drop (List.replicate 512 (98 : Byte)).length)
      ∧ ((List.replicate 512 (98 : Byte)).length < (List.replicate 1024 (97 : Byte)).length →
        ¬ List.replicate 512 (98 : Byte) <+: List.replicate 1024 97 →
        s.files [102] ≠ some (List.replicate 1024 97)
          ∧ s.files [102] ≠ some (List.replicate 512 98)) := by
  have hname₁ : fnameString putTwoChunks = some [102] := rfl
  have hname₂ : fnameString FtpStore.putChunk = some [102] := rfl
  have hcreates : flat.creates [102] = true := by decide
  have hlen₁ : (List.replicate 1024 (97 : Byte)).length = 1024 := List.length_replicate
  have hlen₂ : (List.replicate 512 (98 : Byte)).length = 512 := List.length_replicate
  exact exists_mixed (fun _ => none) Bool.false_ne_true hcreates hname₁ hname₂
    (by rw [hlen₁]; decide) (by rw [hlen₂]; decide) (by rw [hlen₁]; rfl) (by rw [hlen₂]; rfl)
    (by rw [hlen₁]; decide) (by rw [hlen₂]; decide)

end FtpDisk
