import Mathlib.Data.List.TakeWhile
import AipPkussm.LittleEndianProofs

/-! # Formatted input — `cin >>` and `gets` on one standard input

    The flags of a stream and the bytes that standard input has yet to give.
    `cin` and `stdio` share the bytes but not the flags: after an extraction has
    failed every later one fails as well and leaves its variable alone, while
    `gets` goes on reading.

    * `extractWord_append`, `extractInt_append`: a word, or a number, in front of
      a separator is read back, and the separator stays;
    * `gets_append`: so is a line, without its end;
    * `extractWord_bad`, `extractInt_bad`: nothing is read once the stream is bad.

    A number that does not fit an `int` becomes the nearest one, and what is not a
    number becomes 0; both set the flag. -/

namespace Istream

open LittleEndian

/-- The bytes that standard input has yet to give, and the flags of `cin`. -/
structure Stream where
  input : List Byte
  eofbit : Bool
  failbit : Bool
  deriving DecidableEq

/-- `cin.good()`. -/
def Stream.good (s : Stream) : Bool := !s.eofbit && !s.failbit

/-- Standard input before anything is read. -/
def Stream.start (input : List Byte) : Stream where
  input := input
  eofbit := false
  failbit := false

/-- The stream further on. -/
def Stream.goOn (s : Stream) (input : List Byte) : Stream := { s with input := input }

@[simp] theorem Stream.goOn_input (s : Stream) (input : List Byte) :
    (s.goOn input).input = input := rfl

@[simp] theorem Stream.good_goOn (s : Stream) (input : List Byte) :
    (s.goOn input).good = s.good := rfl

@[simp] theorem Stream.goOn_goOn (s : Stream) (input input' : List Byte) :
    (s.goOn input).goOn input' = s.goOn input' := rfl

/-- `isspace` of the C locale. -/
def isSpace (b : Byte) : Bool := b == 32 || (9 ≤ b.toNat && b.toNat ≤ 13)

/-- `isdigit`. -/
def isDigit (b : Byte) : Bool := 48 ≤ b.toNat && b.toNat ≤ 57

/-- The number that digits stand for. -/
def number (digits : List Byte) : Nat := digits.foldl (fun v b => 10 * v + (b.toNat - 48)) 0

/-- What every extraction does first: it skips white space, and where nothing is left
    or the stream is bad already, it fails. -/
def sentry (s : Stream) : Bool × Stream :=
  if s.good then
    match s.input.dropWhile isSpace with
    | [] => (false, { input := [], eofbit := true, failbit := true })
    | b :: rest => (true, s.goOn (b :: rest))
  else (false, { s with failbit := true })

/-- `cin >> str`, for a `str` that holds `old`. -/
def extractWord (s : Stream) (old : List Byte) : List Byte × Stream :=
  match sentry s with
  | (false, s') => (old, s')
  | (true, s') =>
      let rest := s'.input.dropWhile (fun b => !isSpace b)
      (s'.input.takeWhile (fun b => !isSpace b),
        { s' with input := rest, eofbit := rest.isEmpty })

/-- The digits after a sign. -/
def skipSign : List Byte → List Byte
  | b :: rest => if b = 43 ∨ b = 45 then rest else b :: rest
  | [] => []

/-- What `cin >> n` makes of the input, and whether it is a number that fits. -/
def parseInt (l : List Byte) : Int × Bool :=
  let digits := (skipSign l).takeWhile isDigit
  let v : Int := if l.head? = some 45 then -(number digits : Int) else number digits
  if digits = [] then (0, false)
  else if v < -2 ^ 31 then (-2 ^ 31, false)
  else if 2 ^ 31 ≤ v then (2 ^ 31 - 1, false)
  else (v, true)

/-- What it leaves. -/
def afterInt (l : List Byte) : List Byte := (skipSign l).dropWhile isDigit

/-- `cin >> n`, for an `int n` that holds `old`. -/
def extractInt (s : Stream) (old : Int) : Int × Stream :=
  match sentry s with
  | (false, s') => (old, s')
  | (true, s') =>
      ((parseInt s'.input).1,
        { input := afterInt s'.input
          eofbit := (afterInt s'.input).isEmpty
          failbit := !(parseInt s'.input).2 })

/-- `gets (str)`, for a `str` that holds `old`. -/
def gets (s : Stream) (old : List Byte) : List Byte × Stream :=
  if s.input = [] then (old, s)
  else (s.input.takeWhile (fun b => b ≠ 10),
    s.goOn (s.input.dropWhile (fun b => b ≠ 10)).tail)

/-! ## Good streams -/

section Good

variable {s : Stream} {spaces word rest : List Byte} {b : Byte}

/-- Both flags of a good stream are clear. -/
theorem eq_of_good (h : s.good = true) :
    s = { input := s.input, eofbit := false, failbit := false } := by
  obtain ⟨input, eofbit, failbit⟩ := s
  cases eofbit <;> cases failbit <;> first | rfl | cases h

/-- White space in front is skipped. -/
theorem sentry_append (h : s.good = true) (hin : s.input = spaces ++ b :: rest)
    (hspaces : ∀ c ∈ spaces, isSpace c = true) (hb : isSpace b = false) :
    sentry s = (true, s.goOn (b :: rest)) := by
  have hdrop : s.input.dropWhile isSpace = b :: rest := by
    rw [hin, List.dropWhile_append_of_pos hspaces, List.dropWhile_cons_of_neg]
    rw [hb]
    exact Bool.false_ne_true
  rw [sentry, if_pos h, hdrop]

/-- The front of a list up to the first byte that ends it. -/
theorem takeWhile_append {p : Byte → Bool} (hword : ∀ c ∈ word, p c = true) (hb : p b = false) :
    (word ++ b :: rest).takeWhile p = word := by
  rw [List.takeWhile_append_of_pos hword, List.takeWhile_cons_of_neg, List.append_nil]
  rw [hb]
  exact Bool.false_ne_true

/-- What is behind it. -/
theorem dropWhile_append {p : Byte → Bool} (hword : ∀ c ∈ word, p c = true) (hb : p b = false) :
    (word ++ b :: rest).dropWhile p = b :: rest := by
  rw [List.dropWhile_append_of_pos hword, List.dropWhile_cons_of_neg]
  rw [hb]
  exact Bool.false_ne_true

/-- **WORD**: a word in front of white space is read back. -/
theorem extractWord_append (h : s.good = true) (hin : s.input = spaces ++ (word ++ b :: rest))
    (hspaces : ∀ c ∈ spaces, isSpace c = true) (hne : word ≠ [])
    (hword : ∀ c ∈ word, isSpace c = false) (hb : isSpace b = true) (old : List Byte) :
    extractWord s old = (word, s.goOn (b :: rest)) := by
  obtain ⟨c, word', rfl⟩ := List.exists_cons_of_ne_nil hne
  have hsentry : sentry s = (true, s.goOn (c :: (word' ++ b :: rest))) :=
    sentry_append h hin hspaces (hword c (List.mem_cons_self ..))
  have hnot : ∀ x ∈ c :: word', (fun x => !isSpace x) x = true := by
    intro x hx
    show (!isSpace x) = true
    rw [hword x hx]
    rfl
  have hstop : (fun x => !isSpace x) b = false := by
    show (!isSpace b) = false
    rw [hb]
    rfl
  rw [extractWord, hsentry]
  simp only [Stream.goOn_input, ← List.cons_append]
  rw [takeWhile_append hnot hstop, dropWhile_append hnot hstop, eq_of_good h]
  rfl

/-- A digit is neither white space nor a sign. -/
theorem not_sign_of_isDigit {c : Byte} (h : isDigit c = true) :
    isSpace c = false ∧ c ≠ 43 ∧ c ≠ 45 := by
  have hrange := (Bool.and_eq_true _ _).mp h
  have hlow : 48 ≤ c.toNat := of_decide_eq_true hrange.1
  refine ⟨?_, ?_, ?_⟩
  · have h32 : c ≠ 32 := by
      rintro rfl
      exact absurd hlow (by decide)
    rw [isSpace, beq_eq_false_iff_ne.mpr h32, Bool.false_or, Bool.and_eq_false_iff]
    exact Or.inr (decide_eq_false (by omega))
  · rintro rfl
    exact absurd hlow (by decide)
  · rintro rfl
    exact absurd hlow (by decide)

/-- **NUMBER**: a number that fits an `int` is read back. -/
theorem extractInt_append (h : s.good = true) (hin : s.input = spaces ++ (word ++ b :: rest))
    (hspaces : ∀ c ∈ spaces, isSpace c = true) (hne : word ≠ [])
    (hword : ∀ c ∈ word, isDigit c = true) (hb : isDigit b = false)
    (hfits : number word < 2 ^ 31) (old : Int) :
    extractInt s old = ((number word : Int), s.goOn (b :: rest)) := by
  obtain ⟨c, word', rfl⟩ := List.exists_cons_of_ne_nil hne
  have hdigit : isDigit c = true := hword c (List.mem_cons_self ..)
  obtain ⟨hspace, hplus, hminus⟩ := not_sign_of_isDigit hdigit
  have hsentry : sentry s = (true, s.goOn (c :: (word' ++ b :: rest))) :=
    sentry_append h hin hspaces hspace
  have hskip : skipSign (c :: word' ++ b :: rest) = c :: word' ++ b :: rest :=
    if_neg (fun hsign => hsign.elim hplus hminus)
  have hhead : (c :: word' ++ b :: rest).head? ≠ some 45 :=
    fun heq => hminus (Option.some.inj heq)
  have hparse : parseInt (c :: word' ++ b :: rest) = ((number (c :: word') : Int), true) := by
    simp only [parseInt, hskip, takeWhile_append hword hb]
    rw [if_neg hhead, if_neg hne, if_neg (by omega), if_neg (by omega)]
  have hafter : afterInt (c :: word' ++ b :: rest) = b :: rest := by
    rw [afterInt, hskip, dropWhile_append hword hb]
  rw [extractInt, hsentry]
  simp only [Stream.goOn_input, ← List.cons_append, hparse, hafter]
  rw [eq_of_good h]
  rfl

/-- **NO NUMBER**: what is neither a digit nor a sign stays, the variable becomes 0, and
    the stream has failed. -/
theorem extractInt_not_number (h : s.good = true) (hin : s.input = spaces ++ b :: rest)
    (hspaces : ∀ c ∈ spaces, isSpace c = true) (hb : isSpace b = false)
    (hdigit : isDigit b = false) (hsign : b ≠ 43 ∧ b ≠ 45) (old : Int) :
    extractInt s old = (0, { input := b :: rest, eofbit := false, failbit := true }) := by
  have hskip : skipSign (b :: rest) = b :: rest :=
    if_neg (fun heq => heq.elim hsign.1 hsign.2)
  have hdigits : (b :: rest).takeWhile isDigit = [] := by
    rw [List.takeWhile_cons_of_neg]
    rw [hdigit]
    exact Bool.false_ne_true
  have hparse : parseInt (b :: rest) = (0, false) := by
    simp only [parseInt, hskip, hdigits, if_true]
  have hafter : afterInt (b :: rest) = b :: rest := by
    rw [afterInt, hskip, List.dropWhile_cons_of_neg]
    rw [hdigit]
    exact Bool.false_ne_true
  rw [extractInt, sentry_append h hin hspaces hb]
  simp only [Stream.goOn_input, hparse, hafter]
  rfl

/-- **END**: where only white space is left, nothing is read and the stream has failed. -/
theorem extractWord_end (h : s.good = true) (hin : ∀ c ∈ s.input, isSpace c = true)
    (old : List Byte) :
    extractWord s old = (old, { input := [], eofbit := true, failbit := true }) := by
  have hdrop : s.input.dropWhile isSpace = [] := List.dropWhile_eq_nil_iff.mpr hin
  rw [extractWord, sentry, if_pos h, hdrop]

/-- **LINE**: a line is read back, up to its end. -/
theorem gets_append {line : List Byte} (hin : s.input = line ++ 10 :: rest)
    (hline : (10 : Byte) ∉ line) (old : List Byte) :
    gets s old = (line, s.goOn rest) := by
  have hnot : ∀ x ∈ line, (fun x : Byte => decide (x ≠ 10)) x = true := by
    intro x hx
    exact decide_eq_true (fun heq => hline (heq ▸ hx))
  have hne : s.input ≠ [] := by
    rw [hin]
    exact List.append_ne_nil_of_right_ne_nil line (List.cons_ne_nil 10 rest)
  rw [gets, if_neg hne, hin, takeWhile_append hnot (decide_eq_false (fun h => h rfl)),
    dropWhile_append hnot (decide_eq_false (fun h => h rfl))]
  rfl

end Good

/-- What is still to come: white space, and the rest. -/
structure Ready (s : Stream) (rest : List Byte) : Prop where
  good : s.good = true
  input : ∃ spaces, s.input = spaces ++ rest ∧ ∀ b ∈ spaces, isSpace b = true

section Ready

variable {s : Stream} {word rest : List Byte} {b : Byte}

/-- A word in front is read, up to the white space behind it. -/
theorem Ready.extractWord (h : Ready s (word ++ b :: rest)) (hne : word ≠ [])
    (hword : ∀ b ∈ word, isSpace b = false) (hb : isSpace b = true) (old : List Byte) :
    Istream.extractWord s old = (word, s.goOn (b :: rest)) := by
  obtain ⟨hgood, spaces, hin, hspaces⟩ := h
  exact extractWord_append hgood hin hspaces hne hword hb old

/-- Where no word is left, none is read. -/
theorem Ready.extractWord_end (h : Ready s []) (old : List Byte) :
    Istream.extractWord s old = (old, { input := [], eofbit := true, failbit := true }) := by
  obtain ⟨hgood, spaces, hin, hspaces⟩ := h
  rw [List.append_nil] at hin
  exact Istream.extractWord_end hgood (fun b hb => hspaces b (hin ▸ hb)) old

end Ready

/-! ## Bad streams -/

section Bad

variable {s : Stream}

/-- A bad stream gives nothing. -/
theorem sentry_bad (h : s.good = false) : sentry s = (false, { s with failbit := true }) := by
  rw [sentry, if_neg (by rw [h]; exact Bool.false_ne_true)]

theorem extractWord_bad (h : s.good = false) (old : List Byte) :
    extractWord s old = (old, { s with failbit := true }) := by
  rw [extractWord, sentry_bad h]

theorem extractInt_bad (h : s.good = false) (old : Int) :
    extractInt s old = (old, { s with failbit := true }) := by
  rw [extractInt, sentry_bad h]

/-- `gets` does not look at the flags. -/
theorem gets_congr {s r : Stream} (h : s.input = r.input) (old : List Byte) :
    (gets s old).1 = (gets r old).1 ∧ (gets s old).2.input = (gets r old).2.input := by
  rw [gets, gets, h]
  split
  · exact ⟨rfl, h⟩
  · exact ⟨rfl, rfl⟩

/-- `gets` leaves the flags. -/
theorem good_gets (old : List Byte) : (gets s old).2.good = s.good := by
  rw [gets]
  split <;> rfl

/-- **END**: where no byte is left it leaves its buffer alone. -/
theorem gets_end (h : s.input = []) (old : List Byte) : gets s old = (old, s) := if_pos h

end Bad

end Istream
