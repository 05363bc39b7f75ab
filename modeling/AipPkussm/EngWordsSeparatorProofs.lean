import Mathlib.Data.List.TakeWhile
import Mathlib.Logic.Function.Basic
import AipPkussm.LittleEndianProofs
import AipPkussm.MaximalRunsProofs

/-! # The word counter

    `getContentStr` reads a file line by line and puts the lines together without
    their newlines, `getWords` scans the result for words, `parseAndCount` counts
    them in a map.

    The loop that reads asks for the end of the file only.  A stream that fails never
    gets there, so the loop ends for a file that can be opened and read and for no
    other (`getContentStr_iff`).

    The scanner hands over a word at the separator behind it and at no other place,
    so it finds the words that a separator ends (`getWords_eq`), which are all of them
    unless one is at the very end (`listed_getWords_iff`).  With the newlines
    gone, the counts are those of the file exactly when no newlines join two words
    and no word is the last thing before the end (`wordsCounted_iff`). -/

namespace EngWordsSeparator

open LittleEndian MaximalRuns

/-! ## Reading the file -/

/-- An `ifstream`: the bytes to come, whether an error waits behind them instead of
    the end of the file, and the three bits of its state. -/
structure InFile where
  rest : List Byte
  broken : Bool
  eofbit : Bool
  failbit : Bool
  badbit : Bool
  deriving DecidableEq

/-- `ifstream in_file(path)` for a file that can be read to its end. -/
def opened (file : List Byte) : InFile where
  rest := file
  broken := false
  eofbit := false
  failbit := false
  badbit := false

/-- `ifstream in_file(path)` for a path that cannot be opened. -/
def unopened : InFile where
  rest := []
  broken := false
  eofbit := false
  failbit := true
  badbit := false

def InFile.good (s : InFile) : Bool := !s.eofbit && !s.failbit && !s.badbit

def newline : Byte := 10

/-- What `getline` takes into the line. -/
def inLine (c : Byte) : Bool := c != newline

/-- `getline(in_file, line)`. -/
def getline (s : InFile) (line : List Byte) : InFile × List Byte :=
  if s.good then
    let taken := s.rest.takeWhile inLine
    match s.rest.dropWhile inLine with
    | _ :: rest => ({ s with rest := rest }, taken)
    | [] =>
      ({ s with rest := [], eofbit := !s.broken, badbit := s.broken, failbit := taken.isEmpty },
        taken)
  else
    -- the sentry fails, and the line stays as it is
    ({ s with failbit := true }, line)

/-- The loop of `getContentStr`. -/
def readLines : Nat → InFile → List Byte → List Byte → Option (List Byte)
  | 0, _, _, _ => none
  | fuel + 1, s, content, line =>
    if s.eofbit then some content
    else
      let (s, line) := getline s line
      readLines fuel s (content ++ line) line

def getContentStr (fuel : Nat) (s : InFile) : Option (List Byte) := readLines fuel s [] []

theorem getline_newline {taken : List Byte} (htaken : ∀ c ∈ taken, inLine c = true)
    (rest line : List Byte) :
    getline (opened (taken ++ newline :: rest)) line = (opened rest, taken) := by
  have hnewline : inLine newline = false := by decide
  have htake : (taken ++ newline :: rest).takeWhile inLine = taken := by
    rw [List.takeWhile_append_of_pos htaken, List.takeWhile_cons_of_neg (by simp [hnewline]),
      List.append_nil]
  have hdrop : (taken ++ newline :: rest).dropWhile inLine = newline :: rest := by
    rw [List.dropWhile_append_of_pos htaken, List.dropWhile_cons_of_neg (by simp [hnewline])]
  simp only [getline, InFile.good, opened, htake, hdrop]
  rfl

theorem getline_end {file : List Byte} (hfile : ∀ c ∈ file, inLine c = true)
    (line : List Byte) :
    getline (opened file) line
      = ({ opened [] with eofbit := true, failbit := file.isEmpty }, file) := by
  have htake : file.takeWhile inLine = file := List.takeWhile_eq_self_iff.mpr hfile
  have hdrop : file.dropWhile inLine = [] := List.dropWhile_eq_nil_iff.mpr hfile
  simp only [getline, InFile.good, opened, htake, hdrop]
  rfl

/-- A file is its last line, or a line with a newline behind it and a rest. -/
theorem line_cases (file : List Byte) :
    (∀ c ∈ file, inLine c = true)
      ∨ ∃ taken rest, file = taken ++ newline :: rest ∧ ∀ c ∈ taken, inLine c = true := by
  cases hdrop : file.dropWhile inLine with
  | nil => exact Or.inl (List.dropWhile_eq_nil_iff.mp hdrop)
  | cons c rest =>
    have hc : inLine c = false := by
      have := List.head?_dropWhile_not inLine file
      rw [hdrop] at this
      simpa using this
    obtain rfl : c = newline := by simpa [inLine] using hc
    refine Or.inr ⟨file.takeWhile inLine, rest, ?_, fun c hc => List.mem_takeWhile_imp hc⟩
    rw [← hdrop, List.takeWhile_append_dropWhile]

/-- **READ**: a file that can be read comes back without its newlines. -/
theorem readLines_opened {fuel : Nat} {file : List Byte} (content line : List Byte)
    (hfuel : file.length + 1 < fuel) :
    readLines fuel (opened file) content line = some (content ++ file.filter inLine) := by
  induction fuel generalizing file content line with
  | zero => omega
  | succ fuel ih =>
    rw [readLines, if_neg (by simp [opened])]
    rcases line_cases file with hfile | ⟨taken, rest, rfl, htaken⟩
    · obtain ⟨fuel, rfl⟩ := Nat.exists_eq_add_of_lt (Nat.lt_of_succ_lt_succ (Nat.lt_of_le_of_lt
        (Nat.succ_le_succ (Nat.zero_le file.length)) hfuel))
      rw [getline_end hfile, List.filter_eq_self.mpr hfile, Nat.zero_add]
      rfl
    · have hrest : rest.length + 1 < fuel := by
        simp only [List.length_append, List.length_cons] at hfuel
        omega
      rw [getline_newline htaken, List.filter_append, List.filter_eq_self.mpr htaken,
        List.filter_cons_of_neg (by decide), ← List.append_assoc]
      exact ih (content ++ taken) taken hrest

/-! ## The end of the loop -/

/-- The end of the file is not known yet, and an error is there or comes first. -/
def Stuck (s : InFile) : Prop := s.eofbit = false ∧ (s.good = true → s.broken = true)

/-- A stream that is not good is asked in vain. -/
theorem stuck_of_not_good {s : InFile} (heof : s.eofbit = false) (hgood : s.good = false) :
    Stuck s := ⟨heof, fun h => absurd (hgood.symm.trans h) Bool.false_ne_true⟩

/-- **STEP**: `getline` does not get a stuck stream to the end of its file. -/
theorem stuck_getline {s : InFile} (hs : Stuck s) (line : List Byte) :
    Stuck (getline s line).1 := by
  obtain ⟨heof, hbroken⟩ := hs
  cases hgood : s.good with
  | false =>
    rw [getline, hgood]
    exact stuck_of_not_good heof (by simp [InFile.good])
  | true =>
    have herror : s.broken = true := hbroken hgood
    rw [getline, hgood]
    cases s.rest.dropWhile inLine with
    | nil => exact stuck_of_not_good (by simp [herror]) (by simp [InFile.good, herror])
    | cons c rest => exact ⟨heof, fun _ => herror⟩

/-- **RUN**: a stuck stream keeps the loop going. -/
theorem readLines_stuck (fuel : Nat) {s : InFile} (hs : Stuck s) (content line : List Byte) :
    readLines fuel s content line = none := by
  induction fuel generalizing s content line with
  | zero => rfl
  | succ fuel ih =>
    rw [readLines, if_neg (by simp [hs.1])]
    exact ih (stuck_getline hs line) _ _

/-- A good stream without an error to come is a file that was just opened. -/
theorem eq_opened {s : InFile} (hgood : s.good = true) (hbroken : s.broken = false) :
    s = opened s.rest := by
  obtain ⟨rest, broken, eofbit, failbit, badbit⟩ := s
  simp only [InFile.good, Bool.and_eq_true, Bool.not_eq_true'] at hgood hbroken
  obtain ⟨⟨rfl, rfl⟩, rfl⟩ := hgood
  rw [hbroken]
  rfl

/-- **THE END**: `getContentStr` returns exactly when the stream is at the end of its file,
    or is good and no error comes before the end. -/
theorem getContentStr_iff (s : InFile) :
    (∃ fuel content, getContentStr fuel s = some content)
      ↔ s.eofbit = true ∨ s.good = true ∧ s.broken = false := by
  constructor
  · rintro ⟨fuel, content, hcontent⟩
    by_contra hnot
    rw [not_or, not_and, Bool.not_eq_true, Bool.not_eq_false] at hnot
    rw [getContentStr, readLines_stuck fuel hnot] at hcontent
    exact Option.some_ne_none content hcontent.symm
  · rintro (heof | ⟨hgood, hbroken⟩)
    · refine ⟨1, [], ?_⟩
      rw [getContentStr, readLines, if_pos heof]
    · refine ⟨s.rest.length + 2, s.rest.filter inLine, ?_⟩
      rw [eq_opened hgood hbroken]
      exact readLines_opened [] [] (Nat.lt_succ_self _)

/-- The path of a file that is not there. -/
theorem getContentStr_unopened :
    ¬ ∀ s : InFile, ∃ fuel content, getContentStr fuel s = some content := by
  intro h
  obtain ⟨fuel, content, hcontent⟩ := h unopened
  have hstuck : Stuck unopened := stuck_of_not_good rfl rfl
  rw [getContentStr, readLines_stuck fuel hstuck] at hcontent
  exact Option.some_ne_none content hcontent.symm

/-! ## Scanning for words -/

/-- The cases of the `switch`. -/
def separators : List Byte :=
  [' ', '\t', '\r', '\n', '\x22', '\x27', '.', ',', '<', '>', '\x5c', '/', '!', '@', '#', '$',
    '%', '^', '&', '*', '(', ')', '_', '=', '+', '?', '[', ']', '\x7b', '\x7d', '~', '\x60'].map
      fun c => BitVec.ofNat 8 c.toNat

def isSeparator (c : Byte) : Bool := separators.contains c

/-- The variables of `getWords`. -/
structure Scan where
  isNewWord : Bool
  aWord : List Byte
  wordsList : List (List Byte)
  deriving DecidableEq

def Scan.start : Scan where
  isNewWord := false
  aWord := []
  wordsList := []

/-- The body of the loop at the character `c`. -/
def Scan.step (s : Scan) (c : Byte) : Scan :=
  if isSeparator c then
    if s.isNewWord then
      { isNewWord := false, aWord := [], wordsList := s.wordsList ++ [s.aWord] }
    else s
  else { s with isNewWord := true, aWord := s.aWord ++ [c] }

def getWords (content : List Byte) : List (List Byte) :=
  (content.foldl Scan.step Scan.start).wordsList

/-- The scanner within a word, or between words with an empty one. -/
def scanning (w : List Byte) (ws : List (List Byte)) : Scan where
  isNewWord := !w.isEmpty
  aWord := w
  wordsList := ws

theorem step_inside {c : Byte} (hsep : isSeparator c = false) (w : List Byte)
    (ws : List (List Byte)) : (scanning w ws).step c = scanning (w ++ [c]) ws := by
  simp [Scan.step, scanning, hsep]

/-- At a separator the word is handed over. -/
theorem step_separator {c : Byte} (hsep : isSeparator c = true) {w : List Byte}
    (hin : ∀ d ∈ w, isSeparator d = false) (ws : List (List Byte)) :
    (scanning w ws).step c = scanning [] (ws ++ words isSeparator w) := by
  cases w with
  | nil => simp [Scan.step, scanning, hsep]
  | cons d w =>
    rw [words_of_inside (List.cons_ne_nil d w) hin]
    simp [Scan.step, scanning, hsep]

/-- **SCAN**: what is left to scan adds the words that a separator ends. -/
theorem foldl_scanning (content : List Byte) {w : List Byte}
    (hin : ∀ d ∈ w, isSeparator d = false) (ws : List (List Byte)) :
    (content.foldl Scan.step (scanning w ws)).wordsList
      = ws ++ closedWords isSeparator (w ++ content) := by
  induction content generalizing w ws with
  | nil => simp [scanning, closedWords_of_inside hin]
  | cons c content ih =>
    rw [List.foldl_cons]
    cases hsep : isSeparator c
    · have hin' : ∀ d ∈ w ++ [c], isSeparator d = false := by
        intro d hd
        rcases List.mem_append.mp hd with hd | hd
        · exact hin d hd
        · obtain rfl := List.mem_singleton.mp hd
          exact hsep
      rw [step_inside hsep, ih hin', List.append_assoc, List.singleton_append]
    · rw [step_separator hsep hin, ih (by simp), closedWords_append_sep w hsep,
        List.nil_append, List.append_assoc]

theorem getWords_eq (content : List Byte) :
    getWords content = closedWords isSeparator content :=
  foldl_scanning content (List.forall_mem_nil _) []

/-- **TOKENS**: `getWords` returns the maximal runs of characters that are no separators, in
    order, exactly when its string is empty or a separator is its last character. -/
theorem listed_getWords_iff (content : List Byte) :
    Listed isSeparator content (getWords content)
      ↔ ∀ c ∈ content.getLast?, isSeparator c = true := by
  rw [listed_iff, getWords_eq, closedWords_eq_words_iff]

/-- A string that is one word has no words. -/
theorem not_listed_getWords :
    ¬ ∀ content : List Byte, Listed isSeparator content (getWords content) := by
  intro h
  have hwords := listed_iff.mp (h [97])
  exact absurd hwords (by decide)

/-! ## Counting -/

/-- A `map<string, int>`. -/
abbrev WordMap := List Byte → Option Nat

/-- `wordsCount[curr_word] = wordsCount[curr_word] + 1`, where `[]` puts a word that is
    not there in with 0. -/
def increment (m : WordMap) (w : List Byte) : WordMap :=
  Function.update m w (some ((m w).getD 0 + 1))

def parseAndCount (content : List (List Byte)) : WordMap :=
  content.foldl increment fun _ => none

/-- **COUNT**: a word is in the map with the number of times it is in the list. -/
theorem parseAndCount_eq (content : List (List Byte)) (w : List Byte) :
    parseAndCount content w = if content.count w = 0 then none else some (content.count w) := by
  induction content using List.reverseRecOn with
  | nil => rfl
  | append_singleton content v ih =>
    rw [parseAndCount, List.foldl_append, List.foldl_cons, List.foldl_nil, ← parseAndCount,
      List.count_append, List.count_singleton]
    by_cases hw : w = v
    · subst hw
      rw [increment, Function.update_self, ih]
      split
      · next hzero => simp [hzero]
      · simp
    · rw [increment, Function.update_of_ne hw, ih]
      simp [Ne.symm hw]

/-- The map holds just the words of the lists. -/
theorem parseAndCount_inj {ws ws' : List (List Byte)} :
    parseAndCount ws = parseAndCount ws' ↔ ws.Perm ws' := by
  rw [List.perm_iff_count, funext_iff]
  refine forall_congr' fun w => ?_
  rw [parseAndCount_eq, parseAndCount_eq]
  split <;> split <;> simp <;> omega

/-- The program: read, scan, count. -/
def countWords (fuel : Nat) (s : InFile) : Option WordMap :=
  (getContentStr fuel s).map fun content => parseAndCount (getWords content)

theorem countWords_opened {fuel : Nat} {file : List Byte} (hfuel : file.length + 1 < fuel) :
    countWords fuel (opened file) = some (parseAndCount (getWords (file.filter inLine))) := by
  rw [countWords, getContentStr, readLines_opened [] [] hfuel]
  rfl

/-! ## The words of the file -/

/-- The keys of a map are the words of a file, each with the number of places where it
    stands as a word. -/
structure Counted (m : WordMap) (file : List Byte) : Prop where
  keys : ∀ w, m w ≠ none ↔ ∃ i, IsRun isSeparator file i w
  counts : ∀ w n, m w = some n → n = Set.ncard {i | IsRun isSeparator file i w}

/-- Only newlines are between the last character of a word and the end. -/
def OpenEnd (file : List Byte) : Prop :=
  ∃ pre a ns, file = pre ++ a :: ns ∧ (∀ c ∈ ns, inLine c = false) ∧ isSeparator a = false

theorem isSeparator_of_newline (c : Byte) (hc : inLine c = false) : isSeparator c = true := by
  obtain rfl : c = newline := by simpa [inLine] using hc
  decide

theorem counted_parseAndCount {ws : List (List Byte)} {file : List Byte} :
    Counted (parseAndCount ws) file ↔ ws.Perm (words isSeparator file) := by
  rw [List.perm_iff_count]
  constructor
  · intro h w
    rw [count_words]
    by_cases hzero : ws.count w = 0
    · have hnone : parseAndCount ws w = none := by rw [parseAndCount_eq, if_pos hzero]
      have hempty : {i | IsRun isSeparator file i w} = ∅ := by
        refine Set.eq_empty_iff_forall_notMem.mpr fun i hi => ?_
        exact (h.keys w).mpr ⟨i, hi⟩ hnone
      rw [hzero, hempty, Set.ncard_empty]
    · exact h.counts w _ (by rw [parseAndCount_eq, if_neg hzero])
  · intro h
    constructor
    · intro w
      rw [parseAndCount_eq, h w, ← mem_words]
      by_cases hmem : w ∈ words isSeparator file
      · have hpos := List.count_pos_iff.mpr hmem
        simpa [hmem] using Nat.ne_of_gt hpos
      · simp [hmem, List.count_eq_zero_of_not_mem hmem]
    · intro w n hn
      rw [parseAndCount_eq, h w] at hn
      split at hn
      · simp at hn
      · rw [← count_words]
        exact (Option.some.inj hn).symm

theorem endsOpen_filter {file : List Byte} :
    endsOpen isSeparator (file.filter inLine) = true ↔ OpenEnd file := by
  have hrev : endsOpen isSeparator (file.filter inLine)
      = opens isSeparator (file.reverse.filter inLine) := by
    rw [endsOpen, opens, List.filter_reverse, List.head?_reverse]
  rw [hrev, opens_filter]
  constructor
  · rintro ⟨ns, a, post, heq, hns, -, ha⟩
    refine ⟨post.reverse, a, ns.reverse, ?_, ?_, ha⟩
    · rw [← List.reverse_reverse file, heq]
      simp
    · intro c hc
      exact hns c (List.mem_reverse.mp hc)
  · rintro ⟨pre, a, ns, rfl, hns, ha⟩
    refine ⟨ns.reverse, a, pre.reverse, by simp, ?_, ?_, ha⟩
    · intro c hc
      exact hns c (List.mem_reverse.mp hc)
    · exact keep_of_inside isSeparator_of_newline ha

/-- **WORDS**: the program returns the words of a file with their numbers exactly when no
    newlines join two words and no word is the last thing before the end. -/
theorem wordsCounted_iff {fuel : Nat} {file : List Byte} (hfuel : file.length + 1 < fuel) :
    (∃ m, countWords fuel (opened file) = some m ∧ Counted m file)
      ↔ ¬ Joins isSeparator inLine file ∧ ¬ OpenEnd file := by
  have hmap : (∃ m, countWords fuel (opened file) = some m ∧ Counted m file)
      ↔ (getWords (file.filter inLine)).Perm (words isSeparator file) := by
    rw [countWords_opened hfuel, ← counted_parseAndCount]
    simp
  rw [hmap, getWords_eq]
  have hle : (closedWords isSeparator (file.filter inLine)).length
      ≤ (words isSeparator (file.filter inLine)).length := length_closedWords_le _
  have hle' := length_words_filter_le isSeparator_of_newline file
  constructor
  · intro hperm
    have hlen := hperm.length_eq
    constructor
    · intro hjoins
      have hlt := length_words_filter_lt isSeparator_of_newline hjoins
      omega
    · intro hopen
      have hlt := length_closedWords_lt (endsOpen_filter.mpr hopen)
      omega
  · rintro ⟨hjoins, hopen⟩
    have hclosed : endsOpen isSeparator (file.filter inLine) = false := by
      rw [← Bool.not_eq_true, endsOpen_filter]
      exact hopen
    rw [closedWords, hclosed, if_neg Bool.false_ne_true, words_filter isSeparator_of_newline hjoins]

/-- One line with one word, and a blank behind it. -/
theorem wordsCounted_word : ([97, 32, 10] : List Byte).length + 1 < 5
    ∧ ((∃ m, countWords 5 (opened [97, 32, 10]) = some m ∧ Counted m [97, 32, 10])
      ↔ ¬ Joins isSeparator inLine [97, 32, 10] ∧ ¬ OpenEnd [97, 32, 10]) :=
  ⟨by decide, wordsCounted_iff (by decide)⟩

/-- Of two lines with a word each the program makes one word. -/
theorem not_wordsCounted : ¬ ∀ (file : List Byte) (fuel : Nat), file.length + 1 < fuel →
    ∃ m, countWords fuel (opened file) = some m ∧ Counted m file := by
  intro h
  obtain ⟨m, hm, hcounted⟩ := h [97, 10, 98, 32] 6 (by decide)
  have hrun : IsRun isSeparator [97, 10, 98, 32] 0 ([97] : List Byte) :=
    ⟨by decide, by decide, [], [10, 98, 32], rfl, rfl, by decide, by decide⟩
  have hnone : m [97] = none := by
    rw [countWords_opened (by decide)] at hm
    rw [← Option.some.inj hm]
    decide
  exact (hcounted.keys [97]).mpr ⟨0, hrun⟩ hnone

end EngWordsSeparator
