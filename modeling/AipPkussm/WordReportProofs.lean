import AipPkussm.ChatConsoleProofs
import AipPkussm.EngWordsSeparatorRegexProofs
import AipPkussm.FieldsProofs
import AipPkussm.OrderedMapProofs

/-! # What the word counters print

    `main` of both programs walks through its `map<string, int>` and prints a line
    for every word, with the number of times it was counted in brackets.  The map is
    kept in the order of its words here, as the loop finds it, and with numbers that
    are an `int`; what is found in it is what the map of the other files holds
    (`get_parseAndCount`).

    The first program prints the words that end in its file in ascending order, with
    their numbers (`main_prints`).  The text tells the words of the file but for
    their order (`main_eq_iff`), and both programs print the same text for the files
    that both take apart alike (`sameText_iff`).  All of this is about files of fewer
    than 2^31 characters: the programs number the characters with an `int` too. -/

namespace WordReport

open LittleEndian MaximalRuns RegexSplit OrderedMap Fields
open ChatLabel (decimal formatInt)
open ChatConsole (not_mem_formatInt formatInt_inj)
open EngWordsSeparator (InFile opened getContentStr inLine isSeparator newline)

/-! ## The map in order -/

/-- Bytes are compared as unsigned characters. -/
def byteLt (a b : Byte) : Prop := a.toNat < b.toNat

instance decidableByteLt : DecidableRel byteLt := fun a b => Nat.decLt a.toNat b.toNat

instance byteOrder : IsStrictTotalOrder Byte byteLt where
  irrefl := fun a => Nat.lt_irrefl a.toNat
  trans := fun _ _ _ h h' => Nat.lt_trans h h'
  trichotomous := fun _ _ h h' =>
    BitVec.eq_of_toNat_eq (Nat.le_antisymm (Nat.not_lt.mp h') (Nat.not_lt.mp h))

/-- `operator<` of two strings. -/
abbrev wordLt : List Byte → List Byte → Prop := List.Lex byteLt

instance wordOrder : IsStrictTotalOrder (List Byte) wordLt :=
  { isStrictWeakOrder_of_isOrderConnected with }

/-- A `map<string, int>`, from `begin()` to `end()`. -/
abbrev Counts := List (List Byte × BitVec 32)

/-- `wordsCount[curr_word] = wordsCount[curr_word] + 1`. -/
def increment (m : Counts) (w : List Byte) : Counts := alter wordLt w (fun n => n.getD 0 + 1) m

def parseAndCount (content : List (List Byte)) : Counts := content.foldl increment []

theorem sorted_foldl (content : List (List Byte)) {m : Counts} (h : Sorted wordLt m) :
    Sorted wordLt (content.foldl increment m) := by
  induction content generalizing m with
  | nil => exact h
  | cons w content ih => exact ih (h.alter w _)

theorem sorted_parseAndCount (content : List (List Byte)) :
    Sorted wordLt (parseAndCount content) := sorted_foldl content List.Pairwise.nil

/-- **FOUND**: what is in the map in order is what is in the map of the other files, as an
    `int`. -/
theorem get_parseAndCount (content : List (List Byte)) (w : List Byte) :
    get w (parseAndCount content)
      = (EngWordsSeparator.parseAndCount content w).map (BitVec.ofNat 32) := by
  induction content using List.reverseRecOn generalizing w with
  | nil => rfl
  | append_singleton content v ih =>
      have hfirst : parseAndCount (content ++ [v]) = increment (parseAndCount content) v := by
        rw [parseAndCount, List.foldl_append]
        rfl
      have hother : EngWordsSeparator.parseAndCount (content ++ [v])
          = EngWordsSeparator.increment (EngWordsSeparator.parseAndCount content) v := by
        rw [EngWordsSeparator.parseAndCount, List.foldl_append]
        rfl
      have hnext : ∀ n : Option Nat,
          (n.map (BitVec.ofNat 32)).getD 0 + 1 = BitVec.ofNat 32 (n.getD 0 + 1) := by
        intro n
        cases n with
        | none => rfl
        | some n => exact (BitVec.ofNat_add n 1).symm
      rw [hfirst, hother, increment, (sorted_parseAndCount content).get_alter, ih, ih,
        EngWordsSeparator.increment, Function.update_apply, hnext]
      split
      · rfl
      · rfl

theorem get_parseAndCount_eq (content : List (List Byte)) (w : List Byte) :
    get w (parseAndCount content)
      = if content.count w = 0 then none else some (BitVec.ofNat 32 (content.count w)) := by
  rw [get_parseAndCount, EngWordsSeparator.parseAndCount_eq]
  split
  · rfl
  · rfl

/-- A word is in the map with the number of times it was counted. -/
theorem mem_parseAndCount {content : List (List Byte)} {w : List Byte} {n : BitVec 32} :
    (w, n) ∈ parseAndCount content
      ↔ n = BitVec.ofNat 32 (content.count w) ∧ 0 < content.count w := by
  rw [← (sorted_parseAndCount content).get_eq_some, get_parseAndCount_eq]
  split
  · next hzero => exact iff_of_false (Option.some_ne_none n).symm (fun h => absurd h.2 (by omega))
  · next hpos =>
    constructor
    · intro h
      exact ⟨(Option.some.inj h).symm, Nat.pos_of_ne_zero hpos⟩
    · rintro ⟨rfl, -⟩
      rfl

/-- **ORDER**: the map is the same for the same words in any order, and for no others, as long
    as an `int` holds the numbers. -/
theorem parseAndCount_eq_iff {ws ws' : List (List Byte)} (h : ws.length < 2 ^ 31)
    (h' : ws'.length < 2 ^ 31) : parseAndCount ws = parseAndCount ws' ↔ ws.Perm ws' := by
  constructor
  · intro heq
    refine List.perm_iff_count.mpr (fun w => ?_)
    have hle : ws.count w ≤ ws.length := List.count_le_length
    have hle' : ws'.count w ≤ ws'.length := List.count_le_length
    have hget := get_parseAndCount_eq ws w
    rw [heq, get_parseAndCount_eq] at hget
    split at hget
    · next hzero =>
      split at hget
      · next hzero' => rw [hzero, hzero']
      · exact absurd hget.symm (Option.some_ne_none _)
    · split at hget
      · exact absurd hget (Option.some_ne_none _)
      · have hcounts := congrArg BitVec.toNat (Option.some.inj hget)
        rw [BitVec.toNat_ofNat, BitVec.toNat_ofNat, Nat.mod_eq_of_lt (by omega),
          Nat.mod_eq_of_lt (by omega)] at hcounts
        exact hcounts.symm
  · intro hperm
    refine (sorted_parseAndCount ws).ext (sorted_parseAndCount ws') (fun w => ?_)
    rw [get_parseAndCount_eq, get_parseAndCount_eq, hperm.count_eq]

/-! ## The text -/

/-- `first << "[" << second << "]"` -/
def line (e : List Byte × BitVec 32) : List Byte := e.1 ++ 91 :: (formatInt e.2 ++ [93])

/-- The loop of `main`. -/
def print (m : Counts) : List Byte := m.flatMap (fun e => line e ++ [10])

/-- **LINE**: the last bracket that opens ends the word. -/
theorem line_inj {e e' : List Byte × BitVec 32} (h : line e = line e') : e = e' := by
  have hbracket : ∀ n, (91 : Byte) ∉ (formatInt n).reverse := by
    intro n hmem
    exact not_mem_formatInt rfl (by decide) n (List.mem_reverse.mp hmem)
  have hsplit : e.1 ++ 91 :: formatInt e.2 = e'.1 ++ 91 :: formatInt e'.2 := by
    refine (List.append_left_inj [93]).mp ?_
    rw [List.append_assoc, List.append_assoc]
    exact h
  have hreverse : (formatInt e.2).reverse ++ 91 :: e.1.reverse
      = (formatInt e'.2).reverse ++ 91 :: e'.1.reverse := by
    have hrev := congrArg List.reverse hsplit
    simpa using hrev
  obtain ⟨hcount, hword⟩ := split_unique (hbracket _) (hbracket _) hreverse
  exact Prod.ext (List.reverse_inj.mp hword) (formatInt_inj (List.reverse_inj.mp hcount))

theorem newline_not_mem_line {e : List Byte × BitVec 32} (h : newline ∉ e.1) :
    newline ∉ line e := by
  rw [line]
  simp only [List.mem_append, List.mem_cons, List.not_mem_nil, or_false, not_or]
  exact ⟨h, by decide, not_mem_formatInt rfl (by decide) _, by decide⟩

/-- **TEXT**: for words without an end of a line the text tells the map. -/
theorem print_eq_iff {ws ws' : List (List Byte)} (h : ∀ w ∈ ws, newline ∉ w)
    (h' : ∀ w ∈ ws', newline ∉ w) :
    print (parseAndCount ws) = print (parseAndCount ws')
      ↔ parseAndCount ws = parseAndCount ws' := by
  have hlines : ∀ {l : List (List Byte)}, (∀ w ∈ l, newline ∉ w) →
      ∀ text ∈ (parseAndCount l).map line, newline ∉ text := by
    intro l hl text htext
    obtain ⟨⟨w, n⟩, hmem, rfl⟩ := List.mem_map.mp htext
    obtain ⟨rfl, hpos⟩ := mem_parseAndCount.mp hmem
    exact newline_not_mem_line (hl w (List.count_pos_iff.mp hpos))
  have hprint : ∀ m : Counts, print m = (m.map line).flatMap (fun text => text ++ [newline]) := by
    intro m
    rw [List.flatMap_map]
    rfl
  rw [hprint, hprint]
  constructor
  · intro heq
    have htexts := lines_unique (hlines h) (hlines h') heq
    exact List.map_injective_iff.mpr (fun _ _ => line_inj) htexts
  · intro heq
    rw [heq]

/-! ## The programs -/

/-- `main` of the first program, with the file it opens. -/
def main (fuel : Nat) (s : InFile) : Option (List Byte) :=
  (getContentStr fuel s).map fun content =>
    print (parseAndCount (EngWordsSeparator.getWords content))

/-- `usage: parse_regex [file]` -/
def usage : List Byte :=
  [117, 115, 97, 103, 101, 58, 32, 112, 97, 114, 115, 101, 95, 114, 101, 103, 101, 120, 32, 91,
    102, 105, 108, 101, 93, 10]

/-- `main` of the second one, with its arguments and what it finds under a path. -/
def regexMain (fuel : Nat) (argv : List (List Byte)) (inFile : List Byte → InFile) :
    Option (List Byte) :=
  match argv with
  | [_, path] => (getContentStr fuel (inFile path)).map fun content =>
      print (parseAndCount (EngWordsSeparatorRegex.getWords content))
  | _ => some usage

theorem getContentStr_opened {fuel : Nat} {file : List Byte} (hfuel : file.length + 1 < fuel) :
    getContentStr fuel (opened file) = some (file.filter inLine) := by
  rw [getContentStr, EngWordsSeparator.readLines_opened [] [] hfuel]
  rfl

theorem newline_not_mem_filter (file : List Byte) : newline ∉ file.filter inLine := by
  intro hmem
  exact absurd (List.mem_filter.mp hmem).2 (by decide)

/-- No word of the first program goes over the end of a line. -/
theorem newline_not_mem_word {content w : List Byte}
    (hw : w ∈ EngWordsSeparator.getWords content) : newline ∉ w := by
  rw [EngWordsSeparator.getWords_eq] at hw
  intro hmem
  have hinside := (EngWordsSeparatorRegex.of_mem_closedWords hw).2 newline hmem
  exact absurd hinside (by decide)

/-- There are no more words than characters. -/
theorem length_words_le (content : List Byte) :
    (EngWordsSeparator.getWords content).length ≤ content.length := by
  have hwords : ∀ l : List Byte, (words isSeparator l).length ≤ l.length := by
    intro l
    induction l with
    | nil => exact Nat.le_refl _
    | cons c l ih =>
        rw [length_words_cons, List.length_cons]
        split
        · omega
        · omega
  rw [EngWordsSeparator.getWords_eq]
  exact Nat.le_trans (length_closedWords_le content) (hwords content)

/-- Behind a match is less of the same text. -/
theorem of_match {found rest : List Byte}
    (h : (ends EngWordsSeparatorRegex.re found).head? = some rest) :
    rest.length < found.length ∧ ∀ c ∈ rest, c ∈ found := by
  have hmatch := List.mem_of_mem_head? (Option.mem_def.mpr h)
  refine ⟨length_lt_of_mem_ends (by decide) hmatch, fun c hc => ?_⟩
  rcases EngWordsSeparatorRegex.match_cases h with ⟨m, rfl, -⟩ | ⟨d, rfl, -⟩
  · exact List.mem_append_right m hc
  · exact List.mem_cons_of_mem d hc

/-- The characters of a token are characters of the text, and there are no more tokens than
    characters. -/
theorem of_splits {l : List Byte} {ts : List (List Byte)}
    (h : Splits EngWordsSeparatorRegex.re l ts) :
    ts.length ≤ l.length ∧ ∀ t ∈ ts, ∀ c ∈ t, c ∈ l := by
  induction h with
  | done _ => exact ⟨Nat.le_refl _, fun t ht => absurd ht List.not_mem_nil⟩
  | @tail l hne _ =>
      refine ⟨List.length_pos_of_ne_nil hne, ?_⟩
      intro t ht c hc
      obtain rfl := List.mem_singleton.mp ht
      exact hc
  | @token l pre rest ts hsearch _ ih =>
      obtain ⟨hlen, hmem⟩ := ih
      obtain ⟨found, rfl, hfound, -⟩ := of_search hsearch
      obtain ⟨hless, hrest⟩ := of_match hfound
      refine ⟨?_, fun t ht c hc => List.mem_append.mpr ?_⟩
      · rw [List.length_cons, List.length_append]
        omega
      · rcases List.mem_cons.mp ht with rfl | ht
        · exact Or.inl hc
        · exact Or.inr (hrest c (hmem t ht c hc))

theorem main_opened {fuel : Nat} {file : List Byte} (hfuel : file.length + 1 < fuel) :
    main fuel (opened file)
      = some (print (parseAndCount (EngWordsSeparator.getWords (file.filter inLine)))) := by
  rw [main, getContentStr_opened hfuel]
  rfl

/-- An `int` holds the numbers of words of a file that an `int` can number. -/
theorem length_getWords_lt {file : List Byte} (hint : file.length < 2 ^ 31) :
    (EngWordsSeparator.getWords (file.filter inLine)).length < 2 ^ 31 :=
  Nat.lt_of_le_of_lt (Nat.le_trans (length_words_le _) (List.length_filter_le _ _)) hint

/-- **PRINTED**: the first program prints, in ascending order, the words that a separator ends in
    the file without its newlines, each one once and with the number of times it is there. -/
theorem main_prints {fuel : Nat} {file : List Byte} (hfuel : file.length + 1 < fuel)
    (hint : file.length < 2 ^ 31) :
    ∃ m : Counts, main fuel (opened file) = some (print m) ∧ Sorted wordLt m
      ∧ ∀ w n, (w, n) ∈ m
        ↔ n.toInt = (closedWords isSeparator (file.filter inLine)).count w ∧ 0 < n.toInt := by
  refine ⟨_, main_opened hfuel, sorted_parseAndCount _, fun w n => ?_⟩
  rw [mem_parseAndCount, ← EngWordsSeparator.getWords_eq]
  have hle := List.count_le_length (a := w) (l := EngWordsSeparator.getWords (file.filter inLine))
  have hlt := Nat.lt_of_le_of_lt hle (length_getWords_lt hint)
  have hcount := toInt_ofNat32 hlt
  constructor
  · rintro ⟨rfl, hpos⟩
    rw [hcount]
    exact ⟨rfl, by omega⟩
  · rintro ⟨hn, hpos⟩
    refine ⟨BitVec.eq_of_toInt_eq ?_, by omega⟩
    rw [hcount, hn]

/-- Two words, one of them twice, and one that nothing ends. -/
theorem main_prints_words :
    ∃ m : Counts, main 12 (opened [98, 32, 97, 44, 98, 32, 99]) = some (print m)
      ∧ Sorted wordLt m ∧ ∀ w n, (w, n) ∈ m
        ↔ n.toInt = (closedWords isSeparator
            (List.filter inLine [98, 32, 97, 44, 98, 32, 99])).count w ∧ 0 < n.toInt :=
  main_prints (by decide) (by decide)

example : main 12 (opened [98, 32, 97, 44, 98, 32, 99])
    = some [97, 91, 49, 93, 10, 98, 91, 50, 93, 10] := by decide

/-- **TOLD**: what the first program prints of two files is the same exactly when it finds the
    same words in them, in any order. -/
theorem main_eq_iff {fuel fuel' : Nat} {file file' : List Byte}
    (hfuel : file.length + 1 < fuel) (hfuel' : file'.length + 1 < fuel')
    (hint : file.length < 2 ^ 31) (hint' : file'.length < 2 ^ 31) :
    main fuel (opened file) = main fuel' (opened file')
      ↔ (closedWords isSeparator (file.filter inLine)).Perm
        (closedWords isSeparator (file'.filter inLine)) := by
  rw [main_opened hfuel, main_opened hfuel', Option.some_inj,
    print_eq_iff (fun w => newline_not_mem_word) (fun w => newline_not_mem_word),
    parseAndCount_eq_iff (length_getWords_lt hint) (length_getWords_lt hint'),
    EngWordsSeparator.getWords_eq, EngWordsSeparator.getWords_eq]

theorem main_eq_words : main 12 (opened [98, 32, 97, 44]) = main 12 (opened [97, 10, 46, 98, 46])
      ↔ (closedWords isSeparator (List.filter inLine [98, 32, 97, 44])).Perm
        (closedWords isSeparator (List.filter inLine [97, 10, 46, 98, 46])) :=
  main_eq_iff (by decide) (by decide) (by decide) (by decide)

/-- **SAME TEXT**: with the file as its only argument the second program prints what the first
    one prints exactly when the file is, newlines apart, tokens with one delimiter behind each. -/
theorem sameText_iff {fuel : Nat} {file prog path : List Byte} {inFile : List Byte → InFile}
    (hpath : inFile path = opened file) (hfuel : file.length + 1 < fuel)
    (hint : file.length < 2 ^ 31) :
    main fuel (opened file) = regexMain fuel [prog, path] inFile
      ↔ EngWordsSeparatorRegex.Plain (file.filter inLine) := by
  have htokens := of_splits (EngWordsSeparatorRegex.splits_getWords (file.filter inLine))
  have hnewline : ∀ t ∈ EngWordsSeparatorRegex.getWords (file.filter inLine), newline ∉ t :=
    fun t ht hmem => newline_not_mem_filter file (htokens.2 t ht newline hmem)
  have hlength : (EngWordsSeparatorRegex.getWords (file.filter inLine)).length < 2 ^ 31 :=
    Nat.lt_of_le_of_lt (Nat.le_trans htokens.1 (List.length_filter_le _ _)) hint
  have hregex : regexMain fuel [prog, path] inFile = some (print (parseAndCount
      (EngWordsSeparatorRegex.getWords (file.filter inLine)))) := by
    rw [regexMain, hpath, getContentStr_opened hfuel]
    rfl
  rw [main_opened hfuel, hregex, Option.some_inj,
    print_eq_iff (fun w => newline_not_mem_word) hnewline,
    parseAndCount_eq_iff (length_getWords_lt hint) hlength,
    EngWordsSeparatorRegex.getWords_perm_iff]

theorem sameText_words : main 8 (opened [97, 44, 32, 32, 98, 32])
      = regexMain 8 [[112], [102]] (fun _ => opened [97, 44, 32, 32, 98, 32])
    ↔ EngWordsSeparatorRegex.Plain (List.filter inLine [97, 44, 32, 32, 98, 32]) :=
  sameText_iff rfl (by decide) (by decide)

end WordReport
