import AipPkussm.EngWordsSeparatorProofs
import AipPkussm.RegexSplitProofs

/-! # The two word counters

    The second program reads and counts as the first does, and splits the content at
    the matches of a regular expression instead of scanning it.

    The compiler takes `\W` for `W` and `\?` for `?`, so the expression knows four
    separators that stand alone, a blank after punctuation, and the letter `W`.  It
    yields an empty token between two matches and the tail of the content.  Both
    programs come to the same counts exactly when the content is made of tokens with
    one delimiter behind each (`agree_iff`). -/

namespace EngWordsSeparatorRegex

open LittleEndian MaximalRuns RegexSplit
open EngWordsSeparator (InFile WordMap opened getContentStr inLine isSeparator parseAndCount)

/-- A class of characters. -/
def oneOf (cs : List Char) (c : Byte) : Bool := cs.any fun d => BitVec.ofNat 8 d.toNat == c

/-- `"[\t\r\n]|[\b]|[\W ]|[\?.,]?[ ]+"`, as the compiler reads the literal. -/
def re : Pattern Byte :=
  .alt (.set (oneOf ['\t', '\r', '\n']))
    (.alt (.set (oneOf ['\x08']))
      (.alt (.set (oneOf ['W', ' ']))
        (.seq (.opt (.set (oneOf ['?', '.', ',']))) (.plus (.set (oneOf [' ']))))))

def getWords (content : List Byte) : List (List Byte) :=
  tokens re (content.length + 1) content

/-- The program: read, split, count. -/
def countWords (fuel : Nat) (s : InFile) : Option WordMap :=
  (getContentStr fuel s).map fun content => parseAndCount (getWords content)

/-! ## What matches -/

/-- A character that is a match by itself. -/
def alone (c : Byte) : Bool := oneOf ['\t', '\r', '\n', '\x08', 'W', ' '] c

def punctuation (c : Byte) : Bool := oneOf ['?', '.', ','] c

def blank (c : Byte) : Bool := oneOf [' '] c

/-- What is no separator for the first program and one for the second. -/
def odd (c : Byte) : Bool := oneOf ['\x08', 'W'] c

theorem alone_eq (c : Byte) : alone c
    = (oneOf ['\t', '\r', '\n'] c || (oneOf ['\x08'] c || oneOf ['W', ' '] c)) := by
  simp only [alone, oneOf, List.any_cons, List.any_nil, Bool.or_false, Bool.or_assoc]

/-- What holds of the characters of a class. -/
theorem of_oneOf {cs : List Char} (p : Byte → Bool)
    (h : cs.all (fun d => p (BitVec.ofNat 8 d.toNat)) = true) {c : Byte}
    (hc : oneOf cs c = true) : p c = true := by
  obtain ⟨d, hd, heq⟩ := List.any_eq_true.mp hc
  obtain rfl := eq_of_beq heq
  exact List.all_eq_true.mp h d hd

/-- What stands alone is a separator for the first program too, or odd. -/
theorem separator_or_odd {c : Byte} (hc : alone c = true) :
    isSeparator c = true ∨ odd c = true :=
  Bool.or_eq_true_iff.mp (of_oneOf (fun c => isSeparator c || odd c) (by decide) hc)

theorem alone_of_blank {c : Byte} (hc : blank c = true) : alone c = true :=
  of_oneOf alone (by decide) hc

theorem isSeparator_of_blank {c : Byte} (hc : blank c = true) : isSeparator c = true :=
  of_oneOf isSeparator (by decide) hc

theorem isSeparator_of_punctuation {c : Byte} (hc : punctuation c = true) :
    isSeparator c = true :=
  of_oneOf isSeparator (by decide) hc

theorem not_alone_of_punctuation {c : Byte} (hc : punctuation c = true) : alone c = false := by
  simpa using of_oneOf (fun c => !alone c) (by decide) hc

theorem isSeparator_of_odd {c : Byte} (hc : odd c = true) : isSeparator c = false := by
  simpa using of_oneOf (fun c => !isSeparator c) (by decide) hc

theorem alone_of_odd {c : Byte} (hc : odd c = true) : alone c = true :=
  of_oneOf alone (by decide) hc

/-- **MATCH**: a character that is a match by itself, or punctuation and the blanks behind it. -/
theorem head?_ends_re (c : Byte) (l : List Byte) :
    (ends re (c :: l)).head?
      = if alone c then some l
        else if punctuation c && l.head?.any blank then some (l.dropWhile blank) else none := by
  have hplus : ∀ l, (ends (.plus (.set (oneOf [' ']))) l).head?
      = if l.head?.any blank then some (l.dropWhile blank) else none :=
    head?_ends_plus_set (oneOf [' '])
  cases halone : alone c
  · rw [alone_eq, Bool.or_eq_false_iff, Bool.or_eq_false_iff] at halone
    obtain ⟨hbreak, hback, hletter⟩ := halone
    have hblank : blank c = false := by
      by_contra hblank
      have := alone_of_blank (by simpa using hblank)
      rw [alone_eq, hbreak, hback, hletter] at this
      simp at this
    have hnone : ends (.plus (.set (oneOf [' ']))) (c :: l) = [] := by
      rw [← List.head?_eq_none_iff, hplus]
      simp [hblank]
    cases hpunct : punctuation c
    · have hpunct : oneOf ['?', '.', ','] c = false := hpunct
      simp [re, hbreak, hback, hletter, hpunct, hnone]
    · have hpunct : oneOf ['?', '.', ','] c = true := hpunct
      simp [re, hbreak, hback, hletter, hpunct, hnone, hplus]
  · rw [alone_eq, Bool.or_eq_true_iff, Bool.or_eq_true_iff] at halone
    rcases halone with h | h | h
    · simp [re, h]
    · cases hbreak : oneOf ['\t', '\r', '\n'] c <;> simp [re, h, hbreak]
    · cases hbreak : oneOf ['\t', '\r', '\n'] c <;>
        cases hback : oneOf ['\x08'] c <;> simp [re, h, hbreak, hback]

theorem ends_re_nil : ends re [] = [] := by decide

/-! ## Contents that both programs take apart alike -/

/-- What both programs take as a word. -/
structure IsToken (t : List Byte) : Prop where
  nonempty : t ≠ []
  inside : ∀ c ∈ t, isSeparator c = false
  plain : ∀ c ∈ t, odd c = false

/-- What both programs take as the end of a word, and the second one as one match. -/
inductive IsDelimiter : List Byte → Prop where
  | alone {c : Byte} : oneOf ['\t', '\r', '\n', ' '] c = true → IsDelimiter [c]
  | stop {c : Byte} {blanks : List Byte} : punctuation c = true → blanks ≠ [] →
      (∀ b ∈ blanks, blank b = true) → IsDelimiter (c :: blanks)

/-- Tokens with a delimiter behind each. -/
inductive Plain : List Byte → Prop where
  | nil : Plain []
  | piece {t m rest : List Byte} : IsToken t → IsDelimiter m → Plain rest →
      Plain (t ++ (m ++ rest))

theorem IsDelimiter.separators {m : List Byte} (h : IsDelimiter m) :
    ∃ c seps, m = c :: seps ∧ isSeparator c = true ∧ ∀ d ∈ seps, isSeparator d = true := by
  cases h with
  | @alone c hc =>
    exact ⟨c, [], rfl, of_oneOf isSeparator (by decide) hc, by simp⟩
  | @stop c blanks hc _ hblanks =>
    exact ⟨c, blanks, rfl, isSeparator_of_punctuation hc,
      fun b hb => isSeparator_of_blank (hblanks b hb)⟩

theorem closedWords_of_separators {seps : List Byte} (hseps : ∀ d ∈ seps, isSeparator d = true)
    (l : List Byte) : closedWords isSeparator (seps ++ l) = closedWords isSeparator l := by
  induction seps with
  | nil => rfl
  | cons d seps ih =>
    have hd := closedWords_append_sep [] (hseps d (by simp)) (seps ++ l)
    rw [List.nil_append, words_nil, List.nil_append] at hd
    rw [List.cons_append, hd, ih fun e he => hseps e (List.mem_cons_of_mem d he)]

/-- The first program hands over a word at a delimiter. -/
theorem closedWords_piece {t m : List Byte} (hne : t ≠ [])
    (hin : ∀ c ∈ t, isSeparator c = false) (hm : IsDelimiter m) (rest : List Byte) :
    closedWords isSeparator (t ++ (m ++ rest)) = t :: closedWords isSeparator rest := by
  obtain ⟨c, seps, rfl, hc, hseps⟩ := hm.separators
  rw [List.cons_append, closedWords_append_sep t hc, words_of_inside hne hin,
    closedWords_of_separators hseps]
  rfl

theorem Plain.opens {d : List Byte} (h : Plain d) : ∀ c ∈ d.head?, isSeparator c = false := by
  cases h with
  | nil => simp
  | @piece t m rest ht hm hrest =>
    cases t with
    | nil => exact absurd rfl ht.nonempty
    | cons c t => simpa using ht.inside c (by simp)

/-- No match starts within a token. -/
theorem ends_of_token {t : List Byte} (ht : IsToken t) :
    ∀ c ∈ t, ∀ l, ends re (c :: l) = [] := by
  intro c hc l
  have hin := ht.inside c hc
  have halone : alone c = false := by
    by_contra halone
    rcases separator_or_odd (by simpa using halone) with hsep | hodd
    · simp [hin] at hsep
    · simp [ht.plain c hc] at hodd
  have hpunct : punctuation c = false := by
    by_contra hpunct
    simp [isSeparator_of_punctuation (by simpa using hpunct)] at hin
  rw [← List.head?_eq_none_iff, head?_ends_re]
  simp [halone, hpunct]

/-- The second program takes a delimiter as one match. -/
theorem head?_ends_delimiter {m rest : List Byte} (hm : IsDelimiter m)
    (hrest : ∀ c ∈ rest.head?, isSeparator c = false) :
    (ends re (m ++ rest)).head? = some rest := by
  cases hm with
  | @alone c hc =>
    have halone : EngWordsSeparatorRegex.alone c = true :=
      of_oneOf EngWordsSeparatorRegex.alone (by decide) hc
    rw [List.cons_append, head?_ends_re, if_pos halone]
    rfl
  | @stop c blanks hc hne hblanks =>
    have hdrop : (blanks ++ rest).dropWhile blank = rest := by
      rw [List.dropWhile_append_of_pos hblanks]
      cases rest with
      | nil => rfl
      | cons d rest =>
        have hd : blank d = false := by
          by_contra hblank
          simp [isSeparator_of_blank (by simpa using hblank)] at hrest
        rw [List.dropWhile_cons_of_neg (by simp [hd])]
    have hopens : (blanks ++ rest).head?.any blank = true := by
      cases blanks with
      | nil => exact absurd rfl hne
      | cons b blanks => simpa using hblanks b (by simp)
    rw [List.cons_append, head?_ends_re, not_alone_of_punctuation hc, hc, hopens, hdrop]
    rfl

/-- On such contents the second program finds the words of the first. -/
theorem Plain.splits {d : List Byte} (h : Plain d) :
    Splits re d (closedWords isSeparator d) := by
  induction h with
  | nil => exact .done (by rw [search, ends_re_nil]; rfl)
  | @piece t m rest ht hm hrest ih =>
    have hsearch : search re (t ++ (m ++ rest)) = some (t, rest) := by
      rw [search_append (ends_of_token ht),
        search_of_match (head?_ends_delimiter hm hrest.opens)]
      simp
    rw [closedWords_piece ht.nonempty ht.inside hm]
    exact .token hsearch ih

/-! ## No other contents -/

/-- A match is a delimiter, or an odd character by itself. -/
theorem match_cases {found rest : List Byte} (h : (ends re found).head? = some rest) :
    (∃ m, found = m ++ rest ∧ IsDelimiter m) ∨ ∃ c, found = c :: rest ∧ odd c = true := by
  cases found with
  | nil => simp [ends_re_nil] at h
  | cons c l =>
    rw [head?_ends_re] at h
    cases halone : alone c
    · rw [halone, if_neg Bool.false_ne_true] at h
      split at h
      · next hstop =>
        obtain ⟨hpunct, hblank⟩ := Bool.and_eq_true_iff.mp hstop
        obtain rfl := Option.some.inj h
        left
        refine ⟨c :: l.takeWhile blank, ?_, .stop hpunct ?_ fun b => List.mem_takeWhile_imp⟩
        · rw [List.cons_append, List.takeWhile_append_dropWhile]
        · cases l with
          | nil => simp at hblank
          | cons b l => simpa [List.takeWhile_cons] using hblank
      · simp at h
    · rw [halone, if_pos rfl] at h
      obtain rfl := Option.some.inj h
      have hboth : odd c = true ∨ oneOf ['\t', '\r', '\n', ' '] c = true :=
        Bool.or_eq_true_iff.mp
          (of_oneOf (fun c => odd c || oneOf ['\t', '\r', '\n', ' '] c) (by decide) halone)
      rcases hboth with hodd | hc
      · exact Or.inr ⟨c, rfl, hodd⟩
      · exact Or.inl ⟨[c], rfl, .alone hc⟩

/-- **LESS**: of tokens that could be words, the second program yields no fewer, whatever
    word the first one is in. -/
theorem length_closedWords_le {d : List Byte} {ts : List (List Byte)} (h : Splits re d ts)
    (hwords : ∀ t ∈ ts, t ≠ [] ∧ ∀ c ∈ t, isSeparator c = false) {w : List Byte}
    (hin : ∀ c ∈ w, isSeparator c = false) :
    (closedWords isSeparator (w ++ d)).length ≤ ts.length := by
  induction h generalizing w with
  | done _ => simp [closedWords_of_inside hin]
  | @tail l hne _ =>
    have hboth := List.forall_mem_append.mpr ⟨hin, (hwords l (by simp)).2⟩
    simp [closedWords_of_inside hboth]
  | @token l pre rest ts hsearch hsplits ih =>
    obtain ⟨hne, hpre⟩ := hwords pre (by simp)
    have ih := @ih fun t ht => hwords t (List.mem_cons_of_mem pre ht)
    have hboth := List.forall_mem_append.mpr ⟨hin, hpre⟩
    obtain ⟨found, rfl, hfound, -⟩ := of_search hsearch
    rcases match_cases hfound with ⟨m, rfl, hm⟩ | ⟨c, rfl, hodd⟩
    · have hrest := ih (w := []) (by simp)
      rw [← List.append_assoc, closedWords_piece (by simp [hne]) hboth hm]
      simpa using hrest
    · -- the first program goes on with the word
      have hword : ∀ d ∈ (w ++ pre) ++ [c], isSeparator d = false :=
        List.forall_mem_append.mpr ⟨hboth, by simpa using isSeparator_of_odd hodd⟩
      have hle := ih hword
      simp only [List.append_assoc, List.singleton_append, List.length_cons] at hle ⊢
      omega

/-- **EQUAL**: where they are as many, every match is a delimiter with a token before it. -/
theorem plain_of_length {d : List Byte} {ts : List (List Byte)} (h : Splits re d ts)
    (hwords : ∀ t ∈ ts, t ≠ [] ∧ ∀ c ∈ t, isSeparator c = false)
    (hlen : (closedWords isSeparator d).length = ts.length) : Plain d := by
  induction h with
  | done _ => exact .nil
  | @tail l hne _ =>
    rw [closedWords_of_inside (hwords l (by simp)).2] at hlen
    simp at hlen
  | @token l pre rest ts hsearch hsplits ih =>
    obtain ⟨hne, hpre⟩ := hwords pre (by simp)
    have hwords' : ∀ t ∈ ts, t ≠ [] ∧ ∀ c ∈ t, isSeparator c = false :=
      fun t ht => hwords t (List.mem_cons_of_mem pre ht)
    obtain ⟨found, rfl, hfound, hclear⟩ := of_search hsearch
    rcases match_cases hfound with ⟨m, rfl, hm⟩ | ⟨c, rfl, hodd⟩
    · rw [closedWords_piece hne hpre hm, List.length_cons, List.length_cons] at hlen
      refine .piece ⟨hne, hpre, ?_⟩ hm (ih hwords' (Nat.succ.inj hlen))
      intro c hc
      obtain ⟨l', hnone⟩ := hclear c hc
      by_contra hodd
      have hmatch := head?_ends_re c l'
      rw [hnone, alone_of_odd (by simpa using hodd)] at hmatch
      simp at hmatch
    · have hword : ∀ d ∈ pre ++ [c], isSeparator d = false :=
        List.forall_mem_append.mpr ⟨hpre, by simpa using isSeparator_of_odd hodd⟩
      have hle := length_closedWords_le hsplits hwords' hword
      simp only [List.append_assoc, List.singleton_append] at hle
      rw [List.length_cons] at hlen
      omega

theorem splits_getWords (content : List Byte) : Splits re content (getWords content) :=
  splits_tokens (by decide) (Nat.lt_succ_self _)

/-- What the first program takes for words could be words. -/
theorem of_mem_closedWords {l w : List Byte} (hmem : w ∈ closedWords isSeparator l) :
    w ≠ [] ∧ ∀ c ∈ w, isSeparator c = false := by
  have hword : w ∈ words isSeparator l := by
    rw [closedWords] at hmem
    split at hmem
    · exact List.dropLast_subset _ hmem
    · exact hmem
  obtain ⟨i, hrun⟩ := mem_words.mp hword
  exact ⟨hrun.nonempty, hrun.inside⟩

/-- The two ways to split come to the same words exactly on plain contents. -/
theorem getWords_perm_iff (content : List Byte) :
    (EngWordsSeparator.getWords content).Perm (getWords content) ↔ Plain content := by
  rw [EngWordsSeparator.getWords_eq]
  constructor
  · intro hperm
    refine plain_of_length (splits_getWords content) ?_ hperm.length_eq
    intro t ht
    exact of_mem_closedWords (hperm.mem_iff.mpr ht)
  · intro hplain
    rw [hplain.splits.unique (splits_getWords content)]

theorem countWords_opened {fuel : Nat} {file : List Byte} (hfuel : file.length + 1 < fuel) :
    countWords fuel (opened file) = some (parseAndCount (getWords (file.filter inLine))) := by
  rw [countWords, getContentStr, EngWordsSeparator.readLines_opened [] [] hfuel]
  rfl

/-- **AGREE**: the programs come to the same counts exactly on files that are, newlines
    apart, tokens with one delimiter behind each. -/
theorem agree_iff {fuel : Nat} {file : List Byte} (hfuel : file.length + 1 < fuel) :
    EngWordsSeparator.countWords fuel (opened file) = countWords fuel (opened file)
      ↔ Plain (file.filter inLine) := by
  rw [EngWordsSeparator.countWords_opened hfuel, countWords_opened hfuel,
    Option.some_inj, EngWordsSeparator.parseAndCount_inj, getWords_perm_iff]

/-- Two words, with a comma and two blanks behind the first and a blank behind the second. -/
theorem agree_words : ([97, 44, 32, 32, 98, 32] : List Byte).length + 1 < 8
    ∧ (EngWordsSeparator.countWords 8 (opened [97, 44, 32, 32, 98, 32])
        = countWords 8 (opened [97, 44, 32, 32, 98, 32])
      ↔ Plain (List.filter inLine [97, 44, 32, 32, 98, 32])) :=
  ⟨by decide, agree_iff (by decide)⟩

/-- Of one word with two blanks behind it the second program makes an empty token too. -/
theorem not_agree : ¬ ∀ (file : List Byte) (fuel : Nat), file.length + 1 < fuel →
    EngWordsSeparator.countWords fuel (opened file) = countWords fuel (opened file) := by
  intro h
  have hmaps := h [97, 32, 32] 5 (by decide)
  rw [EngWordsSeparator.countWords_opened (by decide), countWords_opened (by decide)] at hmaps
  have hempty := congrFun (Option.some.inj hmaps) []
  revert hempty
  decide

end EngWordsSeparatorRegex
