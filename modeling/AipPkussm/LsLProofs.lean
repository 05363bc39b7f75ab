import Mathlib.Data.List.ReduceOption
import AipPkussm.ChatConsoleProofs
import AipPkussm.FieldsProofs
import AipPkussm.LsTreeProofs

/-! # The long listing

    `info_file` prints a line for an entry of the current directory: its type, its
    permissions, the number of its links, owner and group, size, time and name.
    `main` calls it for the entries in the order of `alphasort`, the last one
    first, and an entry that `stat` does not find ends the program.

    What a listing tells is `Alike`: `listing_eq_iff` says that two directories
    are listed by the same text exactly when their entries are alike one by one.
    Of the permissions only five bits are told, since `perm_str` tests the bit for
    reading three times for the group, and has masked out two of the three bits for
    others before it tests them (`permStr_eq_rwx_iff`); and of the year the last
    digit is lost with the end of the line that `ctime` returns. -/

namespace LsL

open LittleEndian ChatLabel ChatConsole Fields
open Istream (number)
open LsTree (Name slash dot dotdot)

/-! ## The program -/

/-- `struct stat`, as far as it is printed. -/
structure Stat where
  mode : BitVec 32
  nlink : BitVec 32
  uid : BitVec 32
  gid : BitVec 32
  size : BitVec 32
  mtime : BitVec 32

/-- `struct tm`, as `localtime` fills it, with the year as it is written.  A `time_t` of
    32 bits ends in 2038. -/
structure Tm where
  wday : Fin 7
  mon : Fin 12
  mday : Fin 32
  hour : Fin 24
  min : Fin 60
  sec : Fin 61
  year : Nat
  le_year : 1000 ≤ year
  year_lt : year < 10000

/-- The calls of the system in the current directory; `scandir` with `alphasort`. -/
structure System where
  currentDirName : List Byte
  scandir : Option (List Name)
  stat : List Byte → Option Stat
  getpwuid : BitVec 32 → Option (List Byte)
  getgrgid : BitVec 32 → Option (List Byte)
  localtime : BitVec 32 → Tm

/-- `numstr`, which has ten bytes: a number of ten characters is written past its end. -/
def numstr (id : BitVec 32) : Option (List Byte) :=
  if (formatInt id).length < 10 then some (formatInt id) else none

def uidToName (sys : System) (uid : BitVec 32) : Option (List Byte) :=
  match sys.getpwuid uid with
  | some name => some name
  | none => numstr uid

def gidToName (sys : System) (gid : BitVec 32) : Option (List Byte) :=
  match sys.getgrgid gid with
  | some name => some name
  | none => numstr gid

def getPath (sys : System) (name : Name) : List Byte := sys.currentDirName ++ slash :: name

def sIrwxu : BitVec 32 := 0o700
def sIrusr : BitVec 32 := 0o400
def sIwusr : BitVec 32 := 0o200
def sIxusr : BitVec 32 := 0o100
def sIrwxg : BitVec 32 := 0o070
def sIrgrp : BitVec 32 := 0o040
def sIroth : BitVec 32 := 0o004
def sIwoth : BitVec 32 := 0o002
def sIxoth : BitVec 32 := 0o001

/-- `rwxrwxrwx` -/
def allPerms : List Byte := [114, 119, 120, 114, 119, 120, 114, 119, 120]

/-- A letter is replaced by `-` where its bit is not set. -/
def clear (perm bit : BitVec 32) (k : Nat) (modeStr : List Byte) : List Byte :=
  if perm &&& bit = 0 then modeStr.set k 45 else modeStr

/-- `perm_str`.  Its block has nine bytes; the zero byte of the string stands behind it. -/
def permStr (mode : BitVec 32) : List Byte :=
  let usrPerm := mode &&& sIrwxu
  let grpPerm := mode &&& sIrwxg
  let othPerm := mode &&& sIroth
  let modeStr := clear usrPerm sIrusr 0 allPerms
  let modeStr := clear usrPerm sIwusr 1 modeStr
  let modeStr := clear usrPerm sIxusr 2 modeStr
  let modeStr := clear grpPerm sIrgrp 3 modeStr
  let modeStr := clear grpPerm sIrgrp 4 modeStr
  let modeStr := clear grpPerm sIrgrp 5 modeStr
  let modeStr := clear othPerm sIroth 6 modeStr
  let modeStr := clear othPerm sIwoth 7 modeStr
  clear othPerm sIxoth 8 modeStr

/-- The `switch` over the type of a file. -/
def fileType (mode : BitVec 32) : Byte :=
  let fmt := mode &&& 0o170000
  if fmt = 0o060000 then 98
  else if fmt = 0o020000 then 99
  else if fmt = 0o040000 then 100
  else if fmt = 0o010000 then 112
  else if fmt = 0o120000 then 108
  else if fmt = 0o100000 then 45
  else if fmt = 0o140000 then 115
  else 63

/-- `Sun`, `Mon` and so on. -/
def dayName (wday : Fin 7) : List Byte :=
  [[83, 117, 110], [77, 111, 110], [84, 117, 101], [87, 101, 100], [84, 104, 117],
    [70, 114, 105], [83, 97, 116]].getD wday []

/-- `Jan`, `Feb` and so on. -/
def monthName (mon : Fin 12) : List Byte :=
  [[74, 97, 110], [70, 101, 98], [77, 97, 114], [65, 112, 114], [77, 97, 121],
    [74, 117, 110], [74, 117, 108], [65, 117, 103], [83, 101, 112], [79, 99, 116],
    [78, 111, 118], [68, 101, 99]].getD mon []

/-- `%.2d` -/
def twoDigits (n : Nat) : List Byte := if n < 10 then 48 :: decimal n else decimal n

/-- What `ctime` returns without the year and the end of the line. -/
def dayAndTime (tm : Tm) : List Byte :=
  dayName tm.wday ++ 32 :: (monthName tm.mon ++ (pad 32 3 (decimal tm.mday)
    ++ 32 :: (twoDigits tm.hour ++ 58 :: (twoDigits tm.min ++ 58 :: (twoDigits tm.sec ++ [32])))))

def ctime (tm : Tm) : List Byte := dayAndTime tm ++ (decimal tm.year ++ [10])

/-- `mtime` after `mtime[end - 2] = '\0'`, which is for the end of the line. -/
def mtimeStr (tm : Tm) : List Byte := (ctime tm).take ((ctime tm).length - 2)

/-- What `printf` has in hand for an entry. -/
structure Entry where
  mode : BitVec 32
  nlink : BitVec 32
  usr : List Byte
  grp : List Byte
  size : BitVec 32
  tm : Tm
  name : Name

/-- `"%c%9s %1d %s %s %6ld %s %s"`, without the end of the line. -/
def Entry.text (e : Entry) : List Byte :=
  fileType e.mode :: (pad 32 9 (permStr e.mode) ++ 32 :: (pad 32 1 (formatInt e.nlink)
    ++ 32 :: (e.usr ++ 32 :: (e.grp ++ 32 :: (pad 32 6 (formatInt e.size)
    ++ 32 :: (mtimeStr e.tm ++ 32 :: e.name))))))

/-- How `info_file` ends: it returns, after its line or without one, the program exits, or
    memory past `numstr` is written. -/
inductive Info where
  | silent
  | line (l : List Byte)
  | exits
  | fault

def infoFile (sys : System) (name : Name) : Info :=
  if name = dot ∨ name = dotdot then .silent
  else
    match sys.stat (getPath sys name) with
    | none => .exits
    | some sb =>
      match uidToName sys sb.uid, gidToName sys sb.gid with
      | some usr, some grp =>
        .line (({ mode := sb.mode, nlink := sb.nlink, usr := usr, grp := grp, size := sb.size
                  tm := sys.localtime sb.mtime, name := name } : Entry).text ++ [10])
      | _, _ => .fault

/-- How the program ends. -/
inductive End where
  | usage
  | ended
  | exited
  | fault
  deriving DecidableEq

/-- The loop over the entries, in the order in which it takes them. -/
def infoFiles (sys : System) : List Name → List (List Byte) × End
  | [] => ([], .ended)
  | name :: names =>
    match infoFile sys name with
    | .silent => infoFiles sys names
    | .line l => (l :: (infoFiles sys names).1, (infoFiles sys names).2)
    | .exits => ([], .exited)
    | .fault => ([], .fault)

/-- `-l` -/
def dashL : List Byte := [45, 108]

/-- `usage: ls_l -l` -/
def usage : List Byte :=
  [117, 115, 97, 103, 101, 58, 32, 108, 115, 95, 108, 32, 45, 108, 13, 10]

/-- The lines on standard output, and how `main` ends. -/
def main (sys : System) (argv : List (List Byte)) : List (List Byte) × End :=
  if argv.length ≠ 2 then ([usage], .usage)
  else if argv.getD 1 [] ≠ dashL then ([usage], .usage)
  else
    match sys.scandir with
    | none => ([], .ended)
    -- `while (n--)` starts at the end
    | some namelist => infoFiles sys namelist.reverse

/-! ## Permissions -/

/-- A letter where the bit of a mode is set. -/
def letter (mode : BitVec 32) (k : Nat) (c : Byte) : Byte := if mode.getLsbD k then c else 45

/-- What stands for a mode elsewhere: each bit has its letter. -/
def rwx (mode : BitVec 32) : List Byte :=
  [letter mode 8 114, letter mode 7 119, letter mode 6 120, letter mode 5 114, letter mode 4 119,
    letter mode 3 120, letter mode 2 114, letter mode 1 119, letter mode 0 120]

/-- A test of one bit. -/
theorem and_eq_zero_iff (mode : BitVec 32) {mask bit : BitVec 32} {k : Nat} (hk : k < 32)
    (h : mask &&& bit = BitVec.twoPow 32 k) :
    mode &&& mask &&& bit = 0 ↔ mode.getLsbD k = false := by
  have hone : BitVec.twoPow 32 k ≠ 0 := by
    intro hzero
    have hbit := congrArg (fun v : BitVec 32 => v.getLsbD k) hzero
    simp [hk] at hbit
  rw [BitVec.and_assoc, h, BitVec.and_twoPow]
  cases mode.getLsbD k with
  | false => exact iff_of_true rfl rfl
  | true => exact iff_of_false hone Bool.noConfusion

/-- A letter that is put where it stands. -/
theorem set_getD_self (l : List Byte) (k : Nat) : l.set k (l.getD k 45) = l := by
  rcases Nat.lt_or_ge k l.length with h | h
  · rw [List.getD_eq_getElem _ _ h, List.set_getElem_self]
  · exact List.set_eq_of_length_le h

/-- What a step makes of the letter at its place. -/
theorem clear_of_bit (mode : BitVec 32) {mask bit : BitVec 32} (k place : Nat)
    (modeStr : List Byte) (hk : k < 32) (h : mask &&& bit = BitVec.twoPow 32 k) :
    clear (mode &&& mask) bit place modeStr
      = modeStr.set place (letter mode k (modeStr.getD place 45)) := by
  rw [clear, letter]
  cases hbit : mode.getLsbD k with
  | false => exact if_pos ((and_eq_zero_iff mode hk h).mpr hbit)
  | true =>
      rw [if_pos rfl, set_getD_self]
      refine if_neg (fun hzero => ?_)
      rw [(and_eq_zero_iff mode hk h).mp hzero] at hbit
      cases hbit

/-- A bit that the mask has taken away. -/
theorem clear_of_masked (mode : BitVec 32) {mask bit : BitVec 32} (h : mask &&& bit = 0)
    (place : Nat) (modeStr : List Byte) :
    clear (mode &&& mask) bit place modeStr = modeStr.set place 45 := by
  rw [clear, BitVec.and_assoc, h]
  exact if_pos (BitVec.and_zero ..)

/-- **PERMISSIONS**: five bits have a letter, one of them three. -/
theorem permStr_eq (mode : BitVec 32) :
    permStr mode = [letter mode 8 114, letter mode 7 119, letter mode 6 120, letter mode 5 114,
      letter mode 5 119, letter mode 5 120, letter mode 2 114, 45, 45] := by
  simp only [permStr]
  rw [clear_of_bit mode 8 0 _ (by decide) (by decide),
    clear_of_bit mode 7 1 _ (by decide) (by decide),
    clear_of_bit mode 6 2 _ (by decide) (by decide),
    clear_of_bit mode 5 3 _ (by decide) (by decide),
    clear_of_bit mode 5 4 _ (by decide) (by decide),
    clear_of_bit mode 5 5 _ (by decide) (by decide),
    clear_of_bit mode 2 6 _ (by decide) (by decide),
    clear_of_masked mode (by decide) 7, clear_of_masked mode (by decide) 8]
  rfl

theorem length_permStr (mode : BitVec 32) : (permStr mode).length = 9 := by
  rw [permStr_eq]
  rfl

/-- A letter tells its bit. -/
theorem letter_eq_iff {mode mode' : BitVec 32} {k k' : Nat} {c : Byte} (hc : c ≠ 45) :
    letter mode k c = letter mode' k' c ↔ mode.getLsbD k = mode'.getLsbD k' := by
  rw [letter, letter]
  cases mode.getLsbD k with
  | false =>
      cases mode'.getLsbD k' with
      | false => exact iff_of_true rfl rfl
      | true => exact iff_of_false (Ne.symm hc) Bool.noConfusion
  | true =>
      cases mode'.getLsbD k' with
      | false => exact iff_of_false hc Bool.noConfusion
      | true => exact iff_of_true rfl rfl

/-- The bits that `perm_str` tells. -/
def told : BitVec 32 := 0o744

/-- What `perm_str` tells are the bits with a letter. -/
theorem and_told_iff (mode mode' : BitVec 32) :
    mode &&& told = mode' &&& told
      ↔ ∀ k ∈ [8, 7, 6, 5, 2], mode.getLsbD k = mode'.getLsbD k := by
  have hbits : ∀ k < 32, told.getLsbD k = true ↔ k ∈ [8, 7, 6, 5, 2] := by decide
  have hsmall : ∀ k ∈ [8, 7, 6, 5, 2], k < 32 := by decide
  constructor
  · intro h k hk
    have hbit := congrArg (fun v : BitVec 32 => v.getLsbD k) h
    simp only [BitVec.getLsbD_and, (hbits k (hsmall k hk)).mpr hk, Bool.and_true] at hbit
    exact hbit
  · intro h
    refine BitVec.eq_of_getLsbD_eq (fun k hk => ?_)
    rw [BitVec.getLsbD_and, BitVec.getLsbD_and]
    cases htold : told.getLsbD k with
    | false => rw [Bool.and_false, Bool.and_false]
    | true => rw [h k ((hbits k hk).mp htold)]

/-- **WHAT THEY TELL**: two modes have the same letters when they agree in five bits. -/
theorem permStr_eq_iff (mode mode' : BitVec 32) :
    permStr mode = permStr mode' ↔ mode &&& told = mode' &&& told := by
  have hletters : ∀ c ∈ ([114, 119, 120] : List Byte), c ≠ 45 := by decide
  rw [and_told_iff, permStr_eq, permStr_eq]
  simp only [List.cons.injEq, and_true, List.forall_mem_cons, List.not_mem_nil,
    letter_eq_iff (hletters 114 (by decide)), letter_eq_iff (hletters 119 (by decide)),
    letter_eq_iff (hletters 120 (by decide))]
  tauto

/-- **WHEN THEY ARE RIGHT**: when the group may do all or nothing, and others can at most
    read. -/
theorem permStr_eq_rwx_iff (mode : BitVec 32) :
    permStr mode = rwx mode
      ↔ mode.getLsbD 4 = mode.getLsbD 5 ∧ mode.getLsbD 3 = mode.getLsbD 5
        ∧ mode.getLsbD 1 = false ∧ mode.getLsbD 0 = false := by
  rw [permStr_eq, rwx]
  simp only [letter]
  cases mode.getLsbD 5 <;> cases mode.getLsbD 4 <;> cases mode.getLsbD 3
    <;> cases mode.getLsbD 1 <;> cases mode.getLsbD 0 <;> simp

/-! ## Numbers and times -/

theorem formatInt_ne_nil (v : BitVec 32) : formatInt v ≠ [] :=
  List.ne_nil_of_length_pos (length_formatInt_pos v)

theorem number_twoDigits (n : Nat) : number (twoDigits n) = n := by
  rw [twoDigits]
  split
  · exact number_decimal n
  · exact number_decimal n

theorem twoDigits_inj {n m : Nat} (h : twoDigits n = twoDigits m) : n = m := by
  rw [← number_twoDigits n, h, number_twoDigits]

theorem length_twoDigits {n : Nat} (h : n < 100) : (twoDigits n).length = 2 := by
  have hall : ∀ n < 100, (twoDigits n).length = 2 := by decide
  exact hall n h

theorem length_dayName (wday : Fin 7) : (dayName wday).length = 3 := by
  revert wday
  decide

theorem length_monthName (mon : Fin 12) : (monthName mon).length = 3 := by
  revert mon
  decide

theorem dayName_inj {wday wday' : Fin 7} (h : dayName wday = dayName wday') : wday = wday' := by
  revert wday wday'
  decide

theorem monthName_inj {mon mon' : Fin 12} (h : monthName mon = monthName mon') : mon = mon' := by
  revert mon mon'
  decide

theorem length_day (mday : Fin 32) : (pad 32 3 (decimal mday) : List Byte).length = 3 := by
  have hlen : (decimal mday).length ≤ 3 :=
    (length_decimal_le_iff (by decide)).mpr (Nat.lt_trans mday.isLt (by decide))
  rw [length_pad]
  omega

theorem length_dayAndTime (tm : Tm) : (dayAndTime tm).length = 20 := by
  have hhour := length_twoDigits (Nat.lt_trans tm.hour.isLt (by decide))
  have hmin := length_twoDigits (Nat.lt_trans tm.min.isLt (by decide))
  have hsec := length_twoDigits (Nat.lt_trans tm.sec.isLt (by decide))
  simp only [dayAndTime, List.length_append, List.length_cons, List.length_nil, length_dayName,
    length_monthName, length_day, hhour, hmin, hsec]

/-- **TIME**: with the end of the line goes the last digit of the year. -/
theorem mtimeStr_eq (tm : Tm) : mtimeStr tm = dayAndTime tm ++ decimal (tm.year / 10) := by
  have hyear : ¬ tm.year < 10 := fun h => absurd (Nat.lt_of_le_of_lt tm.le_year h) (by decide)
  have hctime : ∃ c, ctime tm = (dayAndTime tm ++ decimal (tm.year / 10)) ++ [c, 10] := by
    refine ⟨BitVec.ofNat 8 (Nat.digitChar (tm.year % 10)).toNat, ?_⟩
    rw [ctime, decimal_eq tm.year, if_neg hyear, List.append_assoc, List.append_assoc]
    rfl
  obtain ⟨c, hc⟩ := hctime
  rw [mtimeStr, hc, List.length_append]
  exact List.take_left' rfl

theorem length_mtimeStr (tm : Tm) : (mtimeStr tm).length = 23 := by
  have hlow := tm.le_year
  have hhigh := tm.year_lt
  have hle : (decimal (tm.year / 10)).length ≤ 3 :=
    (length_decimal_le_iff (by decide)).mpr (by omega)
  have hgt : ¬ (decimal (tm.year / 10)).length ≤ 2 := by
    rw [length_decimal_le_iff (by decide)]
    omega
  rw [mtimeStr_eq, List.length_append, length_dayAndTime]
  omega

/-- Two times that are the same but for the last digit of the year. -/
structure SameDate (tm tm' : Tm) : Prop where
  wday : tm.wday = tm'.wday
  mon : tm.mon = tm'.mon
  mday : tm.mday = tm'.mday
  hour : tm.hour = tm'.hour
  min : tm.min = tm'.min
  sec : tm.sec = tm'.sec
  decade : tm.year / 10 = tm'.year / 10

/-- Up to the year everything is told. -/
theorem dayAndTime_inj {tm tm' : Tm} (h : dayAndTime tm = dayAndTime tm') :
    tm.wday = tm'.wday ∧ tm.mon = tm'.mon ∧ tm.mday = tm'.mday ∧ tm.hour = tm'.hour
      ∧ tm.min = tm'.min ∧ tm.sec = tm'.sec := by
  have hlen : ∀ {n m : Nat}, n < 100 → m < 100 → (twoDigits n).length = (twoDigits m).length :=
    fun hn hm => (length_twoDigits hn).trans (length_twoDigits hm).symm
  have hhour : ∀ t : Tm, (t.hour : Nat) < 100 := fun t => Nat.lt_trans t.hour.isLt (by decide)
  have hmin : ∀ t : Tm, (t.min : Nat) < 100 := fun t => Nat.lt_trans t.min.isLt (by decide)
  have hsec : ∀ t : Tm, (t.sec : Nat) < 100 := fun t => Nat.lt_trans t.sec.isLt (by decide)
  rw [dayAndTime, dayAndTime] at h
  -- one field after another
  obtain ⟨hwday, h⟩ := List.append_inj h ((length_dayName _).trans (length_dayName _).symm)
  obtain ⟨hmon, h⟩ := List.append_inj (List.cons.inj h).2
    ((length_monthName _).trans (length_monthName _).symm)
  obtain ⟨hmday, h⟩ := List.append_inj h ((length_day _).trans (length_day _).symm)
  obtain ⟨hhr, h⟩ := List.append_inj (List.cons.inj h).2 (hlen (hhour tm) (hhour tm'))
  obtain ⟨hmn, h⟩ := List.append_inj (List.cons.inj h).2 (hlen (hmin tm) (hmin tm'))
  obtain ⟨hsc, -⟩ := List.append_inj (List.cons.inj h).2 (hlen (hsec tm) (hsec tm'))
  refine ⟨dayName_inj hwday, monthName_inj hmon, ?_, Fin.ext (twoDigits_inj hhr),
    Fin.ext (twoDigits_inj hmn), Fin.ext (twoDigits_inj hsc)⟩
  exact Fin.ext (decimal_inj (pad_inj (decimal_ne_nil _) (decimal_ne_nil _)
    (not_mem_decimal rfl _) (not_mem_decimal rfl _) hmday))

/-- The printed time tells everything but the last digit of the year. -/
theorem mtimeStr_eq_iff (tm tm' : Tm) : mtimeStr tm = mtimeStr tm' ↔ SameDate tm tm' := by
  rw [mtimeStr_eq, mtimeStr_eq]
  constructor
  · intro h
    obtain ⟨hday, hyear⟩ := List.append_inj h
      ((length_dayAndTime _).trans (length_dayAndTime _).symm)
    obtain ⟨hwday, hmon, hmday, hhour, hmin, hsec⟩ := dayAndTime_inj hday
    exact ⟨hwday, hmon, hmday, hhour, hmin, hsec, decimal_inj hyear⟩
  · rintro ⟨hwday, hmon, hmday, hhour, hmin, hsec, hdecade⟩
    rw [dayAndTime, dayAndTime, hwday, hmon, hmday, hhour, hmin, hsec, hdecade]

/-! ## One line -/

/-- Two entries that a listing does not tell apart. -/
structure Alike (e e' : Entry) : Prop where
  type : fileType e.mode = fileType e'.mode
  perm : e.mode &&& told = e'.mode &&& told
  nlink : e.nlink = e'.nlink
  usr : e.usr = e'.usr
  grp : e.grp = e'.grp
  size : e.size = e'.size
  mtime : SameDate e.tm e'.tm
  name : e.name = e'.name

/-- Names of users and groups without a blank, and no end of a line in any name. -/
structure Entry.Plain (e : Entry) : Prop where
  usr : (32 : Byte) ∉ e.usr ∧ (10 : Byte) ∉ e.usr
  grp : (32 : Byte) ∉ e.grp ∧ (10 : Byte) ∉ e.grp
  name : (10 : Byte) ∉ e.name

/-- **ONE LINE**: what it tells of an entry. -/
theorem text_eq_iff {e e' : Entry} (h : e.Plain) (h' : e'.Plain) :
    e.text = e'.text ↔ Alike e e' := by
  have hperm : ∀ mode, pad 32 9 (permStr mode) = permStr mode :=
    fun mode => pad_of_le (Nat.le_of_eq (length_permStr mode).symm)
  have hblank : ∀ v, (32 : Byte) ∉ formatInt v := not_mem_formatInt rfl (by decide)
  rw [Entry.text, Entry.text, hperm, hperm]
  constructor
  · intro heq
    obtain ⟨htype, heq⟩ := List.cons.inj heq
    obtain ⟨hmode, heq⟩ := List.append_inj heq
      ((length_permStr _).trans (length_permStr _).symm)
    obtain ⟨hnlink, heq⟩ := split_pad_unique (formatInt_ne_nil _) (formatInt_ne_nil _)
      (hblank _) (hblank _) (List.cons.inj heq).2
    obtain ⟨husr, heq⟩ := split_unique h.usr.1 h'.usr.1 heq
    obtain ⟨hgrp, heq⟩ := split_unique h.grp.1 h'.grp.1 heq
    obtain ⟨hsize, heq⟩ := split_pad_unique (formatInt_ne_nil _) (formatInt_ne_nil _)
      (hblank _) (hblank _) heq
    obtain ⟨hmtime, heq⟩ := List.append_inj heq
      ((length_mtimeStr _).trans (length_mtimeStr _).symm)
    exact ⟨htype, (permStr_eq_iff _ _).mp hmode, formatInt_inj hnlink, husr, hgrp,
      formatInt_inj hsize, (mtimeStr_eq_iff _ _).mp hmtime, (List.cons.inj heq).2⟩
  · intro halike
    rw [halike.type, (permStr_eq_iff _ _).mpr halike.perm, halike.nlink, halike.usr, halike.grp,
      halike.size, (mtimeStr_eq_iff _ _).mpr halike.mtime, halike.name]

theorem newline_not_mem_permStr (mode : BitVec 32) : (10 : Byte) ∉ permStr mode := by
  have hletter : ∀ k, ∀ c ∈ ([114, 119, 120] : List Byte), (10 : Byte) ≠ letter mode k c := by
    intro k c hc
    rw [letter]
    split
    · rintro rfl
      exact absurd hc (by decide)
    · decide
  rw [permStr_eq]
  simp only [List.mem_cons, List.not_mem_nil, or_false, not_or]
  exact ⟨hletter 8 _ (by decide), hletter 7 _ (by decide), hletter 6 _ (by decide),
    hletter 5 _ (by decide), hletter 5 _ (by decide), hletter 5 _ (by decide),
    hletter 2 _ (by decide), by decide, by decide⟩

theorem newline_not_mem_mtimeStr (tm : Tm) : (10 : Byte) ∉ mtimeStr tm := by
  have hday : ∀ wday, (10 : Byte) ∉ dayName wday := by decide
  have hmonth : ∀ mon, (10 : Byte) ∉ monthName mon := by decide
  have hdigits : ∀ n, (10 : Byte) ∉ decimal n := not_mem_decimal rfl
  have htwo : ∀ n, (10 : Byte) ∉ twoDigits n := by
    intro n
    rw [twoDigits]
    split
    · intro hmem
      rcases List.mem_cons.mp hmem with heq | htail
      · exact absurd heq (by decide)
      · exact hdigits n htail
    · exact hdigits n
  have hpad : (10 : Byte) ∉ pad 32 3 (decimal tm.mday) := not_mem_pad (by decide) (hdigits _)
  rw [mtimeStr_eq, dayAndTime]
  simp only [List.mem_append, List.mem_cons, List.not_mem_nil, or_false, not_or]
  exact ⟨⟨hday _, by decide, hmonth _, hpad, by decide, htwo _, by decide, htwo _, by decide,
    htwo _, by decide⟩, hdigits _⟩

/-- **NO END**: in the text of a plain entry there is no end of a line. -/
theorem newline_not_mem_text {e : Entry} (h : e.Plain) : (10 : Byte) ∉ e.text := by
  have htype : (10 : Byte) ≠ fileType e.mode := by
    rw [fileType]
    repeat' split
    all_goals decide
  have hnumber : ∀ v, (10 : Byte) ∉ formatInt v := not_mem_formatInt rfl (by decide)
  rw [Entry.text]
  simp only [List.mem_append, List.mem_cons, not_or]
  exact ⟨htype, not_mem_pad (by decide) (newline_not_mem_permStr _), by decide,
    not_mem_pad (by decide) (hnumber _), by decide, h.usr.2, by decide, h.grp.2, by decide,
    not_mem_pad (by decide) (hnumber _), by decide, newline_not_mem_mtimeStr _, by decide, h.name⟩

/-- A name with an end of a line in it passes for two entries. -/
theorem text_forged (e e' : Entry) :
    ({ e with name := e.name ++ 10 :: e'.text } : Entry).text ++ [10]
      = (e.text ++ [10]) ++ (e'.text ++ [10]) := by
  simp [Entry.text]

/-! ## The listing -/

/-- What `info_file` finds out about a name, where it finds out anything. -/
def entry (sys : System) (name : Name) : Option Entry :=
  match sys.stat (getPath sys name) with
  | none => none
  | some sb =>
    match uidToName sys sb.uid, gidToName sys sb.gid with
    | some usr, some grp =>
      some { mode := sb.mode, nlink := sb.nlink, usr := usr, grp := grp, size := sb.size
             tm := sys.localtime sb.mtime, name := name }
    | _, _ => none

/-- The names that are listed: all but `.` and `..`. -/
def shown (name : Name) : Bool := name ≠ dot && name ≠ dotdot

/-- The entries that come before the first one that ends the program. -/
def listed (sys : System) (names : List Name) : List Entry :=
  (((names.filter shown).map (entry sys)).takeWhile Option.isSome).reduceOption

/-- **ONE ENTRY**: what becomes of a name that is listed. -/
theorem infoFile_cases (sys : System) {name : Name} (hshown : shown name = true) :
    (∃ e, entry sys name = some e ∧ e.name = name ∧ infoFile sys name = .line (e.text ++ [10]))
      ∨ (entry sys name = none ∧ (infoFile sys name = .exits ∨ infoFile sys name = .fault)) := by
  have hdots : ¬ (name = dot ∨ name = dotdot) := by
    simpa [shown] using hshown
  rw [infoFile, if_neg hdots, entry]
  cases sys.stat (getPath sys name) with
  | none => exact Or.inr ⟨rfl, Or.inl rfl⟩
  | some sb =>
      simp only
      cases uidToName sys sb.uid with
      | none => exact Or.inr ⟨rfl, Or.inr rfl⟩
      | some usr =>
          cases gidToName sys sb.gid with
          | none => exact Or.inr ⟨rfl, Or.inr rfl⟩
          | some grp => exact Or.inl ⟨_, rfl, rfl, rfl⟩

theorem infoFile_hidden (sys : System) {name : Name} (h : shown name = false) :
    infoFile sys name = .silent := by
  have hdots : name = dot ∨ name = dotdot := by
    by_contra hnot
    rw [not_or] at hnot
    rw [shown, decide_eq_true hnot.1, decide_eq_true hnot.2] at h
    cases h
  rw [infoFile, if_pos hdots]

/-- **LOOP**: the lines are those of the entries listed. -/
theorem infoFiles_lines (sys : System) (names : List Name) :
    (infoFiles sys names).1 = (listed sys names).map (fun e => e.text ++ [10]) := by
  induction names with
  | nil => rfl
  | cons name names ih =>
      cases hshown : shown name with
      | false =>
          have hnot : ¬ shown name = true := by simp [hshown]
          rw [infoFiles, infoFile_hidden sys hshown, listed, List.filter_cons_of_neg hnot]
          exact ih
      | true =>
          rw [listed, List.filter_cons_of_pos hshown, List.map_cons]
          rcases infoFile_cases sys hshown with ⟨e, he, -, hline⟩ | ⟨hnone, hstops⟩
          · rw [infoFiles, hline, he, List.takeWhile_cons_of_pos rfl,
              List.reduceOption_cons_of_some]
            simp only [ih, List.map_cons]
            rfl
          · rw [infoFiles, hnone, List.takeWhile_cons_of_neg Bool.false_ne_true]
            rcases hstops with h | h
            · rw [h]
              rfl
            · rw [h]
              rfl

/-- It comes to its end when every entry is listed. -/
theorem infoFiles_ended_iff (sys : System) (names : List Name) :
    (infoFiles sys names).2 = .ended
      ↔ (listed sys names).map Entry.name = names.filter shown := by
  induction names with
  | nil => exact iff_of_true rfl rfl
  | cons name names ih =>
      cases hshown : shown name with
      | false =>
          have hnot : ¬ shown name = true := by simp [hshown]
          rw [infoFiles, infoFile_hidden sys hshown, listed, List.filter_cons_of_neg hnot]
          exact ih
      | true =>
          rw [listed, List.filter_cons_of_pos hshown, List.map_cons]
          rcases infoFile_cases sys hshown with ⟨e, he, hname, hline⟩ | ⟨hnone, hstops⟩
          · rw [infoFiles, hline, he, List.takeWhile_cons_of_pos rfl,
              List.reduceOption_cons_of_some, List.map_cons, List.cons.injEq, hname]
            exact ih.trans (and_iff_right rfl).symm
          · rw [infoFiles, hnone, List.takeWhile_cons_of_neg Bool.false_ne_true]
            rcases hstops with h | h
            · rw [h]
              exact iff_of_false End.noConfusion (List.cons_ne_nil _ _).symm
            · rw [h]
              exact iff_of_false End.noConfusion (List.cons_ne_nil _ _).symm

/-- The entries of the current directory that are listed, in the order of their lines. -/
def entries (sys : System) : List Entry := listed sys (sys.scandir.getD []).reverse

theorem main_lines (sys : System) (prog : List Byte) :
    (main sys [prog, dashL]).1 = (entries sys).map (fun e => e.text ++ [10]) := by
  have hargs : ¬ [prog, dashL].length ≠ 2 := fun h => h rfl
  have hdash : ¬ [prog, dashL].getD 1 [] ≠ dashL := fun h => h rfl
  rw [main, if_neg hargs, if_neg hdash, entries]
  cases sys.scandir with
  | none => rfl
  | some names => exact infoFiles_lines sys names.reverse

/-- **COMPLETE**: the program comes to its end exactly when it has listed everything but
    `.` and `..`. -/
theorem main_ended_iff {sys : System} {names : List Name} (h : sys.scandir = some names)
    (prog : List Byte) : (main sys [prog, dashL]).2 = .ended
      ↔ (entries sys).map Entry.name = names.reverse.filter shown := by
  have hargs : ¬ [prog, dashL].length ≠ 2 := fun h => h rfl
  have hdash : ¬ [prog, dashL].getD 1 [] ≠ dashL := fun h => h rfl
  rw [main, if_neg hargs, if_neg hdash, entries, h]
  exact infoFiles_ended_iff sys names.reverse

/-- A system whose names are plain. -/
structure System.Plain (sys : System) : Prop where
  users : ∀ uid name, sys.getpwuid uid = some name → (32 : Byte) ∉ name ∧ (10 : Byte) ∉ name
  groups : ∀ gid name, sys.getgrgid gid = some name → (32 : Byte) ∉ name ∧ (10 : Byte) ∉ name
  names : ∀ names, sys.scandir = some names → ∀ name ∈ names, (10 : Byte) ∉ name

/-- A number that stands for a name has no blank in it. -/
theorem plain_numstr {id : BitVec 32} {str : List Byte} (h : numstr id = some str) :
    (32 : Byte) ∉ str ∧ (10 : Byte) ∉ str := by
  rw [numstr] at h
  split at h
  · obtain rfl := Option.some.inj h
    exact ⟨not_mem_formatInt rfl (by decide) id, not_mem_formatInt rfl (by decide) id⟩
  · cases h

theorem System.Plain.uidToName {sys : System} (h : sys.Plain) {uid : BitVec 32}
    {usr : List Byte} (husr : LsL.uidToName sys uid = some usr) :
    (32 : Byte) ∉ usr ∧ (10 : Byte) ∉ usr := by
  rw [LsL.uidToName] at husr
  split at husr
  · next name hname =>
    obtain rfl := Option.some.inj husr
    exact h.users uid name hname
  · exact plain_numstr husr

theorem System.Plain.gidToName {sys : System} (h : sys.Plain) {gid : BitVec 32}
    {grp : List Byte} (hgrp : LsL.gidToName sys gid = some grp) :
    (32 : Byte) ∉ grp ∧ (10 : Byte) ∉ grp := by
  rw [LsL.gidToName] at hgrp
  split at hgrp
  · next name hname =>
    obtain rfl := Option.some.inj hgrp
    exact h.groups gid name hname
  · exact plain_numstr hgrp

/-- Entries of a plain system are plain. -/
theorem System.Plain.entry {sys : System} (h : sys.Plain) {name : Name} {e : Entry}
    (hname : (10 : Byte) ∉ name) (he : LsL.entry sys name = some e) : e.Plain := by
  rw [LsL.entry] at he
  split at he
  · cases he
  · next sb hstat =>
    split at he
    · next usr grp husr hgrp =>
      obtain rfl := Option.some.inj he
      exact ⟨h.uidToName husr, h.gidToName hgrp, hname⟩
    · cases he

theorem System.Plain.entries {sys : System} (h : sys.Plain) :
    ∀ e ∈ LsL.entries sys, e.Plain := by
  intro e he
  rw [LsL.entries, listed, List.reduceOption_mem_iff] at he
  have hmem := (List.takeWhile_sublist _).subset he
  obtain ⟨name, hname, hentry⟩ := List.mem_map.mp hmem
  have hin := List.mem_reverse.mp (List.mem_filter.mp hname).1
  cases hscan : sys.scandir with
  | none =>
      rw [hscan] at hin
      cases hin
  | some names =>
      rw [hscan] at hin
      exact h.entry (h.names names hscan name hin) hentry

/-- The texts of plain entries, one by one. -/
theorem texts_eq_iff {es es' : List Entry} (h : ∀ e ∈ es, e.Plain) (h' : ∀ e ∈ es', e.Plain) :
    es.map Entry.text = es'.map Entry.text ↔ List.Forall₂ Alike es es' := by
  induction es generalizing es' with
  | nil =>
      rw [List.forall₂_nil_left_iff, List.map_nil]
      exact eq_comm.trans List.map_eq_nil_iff
  | cons e es ih =>
      cases es' with
      | nil =>
          rw [List.forall₂_nil_right_iff, List.map_nil]
          exact List.map_eq_nil_iff
      | cons e' es' =>
          rw [List.map_cons, List.map_cons, List.cons.injEq, List.forall₂_cons,
            text_eq_iff (h e (List.mem_cons_self ..)) (h' e' (List.mem_cons_self ..)),
            ih (fun x hx => h x (List.mem_cons_of_mem _ hx))
              (fun x hx => h' x (List.mem_cons_of_mem _ hx))]

/-- **LISTING**: two directories are listed by the same text exactly when their entries are
    alike, one by one. -/
theorem listing_eq_iff {sys sys' : System} (h : sys.Plain) (h' : sys'.Plain)
    (prog prog' : List Byte) :
    (main sys [prog, dashL]).1.flatten = (main sys' [prog', dashL]).1.flatten
      ↔ List.Forall₂ Alike (entries sys) (entries sys') := by
  have hflat : ∀ es : List Entry, (es.map (fun e => e.text ++ [10])).flatten
      = (es.map Entry.text).flatMap (fun text => text ++ [10]) := by
    intro es
    rw [List.flatMap_map, List.flatMap]
  have hlines : ∀ {es : List Entry}, (∀ e ∈ es, e.Plain) →
      ∀ text ∈ es.map Entry.text, (10 : Byte) ∉ text := by
    intro es hes text htext
    obtain ⟨e, he, rfl⟩ := List.mem_map.mp htext
    exact newline_not_mem_text (hes e he)
  rw [main_lines, main_lines, hflat, hflat, ← texts_eq_iff h.entries h'.entries]
  constructor
  · exact lines_unique (hlines h.entries) (hlines h'.entries)
  · intro heq
    rw [heq]

/-- 1970 has four digits. -/
theorem digits_1970 : 1000 ≤ 1970 ∧ 1970 < 10000 := by decide

/-- A directory with one file of this mode, on the first of January 1970. -/
def oneFile (mode : BitVec 32) : System where
  currentDirName := []
  scandir := some [dot, dotdot, [102]]
  stat := fun path =>
    if path = [slash, 102] then
      some { mode := mode, nlink := 1, uid := 0, gid := 0, size := 3, mtime := 0 }
    else none
  getpwuid := fun _ => some [114, 111, 111, 116]
  getgrgid := fun _ => none
  localtime := fun _ =>
    { wday := 4, mon := 0, mday := 1, hour := 0, min := 0, sec := 0, year := 1970
      le_year := digits_1970.1, year_lt := digits_1970.2 }

theorem plain_oneFile (mode : BitVec 32) : (oneFile mode).Plain := by
  refine ⟨?_, ?_, ?_⟩
  · intro uid name h
    obtain rfl := Option.some.inj h
    decide
  · intro gid name h
    cases h
  · intro names h
    obtain rfl := Option.some.inj h
    decide

/-- A file that everybody may write is listed like one that only its owner may write. -/
theorem listing_writable :
    (main (oneFile 0o100644) [[], dashL]).1.flatten
        = (main (oneFile 0o100666) [[], dashL]).1.flatten
      ↔ List.Forall₂ Alike (entries (oneFile 0o100644)) (entries (oneFile 0o100666)) :=
  listing_eq_iff (plain_oneFile 0o100644) (plain_oneFile 0o100666) [] []

example : (main (oneFile 0o100644) [[], dashL]).1.flatten
    = (main (oneFile 0o100666) [[], dashL]).1.flatten := by decide

end LsL
