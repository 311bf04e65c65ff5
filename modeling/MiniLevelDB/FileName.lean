import Mathlib.Data.List.Sort
import MiniLevelDB.FileOps

/-! # File names

`db/filename.cc`.  Logs, tables and unfinished tables share one sequence of numbers; the number is
the decimal text in front of the suffix.  `parseFileName_fileName` reads a name back, and
`listFiles_wp` says what is listed in a directory that holds files of these names only. -/

namespace MiniLevelDB

open Effect Posix

inductive FileType where
  | kLogFile
  | kTableFile
  | kTempFile
deriving DecidableEq, Repr

/-- `FileInfo`. -/
structure FileInfo where
  number : ℕ
  type : FileType
deriving DecidableEq, Repr

/-- `std::to_string`. -/
def toDecimal (n : ℕ) : Bytes :=
  if n < 10 then [UInt8.ofNat (48 + n)] else toDecimal (n / 10) ++ [UInt8.ofNat (48 + n % 10)]

/-- Whether a byte is between `'0'` and `'9'`. -/
def isDigit (c : UInt8) : Bool := 48 ≤ c && c ≤ 57

/-- The number a string of digits stands for. -/
def digitsValue (s : Bytes) : ℕ := s.foldl (fun v c => v * 10 + (c.toNat - 48)) 0

/-- `std::strtoull` in base 10 on a string that starts with digits: it saturates. -/
def strtoull (s : Bytes) : ℕ := min (digitsValue (s.takeWhile isDigit)) (2 ^ 64 - 1)

/-- The suffix of a type of files. -/
def FileType.suffix : FileType → Bytes
  | .kLogFile => ascii ".log"
  | .kTableFile => ascii ".ldb"
  | .kTempFile => ascii ".ldb.tmp"

/-- The last component of the path of a file. -/
def baseName (f : FileInfo) : Bytes := toDecimal f.number ++ f.type.suffix

/-- `LogFileName`. -/
def logFileName (dbname : Bytes) (number : ℕ) : Bytes :=
  dbname ++ ascii "/" ++ toDecimal number ++ ascii ".log"

/-- `TableFileName`. -/
def tableFileName (dbname : Bytes) (number : ℕ) : Bytes :=
  dbname ++ ascii "/" ++ toDecimal number ++ ascii ".ldb"

/-- `TempFileName`. -/
def tempFileName (dbname : Bytes) (number : ℕ) : Bytes :=
  dbname ++ ascii "/" ++ toDecimal number ++ ascii ".ldb.tmp"

/-- The digits of a name in front of its suffix. -/
def parseNumber (name : Bytes) (type : FileType) (base_len : ℕ) : Option FileInfo :=
  if base_len = 0 then none
  else if (name.take base_len).all isDigit then some ⟨strtoull name, type⟩
  else none

/-- Whether a name is longer than the suffix and ends in it. -/
def hasSuffix (name suffix : Bytes) : Bool :=
  suffix.length < name.length && name.drop (name.length - suffix.length) == suffix

/-- `ParseFileName`. -/
def parseFileName (fname : Bytes) : Option FileInfo :=
  let name := (fname.reverse.takeWhile (· ≠ 47)).reverse
  if hasSuffix name (ascii ".ldb.tmp") then parseNumber name .kTempFile (name.length - 8)
  else if hasSuffix name (ascii ".ldb") then parseNumber name .kTableFile (name.length - 4)
  else if hasSuffix name (ascii ".log") then parseNumber name .kLogFile (name.length - 4)
  else none

/-- `ListFiles`: ascending numbers. -/
def listFiles (dbname : Bytes) : FileProg (Except Status (List FileInfo)) :=
  listDir dbname >>= fun
  | none => .ret (.error (Status.ioError (ascii "opendir failed: " ++ dbname)))
  | some names =>
      .ret (.ok ((names.filterMap parseFileName).insertionSort fun a b => a.number ≤ b.number))

/-! ### Names are read back -/

theorem toDecimal_ne_nil (n : ℕ) : toDecimal n ≠ [] := by
  rw [toDecimal]
  split <;> simp

theorem toNat_digit {d : ℕ} (h : d < 10) : (UInt8.ofNat (48 + d)).toNat = 48 + d := by
  rw [UInt8.toNat_ofNat']
  omega

theorem isDigit_digit {d : ℕ} (h : d < 10) : isDigit (UInt8.ofNat (48 + d)) = true := by
  have hd := toNat_digit h
  have h48 : (48 : UInt8).toNat = 48 := rfl
  have h57 : (57 : UInt8).toNat = 57 := rfl
  simp only [isDigit, Bool.and_eq_true, decide_eq_true_eq, UInt8.le_iff_toNat_le, hd, h48, h57]
  omega

theorem isDigit_of_mem_toDecimal {n : ℕ} {c : UInt8} (h : c ∈ toDecimal n) : isDigit c = true := by
  induction n using toDecimal.induct with
  | case1 n hn =>
      rw [toDecimal, if_pos hn] at h
      exact List.mem_singleton.mp h ▸ isDigit_digit hn
  | case2 n hn ih =>
      rw [toDecimal, if_neg hn] at h
      rcases List.mem_append.mp h with h | h
      · exact ih h
      · exact List.mem_singleton.mp h ▸ isDigit_digit (Nat.mod_lt _ (by decide))

/-- Rendering and reading a number are inverse. -/
theorem digitsValue_toDecimal (n : ℕ) : digitsValue (toDecimal n) = n := by
  induction n using toDecimal.induct with
  | case1 n hn =>
      rw [toDecimal, if_pos hn]
      simp only [digitsValue, List.foldl_cons, List.foldl_nil, toNat_digit hn]
      omega
  | case2 n hn ih =>
      rw [digitsValue] at ih
      rw [toDecimal, if_neg hn, digitsValue, List.foldl_append, ih]
      simp only [List.foldl_cons, List.foldl_nil, toNat_digit (Nat.mod_lt n (show 0 < 10 by decide))]
      omega

theorem not_isDigit_of_suffix (type : FileType) : ∃ t, type.suffix = 46 :: t := by
  cases type <;> exact ⟨_, rfl⟩

theorem strtoull_baseName {f : FileInfo} (h : f.number < 2 ^ 64) : strtoull (baseName f) = f.number := by
  obtain ⟨t, ht⟩ := not_isDigit_of_suffix f.type
  have hspan : (baseName f).takeWhile isDigit = toDecimal f.number := by
    rw [baseName, ht, List.takeWhile_append_of_pos fun c hc => isDigit_of_mem_toDecimal hc,
      List.takeWhile_cons_of_neg (by decide), List.append_nil]
  rw [strtoull, hspan, digitsValue_toDecimal]
  omega

theorem slash_not_mem_baseName (f : FileInfo) : (47 : UInt8) ∉ baseName f := by
  intro h
  rcases List.mem_append.mp h with h | h
  · exact absurd (isDigit_of_mem_toDecimal h) (by decide)
  · revert h
    cases f.type <;> decide

theorem hasSuffix_append {s suffix : Bytes} (h : s ≠ []) : hasSuffix (s ++ suffix) suffix = true := by
  have := List.length_pos_iff.mpr h
  simp only [hasSuffix, List.length_append, Nat.add_sub_cancel, List.drop_left, beq_self_eq_true,
    Bool.and_true, decide_eq_true_eq]
  omega

theorem parseNumber_baseName {f : FileInfo} (h : f.number < 2 ^ 64) :
    parseNumber (baseName f) f.type ((baseName f).length - f.type.suffix.length) = some f := by
  have hpos := List.length_pos_iff.mpr (toDecimal_ne_nil f.number)
  have hlen : (baseName f).length - f.type.suffix.length = (toDecimal f.number).length := by
    rw [baseName, List.length_append, Nat.add_sub_cancel]
  have hall : ((baseName f).take (toDecimal f.number).length).all isDigit = true := by
    rw [baseName, List.take_left, List.all_eq_true]
    exact fun c hc => isDigit_of_mem_toDecimal hc
  rw [parseNumber, hlen, if_neg hpos.ne', if_pos hall, strtoull_baseName h]

/-- A name with a suffix ends in the suffix's last byte. -/
theorem getLast?_of_hasSuffix {name suffix : Bytes} (h : hasSuffix name suffix = true)
    (hne : suffix ≠ []) : name.getLast? = suffix.getLast? := by
  obtain ⟨-, hdrop⟩ : suffix.length < name.length ∧ name.drop (name.length - suffix.length) = suffix := by
    simpa [hasSuffix] using h
  rw [← List.take_append_drop (name.length - suffix.length) name, hdrop,
    List.getLast?_append_of_ne_nil _ hne]

theorem hasSuffix_baseName (f : FileInfo) (type : FileType) :
    hasSuffix (baseName f) type.suffix = decide (f.type = type) := by
  by_cases h : f.type = type
  · rw [decide_eq_true h, baseName, h]
    exact hasSuffix_append (toDecimal_ne_nil _)
  · have hne : ∀ t : FileType, t.suffix ≠ [] := fun t => by cases t <;> decide
    rw [decide_eq_false h, Bool.eq_false_iff]
    intro hs
    have hlast := getLast?_of_hasSuffix hs (hne type)
    rw [baseName, List.getLast?_append_of_ne_nil _ (hne f.type)] at hlast
    revert h hlast
    cases f.type <;> cases type <;> decide

/-- **A file's name gives its number and its type.** -/
theorem parseFileName_baseName {dir : Bytes} {f : FileInfo} (hdir : dir = [] ∨ ∃ d, dir = d ++ [47])
    (h : f.number < 2 ^ 64) : parseFileName (dir ++ baseName f) = some f := by
  have hname : ((dir ++ baseName f).reverse.takeWhile (· ≠ 47)).reverse = baseName f := by
    have hall : ∀ c ∈ (baseName f).reverse, decide (c ≠ 47) = true := by
      intro c hc
      have hc := List.mem_reverse.mp hc
      exact decide_eq_true fun he => slash_not_mem_baseName f (he ▸ hc)
    have hrest : dir.reverse.takeWhile (fun c => decide (c ≠ 47)) = [] := by
      rcases hdir with rfl | ⟨d, rfl⟩
      · rfl
      · rw [List.reverse_append]
        rfl
    rw [List.reverse_append, List.takeWhile_append_of_pos hall, hrest, List.append_nil,
      List.reverse_reverse]
  have hnumber := parseNumber_baseName h
  have htmp := hasSuffix_baseName f .kTempFile
  have hldb := hasSuffix_baseName f .kTableFile
  have hlog := hasSuffix_baseName f .kLogFile
  simp only [FileType.suffix] at htmp hldb hlog
  unfold parseFileName
  simp only [hname, htmp, hldb, hlog]
  obtain ⟨number, type⟩ := f
  cases type <;> exact hnumber

/-! ### Directories -/

/-- The path of a file. -/
def fileName (dbname : Bytes) (f : FileInfo) : Bytes := dbname ++ ascii "/" ++ baseName f

theorem logFileName_eq (dbname : Bytes) (n : ℕ) : logFileName dbname n = fileName dbname ⟨n, .kLogFile⟩ :=
  List.append_assoc _ _ _

theorem tableFileName_eq (dbname : Bytes) (n : ℕ) :
    tableFileName dbname n = fileName dbname ⟨n, .kTableFile⟩ := List.append_assoc _ _ _

theorem tempFileName_eq (dbname : Bytes) (n : ℕ) :
    tempFileName dbname n = fileName dbname ⟨n, .kTempFile⟩ := List.append_assoc _ _ _

/-- The paths of files of different numbers or types differ. -/
theorem fileName_inj {dbname : Bytes} {f g : FileInfo} (hf : f.number < 2 ^ 64) (hg : g.number < 2 ^ 64)
    (h : fileName dbname f = fileName dbname g) : f = g := by
  have h1 := @parseFileName_baseName (dbname ++ ascii "/") f (Or.inr ⟨dbname, rfl⟩) hf
  have h2 := @parseFileName_baseName (dbname ++ ascii "/") g (Or.inr ⟨dbname, rfl⟩) hg
  rw [← fileName] at h1 h2
  exact Option.some.inj (h1.symm.trans (h ▸ h2))

/-! ### Names that are accepted -/

/-- The function that names the files of a type. -/
def FileType.nameOf : FileType → Bytes → ℕ → Bytes
  | .kLogFile => logFileName
  | .kTableFile => tableFileName
  | .kTempFile => tempFileName

theorem FileType.nameOf_eq (dbname : Bytes) (f : FileInfo) :
    f.type.nameOf dbname f.number = fileName dbname f := by
  obtain ⟨number, type⟩ := f
  cases type with
  | kLogFile => exact logFileName_eq dbname number
  | kTableFile => exact tableFileName_eq dbname number
  | kTempFile => exact tempFileName_eq dbname number

/-- **A built name gives its number and its type**, whatever the directory, and so no two names of
different numbers or types are the same. -/
theorem parseFileName_nameOf (dbname : Bytes) (number : UInt64) (type : FileType) :
    parseFileName (type.nameOf dbname number.toNat) = some ⟨number.toNat, type⟩ ∧
      ∀ (dbname' : Bytes) (number' : UInt64) (type' : FileType),
        type.nameOf dbname number.toNat = type'.nameOf dbname' number'.toNat →
          number = number' ∧ type = type' := by
  have hparse : ∀ (dbname : Bytes) (number : UInt64) (type : FileType),
      parseFileName (type.nameOf dbname number.toNat) = some ⟨number.toNat, type⟩ := by
    intro dbname number type
    rw [FileType.nameOf_eq dbname ⟨number.toNat, type⟩, fileName]
    exact parseFileName_baseName (Or.inr ⟨dbname, rfl⟩) number.toNat_lt
  refine ⟨hparse dbname number type, ?_⟩
  intro dbname' number' type' heq
  have hfiles := (hparse dbname number type).symm.trans (heq ▸ hparse dbname' number' type')
  obtain ⟨hnumber, htype⟩ := FileInfo.mk.inj (Option.some.inj hfiles)
  exact ⟨UInt64.toNat_inj.mp hnumber, htype⟩

/-- Digits as `std::to_string` writes them: no zero in front, and a number of 64 bits. -/
def CanonicalDigits (s : Bytes) : Prop := (s.head? = some 48 → s = [48]) ∧ digitsValue s < 2 ^ 64

theorem toDecimal_of_lt {n : ℕ} (h : n < 10) : toDecimal n = [UInt8.ofNat (48 + n)] := by
  rw [toDecimal, if_pos h]

theorem digitsValue_concat (s : Bytes) (c : UInt8) :
    digitsValue (s ++ [c]) = digitsValue s * 10 + (c.toNat - 48) := by
  simp [digitsValue, List.foldl_append]

theorem digit_of_isDigit {c : UInt8} (h : isDigit c = true) :
    c.toNat - 48 < 10 ∧ UInt8.ofNat (48 + (c.toNat - 48)) = c := by
  simp only [isDigit, Bool.and_eq_true, decide_eq_true_eq, UInt8.le_iff_toNat_le] at h
  have h48 : (48 : UInt8).toNat = 48 := rfl
  have h57 : (57 : UInt8).toNat = 57 := rfl
  refine ⟨by omega, ?_⟩
  rw [Nat.add_sub_cancel' (by omega), UInt8.ofNat_toNat]

/-- Only zero is written with a zero in front. -/
theorem eq_zero_of_head?_toDecimal {n : ℕ} (h : (toDecimal n).head? = some 48) : n = 0 := by
  induction n using toDecimal.induct with
  | case1 n hn =>
      rw [toDecimal, if_pos hn] at h
      have hdigit := congrArg UInt8.toNat (Option.some.inj h)
      rw [toNat_digit hn] at hdigit
      have h48 : (48 : UInt8).toNat = 48 := rfl
      omega
  | case2 n hn ih =>
      rw [toDecimal, if_neg hn, List.head?_append_of_ne_nil _ (toDecimal_ne_nil _)] at h
      have := ih h
      omega

/-- Digits without a zero in front stand for a positive number, and are what is written for it. -/
theorem toDecimal_digitsValue {s : Bytes} (hs : s ≠ []) (hdigits : ∀ c ∈ s, isDigit c = true)
    (hhead : s.head? ≠ some 48) : 0 < digitsValue s ∧ toDecimal (digitsValue s) = s := by
  induction s using List.reverseRecOn with
  | nil => exact absurd rfl hs
  | append_singleton s c ih =>
      obtain ⟨hten, hback⟩ := digit_of_isDigit (hdigits c (by simp))
      by_cases hnil : s = []
      · subst hnil
        have hvalue : digitsValue ([] ++ [c]) = c.toNat - 48 := by simp [digitsValue]
        have hpos : c.toNat - 48 ≠ 0 := by
          intro h0
          rw [h0] at hback
          exact hhead (by rw [← hback]; rfl)
        rw [hvalue, toDecimal, if_pos hten, hback]
        exact ⟨Nat.pos_of_ne_zero hpos, rfl⟩
      · rw [List.head?_append_of_ne_nil _ hnil] at hhead
        obtain ⟨hpos, hrest⟩ := ih hnil (fun c hc => hdigits c (List.mem_append_left _ hc)) hhead
        have hlow : (digitsValue s * 10 + (c.toNat - 48)) % 10 = c.toNat - 48 := by omega
        have hhigh : (digitsValue s * 10 + (c.toNat - 48)) / 10 = digitsValue s := by omega
        rw [digitsValue_concat, toDecimal, if_neg (by omega), hlow, hhigh, hrest, hback]
        exact ⟨by omega, rfl⟩

/-- The parts of an accepted name. -/
theorem parseFileName_some {name : Bytes} (hno : (47 : UInt8) ∉ name) {f : FileInfo}
    (h : parseFileName name = some f) :
    ∃ digits, digits ≠ [] ∧ (∀ c ∈ digits, isDigit c = true) ∧ name = digits ++ f.type.suffix ∧
      name.takeWhile isDigit = digits ∧ f.number = min (digitsValue digits) (2 ^ 64 - 1) := by
  have hname : (name.reverse.takeWhile (· ≠ 47)).reverse = name := by
    have hall : ∀ c ∈ name.reverse, decide (c ≠ 47) = true := by
      intro c hc
      exact decide_eq_true fun he => hno (he ▸ List.mem_reverse.mp hc)
    rw [← List.append_nil name.reverse, List.takeWhile_append_of_pos hall, List.takeWhile_nil,
      List.append_nil, List.reverse_reverse]
  -- the same reasoning for each suffix
  have hparts : ∀ type : FileType, hasSuffix name type.suffix = true →
      parseNumber name type (name.length - type.suffix.length) = some f →
      ∃ digits, digits ≠ [] ∧ (∀ c ∈ digits, isDigit c = true) ∧ name = digits ++ f.type.suffix ∧
        name.takeWhile isDigit = digits ∧ f.number = min (digitsValue digits) (2 ^ 64 - 1) := by
    intro type hsuffix hnumber
    unfold parseNumber at hnumber
    split_ifs at hnumber with hzero hall
    obtain rfl := Option.some.inj hnumber
    simp only [hasSuffix, Bool.and_eq_true, beq_iff_eq] at hsuffix
    obtain ⟨digits, hdigits⟩ : ∃ digits, digits = name.take (name.length - type.suffix.length) :=
      ⟨_, rfl⟩
    have hsplit : name = digits ++ type.suffix := by
      have happend := List.take_append_drop (name.length - type.suffix.length) name
      rwa [← hdigits, hsuffix.2, eq_comm] at happend
    have hne : digits ≠ [] := by
      rintro rfl
      have := congrArg List.length hdigits
      rw [List.length_take, List.length_nil] at this
      omega
    rw [← hdigits, List.all_eq_true] at hall
    have htake : name.takeWhile isDigit = digits := by
      obtain ⟨t, ht⟩ := not_isDigit_of_suffix type
      rw [hsplit, ht, List.takeWhile_append_of_pos hall, List.takeWhile_cons_of_neg (by decide),
        List.append_nil]
    exact ⟨digits, hne, hall, hsplit, htake, by rw [strtoull, htake]⟩
  unfold parseFileName at h
  simp only [hname] at h
  split_ifs at h with htmp hldb hlog
  · exact hparts .kTempFile htmp h
  · exact hparts .kTableFile hldb h
  · exact hparts .kLogFile hlog h

/-- **When a listed file is found again.**  Exactly if its name holds its number as
`std::to_string` writes it. -/
theorem nameOf_parseFileName_iff {name : Bytes} (hno : (47 : UInt8) ∉ name) {f : FileInfo}
    (h : parseFileName name = some f) :
    (∀ dbname, f.type.nameOf dbname f.number = dbname ++ ascii "/" ++ name) ↔
      CanonicalDigits (name.takeWhile isDigit) := by
  obtain ⟨digits, hne, hdigits, hname, htake, hnumber⟩ := parseFileName_some hno h
  have hiff : (∀ dbname, f.type.nameOf dbname f.number = dbname ++ ascii "/" ++ name) ↔
      toDecimal f.number = digits := by
    constructor
    · intro hall
      have hbase := List.append_cancel_left ((FileType.nameOf_eq [] f).symm.trans (hall []))
      rw [baseName, hname] at hbase
      exact List.append_cancel_right hbase
    · intro heq dbname
      rw [FileType.nameOf_eq, fileName, baseName, heq, hname]
  rw [hiff, htake, hnumber]
  constructor
  · intro heq
    constructor
    · intro hhead
      rw [← heq] at hhead
      rw [← heq, eq_zero_of_head?_toDecimal hhead]
      exact toDecimal_of_lt (by decide)
    · have hvalue := congrArg digitsValue heq
      rw [digitsValue_toDecimal] at hvalue
      omega
  · rintro ⟨hhead, hlt⟩
    rw [min_eq_left (by omega)]
    by_cases hzero : digits.head? = some 48
    · rw [hhead hzero]
      exact toDecimal_of_lt (by decide)
    · exact (toDecimal_digitsValue hne hdigits hzero).2

theorem nameOf_parseFileName_iff_seven :
    (∀ dbname, FileType.kTableFile.nameOf dbname 7 = dbname ++ ascii "/" ++ ascii "7.ldb") ↔
      CanonicalDigits ((ascii "7.ldb").takeWhile isDigit) :=
  @nameOf_parseFileName_iff (ascii "7.ldb") (by decide) ⟨7, .kTableFile⟩ (by decide)

/-- `Init` opens `db/7.ldb` for a table that lies in `db/007.ldb`. -/
theorem leading_zeros_renamed :
    parseFileName (ascii "007.ldb") = some ⟨7, .kTableFile⟩ ∧
      FileType.kTableFile.nameOf (ascii "db") 7 ≠ ascii "db" ++ ascii "/" ++ ascii "007.ldb" := by
  refine ⟨by decide, ?_⟩
  rw [FileType.nameOf, tableFileName, toDecimal_of_lt (by decide)]
  decide

/-! ### Listing -/

/-- Of the files in the directory `dbname` the database recognises those of `files`, which have names as it
writes them and different numbers. -/
structure Lists (dbname : Bytes) (fs : FileSystem) (files : List FileInfo) : Prop where
  sorted : files.Pairwise fun a b => a.number < b.number
  lt : ∀ f ∈ files, f.number < 2 ^ 64
  mem_iff : ∀ name, (47 : UInt8) ∉ name → (parseFileName name).isSome = true →
    (dbname ++ ascii "/" ++ name ∈ fs ↔ ∃ f ∈ files, name = baseName f)

theorem Lists.fileName_mem_iff {dbname : Bytes} {fs : FileSystem} {files : List FileInfo}
    (h : Lists dbname fs files) {f : FileInfo} (hf : f.number < 2 ^ 64) :
    fileName dbname f ∈ fs ↔ f ∈ files := by
  have hparse : (parseFileName (baseName f)).isSome = true :=
    Option.isSome_iff_exists.mpr ⟨f, @parseFileName_baseName [] f (Or.inl rfl) hf⟩
  rw [fileName, h.mem_iff _ (slash_not_mem_baseName f) hparse]
  constructor
  · rintro ⟨g, hg, he⟩
    have : fileName dbname f = fileName dbname g := congrArg (dbname ++ ascii "/" ++ ·) he
    rwa [fileName_inj hf (h.lt g hg) this]
  · exact fun hf => ⟨f, hf, rfl⟩

theorem mem_entriesOf {fs : FileSystem} {path name : Bytes} :
    name ∈ fs.entriesOf path ↔ path ++ ascii "/" ++ name ∈ fs ∧ (47 : UInt8) ∉ name := by
  have hslash : (path ++ ascii "/").length = path.length + 1 := List.length_append
  have hall : ∀ s : Bytes, s.all (fun c => decide (c ≠ 47)) = true ↔ (47 : UInt8) ∉ s := by
    intro s
    rw [List.all_eq_true]
    exact ⟨fun h hm => of_decide_eq_true (h _ hm) rfl, fun h c hc => decide_eq_true fun he => h (he ▸ hc)⟩
  simp only [FileSystem.entriesOf, List.mem_filterMap, hall]
  constructor
  · rintro ⟨p, hp, hname⟩
    split at hname
    · rename_i hpre
      obtain ⟨⟨t, rfl⟩, hno⟩ := hpre
      rw [← hslash, List.drop_left] at hno hname
      obtain rfl : t = name := Option.some.inj hname
      exact ⟨AList.mem_keys.mpr hp, hno⟩
    · cases hname
  · rintro ⟨hmem, hno⟩
    refine ⟨_, AList.mem_keys.mp hmem, ?_⟩
    rw [← hslash, List.drop_left, if_pos ⟨List.prefix_append _ _, hno⟩]

theorem nodup_entriesOf (fs : FileSystem) (path : Bytes) : (fs.entriesOf path).Nodup := by
  refine List.Nodup.filterMap ?_ fs.keys_nodup
  intro p p' name h h'
  simp only [Option.mem_def, Option.ite_none_right_eq_some] at h h'
  obtain ⟨⟨⟨t, rfl⟩, -⟩, h⟩ := h
  obtain ⟨⟨⟨t', rfl⟩, -⟩, h'⟩ := h'
  have hslash : (path ++ ascii "/").length = path.length + 1 := List.length_append
  rw [← hslash, List.drop_left] at h h'
  rw [Option.some.inj h, Option.some.inj h']

/-- **What is listed**: the recognised files of the directory in ascending order. -/
theorem Lists.sorted_entries {dbname : Bytes} {fs : FileSystem} {files : List FileInfo}
    (h : Lists dbname fs files) :
    ((fs.entriesOf dbname).filterMap parseFileName).insertionSort (fun a b => a.number ≤ b.number) =
      files := by
  have hparse : ∀ f ∈ files, parseFileName (baseName f) = some f := fun f hf =>
    @parseFileName_baseName [] f (Or.inl rfl) (h.lt f hf)
  have hentry : ∀ name f, parseFileName name = some f →
      (name ∈ fs.entriesOf dbname ↔ ∃ f ∈ files, name = baseName f) := by
    intro name f hf
    have hsome := Option.isSome_iff_exists.mpr ⟨f, hf⟩
    rw [mem_entriesOf]
    constructor
    · exact fun ⟨hmem, hno⟩ => (h.mem_iff name hno hsome).mp hmem
    · rintro ⟨g, hg, rfl⟩
      exact ⟨(h.mem_iff _ (slash_not_mem_baseName g) hsome).mpr ⟨g, hg, rfl⟩, slash_not_mem_baseName g⟩
  have hmem : ∀ f, f ∈ (fs.entriesOf dbname).filterMap parseFileName ↔ f ∈ files := by
    intro f
    rw [List.mem_filterMap]
    constructor
    · rintro ⟨name, hname, hf⟩
      obtain ⟨g, hg, rfl⟩ := (hentry name f hf).mp hname
      rw [hparse g hg] at hf
      exact Option.some.inj hf ▸ hg
    · exact fun hf => ⟨baseName f, (hentry _ f (hparse f hf)).mpr ⟨f, hf, rfl⟩, hparse f hf⟩
  have hnodup : ((fs.entriesOf dbname).filterMap parseFileName).Nodup := by
    refine List.pairwise_filterMap.mpr ((nodup_entriesOf fs dbname).imp_of_mem ?_)
    intro a b ha hb hne f hf g hg hfg
    obtain ⟨f', hf', rfl⟩ := (hentry a f hf).mp ha
    obtain ⟨g', hg', rfl⟩ := (hentry b g hg).mp hb
    rw [hparse f' hf'] at hf
    rw [hparse g' hg'] at hg
    exact hne (by rw [Option.some.inj hf, Option.some.inj hg, hfg])
  have hperm := List.perm_insertionSort (fun a b : FileInfo => a.number ≤ b.number)
    ((fs.entriesOf dbname).filterMap parseFileName)
  -- files of one number are one file, so the order of the sorted list is strict
  have hstrict : (((fs.entriesOf dbname).filterMap parseFileName).insertionSort
      fun a b => a.number ≤ b.number).Pairwise fun a b => a.number < b.number := by
    have hle := List.pairwise_insertionSort (fun a b : FileInfo => a.number ≤ b.number)
      ((fs.entriesOf dbname).filterMap parseFileName)
    refine (hle.and (hperm.nodup_iff.mpr hnodup)).imp_of_mem ?_
    intro a b ha hb hab
    have ha := (hmem a).mp (hperm.mem_iff.mp ha)
    have hb := (hmem b).mp (hperm.mem_iff.mp hb)
    refine lt_of_le_of_ne hab.1 fun heq => hab.2 ?_
    obtain ⟨i, hi, rfl⟩ := List.getElem_of_mem ha
    obtain ⟨j, hj, rfl⟩ := List.getElem_of_mem hb
    rcases lt_trichotomy i j with hij | rfl | hij
    · exact absurd heq (List.pairwise_iff_getElem.mp h.sorted i j hi hj hij).ne
    · rfl
    · exact absurd heq.symm (List.pairwise_iff_getElem.mp h.sorted j i hj hi hij).ne
  have : Std.Irrefl fun a b : FileInfo => a.number < b.number := ⟨fun a => lt_irrefl a.number⟩
  exact hstrict.eq_of_mem_iff h.sorted fun f => (hperm.mem_iff.trans (hmem f))

end MiniLevelDB
