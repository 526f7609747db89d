import Mathlib.Data.List.Sort
import Harpia.KeyProvider

namespace Harpia

/-- One record of the key store or of the shred log, without its line end. -/
def keyLine (version : Nat) (bytes : Bytes) : List Char :=
  Text.decimal version ++ ' ' :: Bytes.toHex bytes

/-- `isspace` in the C locale. -/
def isCSpace (c : Char) : Bool :=
  c = ' ' || c = '\t' || c = '\n' || c = '\x0b' || c = '\x0c' || c = '\r'

/-- `std::stoi` of two characters in base 16, as a byte: it reads the longest number and throws
    where there is none. -/
def stoiHex (c d : Char) : Option UInt8 :=
  match Bytes.nibble c, Bytes.nibble d with
  | some hi, some lo => some (UInt8.ofNat (16 * hi + lo))
  | some hi, none => some (UInt8.ofNat hi)
  | none, some lo =>
    if c = '+' then some (UInt8.ofNat lo) else if c = '-' then some (UInt8.ofNat (256 - lo)) else none
  | none, none => none

/-- The C++ `from_hex`: an odd last digit is left out. -/
def fromHexPairs : List Char → Option Bytes
  | c :: d :: rest => do
    let b ← stoiHex c d
    let bytes ← fromHexPairs rest
    return b :: bytes
  | _ => some []

def readHex : Lang → List Char → Option Bytes
  | .cpp, hex => fromHexPairs hex
  | .python, hex => Bytes.fromHex hex

/-- `ls >> v` for a 64-bit unsigned number: the number and what follows it. -/
def readVersion (cs : List Char) : Option (Nat × List Char) :=
  let cs := cs.dropWhile isCSpace
  let negative := cs.head? = some '-'
  let cs := if negative ∨ cs.head? = some '+' then cs.tail else cs
  match Text.parseDecimal (cs.takeWhile Char.isDigit) with
  | none => none
  | some n =>
    if 2 ^ 64 ≤ n then none
    else some (if negative then (2 ^ 64 - n) % 2 ^ 64 else n, cs.dropWhile Char.isDigit)

/-- The two words of a line, where the reader finds a version and a second word. -/
def lineFields : Lang → List Char → Option (Nat × List Char)
  | .cpp, line => do
    let (version, rest) ← readVersion line
    let hex := (rest.dropWhile isCSpace).takeWhile fun c => !isCSpace c
    if hex = [] then none else some (version, hex)
  | .python, line =>
    match (line.splitOnP Text.isSpace).filter (· ≠ []) with
    | first :: hex :: _ => (Text.parseDecimal first).map fun version => (version, hex)
    | _ => none

/-- The record of a line, nothing where the reader skips the line. No result where it throws. -/
def parseLine (lang : Lang) (line : List Char) : Option (Option (Nat × Bytes)) :=
  match lineFields lang line with
  | none => some none
  | some (version, hex) => (readHex lang hex).map fun bytes => some (version, bytes)

def parseLines (lang : Lang) : List (List Char) → Option (List (Nat × Bytes))
  | [] => some []
  | line :: rest => do
    let record ← parseLine lang line
    let records ← parseLines lang rest
    return record.toList ++ records

/-- `getline` ends a line at a line feed, text mode at any newline. -/
def fileLines : Lang → List Char → List (List Char)
  | .cpp, text => text.splitOnP (· = '\n')
  | .python, text => Text.lines text

def parseText (lang : Lang) (text : List Char) : Option (List (Nat × Bytes)) :=
  parseLines lang (fileLines lang text)

theorem isCSpace_eq_false {c : Char} (h : Text.isSpace c = false) : isCSpace c = false := by
  simp only [Text.isSpace, Bool.or_eq_false_iff, decide_eq_false_iff_not] at h
  simp only [isCSpace, Bool.or_eq_false_iff, decide_eq_false_iff_not]
  tauto

theorem isSpace_hexDigit {n : Nat} (h : n < 16) : Text.isSpace (Bytes.hexDigit n) = false := by
  have all : ∀ k : Fin 16, Text.isSpace (Bytes.hexDigit k) = false := by decide
  exact all ⟨n, h⟩

theorem isSpace_toHex {bs : Bytes} {c : Char} (h : c ∈ Bytes.toHex bs) : Text.isSpace c = false := by
  obtain ⟨b, -, hb⟩ := List.mem_flatMap.mp h
  have lt : b.toNat < 256 := b.toNat_lt
  simp only [Bytes.hexByte, List.mem_cons, List.not_mem_nil, or_false] at hb
  rcases hb with rfl | rfl
  · exact isSpace_hexDigit (by omega)
  · exact isSpace_hexDigit (by omega)

theorem isSpace_decimal {v : Nat} {c : Char} (h : c ∈ Text.decimal v) : Text.isSpace c = false :=
  Text.isSpace_eq_false_of_isWord (Text.isWord_of_isDigit (Text.decimal_isDigit h))

theorem keyLine_no_newline {v : Nat} {bs : Bytes} {c : Char} (h : c ∈ keyLine v bs) :
    c ≠ '\n' ∧ c ≠ '\r' := by
  have inside : Text.isSpace c = false ∨ c = ' ' := by
    rcases List.mem_append.mp h with h | h
    · exact Or.inl (isSpace_decimal h)
    · rcases List.mem_cons.mp h with h | h
      · exact Or.inr h
      · exact Or.inl (isSpace_toHex h)
  rcases inside with h | rfl
  · constructor <;> rintro rfl <;> simp [Text.isSpace] at h
  · decide

theorem isSpace_digit {c : Char} (h : c.isDigit) : Text.isSpace c = false :=
  Text.isSpace_eq_false_of_isWord (Text.isWord_of_isDigit h)

/-- Digits at the start of a line are read as its version. -/
theorem readVersion_digits {ds : List Char} (hd : ∀ c ∈ ds, c.isDigit) (hn : ds ≠ [])
    (rest : List Char) (hr : ∀ c ∈ rest.head?, c.isDigit = false) :
    readVersion (ds ++ rest) = (Text.parseDecimal ds).bind fun n =>
      if 2 ^ 64 ≤ n then none else some (n, rest) := by
  have first : ∀ c ∈ (ds ++ rest).head?, c.isDigit := by
    cases ds with
    | nil => exact absurd rfl hn
    | cons d ds =>
      intro c hc
      have same : d = c := by simpa using hc
      exact same ▸ hd d List.mem_cons_self
  have spaces : (ds ++ rest).dropWhile isCSpace = ds ++ rest :=
    Text.dropWhile_of_head fun c hc => isCSpace_eq_false (isSpace_digit (first c hc))
  have minus : (ds ++ rest).head? ≠ some '-' := fun h => absurd (first '-' h) (by decide)
  have plus : (ds ++ rest).head? ≠ some '+' := fun h => absurd (first '+' h) (by decide)
  obtain ⟨digits, after⟩ := Text.span_append hd hr
  simp only [readVersion, spaces, minus, plus, or_self, if_false, digits, after]
  cases Text.parseDecimal ds <;> rfl

/-- A line of digits alone has no second word. -/
theorem lineFields_digits {lang : Lang} {ds : List Char} (hd : ∀ c ∈ ds, c.isDigit) :
    lineFields lang ds = none := by
  cases lang with
  | cpp =>
    rcases eq_or_ne ds [] with rfl | hn
    · rfl
    · have version := readVersion_digits hd hn [] (by simp)
      rw [List.append_nil] at version
      rw [lineFields, version]
      cases Text.parseDecimal ds with
      | none => rfl
      | some n =>
        by_cases big : 2 ^ 64 ≤ n <;> simp
  | python =>
    have one : ds.splitOnP Text.isSpace = [ds] :=
      List.splitOnP_eq_singleton fun c hc => isSpace_digit (hd c hc)
    rw [lineFields, one]
    rcases eq_or_ne ds [] with rfl | hn
    · rfl
    · simp [hn]

/-- A version, a blank and a second word are read as such. -/
theorem lineFields_words (lang : Lang) {v : Nat} (hv : v < 2 ^ 64) {hex : List Char}
    (hx : ∀ c ∈ hex, Text.isSpace c = false) :
    lineFields lang (Text.decimal v ++ ' ' :: hex) = if hex = [] then none else some (v, hex) := by
  have digits : ∀ c ∈ Text.decimal v, c.isDigit := fun c hc => Text.decimal_isDigit hc
  cases lang with
  | cpp =>
    have version := readVersion_digits digits (Text.decimal_ne_nil v) (' ' :: hex) (by simp)
    have blank : (' ' :: hex).dropWhile isCSpace = hex := by
      rw [List.dropWhile_cons_of_pos (by decide)]
      exact Text.dropWhile_of_head fun c hc => isCSpace_eq_false (hx c (List.mem_of_mem_head? hc))
    have word : hex.takeWhile (fun c => !isCSpace c) = hex := by
      have none : ∀ c ∈ hex, (!isCSpace c) = true := fun c hc => by simp [isCSpace_eq_false (hx c hc)]
      simpa using (@Text.span_append _ hex [] none (by simp)).1
    have small : ¬ 2 ^ 64 ≤ v := Nat.not_le_of_lt hv
    simp only [Text.parseDecimal_decimal, Option.bind_some, if_neg small] at version
    simp only [lineFields, version, Option.bind_eq_bind, Option.bind_some, blank, word]
  | python =>
    have split : (Text.decimal v ++ ' ' :: hex).splitOnP Text.isSpace = [Text.decimal v, hex] := by
      rw [List.splitOnP_append_cons_of_forall_mem (fun c hc => isSpace_digit (digits c hc)) ' ' (by decide),
        List.splitOnP_eq_singleton hx]
    rw [lineFields, split]
    rcases eq_or_ne hex [] with rfl | hn
    · simp [Text.decimal_ne_nil]
    · simp [Text.decimal_ne_nil, hn]

theorem stoiHex_hexByte (b : UInt8) :
    stoiHex (Bytes.hexDigit (b.toNat / 16)) (Bytes.hexDigit (b.toNat % 16)) = some b := by
  have lt : b.toNat < 256 := b.toNat_lt
  rw [stoiHex, Bytes.nibble_hexDigit (by omega), Bytes.nibble_hexDigit (by omega)]
  exact congrArg some (Bytes.byte_halves b)

/-- Digits cut off after `h` of them: the whole bytes, and an odd digit that only C++ accepts. -/
theorem readHex_take (lang : Lang) (bs : Bytes) {h : Nat} (hh : h ≤ 2 * bs.length) :
    readHex lang ((Bytes.toHex bs).take h)
      = if lang = .python ∧ h % 2 = 1 then none else some (bs.take (h / 2)) := by
  induction bs generalizing h with
  | nil =>
    have zero : h = 0 := by simpa using hh
    subst zero
    cases lang <;> rfl
  | cons b bs ih =>
    have lt : b.toNat < 256 := b.toNat_lt
    have hex : Bytes.toHex (b :: bs)
        = Bytes.hexDigit (b.toNat / 16) :: Bytes.hexDigit (b.toNat % 16) :: Bytes.toHex bs := rfl
    match h with
    | 0 => cases lang <;> rfl
    | 1 => cases lang <;> rfl
    | h + 2 =>
      have rest := ih (h := h) (by simp at hh; omega)
      have half : (h + 2) / 2 = h / 2 + 1 := by omega
      have odd : (h + 2) % 2 = h % 2 := by omega
      rw [hex, List.take_succ_cons, List.take_succ_cons, half, odd, List.take_succ_cons]
      cases lang with
      | cpp =>
        simp only [readHex, reduceCtorEq, false_and, if_false] at rest ⊢
        simp only [fromHexPairs, stoiHex_hexByte, rest, Option.bind_eq_bind, Option.bind_some,
          Option.pure_def]
      | python =>
        simp only [readHex, true_and] at rest ⊢
        have hi : Bytes.nibble (Bytes.hexDigit (b.toNat / 16)) = some (b.toNat / 16) :=
          Bytes.nibble_hexDigit (by omega)
        have lo : Bytes.nibble (Bytes.hexDigit (b.toNat % 16)) = some (b.toNat % 16) :=
          Bytes.nibble_hexDigit (by omega)
        simp only [Bytes.fromHex, hi, lo, rest, Bytes.byte_halves, Option.bind_eq_bind, Option.bind_some,
          Option.pure_def]
        split <;> rfl

/-- How many hexadecimal digits of a record stand in the first `j` characters of its line. -/
def hexWritten (version : Nat) (bytes : Bytes) (j : Nat) : Nat :=
  min (j - ((Text.decimal version).length + 1)) (2 * bytes.length)

/-- What a reader makes of a line that ends after `j` characters. -/
theorem parseLine_take (lang : Lang) {v : Nat} (hv : v < 2 ^ 64) (bs : Bytes) (j : Nat) :
    parseLine lang ((keyLine v bs).take j) =
      if hexWritten v bs j = 0 then some none
      else if lang = .python ∧ hexWritten v bs j % 2 = 1 then none
      else some (some (v, bs.take (hexWritten v bs j / 2))) := by
  rcases Nat.lt_or_ge (Text.decimal v).length j with hj | hj
  · obtain ⟨h, rfl⟩ : ∃ h, j = (Text.decimal v).length + (h + 1) := ⟨j - (Text.decimal v).length - 1, by omega⟩
    have line : (keyLine v bs).take ((Text.decimal v).length + (h + 1))
        = Text.decimal v ++ ' ' :: (Bytes.toHex bs).take (hexWritten v bs ((Text.decimal v).length + (h + 1))) := by
      have cut : (Bytes.toHex bs).take (hexWritten v bs ((Text.decimal v).length + (h + 1)))
          = (Bytes.toHex bs).take h := by
        have sub : (Text.decimal v).length + (h + 1) - ((Text.decimal v).length + 1) = h := by omega
        rw [hexWritten, sub, ← Bytes.length_toHex, ← List.take_eq_take_min]
      rw [cut, keyLine, List.take_length_add_append, List.take_succ_cons]
    have bound : hexWritten v bs ((Text.decimal v).length + (h + 1)) ≤ 2 * bs.length := Nat.min_le_right _ _
    rw [line]
    generalize hexWritten v bs ((Text.decimal v).length + (h + 1)) = digits at bound
    have clear : ∀ c ∈ (Bytes.toHex bs).take digits, Text.isSpace c = false :=
      fun c hc => isSpace_toHex (List.mem_of_mem_take hc)
    have fields := lineFields_words lang hv clear
    have empty : (Bytes.toHex bs).take digits = [] ↔ digits = 0 := by
      rw [← List.length_eq_zero_iff, List.length_take, Bytes.length_toHex]
      omega
    rw [parseLine, fields]
    by_cases zero : digits = 0
    · rw [if_pos (empty.mpr zero), if_pos zero]
    · rw [if_neg (fun he => zero (empty.mp he)), if_neg zero]
      simp only [readHex_take lang bs bound]
      split <;> rfl
  · have digits : (keyLine v bs).take j = (Text.decimal v).take j := List.take_append_of_le_length hj
    have none : hexWritten v bs j = 0 := by
      rw [hexWritten]
      omega
    have fields : lineFields lang ((Text.decimal v).take j) = .none :=
      lineFields_digits fun c hc => Text.decimal_isDigit (List.mem_of_mem_take hc)
    rw [digits, if_pos none, parseLine, fields]

/-- A whole line with a key in it gives its record back. -/
theorem parseLine_keyLine {lang : Lang} {v : Nat} (hv : v < 2 ^ 64) {bs : Bytes} (hb : bs ≠ []) :
    parseLine lang (keyLine v bs) = some (some (v, bs)) := by
  have whole : hexWritten v bs (keyLine v bs).length = 2 * bs.length := by
    simp only [hexWritten, keyLine, List.length_append, List.length_cons, Bytes.length_toHex]
    omega
  have pos : bs.length ≠ 0 := fun h => hb (List.length_eq_zero_iff.mp h)
  have cut := parseLine_take lang hv bs (keyLine v bs).length
  rwa [List.take_length, whole, if_neg (by omega), if_neg (by omega), Nat.mul_div_cancel_left _ (by decide),
    List.take_length] at cut

theorem parseLines_append (lang : Lang) (a b : List (List Char)) :
    parseLines lang (a ++ b) = (parseLines lang a).bind fun ra =>
      (parseLines lang b).map fun rb => ra ++ rb := by
  induction a with
  | nil => simp [parseLines]
  | cons l a ih =>
    simp only [List.cons_append, parseLines, ih, Option.bind_eq_bind, Option.pure_def]
    cases parseLine lang l with
    | none => rfl
    | some record =>
      cases parseLines lang a with
      | none => rfl
      | some ra => cases parseLines lang b <;> simp

/-- Records that can be read back: 64-bit versions, and at least one byte. -/
def Readable (records : List (Nat × Bytes)) : Prop := ∀ r ∈ records, r.1 < 2 ^ 64 ∧ r.2 ≠ []

theorem parseLines_keyLines {lang : Lang} {records : List (Nat × Bytes)} (h : Readable records) :
    parseLines lang (records.map fun r => keyLine r.1 r.2) = some records := by
  induction records with
  | nil => rfl
  | cons r records ih =>
    obtain ⟨hv, hb⟩ := h r List.mem_cons_self
    have rest := ih fun r' hr' => h r' (List.mem_cons_of_mem _ hr')
    simp only [List.map_cons, parseLines, parseLine_keyLine hv hb, rest, Option.bind_eq_bind,
      Option.bind_some, Option.pure_def]
    rfl

/-- The text of a file of records. -/
def recordsText (records : List (Nat × Bytes)) : List Char :=
  records.flatMap fun r => keyLine r.1 r.2 ++ ['\n']

theorem recordsText_append (a b : List (Nat × Bytes)) :
    recordsText (a ++ b) = recordsText a ++ recordsText b := List.flatMap_append

theorem fileLines_recordsText (lang : Lang) (records : List (Nat × Bytes))
    (tail : List Char) (ht : ∀ c ∈ tail, c ≠ '\n' ∧ c ≠ '\r') :
    fileLines lang (recordsText records ++ tail) = (records.map fun r => keyLine r.1 r.2) ++ [tail] := by
  have text : recordsText records = (records.map fun r => keyLine r.1 r.2).flatMap fun l => l ++ ['\n'] := by
    rw [recordsText, List.flatMap_map]
  have inside : ∀ l ∈ records.map (fun r => keyLine r.1 r.2), ∀ c ∈ l, c ≠ '\n' ∧ c ≠ '\r' := by
    intro l hl c hc
    obtain ⟨r, -, rfl⟩ := List.mem_map.mp hl
    exact keyLine_no_newline hc
  rw [text]
  cases lang with
  | cpp =>
    exact Text.splitOnP_lines (by decide) _ _ (fun l hl c hc => by simp [(inside l hl c hc).1])
      (fun c hc => by simp [(ht c hc).1])
  | python =>
    exact Text.splitOnP_lines (by decide) _ _
      (fun l hl c hc => by simp [(inside l hl c hc).1, (inside l hl c hc).2])
      (fun c hc => by simp [(ht c hc).1, (ht c hc).2])

/-- A file of records and the beginning of one more line. -/
theorem parseText_tail (lang : Lang) {records : List (Nat × Bytes)} (h : Readable records)
    (tail : List Char) (ht : ∀ c ∈ tail, c ≠ '\n' ∧ c ≠ '\r') :
    parseText lang (recordsText records ++ tail)
      = (parseLine lang tail).map fun record => records ++ record.toList := by
  rw [parseText, fileLines_recordsText lang records tail ht, parseLines_append, parseLines_keyLines h,
    Option.bind_some]
  cases hl : parseLine lang tail <;> simp [parseLines, hl]

theorem parseText_recordsText {lang : Lang} {records : List (Nat × Bytes)} (h : Readable records) :
    parseText lang (recordsText records) = some records := by
  have whole := parseText_tail lang h [] (by simp)
  have blank : parseLine lang [] = some none := by cases lang <;> rfl
  rwa [List.append_nil, blank, Option.map_some, Option.toList_none, List.append_nil] at whole

end Harpia
