import Mathlib.Data.List.Basic
import Mathlib.Data.List.TakeWhile

namespace Text

/-- Python's `\w` on ASCII. -/
def isWord (c : Char) : Bool := c.isAlphanum || c = '_'

/-- Python's `str.isspace` (and `\s`) on ASCII. -/
def isSpace (c : Char) : Bool :=
  c = ' ' || c = '\t' || c = '\n' || c = '\r' || c = '\x0b' || c = '\x0c' ||
    c = '\x1c' || c = '\x1d' || c = '\x1e' || c = '\x1f'

def startsWith (s pre : String) : Bool := pre.toList.isPrefixOf s.toList

def lower (s : String) : String := String.ofList (s.toList.map Char.toLower)

def upper (s : String) : String := String.ofList (s.toList.map Char.toUpper)

/-- A lexed identifier, `[a-zA-Z]\w*`. -/
def isIdentifier (s : String) : Bool :=
  match s.toList with
  | [] => false
  | c :: cs => c.isAlpha && cs.all isWord

/-- Text-mode line iteration: universal newlines end a line. -/
def lines (cs : List Char) : List (List Char) := cs.splitOnP fun c => c = '\n' || c = '\r'

/-- `str.isspace` (and `\s`): the blanks of Unicode too. -/
def isBlank (c : Char) : Bool :=
  isSpace c || c = '\x85' || c = '\xa0' || c = '\u1680' || ('\u2000' ≤ c && c ≤ '\u200a') ||
    c = '\u2028' || c = '\u2029' || c = '\u202f' || c = '\u205f' || c = '\u3000'

/-- The characters that end a line for `str.splitlines`. -/
def isLineBreak (c : Char) : Bool :=
  c = '\n' || c = '\r' || c = '\x0b' || c = '\x0c' || c = '\x1c' || c = '\x1d' || c = '\x1e' ||
    c = '\x85' || c = '\u2028' || c = '\u2029'

/-- `str.strip`, of any characters of a kind. -/
def stripOf (p : Char → Bool) (cs : List Char) : List Char :=
  ((cs.dropWhile p).reverse.dropWhile p).reverse

/-- What text mode reads: every newline is a line feed. -/
def universalNewlines : List Char → List Char
  | [] => []
  | '\r' :: '\n' :: cs => '\n' :: universalNewlines cs
  | '\r' :: cs => '\n' :: universalNewlines cs
  | c :: cs => c :: universalNewlines cs

/-- The lines `readline` returns, each with its line feed. -/
def keepLines : List Char → List (List Char)
  | [] => []
  | c :: cs =>
    if c = '\n' then [c] :: keepLines cs
    else match keepLines cs with
      | [] => [[c]]
      | l :: ls => (c :: l) :: ls

/-- A line feed stands at the end of a line only. -/
theorem keepLines_newline {cs l : List Char} (h : l ∈ keepLines cs) : l ≠ [] ∧ '\n' ∉ l.dropLast := by
  induction cs generalizing l with
  | nil => cases h
  | cons c cs ih =>
    rw [keepLines] at h
    split_ifs at h with hc
    · rcases List.mem_cons.mp h with rfl | h
      · simp
      · exact ih h
    · split at h
      · rw [List.mem_singleton.mp h]
        simp
      next first rest hcs =>
        rcases List.mem_cons.mp h with rfl | h
        · obtain ⟨ne, free⟩ := ih (l := first) (by simp [hcs])
          rw [List.dropLast_cons_of_ne_nil ne]
          exact ⟨by simp, by simp [Ne.symm hc, free]⟩
        · exact ih (by simp [hcs, h])

/-- `str(n)`. -/
def decimal (n : Nat) : List Char := Nat.toDigits 10 n

/-- The value of a non-empty run of decimal digits. -/
def parseDecimal (cs : List Char) : Option Nat :=
  if cs ≠ [] ∧ cs.all Char.isDigit then some (Nat.ofDigitChars 10 cs 0) else none

/-- The underscore-separated words of a name. -/
def words (s : String) : List (List Char) := s.toList.splitOn '_'

theorem words_injective : Function.Injective words := by
  intro s t h
  have hj := congrArg (List.intercalate ['_']) h
  simp only [words, List.intercalate_splitOn] at hj
  exact String.toList_inj.mp hj

theorem words_join (s t : String) : words (s ++ "_" ++ t) = words s ++ words t := by
  have hj : (s ++ "_" ++ t).toList = s.toList ++ '_' :: t.toList := by simp
  rw [words, hj, List.splitOn_append_cons_self]
  rfl

theorem decimal_isDigit {n : Nat} {c : Char} (h : c ∈ decimal n) : c.isDigit :=
  Nat.isDigit_of_mem_toDigits (by decide) (by decide) h

theorem decimal_ne_nil (n : Nat) : decimal n ≠ [] := Nat.toDigits_ne_nil

@[simp] theorem parseDecimal_decimal (n : Nat) : parseDecimal (decimal n) = some n := by
  have all : (decimal n).all Char.isDigit := List.all_eq_true.mpr fun _ h => decimal_isDigit h
  simp only [parseDecimal, ne_eq, decimal_ne_nil, not_false_eq_true, all, and_self, ↓reduceIte,
    Option.some.injEq]
  exact Nat.ofDigitChars_ten_toDigits

theorem isSpace_eq_false_of_isWord {c : Char} (h : isWord c) : isSpace c = false := by
  by_contra hs
  simp only [Bool.not_eq_false, isSpace, Bool.or_eq_true, decide_eq_true_eq] at hs
  rcases hs with ((((((((rfl | rfl) | rfl) | rfl) | rfl) | rfl) | rfl) | rfl) | rfl) | rfl <;>
    exact absurd h (by decide)

theorem isWord_of_isDigit {c : Char} (h : c.isDigit) : isWord c := by
  simp [isWord, Char.isAlphanum, h]

theorem isWord_of_isAlpha {c : Char} (h : c.isAlpha) : isWord c := by
  simp [isWord, Char.isAlphanum, h]

theorem isWord_printable {c : Char} (h : isWord c) : 0x20 ≤ c.toNat ∧ c.toNat < 128 := by
  rw [isWord, Bool.or_eq_true, decide_eq_true_eq] at h
  rcases h with alphanum | rfl
  · change (decide (c.val ≥ 'A'.val ∧ c.val ≤ 'Z'.val) ||
      (decide (c.val ≥ 'a'.val) && decide (c.val ≤ 'z'.val)) ||
      (decide (c.val ≥ '0'.val) && decide (c.val ≤ '9'.val))) = true at alphanum
    simp only [Bool.or_eq_true, Bool.and_eq_true, decide_eq_true_eq, ge_iff_le,
      UInt32.le_iff_toNat_le] at alphanum
    simp only [Char.toNat]
    have digits : '0'.val.toNat = 48 ∧ '9'.val.toNat = 57 := by decide
    have letters : 'A'.val.toNat = 65 ∧ 'Z'.val.toNat = 90 ∧ 'a'.val.toNat = 97 ∧
      'z'.val.toNat = 122 := by decide
    omega
  · decide

theorem isWord_ascii {c : Char} (h : isWord c) : c.toNat < 128 := (isWord_printable h).2

theorem isBlank_eq_false_of_isWord {c : Char} (h : isWord c) : isBlank c = false := by
  have small := isWord_ascii h
  by_contra blank
  simp only [Bool.not_eq_false, isBlank, isSpace_eq_false_of_isWord h, Bool.false_or, Bool.or_eq_true,
    Bool.and_eq_true, decide_eq_true_eq] at blank
  rcases blank with (((((((((rfl | rfl) | rfl) | ⟨low, _⟩) | rfl) | rfl) | rfl) | rfl)) | rfl)
  case inl.inl.inl.inl.inl.inr =>
    have high : ('\u2000' : Char).toNat ≤ c.toNat := low
    exact absurd (Nat.lt_of_le_of_lt high small) (by decide)
  all_goals exact absurd small (by decide)

/-- Python's `\w`: letters and digits, those beyond ASCII too. None of them is a blank. -/
structure WordClass where
  mem : Char → Bool
  mem_ascii : ∀ c, c.toNat < 128 → mem c = isWord c
  not_blank : ∀ c, mem c → isBlank c = false

/-- The word characters of ASCII. -/
def WordClass.ascii : WordClass := ⟨isWord, fun _ _ => rfl, fun _ => isBlank_eq_false_of_isWord⟩

theorem toLower_ne_underscore {c : Char} (h : c.isAlpha) : c.toLower ≠ '_' := by
  unfold Char.toLower
  split
  next hu =>
    intro he
    have hv := congrArg (fun c => c.val.toNat) he
    have hA : 65 ≤ c.val.toNat := UInt32.le_iff_toNat_le.mp hu.1
    have hZ : c.val.toNat ≤ 90 := UInt32.le_iff_toNat_le.mp hu.2
    have hs : (c.val + ('a'.val - 'A'.val)).toNat = (c.val.toNat + 32) % 2 ^ 32 := rfl
    have hu : ('_' : Char).val.toNat = 95 := rfl
    simp only [hs, hu] at hv
    omega
  next =>
    rintro rfl
    exact absurd h (by decide)

theorem startsWith_iff {s pre : String} : startsWith s pre ↔ ∃ rest, s = pre ++ rest := by
  rw [startsWith, List.isPrefixOf_iff_prefix]
  constructor
  · rintro ⟨rest, h⟩
    refine ⟨String.ofList rest, String.toList_inj.mp ?_⟩
    simp [← h]
  · rintro ⟨rest, rfl⟩
    simp

theorem ne_of_isWord {c d : Char} (h : isWord c) (hd : isWord d = false) : c ≠ d := by
  rintro rfl
  simp [h] at hd

theorem mem_dropWhile {p : Char → Bool} {c : Char} {cs : List Char} (h : c ∈ cs) (hc : p c = false) :
    c ∈ cs.dropWhile p := by
  rw [← List.takeWhile_append_dropWhile (p := p) (l := cs)] at h
  rcases List.mem_append.mp h with h | h
  · rw [List.mem_takeWhile_imp h] at hc
    cases hc
  · exact h

theorem mem_stripOf {p : Char → Bool} {c : Char} {cs : List Char} (h : c ∈ cs) (hc : p c = false) :
    c ∈ stripOf p cs := by
  rw [stripOf, List.mem_reverse]
  exact mem_dropWhile (List.mem_reverse.mpr (mem_dropWhile h hc)) hc

/-- Nothing is stripped from the end of text that does not end in such a character. -/
theorem stripOf_eq_dropWhile {p : Char → Bool} {cs : List Char} (last : ∀ c ∈ cs.getLast?, p c = false) :
    stripOf p cs = cs.dropWhile p := by
  have ends : ((cs.dropWhile p).reverse).dropWhile p = (cs.dropWhile p).reverse := by
    cases hr : (cs.dropWhile p).reverse with
    | nil => rfl
    | cons c rest =>
      have hc : (cs.dropWhile p).getLast? = some c := by
        rw [← List.head?_reverse, hr]
        rfl
      have whole : cs.getLast? = some c := by
        rw [← List.takeWhile_append_dropWhile (p := p) (l := cs), List.getLast?_append, hc]
        rfl
      simp [last c whole]
  rw [stripOf, ends, List.reverse_reverse]

/-- A run of characters of one kind ends where another kind follows. -/
theorem span_append {p : Char → Bool} {xs rest : List Char} (hx : ∀ c ∈ xs, p c)
    (hr : ∀ c ∈ rest.head?, p c = false) :
    (xs ++ rest).takeWhile p = xs ∧ (xs ++ rest).dropWhile p = rest := by
  rw [List.takeWhile_append_of_pos hx, List.dropWhile_append_of_pos hx]
  cases rest with
  | nil => simp
  | cons c rest =>
    have stop : ¬ p c = true := by simpa using hr c rfl
    rw [List.takeWhile_cons_of_neg stop, List.dropWhile_cons_of_neg stop, List.append_nil]
    exact ⟨rfl, rfl⟩

theorem dropWhile_of_head {p : Char → Bool} {xs : List Char} (h : ∀ c ∈ xs.head?, p c = false) :
    xs.dropWhile p = xs := by
  have split := (span_append (by simp : ∀ c ∈ ([] : List Char), p c) h).2
  simpa using split

/-- Text is split at its line ends into its lines and what follows the last one. -/
theorem splitOnP_lines {p : Char → Bool} (hp : p '\n') (ls : List (List Char)) (tail : List Char)
    (h : ∀ l ∈ ls, ∀ c ∈ l, p c = false) (ht : ∀ c ∈ tail, p c = false) :
    (ls.flatMap (fun l => l ++ ['\n']) ++ tail).splitOnP p = ls ++ [tail] := by
  induction ls with
  | nil => exact List.splitOnP_eq_singleton ht
  | cons l ls ih =>
    have step := List.splitOnP_append_cons_of_forall_mem (h l List.mem_cons_self) '\n' hp
      (ls.flatMap (fun l => l ++ ['\n']) ++ tail)
    simp only [List.flatMap_cons, List.append_assoc, List.cons_append, List.nil_append] at step ⊢
    rw [step, ih fun l hm => h l (List.mem_cons_of_mem _ hm)]

theorem lines_join (ls : List (List Char)) (h : ∀ l ∈ ls, ∀ c ∈ l, c ≠ '\n' ∧ c ≠ '\r') :
    lines (ls.flatMap fun l => l ++ ['\n']) = ls ++ [[]] := by
  have inside : ∀ l ∈ ls, ∀ c ∈ l, (decide (c = '\n') || decide (c = '\r')) = false := by
    intro l hl c hc
    have other := h l hl c hc
    simp [other.1, other.2]
  have whole := splitOnP_lines (p := fun c => c = '\n' || c = '\r') (by decide) ls [] inside (by simp)
  rwa [List.append_nil] at whole

end Text
