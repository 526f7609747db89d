import Harpia.KeyProvider
import Harpia.Lib.Reflection
import Mathlib.Data.List.TakeWhile

namespace Harpia

open Text Reflection

/-- How the standard library prints a floating-point value with `%f`, and how it reads one for a
`double` and for a `float` field. -/
structure FloatText where
  print : UInt64 → List Char
  parse : List Char → UInt64
  parseFloat : List Char → UInt64

/-- Right for the value zero, and all that a message without floating-point fields needs. -/
def zeroFloats : FloatText :=
  { print := fun _ => ['0', '.', '0', '0', '0', '0', '0', '0']
    parse := fun _ => 0
    parseFloat := fun _ => 0 }

/-- `std::to_string` of an integer. -/
def intText (k : Int) : List Char :=
  if k < 0 then '-' :: decimal k.natAbs else decimal k.natAbs

def unknownEnum : List Char :=
  ['U', 'N', 'K', 'N', 'O', 'W', 'N', '_', 'E', 'N', 'U', 'M', '_', 'V', 'A', 'L', 'U', 'E', '_']

/-- `enum_name`. -/
def enumName (e : EnumType) (number : Int) : List Char :=
  match e.values.find? fun v => v.2 = number with
  | some v => v.1
  | none => unknownEnum ++ e.name ++ '_' :: intText number

def boolText : Bool → List Char
  | true => ['t', 'r', 'u', 'e']
  | false => ['f', 'a', 'l', 's', 'e']

variable {n : Nat} (F : FloatText)

/-- `scalar_text`; the text of a string field is left to the caller. -/
def scalarText (ty : CppType n) : Scalar → List Char
  | .int k =>
    match ty with
    | .enum e => enumName e k
    | _ => intText k
  | .bool b => boolText b
  | .float bits => F.print bits
  | .text s => s

/-- White space before a number: C's `isspace`, and `\s` of a Python pattern. -/
def isNumberSpace : Lang → Char → Bool
  | .cpp, c => c = ' ' || c = '\t' || c = '\n' || c = '\r' || c = '\x0b' || c = '\x0c'
  | .python, c => isSpace c

def digitsValue (cs : List Char) : Option Int :=
  (parseDecimal (cs.takeWhile Char.isDigit)).map Int.ofNat

/-- The longest prefix that is an integer in decimal. -/
def leadingInt (lang : Lang) (cs : List Char) : Option Int :=
  match cs.dropWhile (isNumberSpace lang) with
  | '-' :: ds => (digitsValue ds).map Int.neg
  | '+' :: ds => digitsValue ds
  | ds => digitsValue ds

/-- The digits of the integer that a text starts with. -/
def numberDigits (cs : List Char) : List Char :=
  match cs.dropWhile isSpace with
  | '-' :: ds => ds.takeWhile Char.isDigit
  | '+' :: ds => ds.takeWhile Char.isDigit
  | ds => ds.takeWhile Char.isDigit

/-- A text at which `parse_scalar` raises a `ValueError`; the name of a value of an enum is not
read as a number. -/
def overlong (ty : CppType n) (cs : List Char) : Bool :=
  match ty with
  | .int32 | .int64 | .uint32 | .uint64 => maxStrDigits < (numberDigits cs).length
  | .enum e =>
    (e.values.find? fun v => v.1 = cs).isNone && maxStrDigits < (numberDigits cs).length
  | _ => false

/-- `to_ll`: the ends of the range stand for what lies beyond them. -/
def toLl (lang : Lang) (cs : List Char) : Int :=
  max (-2 ^ 63) (min (2 ^ 63 - 1) ((leadingInt lang cs).getD 0))

/-- `to_ull`: a negative number wraps around. -/
def toUll (lang : Lang) (cs : List Char) : Int :=
  let k := (leadingInt lang cs).getD 0
  if 2 ^ 64 ≤ k ∨ k ≤ -2 ^ 64 then 2 ^ 64 - 1 else k % 2 ^ 64

/-- The conversion to `int32_t`. -/
def wrap32 (k : Int) : Int :=
  let r := k % 2 ^ 32
  if 2 ^ 31 ≤ r then r - 2 ^ 32 else r

/-- `parse_scalar`: what a field of a type holds after reading a text, if anything. -/
def parseScalar (lang : Lang) (ty : CppType n) (cs : List Char) : Option Scalar :=
  match ty with
  | .int32 => some (.int (wrap32 (toLl lang cs)))
  | .int64 => some (.int (toLl lang cs))
  | .uint32 => some (.int (toUll lang cs % 2 ^ 32))
  | .uint64 => some (.int (toUll lang cs))
  | .double => some (.float (F.parse cs))
  | .float => some (.float (F.parseFloat cs))
  | .bool => some (.bool (cs = ['t', 'r', 'u', 'e'] || cs = ['1']))
  | .enum e =>
    match e.values.find? fun v => v.1 = cs with
    | some v => some (.int v.2)
    | none => (e.values.find? fun v => v.2 = wrap32 (toLl lang cs)).map fun v => .int v.2
  | .string => some (.text cs)
  | .message _ => none

/-- A value that a field of a type can hold; an enum holds one of its numbers. Floating-point
values are left out, since their text does not determine them. -/
def CanHold : CppType n → Scalar → Prop
  | .int32, .int k => -2 ^ 31 ≤ k ∧ k < 2 ^ 31
  | .int64, .int k => -2 ^ 63 ≤ k ∧ k < 2 ^ 63
  | .uint32, .int k => 0 ≤ k ∧ k < 2 ^ 32
  | .uint64, .int k => 0 ≤ k ∧ k < 2 ^ 64
  | .bool, .bool _ => True
  | .enum e, .int k => ∃ v ∈ e.values, v.2 = k
  | .string, .text _ => True
  | _, _ => False

theorem isNumberSpace_of_isDigit (lang : Lang) {c : Char} (h : c.isDigit) :
    isNumberSpace lang c = false := by
  have space := isSpace_eq_false_of_isWord (isWord_of_isDigit h)
  cases lang with
  | python => exact space
  | cpp =>
    simp only [isSpace, Bool.or_eq_false_iff] at space
    simp only [isNumberSpace, Bool.or_eq_false_iff]
    exact ⟨⟨⟨⟨⟨space.1.1.1.1.1.1.1.1.1, space.1.1.1.1.1.1.1.1.2⟩, space.1.1.1.1.1.1.1.2⟩,
      space.1.1.1.1.1.1.2⟩, space.1.1.1.1.1.2⟩, space.1.1.1.1.2⟩

theorem digitsValue_decimal (k : Nat) : digitsValue (decimal k) = some (k : Int) := by
  have digits : (decimal k).takeWhile Char.isDigit = decimal k :=
    List.takeWhile_eq_self_iff.mpr fun _ h => decimal_isDigit h
  rw [digitsValue, digits, parseDecimal_decimal]
  rfl

theorem leadingInt_intText (lang : Lang) (k : Int) : leadingInt lang (intText k) = some k := by
  by_cases hk : k < 0
  · have minus : isNumberSpace lang '-' = false := by cases lang <;> decide
    have skip : ('-' :: decimal k.natAbs).dropWhile (isNumberSpace lang) =
        '-' :: decimal k.natAbs := by simp [minus]
    have value : (some (k.natAbs : Int)).map Int.neg = some k := by
      simp only [Option.map_some, Option.some.injEq]
      change -(k.natAbs : Int) = k
      omega
    simp only [leadingInt, intText, hk, ↓reduceIte, skip, digitsValue_decimal, value]
  · cases hd : decimal k.natAbs with
    | nil => exact absurd hd (decimal_ne_nil _)
    | cons d ds =>
      have digit : d.isDigit := decimal_isDigit (n := k.natAbs) (by simp [hd])
      have skip : (d :: ds).dropWhile (isNumberSpace lang) = d :: ds := by
        simp [isNumberSpace_of_isDigit lang digit]
      have value := digitsValue_decimal k.natAbs
      have nonneg : (k.natAbs : Int) = k := by omega
      rw [nonneg, hd] at value
      simp only [leadingInt, intText, hk, ↓reduceIte, hd, skip]
      split
      next h =>
        rw [(List.cons.inj h).1] at digit
        exact absurd digit (by decide)
      next h =>
        rw [(List.cons.inj h).1] at digit
        exact absurd digit (by decide)
      next => exact value

theorem wrap32_of_range {k : Int} (h : -2 ^ 31 ≤ k ∧ k < 2 ^ 31) : wrap32 k = k := by
  simp only [wrap32]
  split <;> omega

theorem toLl_intText (lang : Lang) {k : Int} (h : -2 ^ 63 ≤ k ∧ k < 2 ^ 63) :
    toLl lang (intText k) = k := by
  rw [toLl, leadingInt_intText, Option.getD_some]
  omega

theorem toUll_intText (lang : Lang) {k : Int} (h : 0 ≤ k ∧ k < 2 ^ 64) :
    toUll lang (intText k) = k := by
  simp only [toUll, leadingInt_intText, Option.getD_some]
  split <;> omega

theorem find?_enumName {e : EnumType} {k : Int} (h : ∃ v ∈ e.values, v.2 = k) :
    (e.values.find? fun v => v.1 = enumName e k) = some (enumName e k, k) ∧
      isName (enumName e k) := by
  obtain ⟨v, hv, hk⟩ := h
  cases hfirst : e.values.find? fun v => v.2 = k with
  | none => exact absurd hk (by simpa using List.find?_eq_none.mp hfirst v hv)
  | some w =>
    have hw := List.mem_of_find?_eq_some hfirst
    have number : w.2 = k := by simpa using List.find?_some hfirst
    have name : enumName e k = w.1 := by rw [enumName, hfirst]
    rw [name]
    refine ⟨?_, e.names_word w hw⟩
    cases hnamed : e.values.find? fun v => v.1 = w.1 with
    | none =>
      have other := List.find?_eq_none.mp hnamed w hw
      simp at other
    | some u =>
      have same : u.1 = w.1 := by simpa using List.find?_some hnamed
      rw [List.inj_on_of_nodup_map e.names_nodup (List.mem_of_find?_eq_some hnamed) hw same, ← number]

/-- The text of a value is read back as that value. -/
theorem parseScalar_scalarText (lang : Lang) {ty : CppType n} {x : Scalar} (h : CanHold ty x) :
    parseScalar F lang ty (scalarText F ty x) = some x := by
  cases ty <;> cases x <;> simp only [CanHold] at h
  case int32.int k =>
    have wide : -2 ^ 63 ≤ k ∧ k < 2 ^ 63 := by omega
    simp [parseScalar, scalarText, toLl_intText lang wide, wrap32_of_range h]
  case int64.int k => simp [parseScalar, scalarText, toLl_intText lang h]
  case uint32.int k =>
    have wide : 0 ≤ k ∧ k < 2 ^ 64 := by omega
    have small : k % 2 ^ 32 = k := by omega
    simp only [parseScalar, scalarText, toUll_intText lang wide, small]
  case uint64.int k => simp [parseScalar, scalarText, toUll_intText lang h]
  case bool.bool b => cases b <;> rfl
  case enum.int e k =>
    have text : scalarText F (.enum e : CppType n) (.int k) = enumName e k := rfl
    rw [text]
    simp only [parseScalar, (find?_enumName h).1]
  case string.text s => rfl

theorem numberDigits_length (cs : List Char) : (numberDigits cs).length ≤ cs.length := by
  have skipped : (cs.dropWhile isSpace).length ≤ cs.length := (List.dropWhile_suffix _).length_le
  have taken : ∀ ds : List Char, (ds.takeWhile Char.isDigit).length ≤ ds.length :=
    fun ds => (List.takeWhile_prefix _).length_le
  unfold numberDigits
  split
  next ds h =>
    have len := taken ds
    rw [h, List.length_cons] at skipped
    omega
  next ds h =>
    have len := taken ds
    rw [h, List.length_cons] at skipped
    omega
  next => exact (taken _).trans skipped

theorem overlong_of_length {ty : CppType n} {cs : List Char} (h : cs.length ≤ maxStrDigits) :
    overlong ty cs = false := by
  have short : ¬ maxStrDigits < (numberDigits cs).length := by
    have len := numberDigits_length cs
    omega
  cases ty <;> simp [overlong, short]

theorem intText_length {k : Int} (h : -2 ^ 63 ≤ k ∧ k < 2 ^ 64) :
    (intText k).length ≤ maxStrDigits := by
  have small : k.natAbs < 10 ^ 20 := by omega
  have digits : (decimal k.natAbs).length ≤ 20 :=
    (Nat.length_toDigits_le_iff (by decide) (by decide)).mpr small
  unfold intText maxStrDigits
  split
  · rw [List.length_cons]
    omega
  · omega

/-- The text of a value is short enough to be read. -/
theorem overlong_scalarText {ty : CppType n} {x : Scalar} (h : CanHold ty x) :
    overlong ty (scalarText F ty x) = false := by
  cases ty <;> cases x <;> simp only [CanHold] at h
  case int32.int k => exact overlong_of_length (intText_length (by omega))
  case int64.int k => exact overlong_of_length (intText_length (by omega))
  case uint32.int k => exact overlong_of_length (intText_length (by omega))
  case uint64.int k => exact overlong_of_length (intText_length (by omega))
  case bool.bool b => rfl
  case enum.int e k =>
    have text : scalarText F (.enum e : CppType n) (.int k) = enumName e k := rfl
    rw [text]
    simp [overlong, (find?_enumName h).1]
  case string.text s => rfl

end Harpia
