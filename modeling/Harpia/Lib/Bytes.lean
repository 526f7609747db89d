import Mathlib.Algebra.Group.Int.Defs
import Mathlib.Algebra.Group.Nat.Defs
import Mathlib.Data.List.Basic

/-- A byte string. -/
abbrev Bytes := List UInt8

namespace Bytes

/-- A text with one byte for each character, as an 8-bit string holds it. -/
def ofText (cs : List Char) : Bytes := cs.map fun c => UInt8.ofNat c.toNat

/-- A text of 8-bit characters is read back from its bytes. -/
theorem ofText_inj {cs ds : List Char} (hc : ∀ c ∈ cs, c.toNat < 256) (hd : ∀ d ∈ ds, d.toNat < 256)
    (h : ofText cs = ofText ds) : cs = ds := by
  have back : ∀ es : List Char, (∀ e ∈ es, e.toNat < 256) →
      (ofText es).map (fun b => Char.ofNat b.toNat) = es := by
    intro es small
    rw [ofText, List.map_map]
    refine (List.map_congr_left fun e he => ?_).trans (List.map_id es)
    have toNat : (UInt8.ofNat e.toNat).toNat = e.toNat := UInt8.toNat_ofNat_of_lt (small e he)
    rw [Function.comp_apply, toNat, Char.ofNat_toNat]
    rfl
  rw [← back cs hc, h, back ds hd]

/-- `data` xor the repeated `key`; an empty key leaves `data` as it is. -/
def xorWith (data key : Bytes) : Bytes :=
  data.mapIdx fun i b => b ^^^ key.getD (i % key.length) 0

@[simp] theorem length_xorWith (data key : Bytes) : (xorWith data key).length = data.length :=
  List.length_mapIdx

@[simp] theorem xorWith_xorWith (data key : Bytes) : xorWith (xorWith data key) key = data := by
  unfold xorWith
  apply List.ext_getElem
  · simp only [List.length_mapIdx]
  · intro i h₁ h₂
    simp only [List.getElem_mapIdx, UInt8.xor_assoc, UInt8.xor_self, UInt8.xor_zero]

theorem xorWith_injective (key : Bytes) : Function.Injective fun data => xorWith data key :=
  Function.LeftInverse.injective (g := fun data => xorWith data key) fun data => xorWith_xorWith data key

def hexDigit (n : Nat) : Char := Nat.digitChar n

def hexByte (b : UInt8) : List Char := [hexDigit (b.toNat / 16), hexDigit (b.toNat % 16)]

/-- Two lower-case hexadecimal digits for each byte. -/
def toHex (data : Bytes) : List Char := data.flatMap hexByte

/-- The value of a hexadecimal digit of either case. -/
def nibble (c : Char) : Option Nat :=
  if '0' ≤ c ∧ c ≤ '9' then some (c.toNat - '0'.toNat)
  else if 'a' ≤ c ∧ c ≤ 'f' then some (c.toNat - 'a'.toNat + 10)
  else if 'A' ≤ c ∧ c ≤ 'F' then some (c.toNat - 'A'.toNat + 10)
  else none

/-- The inverse of `toHex`: nothing for an odd number of digits or another character. -/
def fromHex : List Char → Option Bytes
  | [] => some []
  | [_] => none
  | c :: d :: rest => do
    let hi ← nibble c
    let lo ← nibble d
    let bytes ← fromHex rest
    return UInt8.ofNat (16 * hi + lo) :: bytes

theorem nibble_hexDigit {n : Nat} (h : n < 16) : nibble (hexDigit n) = some n := by
  have all : ∀ k : Fin 16, nibble (hexDigit k) = some k.val := by decide
  exact all ⟨n, h⟩

theorem byte_halves (b : UInt8) : UInt8.ofNat (16 * (b.toNat / 16) + b.toNat % 16) = b := by
  rw [Nat.div_add_mod, UInt8.ofNat_toNat]

@[simp] theorem fromHex_toHex (data : Bytes) : fromHex (toHex data) = some data := by
  induction data with
  | nil => rfl
  | cons b data ih =>
    have lt : b.toNat < 256 := b.toNat_lt
    have hi : nibble (hexDigit (b.toNat / 16)) = some (b.toNat / 16) := nibble_hexDigit (by omega)
    have lo : nibble (hexDigit (b.toNat % 16)) = some (b.toNat % 16) := nibble_hexDigit (by omega)
    have split : toHex (b :: data) = hexDigit (b.toNat / 16) :: hexDigit (b.toNat % 16) :: toHex data :=
      rfl
    simp only [split, fromHex, hi, lo, ih, byte_halves, Option.bind_eq_bind, Option.bind_some,
      Option.pure_def]

@[simp] theorem length_toHex (data : Bytes) : (toHex data).length = 2 * data.length := by
  induction data with
  | nil => rfl
  | cons b data ih =>
    have cons : (toHex (b :: data)).length = (toHex data).length + 1 + 1 := rfl
    rw [cons, ih, List.length_cons]
    omega

/-- The `w` low bytes of `n`, most significant first. -/
def putBE : Nat → Nat → Bytes
  | 0, _ => []
  | w + 1, n => putBE w (n / 256) ++ [UInt8.ofNat (n % 256)]

/-- The number a byte string spells, most significant byte first. -/
def getBE (bs : Bytes) : Nat := bs.foldl (fun v b => v * 256 + b.toNat) 0

@[simp] theorem length_putBE (w n : Nat) : (putBE w n).length = w := by
  induction w generalizing n with
  | zero => rfl
  | succ w ih => simp only [putBE, List.length_append, ih, List.length_singleton]

theorem putBE_mod (w n : Nat) : putBE w (n % 256 ^ w) = putBE w n := by
  induction w generalizing n with
  | zero => rfl
  | succ w ih =>
    have high : n % 256 ^ (w + 1) / 256 = n / 256 % 256 ^ w := by
      rw [Nat.pow_succ, Nat.mul_comm, Nat.mod_mul_right_div_self]
    have low : n % 256 ^ (w + 1) % 256 = n % 256 :=
      Nat.mod_mod_of_dvd n ⟨256 ^ w, by rw [Nat.pow_succ, Nat.mul_comm]⟩
    rw [putBE, putBE, high, low, ih]

theorem getBE_putBE {w n : Nat} (h : n < 256 ^ w) : getBE (putBE w n) = n := by
  induction w generalizing n with
  | zero =>
    have zero : n = 0 := by simpa using h
    subst zero
    rfl
  | succ w ih =>
    have high : n / 256 < 256 ^ w := Nat.div_lt_of_lt_mul (by rwa [Nat.pow_succ'] at h)
    have low : (UInt8.ofNat (n % 256)).toNat = n % 256 :=
      UInt8.toNat_ofNat_of_lt (by have := Nat.mod_lt n (show 0 < 256 by decide); exact this)
    have step : getBE (putBE w (n / 256) ++ [UInt8.ofNat (n % 256)])
        = getBE (putBE w (n / 256)) * 256 + (UInt8.ofNat (n % 256)).toNat := by
      simp only [getBE, List.foldl_append, List.foldl_cons, List.foldl_nil]
    rw [putBE, step, ih high, low]
    omega

end Bytes
