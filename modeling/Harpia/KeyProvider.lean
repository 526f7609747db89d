import Mathlib.Data.Finset.Insert
import Harpia.Lib.Bytes
import Harpia.Lib.Dict
import Harpia.Lib.Text

namespace Harpia

/-- The two runtimes that share the key formats. -/
inductive Lang
  | cpp
  | python
  deriving DecidableEq, Repr

/-- Python's `int` refuses a text of more digits. -/
def maxStrDigits : Nat := 4300

structure WrappedDek where
  kekVersion : Nat
  bytes : Bytes
  deriving DecidableEq, Repr

/-- The identity of a wrapped DEK in the shred registry: `<version>:` and the wrapped bytes. -/
def shredKey (w : WrappedDek) : Bytes :=
  Bytes.ofText (Text.decimal w.kekVersion) ++ Bytes.ofText [':'] ++ w.bytes

/-- What a key provider holds: the KEKs by version, the active version, the shred registry. -/
structure KeyProvider where
  active : Nat
  keks : Dict Nat Bytes
  shredded : Finset Bytes
  deriving DecidableEq

namespace KeyProvider

/-- A new provider, with the random bytes drawn for KEK 1. -/
def fresh (kek : Bytes) : KeyProvider := { active := 1, keks := Dict.empty.set 1 kek, shredded := ∅ }

/-- Wraps with the active KEK; the lookup raises when that version was forgotten. -/
def wrapDek (p : KeyProvider) (dek : Bytes) : Option WrappedDek :=
  (p.keks.get? p.active).map fun kek => { kekVersion := p.active, bytes := Bytes.xorWith dek kek }

def unwrapDek (p : KeyProvider) (w : WrappedDek) : Option Bytes :=
  if shredKey w ∈ p.shredded then none
  else (p.keks.get? w.kekVersion).map fun kek => Bytes.xorWith w.bytes kek

/-- The counter is a `uint64_t` in C++ and unbounded in Python. -/
def nextVersion : Lang → Nat → Nat
  | .cpp, v => (v + 1) % 2 ^ 64
  | .python, v => v + 1

/-- Mints the next version, with the random bytes drawn for it. -/
def rotate (lang : Lang) (p : KeyProvider) (kek : Bytes) : KeyProvider :=
  { p with
    active := nextVersion lang p.active
    keks := p.keks.set (nextVersion lang p.active) kek }

def shredDek (p : KeyProvider) (w : WrappedDek) : KeyProvider :=
  { p with shredded := insert (shredKey w) p.shredded }

def forgetKekVersion (p : KeyProvider) (version : Nat) : KeyProvider :=
  { p with keks := p.keks.erase version }

end KeyProvider

theorem toNat_lt_of_isDigit {c : Char} (h : c.isDigit) : c.toNat < 256 ∧ c.toNat ≠ 58 := by
  have range : 48 ≤ c.val ∧ c.val ≤ 57 := by simpa [Char.isDigit] using h
  have low : 48 ≤ c.val.toNat := UInt32.le_iff_toNat_le.mp range.1
  have high : c.val.toNat ≤ 57 := UInt32.le_iff_toNat_le.mp range.2
  rw [Char.toNat]
  omega

theorem decimal_lt {v : Nat} {c : Char} (h : c ∈ Text.decimal v) : c.toNat < 256 :=
  (toNat_lt_of_isDigit (Text.decimal_isDigit h)).1

theorem colon_notMem_decimal (v : Nat) : (58 : UInt8) ∉ Bytes.ofText (Text.decimal v) := by
  intro hm
  obtain ⟨c, hc, he⟩ := List.mem_map.mp hm
  obtain ⟨small, ne⟩ := toNat_lt_of_isDigit (Text.decimal_isDigit hc)
  have toNat : (UInt8.ofNat c.toNat).toNat = 58 := congrArg UInt8.toNat he
  rw [UInt8.toNat_ofNat_of_lt' small] at toNat
  exact ne toNat

theorem append_colon_inj {a a' x x' : Bytes} (ha : 58 ∉ a) (ha' : 58 ∉ a')
    (h : a ++ 58 :: x = a' ++ 58 :: x') : a = a' ∧ x = x' := by
  have before : ∀ b y : Bytes, 58 ∉ b → (b ++ 58 :: y).takeWhile (· ≠ 58) = b := by
    intro b y hb
    have other : ∀ c ∈ b, decide (c ≠ 58) = true := fun c hc => decide_eq_true (ne_of_mem_of_not_mem hc hb)
    rw [List.takeWhile_append_of_pos other, List.takeWhile_cons_of_neg (by decide), List.append_nil]
  have same : a = a' := by rw [← before a x ha, h, before a' x' ha']
  subst same
  simpa using h

/-- No two wrapped DEKs share a shred key: the version ends at the first colon. -/
theorem shredKey_injective : Function.Injective shredKey := by
  rintro ⟨v, bs⟩ ⟨v', bs'⟩ h
  have split : Bytes.ofText (Text.decimal v) ++ 58 :: bs = Bytes.ofText (Text.decimal v') ++ 58 :: bs' := by
    have colon : Bytes.ofText [':'] = [58] := rfl
    simpa only [shredKey, colon, List.append_assoc, List.cons_append, List.nil_append] using h
  obtain ⟨version, rest⟩ := append_colon_inj (colon_notMem_decimal v) (colon_notMem_decimal v') split
  have decimals : Text.decimal v = Text.decimal v' :=
    Bytes.ofText_inj (fun _ => decimal_lt) (fun _ => decimal_lt) version
  have parsed := congrArg Text.parseDecimal decimals
  simp only [Text.parseDecimal_decimal, Option.some.injEq] at parsed
  rw [parsed, rest]

namespace KeyProvider

@[simp] theorem shredDek_keks (p : KeyProvider) (w : WrappedDek) : (p.shredDek w).keks = p.keks := rfl

@[simp] theorem rotate_shredded (lang : Lang) (p : KeyProvider) (kek : Bytes) :
    (p.rotate lang kek).shredded = p.shredded := rfl

@[simp] theorem forgetKekVersion_shredded (p : KeyProvider) (version : Nat) :
    (p.forgetKekVersion version).shredded = p.shredded := rfl

theorem wrapDek_eq_some {p : KeyProvider} {dek : Bytes} {w : WrappedDek} :
    p.wrapDek dek = some w ↔
      ∃ kek, p.keks.get? p.active = some kek ∧ w = ⟨p.active, Bytes.xorWith dek kek⟩ := by
  rw [wrapDek, Option.map_eq_some_iff]
  exact exists_congr fun kek => and_congr_right fun _ => eq_comm

/-- An unshredded wrapped DEK opens with the KEK that its version has. -/
theorem unwrapDek_wrapped {p : KeyProvider} {version : Nat} {dek kek : Bytes}
    (h : p.keks.get? version = some kek)
    (live : shredKey ⟨version, Bytes.xorWith dek kek⟩ ∉ p.shredded) :
    p.unwrapDek ⟨version, Bytes.xorWith dek kek⟩ = some dek := by
  rw [unwrapDek, if_neg live, h, Option.map_some, Bytes.xorWith_xorWith]

theorem unwrapDek_of_shredded {p : KeyProvider} {w : WrappedDek} (h : shredKey w ∈ p.shredded) :
    p.unwrapDek w = none := if_pos h

theorem unwrapDek_of_forgotten {p : KeyProvider} {w : WrappedDek}
    (h : p.keks.get? w.kekVersion = none) : p.unwrapDek w = none := by
  rw [unwrapDek, h, Option.map_none, ite_self]

/-- Shredding one wrapped DEK leaves every other one as it was. -/
theorem unwrapDek_shredDek_of_ne {p : KeyProvider} {w w' : WrappedDek} (h : w ≠ w') :
    (p.shredDek w').unwrapDek w = p.unwrapDek w := by
  have other : shredKey w ≠ shredKey w' := fun he => h (shredKey_injective he)
  have same : shredKey w ∈ (p.shredDek w').shredded ↔ shredKey w ∈ p.shredded := by
    simp only [shredDek, Finset.mem_insert, other, false_or]
  simp only [unwrapDek, same]
  rfl

end KeyProvider

end Harpia
