import Harpia.SessionTokens

namespace Harpia

section Encode

/-- Six bits of a group in C++, from `shift` on. -/
def cppSextet (n shift : UInt32) : Char := b64Char ((n >>> shift) &&& 0x3F).toNat

/-- `b64url_encode` of C++, on 32-bit groups. -/
def cppB64urlEncode : Bytes → List Char
  | a :: b :: c :: rest =>
    let n := (a.toUInt32 <<< 16) ||| (b.toUInt32 <<< 8) ||| c.toUInt32
    cppSextet n 18 :: cppSextet n 12 :: cppSextet n 6 :: cppSextet n 0 :: cppB64urlEncode rest
  | [a, b] =>
    let n := (a.toUInt32 <<< 16) ||| (b.toUInt32 <<< 8)
    [cppSextet n 18, cppSextet n 12, cppSextet n 6]
  | [a] =>
    let n := a.toUInt32 <<< 16
    [cppSextet n 18, cppSextet n 12]
  | [] => []

/-- `b64url_encode` of Python, which does not mask the first six bits. -/
def pyB64urlEncode : Bytes → List Char
  | a :: b :: c :: rest =>
    let n := (a.toNat <<< 16) ||| (b.toNat <<< 8) ||| c.toNat
    b64Char (n >>> 18) :: b64Char ((n >>> 12) &&& 63) :: b64Char ((n >>> 6) &&& 63) ::
      b64Char (n &&& 63) :: pyB64urlEncode rest
  | [a, b] =>
    let n := (a.toNat <<< 16) ||| (b.toNat <<< 8)
    [b64Char (n >>> 18), b64Char ((n >>> 12) &&& 63), b64Char ((n >>> 6) &&& 63)]
  | [a] =>
    let n := a.toNat <<< 16
    [b64Char (n >>> 18), b64Char ((n >>> 12) &&& 63)]
  | [] => []

theorem group_toNat {a b c : Nat} (hb : b < 256) (hc : c < 256) :
    (a <<< 16) ||| (b <<< 8) ||| c = a * 2 ^ 16 + b * 2 ^ 8 + c := by
  have upper : (a <<< 16) ||| (b <<< 8) = (a * 2 ^ 8 + b) <<< 8 := by
    have pair := Nat.shiftLeft_add_eq_or_of_lt (show b < 2 ^ 8 from hb) a
    have moved : a <<< 16 = (a <<< 8) <<< 8 := by rw [← Nat.shiftLeft_add]
    rw [moved, ← Nat.shiftLeft_or_distrib, ← pair, Nat.shiftLeft_eq a]
  rw [upper, ← Nat.shiftLeft_add_eq_or_of_lt (show c < 2 ^ 8 from hc), Nat.shiftLeft_eq]
  omega

theorem mask_six (n : Nat) : n &&& 63 = n % 64 := Nat.and_two_pow_sub_one_eq_mod n 6

theorem pyB64urlEncode_eq (data : Bytes) : pyB64urlEncode data = b64urlEncode data := by
  induction data using b64urlEncode.induct with
  | case1 a b c rest ih =>
    rw [pyB64urlEncode, b64urlEncode, ih, group_toNat b.toNat_lt c.toNat_lt]
    simp only [mask_six, Nat.shiftRight_eq_div_pow]
  | case2 a b =>
    have group := group_toNat (a := a.toNat) b.toNat_lt (show 0 < 256 by decide)
    rw [Nat.or_zero, Nat.add_zero] at group
    rw [pyB64urlEncode, b64urlEncode, group]
    simp only [mask_six, Nat.shiftRight_eq_div_pow]
  | case3 a =>
    rw [pyB64urlEncode, b64urlEncode, Nat.shiftLeft_eq]
    simp only [mask_six, Nat.shiftRight_eq_div_pow]
  | case4 => rfl

theorem cppSextet_eq {n : UInt32} {m : Nat} (h : n.toNat = m) (shift : UInt32)
    (hs : shift.toNat < 32) : cppSextet n shift = b64Char (m / 2 ^ shift.toNat % 64) := by
  have sextet : ((n >>> shift) &&& 0x3F).toNat = m / 2 ^ shift.toNat % 64 := by
    rw [UInt32.toNat_and, UInt32.toNat_shiftRight, Nat.mod_eq_of_lt hs, h,
      Nat.shiftRight_eq_div_pow]
    exact mask_six _
  rw [cppSextet, sextet]

theorem shiftLeft_toNat (a : UInt8) {k : UInt32} (hk : k.toNat ≤ 16) :
    (a.toUInt32 <<< k).toNat = a.toNat <<< k.toNat := by
  have small : a.toNat <<< k.toNat < 2 ^ 32 := by
    have ha := a.toNat_lt
    have pow : 2 ^ k.toNat ≤ 2 ^ 16 := Nat.pow_le_pow_right (by decide) hk
    rw [Nat.shiftLeft_eq]
    calc a.toNat * 2 ^ k.toNat ≤ 255 * 2 ^ 16 := Nat.mul_le_mul (by omega) pow
      _ < 2 ^ 32 := by decide
  rw [UInt32.toNat_shiftLeft, Nat.mod_eq_of_lt (show k.toNat < 32 by omega), UInt8.toNat_toUInt32,
    Nat.mod_eq_of_lt small]

theorem cppB64urlEncode_eq (data : Bytes) : cppB64urlEncode data = b64urlEncode data := by
  induction data using b64urlEncode.induct with
  | case1 a b c rest ih =>
    have group : ((a.toUInt32 <<< 16) ||| (b.toUInt32 <<< 8) ||| c.toUInt32).toNat =
        a.toNat * 2 ^ 16 + b.toNat * 2 ^ 8 + c.toNat := by
      rw [UInt32.toNat_or, UInt32.toNat_or, shiftLeft_toNat a (by decide),
        shiftLeft_toNat b (by decide), UInt8.toNat_toUInt32]
      exact group_toNat b.toNat_lt c.toNat_lt
    have first : (a.toNat * 2 ^ 16 + b.toNat * 2 ^ 8 + c.toNat) / 2 ^ 18 % 64 =
        (a.toNat * 2 ^ 16 + b.toNat * 2 ^ 8 + c.toNat) / 2 ^ 18 := by
      have ha := a.toNat_lt
      have hb := b.toNat_lt
      have hc := c.toNat_lt
      omega
    rw [cppB64urlEncode, b64urlEncode, ih]
    simp only [cppSextet_eq group 18 (by decide), cppSextet_eq group 12 (by decide),
      cppSextet_eq group 6 (by decide), cppSextet_eq group 0 (by decide)]
    simp only [UInt32.reduceToNat, first, Nat.pow_zero, Nat.div_one]
  | case2 a b =>
    have group : ((a.toUInt32 <<< 16) ||| (b.toUInt32 <<< 8)).toNat =
        a.toNat * 2 ^ 16 + b.toNat * 2 ^ 8 := by
      have all := group_toNat (a := a.toNat) b.toNat_lt (show 0 < 256 by decide)
      rw [Nat.or_zero, Nat.add_zero] at all
      rw [UInt32.toNat_or, shiftLeft_toNat a (by decide), shiftLeft_toNat b (by decide)]
      exact all
    have first : (a.toNat * 2 ^ 16 + b.toNat * 2 ^ 8) / 2 ^ 18 % 64 =
        (a.toNat * 2 ^ 16 + b.toNat * 2 ^ 8) / 2 ^ 18 := by
      have ha := a.toNat_lt
      have hb := b.toNat_lt
      omega
    rw [cppB64urlEncode, b64urlEncode]
    simp only [cppSextet_eq group 18 (by decide), cppSextet_eq group 12 (by decide),
      cppSextet_eq group 6 (by decide)]
    simp only [UInt32.reduceToNat, first]
  | case3 a =>
    have group : (a.toUInt32 <<< 16).toNat = a.toNat * 2 ^ 16 := by
      rw [shiftLeft_toNat a (by decide)]
      exact Nat.shiftLeft_eq _ _
    have first : a.toNat * 2 ^ 16 / 2 ^ 18 % 64 = a.toNat * 2 ^ 16 / 2 ^ 18 := by
      have ha := a.toNat_lt
      omega
    rw [cppB64urlEncode, b64urlEncode]
    simp only [cppSextet_eq group 18 (by decide), cppSextet_eq group 12 (by decide)]
    simp only [UInt32.reduceToNat, first]
  | case4 => rfl

end Encode

section Decode

/-- The loop of `b64url_decode` in C++: false, and what has been decoded by then, at the first
character that is none of the alphabet. -/
def cppB64Loop : List Char → UInt32 → Nat → Bytes → Bool × Bytes
  | [], _, _, out => (true, out)
  | c :: cs, buf, bits, out =>
    match b64Value c with
    | none => (false, out)
    | some v =>
      let buf := (buf <<< 6) ||| UInt32.ofNat v
      let bits := bits + 6
      if 8 ≤ bits then
        let bits := bits - 8
        cppB64Loop cs buf bits (out ++ [((buf >>> UInt32.ofNat bits) &&& 0xFF).toUInt8])
      else cppB64Loop cs buf bits out

def cppB64urlDecode (text : List Char) : Bool × Bytes := cppB64Loop text 0 0 []

/-- The loop of `b64url_decode` in Python. -/
def pyB64Loop : List Char → Nat → Nat → Bytes → Option Bytes
  | [], _, _, out => some out
  | c :: cs, buf, bits, out =>
    match b64Value c with
    | none => none
    | some v =>
      let buf := ((buf <<< 6) ||| v) &&& 0xFFFFFF
      let bits := bits + 6
      if 8 ≤ bits then
        let bits := bits - 8
        pyB64Loop cs buf bits (out ++ [UInt8.ofNat ((buf >>> bits) &&& 0xFF)])
      else pyB64Loop cs buf bits out

def pyB64urlDecode (text : List Char) : Option Bytes := pyB64Loop text 0 0 []

theorem b64Value_lt {c : Char} {v : Nat} (h : b64Value c = some v) : v < 64 := by
  have range : ∀ {a b : Char}, a ≤ c ∧ c ≤ b → a.toNat ≤ c.toNat ∧ c.toNat ≤ b.toNat := fun h => h
  unfold b64Value at h
  split at h
  next hr =>
    have bounds := range hr
    have upper : 'A'.toNat = 65 ∧ 'Z'.toNat = 90 := ⟨rfl, rfl⟩
    cases h
    omega
  split at h
  next hr =>
    have bounds := range hr
    have lower : 'a'.toNat = 97 ∧ 'z'.toNat = 122 := ⟨rfl, rfl⟩
    cases h
    omega
  split at h
  next hr =>
    have bounds := range hr
    have digits : '0'.toNat = 48 ∧ '9'.toNat = 57 := ⟨rfl, rfl⟩
    cases h
    omega
  split at h
  · cases h
    decide
  split at h
  · cases h
    decide
  · cases h

theorem pyBuf_eq (buf : Nat) {v : Nat} (hv : v < 64) :
    ((buf <<< 6) ||| v) &&& 0xFFFFFF = (buf * 64 + v) % b64Window .python := by
  rw [← Nat.shiftLeft_add_eq_or_of_lt (show v < 2 ^ 6 from hv), Nat.shiftLeft_eq]
  exact Nat.and_two_pow_sub_one_eq_mod _ 24

theorem cppBuf_toNat (buf : UInt32) {v : Nat} (hv : v < 64) :
    ((buf <<< 6) ||| UInt32.ofNat v).toNat = (buf.toNat * 64 + v) % b64Window .cpp := by
  have small : (UInt32.ofNat v).toNat = v := UInt32.toNat_ofNat_of_lt' (by
    have size : UInt32.size = 4294967296 := rfl
    omega)
  have cut : buf.toNat * 64 % 2 ^ 32 = (buf.toNat % 2 ^ 26) <<< 6 := by
    rw [Nat.shiftLeft_eq]
    omega
  have six : (6 : UInt32).toNat % 32 = 6 := rfl
  rw [UInt32.toNat_or, UInt32.toNat_shiftLeft, six, small, Nat.shiftLeft_eq, cut,
    ← Nat.shiftLeft_add_eq_or_of_lt (show v < 2 ^ 6 from hv), Nat.shiftLeft_eq, b64Window]
  omega

theorem cppByte_eq (buf : UInt32) {bits : Nat} (hb : bits < 32) :
    ((buf >>> UInt32.ofNat bits) &&& 0xFF).toUInt8 = UInt8.ofNat (buf.toNat / 2 ^ bits % 256) := by
  have small : (UInt32.ofNat bits).toNat = bits := UInt32.toNat_ofNat_of_lt' (by
    have size : UInt32.size = 4294967296 := rfl
    omega)
  apply UInt8.toNat_inj.mp
  rw [UInt32.toNat_toUInt8, UInt32.toNat_and, UInt32.toNat_shiftRight, small, Nat.mod_eq_of_lt hb,
    Nat.shiftRight_eq_div_pow, UInt8.toNat_ofNat']
  have mask : ∀ x : Nat, x &&& (0xFF : UInt32).toNat = x % 256 :=
    fun x => Nat.and_two_pow_sub_one_eq_mod x 8
  rw [mask]

/-- The loops decode what the shared one does. -/
theorem cppB64Loop_eq (cs : List Char) {buf : UInt32} {bits : Nat} (hb : bits < 8) (out : Bytes) :
    (∀ rest, b64Loop .cpp cs buf.toNat bits = some rest →
        cppB64Loop cs buf bits out = (true, out ++ rest)) ∧
      (b64Loop .cpp cs buf.toNat bits = none → (cppB64Loop cs buf bits out).1 = false) := by
  induction cs generalizing buf bits out with
  | nil =>
    refine ⟨fun rest h => ?_, fun h => by simp [b64Loop] at h⟩
    cases Option.some.inj h
    rw [cppB64Loop, List.append_nil]
  | cons c cs ih =>
    simp only [b64Loop, cppB64Loop]
    cases hv : b64Value c with
    | none => exact ⟨fun rest h => by simp at h, fun _ => rfl⟩
    | some v =>
      simp only [Option.bind_eq_bind, Option.bind_some, ← cppBuf_toNat buf (b64Value_lt hv)]
      by_cases full : 8 ≤ bits + 6
      · rw [if_pos full, if_pos full, cppByte_eq _ (show bits + 6 - 8 < 32 by omega)]
        obtain ⟨some_, none_⟩ := @ih ((buf <<< 6) ||| UInt32.ofNat v) _
          (show bits + 6 - 8 < 8 by omega) (out ++ [UInt8.ofNat
            (((buf <<< 6) ||| UInt32.ofNat v).toNat / 2 ^ (bits + 6 - 8) % 256)])
        cases later : b64Loop .cpp cs ((buf <<< 6) ||| UInt32.ofNat v).toNat (bits + 6 - 8) with
        | none => exact ⟨fun rest h => by simp at h, fun _ => none_ later⟩
        | some rest =>
          refine ⟨fun rest' h => ?_, fun h => by simp at h⟩
          rw [some_ rest later, ← Option.some.inj h, List.append_assoc]
          rfl
      · rw [if_neg full, if_neg full]
        exact ih (show bits + 6 < 8 by omega) out

theorem pyB64Loop_eq (cs : List Char) (buf bits : Nat) (out : Bytes) :
    pyB64Loop cs buf bits out = (b64Loop .python cs buf bits).map (out ++ ·) := by
  induction cs generalizing buf bits out with
  | nil => simp [pyB64Loop, b64Loop]
  | cons c cs ih =>
    simp only [b64Loop, pyB64Loop]
    cases hv : b64Value c with
    | none => rfl
    | some v =>
      have mask : ∀ x : Nat, x &&& 0xFF = x % 256 := fun x => Nat.and_two_pow_sub_one_eq_mod x 8
      simp only [Option.bind_eq_bind, Option.bind_some, pyBuf_eq buf (b64Value_lt hv), ih, mask,
        Nat.shiftRight_eq_div_pow]
      by_cases full : 8 ≤ bits + 6
      · rw [if_pos full, if_pos full]
        cases b64Loop .python cs ((buf * 64 + v) % b64Window .python) (bits + 6 - 8) with
        | none => rfl
        | some rest => simp
      · rw [if_neg full, if_neg full]

theorem pyB64urlDecode_eq (text : List Char) : pyB64urlDecode text = b64urlDecode .python text := by
  rw [pyB64urlDecode, pyB64Loop_eq, b64urlDecode]
  simp

theorem cppB64urlDecode_eq (text : List Char) :
    (if (cppB64urlDecode text).1 then some (cppB64urlDecode text).2 else none) =
      b64urlDecode .cpp text := by
  obtain ⟨some_, none_⟩ := @cppB64Loop_eq text 0 _ (show 0 < 8 by decide) []
  have start : b64urlDecode .cpp text = b64Loop .cpp text (0 : UInt32).toNat 0 := rfl
  rw [start, cppB64urlDecode]
  cases decoded : b64Loop .cpp text (0 : UInt32).toNat 0 with
  | none => rw [none_ decoded, if_neg (by decide)]
  | some rest => rw [some_ rest decoded, if_pos rfl, List.nil_append]

/-- What is encoded decodes to itself, in each language; and the decoders refuse the same texts and
decode the others alike. -/
theorem b64url_round_trip (x : Bytes) (text : List Char) :
    cppB64urlDecode (cppB64urlEncode x) = (true, x) ∧
      pyB64urlDecode (pyB64urlEncode x) = some x ∧
      (if (cppB64urlDecode text).1 then some (cppB64urlDecode text).2 else none) =
        pyB64urlDecode text := by
  refine ⟨?_, ?_, ?_⟩
  · have decoded := cppB64urlDecode_eq (b64urlEncode x)
    rw [b64urlDecode_agree .cpp .python, b64urlDecode_encode] at decoded
    rw [cppB64urlEncode_eq]
    split at decoded
    next ok => exact Prod.ext ok (Option.some.inj decoded)
    next => cases decoded
  · rw [pyB64urlEncode_eq, pyB64urlDecode_eq, b64urlDecode_encode]
  · rw [cppB64urlDecode_eq, pyB64urlDecode_eq, b64urlDecode_agree .cpp .python]

end Decode

end Harpia
