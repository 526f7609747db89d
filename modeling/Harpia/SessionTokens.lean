import Mathlib.Tactic.IntervalCases
import Harpia.Session

namespace Harpia

def b64Alphabet : List Char :=
  ['A', 'B', 'C', 'D', 'E', 'F', 'G', 'H', 'I', 'J', 'K', 'L', 'M', 'N', 'O', 'P', 'Q', 'R', 'S', 'T',
    'U', 'V', 'W', 'X', 'Y', 'Z', 'a', 'b', 'c', 'd', 'e', 'f', 'g', 'h', 'i', 'j', 'k', 'l', 'm', 'n',
    'o', 'p', 'q', 'r', 's', 't', 'u', 'v', 'w', 'x', 'y', 'z', '0', '1', '2', '3', '4', '5', '6', '7',
    '8', '9', '-', '_']

def b64Char (n : Nat) : Char := b64Alphabet.getD n 'A'

/-- Unpadded base64url, three bytes at a time. -/
def b64urlEncode : Bytes → List Char
  | a :: b :: c :: rest =>
    let n := a.toNat * 2 ^ 16 + b.toNat * 2 ^ 8 + c.toNat
    b64Char (n / 2 ^ 18) :: b64Char (n / 2 ^ 12 % 64) :: b64Char (n / 2 ^ 6 % 64) ::
      b64Char (n % 64) :: b64urlEncode rest
  | [a, b] =>
    let n := a.toNat * 2 ^ 16 + b.toNat * 2 ^ 8
    [b64Char (n / 2 ^ 18), b64Char (n / 2 ^ 12 % 64), b64Char (n / 2 ^ 6 % 64)]
  | [a] =>
    let n := a.toNat * 2 ^ 16
    [b64Char (n / 2 ^ 18), b64Char (n / 2 ^ 12 % 64)]
  | [] => []

/-- The sum of two C++ times wraps around. -/
def expiresAt (lang : Lang) (now ttl : Int) : Int :=
  match lang with
  | .cpp => Int.bmod (now + ttl) (2 ^ 64)
  | .python => now + ttl

/-- A number as both languages print it. -/
def printInt (k : Int) : List Char :=
  if k < 0 then '-' :: Text.decimal k.natAbs else Text.decimal k.natAbs

/-- `cn`, `role`, the two times and the identifier, one a line. -/
def tokenPayload (lang : Lang) (cn role : Bytes) (ttl now : Int) (jti : Bytes) : Bytes :=
  [10].intercalate [cn, role, Bytes.ofText (printInt now),
    Bytes.ofText (printInt (expiresAt lang now ttl)), jti]

/-- `issue`, with the default lifetime, the clock, and the identifier that was drawn. The empty text
    when no token is issued. -/
def issue (lang : Lang) (env : GateEnv) (defaultTtl clock : Int) (cn role : Bytes) (ttl now : Int)
    (jti : Bytes) : List Char :=
  if env.key = [] ∨ cn = [] ∨ 10 ∈ cn ∨ 10 ∈ role then []
  else
    let ttl := if ttl ≤ 0 then defaultTtl else ttl
    let now := if now ≤ 0 then clock else now
    let b64 := b64urlEncode (tokenPayload lang cn role ttl now jti)
    ['v', '1', '.'] ++ b64 ++ ['.'] ++
      env.hmacSha256Hex env.key (tokenContext ++ Bytes.ofText b64)

theorem mod_b64Window (lang : Lang) (x : Nat) :
    x % b64Window lang % 16777216 = x % 16777216 := by
  refine Nat.mod_mod_of_dvd x ?_
  cases lang
  · exact ⟨256, by decide⟩
  · exact ⟨1, by decide⟩

/-- The bits a step has not emitted, and the byte it emits, depend on the bits left over before. -/
theorem b64Step_agree {x x' buf buf' v bits : Nat} (hx : x % 16777216 = (buf * 64 + v) % 16777216)
    (hx' : x' % 16777216 = (buf' * 64 + v) % 16777216) (hbits : bits < 8)
    (h : buf % 2 ^ bits = buf' % 2 ^ bits) :
    x % 2 ^ (bits + 6) = x' % 2 ^ (bits + 6) ∧ (8 ≤ bits + 6 →
      x / 2 ^ (bits + 6 - 8) % 256 = x' / 2 ^ (bits + 6 - 8) % 256 ∧
        x % 2 ^ (bits + 6 - 8) = x' % 2 ^ (bits + 6 - 8)) := by
  interval_cases bits <;> simp only [Nat.reducePow, Nat.reduceAdd, Nat.reduceSub] at h ⊢ <;> omega

/-- What the decoder emits depends on the bits it has not emitted yet, and on no bit beyond them. -/
theorem b64Loop_agree (lang lang' : Lang) (cs : List Char) {buf buf' bits : Nat} (hbits : bits < 8)
    (h : buf % 2 ^ bits = buf' % 2 ^ bits) :
    b64Loop lang cs buf bits = b64Loop lang' cs buf' bits := by
  induction cs generalizing buf buf' bits with
  | nil => rfl
  | cons c cs ih =>
    simp only [b64Loop]
    cases b64Value c with
    | none => rfl
    | some v =>
      obtain ⟨hall, hemit⟩ := b64Step_agree (mod_b64Window lang (buf * 64 + v))
        (mod_b64Window lang' (buf' * 64 + v)) hbits h
      simp only [Option.bind_eq_bind, Option.bind_some]
      split
      next hlong =>
        obtain ⟨hbyte, hleft⟩ := hemit hlong
        rw [hbyte, ih (by omega) hleft]
      next hshort => exact ih (by omega) hall

theorem b64urlDecode_agree (lang lang' : Lang) (text : List Char) :
    b64urlDecode lang text = b64urlDecode lang' text :=
  b64Loop_agree lang lang' text (by decide) rfl

/-- Between groups of four characters no bit is left over. -/
theorem b64Loop_fresh (lang : Lang) (cs : List Char) (buf : Nat) :
    b64Loop lang cs buf 0 = b64urlDecode .python cs :=
  b64Loop_agree lang .python cs (by decide) (by simp [Nat.mod_one])

theorem b64Value_b64Char {n : Nat} (h : n < 64) : b64Value (b64Char n) = some n := by
  have hall : ∀ n : Fin 64, b64Value (b64Char n) = some n.val := by decide
  exact hall ⟨n, h⟩

theorem ofNat_eq {n : Nat} {a : UInt8} (h : n = a.toNat) : UInt8.ofNat n = a := by
  rw [h, UInt8.ofNat_toNat]

/-- Four sextets fill the Python buffer, so a group of four characters decodes the same behind any
    other. -/
theorem b64Loop_group {c₁ c₂ c₃ c₄ : Char} {v₁ v₂ v₃ v₄ : Nat} (h₁ : b64Value c₁ = some v₁)
    (h₂ : b64Value c₂ = some v₂) (h₃ : b64Value c₃ = some v₃) (h₄ : b64Value c₄ = some v₄)
    (l₁ : v₁ < 64) (l₂ : v₂ < 64) (l₃ : v₃ < 64) (l₄ : v₄ < 64) (rest : List Char) (buf : Nat) :
    b64Loop .python (c₁ :: c₂ :: c₃ :: c₄ :: rest) buf 0
      = (b64Loop .python rest (((v₁ * 64 + v₂) * 64 + v₃) * 64 + v₄) 0).map fun bytes =>
        UInt8.ofNat (v₁ * 4 + v₂ / 16) :: UInt8.ofNat (v₂ % 16 * 16 + v₃ / 4) ::
          UInt8.ofNat (v₃ % 4 * 64 + v₄) :: bytes := by
  have first : ((buf * 64 + v₁) % 16777216 * 64 + v₂) % 16777216 / 16 % 256 = v₁ * 4 + v₂ / 16 := by omega
  have second : (((buf * 64 + v₁) % 16777216 * 64 + v₂) % 16777216 * 64 + v₃) % 16777216 / 4 % 256
      = v₂ % 16 * 16 + v₃ / 4 := by omega
  have window : ((((buf * 64 + v₁) % 16777216 * 64 + v₂) % 16777216 * 64 + v₃) % 16777216 * 64 + v₄)
      % 16777216 = ((v₁ * 64 + v₂) * 64 + v₃) * 64 + v₄ := by omega
  have third : (((v₁ * 64 + v₂) * 64 + v₃) * 64 + v₄) % 256 = v₃ % 4 * 64 + v₄ := by omega
  simp only [b64Loop, h₁, h₂, h₃, h₄, b64Window, Option.bind_eq_bind, Option.bind_some, Option.pure_def,
    Nat.reduceAdd, Nat.reduceSub, Nat.reduceLeDiff, if_true, if_false, Nat.reducePow, Nat.div_one,
    first, second, window, third]
  cases b64Loop .python rest (((v₁ * 64 + v₂) * 64 + v₃) * 64 + v₄) 0 <;> rfl

/-- Two characters at the end carry one byte, three carry two. -/
theorem b64urlDecode_two {c₁ c₂ : Char} {v₁ v₂ : Nat} (h₁ : b64Value c₁ = some v₁)
    (h₂ : b64Value c₂ = some v₂) (l₁ : v₁ < 64) (l₂ : v₂ < 64) :
    b64urlDecode .python [c₁, c₂] = some [UInt8.ofNat (v₁ * 4 + v₂ / 16)] := by
  have hfirst : ((0 * 64 + v₁) % 16777216 * 64 + v₂) % 16777216 / 16 % 256 = v₁ * 4 + v₂ / 16 := by
    omega
  simp only [b64urlDecode, b64Loop, h₁, h₂, b64Window, Option.bind_eq_bind, Option.bind_some,
    Option.pure_def, Nat.reduceAdd, Nat.reduceSub, Nat.reduceLeDiff, if_true, if_false, Nat.reducePow,
    hfirst]

theorem b64urlDecode_three {c₁ c₂ c₃ : Char} {v₁ v₂ v₃ : Nat} (h₁ : b64Value c₁ = some v₁)
    (h₂ : b64Value c₂ = some v₂) (h₃ : b64Value c₃ = some v₃) (l₁ : v₁ < 64) (l₂ : v₂ < 64)
    (l₃ : v₃ < 64) : b64urlDecode .python [c₁, c₂, c₃] =
      some [UInt8.ofNat (v₁ * 4 + v₂ / 16), UInt8.ofNat (v₂ % 16 * 16 + v₃ / 4)] := by
  have hfirst : ((0 * 64 + v₁) % 16777216 * 64 + v₂) % 16777216 / 16 % 256 = v₁ * 4 + v₂ / 16 := by
    omega
  have hsecond : (((0 * 64 + v₁) % 16777216 * 64 + v₂) % 16777216 * 64 + v₃) % 16777216 / 4 % 256 =
      v₂ % 16 * 16 + v₃ / 4 := by
    omega
  simp only [b64urlDecode, b64Loop, h₁, h₂, h₃, b64Window, Option.bind_eq_bind, Option.bind_some,
    Option.pure_def, Nat.reduceAdd, Nat.reduceSub, Nat.reduceLeDiff, if_true, if_false, Nat.reducePow,
    hfirst, hsecond]

theorem b64urlDecode_encode (data : Bytes) :
    b64urlDecode .python (b64urlEncode data) = some data := by
  induction data using b64urlEncode.induct with
  | case1 a b c rest ih =>
    have ha := a.toNat_lt
    have hb := b.toNat_lt
    have hc := c.toNat_lt
    rw [b64urlEncode]
    generalize hn : a.toNat * 2 ^ 16 + b.toNat * 2 ^ 8 + c.toNat = n
    have hgroup := b64Loop_group (b64Value_b64Char (n := n / 2 ^ 18) (by omega))
      (b64Value_b64Char (n := n / 2 ^ 12 % 64) (by omega))
      (b64Value_b64Char (n := n / 2 ^ 6 % 64) (by omega))
      (b64Value_b64Char (n := n % 64) (by omega)) (by omega) (by omega) (by omega) (by omega)
      (b64urlEncode rest) 0
    rw [b64Loop_fresh .python (b64urlEncode rest), ih] at hgroup
    refine hgroup.trans ?_
    rw [Option.map_some, ofNat_eq (a := a) (by omega), ofNat_eq (a := b) (by omega),
      ofNat_eq (a := c) (by omega)]
  | case2 a b =>
    have ha := a.toNat_lt
    have hb := b.toNat_lt
    rw [b64urlEncode]
    generalize hn : a.toNat * 2 ^ 16 + b.toNat * 2 ^ 8 = n
    rw [b64urlDecode_three (b64Value_b64Char (n := n / 2 ^ 18) (by omega))
      (b64Value_b64Char (n := n / 2 ^ 12 % 64) (by omega))
      (b64Value_b64Char (n := n / 2 ^ 6 % 64) (by omega)) (by omega) (by omega) (by omega),
      ofNat_eq (a := a) (by omega), ofNat_eq (a := b) (by omega)]
  | case3 a =>
    have ha := a.toNat_lt
    rw [b64urlEncode]
    generalize hn : a.toNat * 2 ^ 16 = n
    rw [b64urlDecode_two (b64Value_b64Char (n := n / 2 ^ 18) (by omega))
      (b64Value_b64Char (n := n / 2 ^ 12 % 64) (by omega)) (by omega) (by omega),
      ofNat_eq (a := a) (by omega)]
  | case4 => rfl

section Roundtrip

theorem splitToken_mk {b64 mac : List Char} (hmac : '.' ∉ mac) :
    splitToken (['v', '1', '.'] ++ b64 ++ ['.'] ++ mac) = some (b64, mac) := by
  have hv1 : "v1.".toList = ['v', '1', '.'] := by decide
  have hmark : ['v', '1', '.'].isPrefixOf (['v', '1', '.'] ++ b64 ++ ['.'] ++ mac) = true := by
    rw [List.append_assoc, List.append_assoc]
    exact List.isPrefixOf_iff_prefix.mpr (List.prefix_append _ _)
  have hlast : (['v', '1', '.'] ++ b64 ++ ['.'] ++ mac).rtakeWhile (· ≠ '.') = mac := by
    have hall : ∀ c ∈ mac.reverse, decide (c ≠ '.') = true := by
      intro c hc
      exact decide_eq_true fun h => hmac (h ▸ List.mem_reverse.mp hc)
    rw [List.rtakeWhile, List.reverse_append, List.takeWhile_append_of_pos hall]
    simp
  have hlen : (['v', '1', '.'] ++ b64 ++ ['.'] ++ mac).length - mac.length - 1 =
      (['v', '1', '.'] ++ b64).length := by
    simp only [List.length_append, List.length_singleton]
    omega
  have hlong : ¬ (['v', '1', '.'] ++ b64).length ≤ 2 := by
    simp only [List.length_append, List.length_cons, List.length_nil]
    omega
  simp only [splitToken, hv1, hmark, if_true, hlast, hlen, if_neg hlong]
  rw [List.append_assoc, List.take_left]
  rfl

theorem isDigit_toNat {c : Char} (h : c.isDigit) : 48 ≤ c.toNat ∧ c.toNat ≤ 57 :=
  Char.isDigit_iff_toNat.mp h

theorem byte_toNat {c : Char} (h : c.isDigit) : (UInt8.ofNat c.toNat).toNat = c.toNat := by
  have hc := isDigit_toNat h
  refine UInt8.toNat_ofNat_of_lt (Nat.lt_of_le_of_lt hc.2 ?_)
  decide

theorem digitByte_range {n : Nat} {b : UInt8} (h : b ∈ Bytes.ofText (Text.decimal n)) :
    48 ≤ b.toNat ∧ b.toNat ≤ 57 := by
  obtain ⟨c, hc, rfl⟩ := List.mem_map.mp h
  have hdigit := Text.decimal_isDigit hc
  rw [byte_toNat hdigit]
  exact isDigit_toNat hdigit

/-- The value of a run of digits does not depend on whether it is taken in `Nat` or in `Int`. -/
theorem foldl_digits_cast {raw : Bytes} (h : ∀ b ∈ raw, 48 ≤ b.toNat) (m : Nat) :
    raw.foldl (fun (n : Int) b => 10 * n + ((b.toNat : Int) - 48)) (m : Int) =
      ((raw.foldl (fun n b => 10 * n + (b.toNat - 48)) m : Nat) : Int) := by
  induction raw generalizing m with
  | nil => rfl
  | cons b raw ih =>
    obtain ⟨hb, hraw⟩ := List.forall_mem_cons.mp h
    rw [List.foldl_cons, List.foldl_cons, ← ih hraw]
    congr 1
    omega

theorem digits_value (n : Nat) :
    (Bytes.ofText (Text.decimal n)).foldl
      (fun (n : Int) b => 10 * n + ((b.toNat : Int) - 48)) ((0 : Nat) : Int) = n := by
  have hparse := Text.parseDecimal_decimal n
  unfold Text.parseDecimal at hparse
  split at hparse
  · rw [foldl_digits_cast fun b hb => (digitByte_range hb).1]
    refine congrArg _ (Eq.trans ?_ (Option.some.inj hparse))
    rw [Bytes.ofText, List.foldl_map, Nat.ofDigitChars_eq_foldl]
    refine List.foldl_ext _ _ _ fun m c hc => ?_
    rw [byte_toNat (Text.decimal_isDigit hc)]
    rfl
  · simp at hparse

theorem leadingDigits_decimal (n : Nat) :
    leadingDigits (Bytes.ofText (Text.decimal n)) = Bytes.ofText (Text.decimal n) ∧
      (Bytes.ofText (Text.decimal n)).dropWhile isSpaceByte = Bytes.ofText (Text.decimal n) := by
  have hrange := @digitByte_range n
  generalize Bytes.ofText (Text.decimal n) = raw at hrange
  have hdigits : raw.takeWhile isDigitByte = raw := by
    refine List.takeWhile_eq_self_iff.mpr fun b hb => ?_
    have hb := hrange hb
    simp only [isDigitByte, Bool.and_eq_true, decide_eq_true_eq, UInt8.le_iff_toNat_le]
    exact hb
  have hspace : raw.dropWhile isSpaceByte = raw := by
    cases raw with
    | nil => rfl
    | cons b raw =>
      have hb := hrange List.mem_cons_self
      refine List.dropWhile_cons_of_neg ?_
      simp only [isSpaceByte, Bool.or_eq_true, Bool.and_eq_true, decide_eq_true_eq,
        UInt8.le_iff_toNat_le, ← UInt8.toNat_inj]
      show ¬ (b.toNat = 32 ∨ 9 ≤ b.toNat ∧ b.toNat ≤ 13)
      omega
  have hsign : ¬ (raw.head? = some 43 ∨ raw.head? = some 45) := by
    intro h
    have hmem : (43 : UInt8) ∈ raw ∨ (45 : UInt8) ∈ raw :=
      h.imp List.mem_of_mem_head? List.mem_of_mem_head?
    rcases hmem with hm | hm
    · exact absurd (hrange hm).1 (by decide)
    · exact absurd (hrange hm).1 (by decide)
  refine ⟨?_, hspace⟩
  simp only [leadingDigits, hspace, if_neg hsign, hdigits]

/-- A positive time is read back from its digits. -/
theorem atoll_printInt (lang : Lang) {k : Int} (hpos : 0 < k) (hlt : k < 2 ^ 63) :
    atoll lang (Bytes.ofText (printInt k)) = some k := by
  obtain ⟨n, rfl⟩ := Int.eq_ofNat_of_zero_le hpos.le
  have hprint : printInt n = Text.decimal n := by simp [printInt]
  obtain ⟨hdigits, hspace⟩ := leadingDigits_decimal n
  have hshort : ¬ (lang = .python ∧ maxStrDigits < (Bytes.ofText (Text.decimal n)).length) := by
    have hlen : (Text.decimal n).length ≤ 4300 := by
      refine (Nat.length_toDigits_le_iff (by decide) (by decide)).mpr ?_
      calc n < 10 ^ 19 := by omega
        _ ≤ 10 ^ 4300 := Nat.pow_le_pow_right (by decide) (by decide)
    rintro ⟨-, h⟩
    simp only [maxStrDigits, Bytes.ofText, List.length_map] at h
    omega
  have hsign : ¬ (Bytes.ofText (Text.decimal n)).head? = some 45 := by
    intro h
    exact absurd (digitByte_range (List.mem_of_mem_head? h)).1 (by decide)
  rw [hprint]
  simp only [atoll, hdigits, hspace, digits_value, if_neg hshort, if_neg hsign]
  rw [min_eq_left (by omega), max_eq_right (by omega)]

/-- Nothing of a token's lines but their ends is a line end. -/
theorem newline_notMem_printInt {k : Int} (hpos : 0 < k) : 10 ∉ Bytes.ofText (printInt k) := by
  obtain ⟨n, rfl⟩ := Int.eq_ofNat_of_zero_le hpos.le
  have hprint : printInt n = Text.decimal n := by simp [printInt]
  rw [hprint]
  intro h
  exact absurd (digitByte_range h).1 (by decide)

theorem payloadLines_tokenPayload (lang : Lang) {cn role jti : Bytes} (ttl : Int) {now : Int}
    (hcn : 10 ∉ cn) (hrole : 10 ∉ role) (hnow : 0 < now) (hexp : 0 < expiresAt lang now ttl)
    (hjti : 10 ∉ jti) (hne : jti ≠ []) :
    payloadLines (tokenPayload lang cn role ttl now jti) =
      [cn, role, Bytes.ofText (printInt now), Bytes.ofText (printInt (expiresAt lang now ttl)),
        jti] := by
  have hparts : ∀ l ∈ [cn, role, Bytes.ofText (printInt now),
      Bytes.ofText (printInt (expiresAt lang now ttl)), jti], 10 ∉ l := by
    simp only [List.mem_cons, List.not_mem_nil, or_false]
    rintro l (rfl | rfl | rfl | rfl | rfl)
    · exact hcn
    · exact hrole
    · exact newline_notMem_printInt hnow
    · exact newline_notMem_printInt hexp
    · exact hjti
  have hsplit : (tokenPayload lang cn role ttl now jti).splitOn 10 = _ :=
    List.splitOn_intercalate 10 hparts (by simp)
  have hlast : (tokenPayload lang cn role ttl now jti).getLast? ≠ some 10 := by
    have hend : ∃ front, tokenPayload lang cn role ttl now jti = front ++ jti := by
      refine ⟨cn ++ [10] ++ role ++ [10] ++ Bytes.ofText (printInt now) ++ [10] ++
        Bytes.ofText (printInt (expiresAt lang now ttl)) ++ [10], ?_⟩
      simp [tokenPayload, List.intercalate, List.intersperse]
    obtain ⟨front, hfront⟩ := hend
    rw [hfront, List.getLast?_append_of_ne_nil _ hne]
    intro h
    exact hjti (List.mem_of_getLast? h)
  simp only [payloadLines, if_neg hlast, hsplit]

theorem hexDigit_ne {n : Nat} (h : n < 16) : Bytes.hexDigit n ≠ '.' ∧ Bytes.hexDigit n ≠ '\n' := by
  have hall : ∀ n : Fin 16, Bytes.hexDigit n ≠ '.' ∧ Bytes.hexDigit n ≠ '\n' := by decide
  exact hall ⟨n, h⟩

theorem mem_toHex {data : Bytes} {c : Char} (h : c ∈ Bytes.toHex data) :
    ∃ n < 16, c = Bytes.hexDigit n := by
  obtain ⟨b, -, hc⟩ := List.mem_flatMap.mp h
  have hb := b.toNat_lt
  rcases List.mem_cons.mp hc with rfl | hc
  · exact ⟨b.toNat / 16, by omega, rfl⟩
  · rw [List.mem_singleton.mp hc]
    exact ⟨b.toNat % 16, by omega, rfl⟩

theorem dot_notMem_toHex (data : Bytes) : '.' ∉ Bytes.toHex data := by
  intro h
  obtain ⟨n, hn, he⟩ := mem_toHex h
  exact (hexDigit_ne hn).1 he.symm

theorem newline_notMem_toHex (data : Bytes) : 10 ∉ Bytes.ofText (Bytes.toHex data) := by
  intro h
  obtain ⟨c, hc, hten⟩ := List.mem_map.mp h
  obtain ⟨n, hn, rfl⟩ := mem_toHex hc
  have hall : ∀ n : Fin 16, UInt8.ofNat (Bytes.hexDigit n).toNat ≠ 10 := by decide
  exact hall ⟨n, hn⟩ hten

theorem expiresAt_eq (lang : Lang) {now ttl : Int} (hpos : 0 < now + ttl)
    (hlt : now + ttl < 2 ^ 63) : expiresAt lang now ttl = now + ttl := by
  cases lang with
  | python => rfl
  | cpp => exact Int.bmod_eq_of_le (by omega) (by omega)

/-- What a request to `issue` and its surroundings must satisfy for a token to come out. The digest
    is 32 bytes and the identifier 16, both printed in hexadecimal. -/
structure Issuable (env : GateEnv) (cn role : Bytes) (ttl now : Int) (jti : Bytes) : Prop where
  key : env.key ≠ []
  cn_ne : cn ≠ []
  cn_line : 10 ∉ cn
  role_line : 10 ∉ role
  ttl_pos : 0 < ttl
  now_pos : 0 < now
  fits : now + ttl < 2 ^ 63
  jti_hex : ∃ drawn : Bytes, drawn.length = 16 ∧ jti = Bytes.ofText (Bytes.toHex drawn)
  mac_hex : ∀ k m, ∃ digest : Bytes, digest.length = 32 ∧ env.hmacSha256Hex k m = Bytes.toHex digest

variable {env : GateEnv} {cn role jti : Bytes} {ttl now : Int} (defaultTtl clock : Int)

/-- The text in the middle of an issued token. -/
def issuedBody (lang : Lang) (cn role : Bytes) (ttl now : Int) (jti : Bytes) : List Char :=
  b64urlEncode (tokenPayload lang cn role ttl now jti)

theorem issue_eq (h : Issuable env cn role ttl now jti) (lang : Lang) :
    issue lang env defaultTtl clock cn role ttl now jti =
      ['v', '1', '.'] ++ issuedBody lang cn role ttl now jti ++ ['.'] ++
        env.hmacSha256Hex env.key
          (tokenContext ++ Bytes.ofText (issuedBody lang cn role ttl now jti)) := by
  have hok : ¬ (env.key = [] ∨ cn = [] ∨ 10 ∈ cn ∨ 10 ∈ role) := by
    rintro (hk | hc | hc | hr)
    · exact h.key hk
    · exact h.cn_ne hc
    · exact h.cn_line hc
    · exact h.role_line hr
  have httl : ¬ ttl ≤ 0 := by
    have := h.ttl_pos
    omega
  have hnow : ¬ now ≤ 0 := by
    have := h.now_pos
    omega
  simp only [issue, if_neg hok, if_neg httl, if_neg hnow]
  rfl

theorem splitToken_issue (h : Issuable env cn role ttl now jti) (lang : Lang) :
    splitToken (issue lang env defaultTtl clock cn role ttl now jti) =
      some (issuedBody lang cn role ttl now jti, env.hmacSha256Hex env.key
        (tokenContext ++ Bytes.ofText (issuedBody lang cn role ttl now jti))) := by
  rw [issue_eq defaultTtl clock h]
  obtain ⟨digest, -, hmac⟩ := h.mac_hex env.key
    (tokenContext ++ Bytes.ofText (issuedBody lang cn role ttl now jti))
  exact splitToken_mk (hmac ▸ dot_notMem_toHex digest)

theorem decode_issue (h : Issuable env cn role ttl now jti) (issuer verifier : Lang) :
    decode verifier (issue issuer env defaultTtl clock cn role ttl now jti) =
      some (some ⟨cn, role, jti, now, now + ttl⟩) := by
  have hpos : 0 < now + ttl := Int.add_pos h.now_pos h.ttl_pos
  have hexp := expiresAt_eq issuer hpos h.fits
  have hnow : now < 2 ^ 63 := by
    have := h.ttl_pos
    have := h.fits
    omega
  obtain ⟨drawn, hlen, hjti⟩ := h.jti_hex
  have hne : jti ≠ [] := by
    rw [hjti]
    refine List.ne_nil_of_length_pos ?_
    rw [Bytes.ofText, List.length_map, Bytes.length_toHex]
    omega
  have hlines := payloadLines_tokenPayload issuer ttl h.cn_line h.role_line h.now_pos
    (hexp ▸ hpos) (hjti ▸ newline_notMem_toHex drawn) hne
  have htoken : tokenLines verifier (issue issuer env defaultTtl clock cn role ttl now jti) =
      some (cn, role, Bytes.ofText (printInt now), Bytes.ofText (printInt (now + ttl)), jti) := by
    simp only [tokenLines, splitToken_issue defaultTtl clock h, Option.bind_eq_bind, Option.bind_some]
    rw [b64urlDecode_agree verifier .python, issuedBody, b64urlDecode_encode, Option.bind_some,
      hlines, hexp]
  simp only [decode, htoken, atoll_printInt verifier h.now_pos hnow,
    atoll_printInt verifier hpos h.fits]
  rfl

/-- A token verifies for as long as it lives, with what it was issued for, and is expired after that;
    whichever language issues it and whichever verifies it. -/
theorem verify_issue (h : Issuable env cn role ttl now jti) (issuer verifier : Lang) (t : Int)
    (revocations : Option Bytes) :
    (now ≤ t → t < now + ttl →
      GateEnv.isRevoked { env with now := t, revocations := revocations } jti = false →
        verify verifier { env with now := t, revocations := revocations }
          (issue issuer env defaultTtl clock cn role ttl now jti) =
            (some (.ok, some ⟨cn, role, jti, now, now + ttl⟩), [])) ∧
    (now + ttl ≤ t →
      verify verifier { env with now := t, revocations := revocations }
        (issue issuer env defaultTtl clock cn role ttl now jti) =
          (some (.expired, none), [sessionDenied .expired ⟨cn, role, jti, now, now + ttl⟩])) := by
  have hdecode := decode_issue defaultTtl clock h issuer verifier
  have hsplit := splitToken_issue defaultTtl clock h issuer
  constructor
  · intro _ hlt hlive
    have hfresh : ¬ now + ttl ≤ t := by omega
    simp only [verify, if_neg h.key, hdecode, hsplit, ne_eq, not_true_eq_false, if_false,
      if_neg hfresh, hlive, Bool.false_eq_true]
  · intro hle
    simp only [verify, if_neg h.key, hdecode, hsplit, ne_eq, not_true_eq_false, if_false, if_pos hle]

/-- A deployment with a digest of zeros. -/
def zerosEnv : GateEnv :=
  { key := [1]
    revocations := none
    roleMap := Dict.empty
    now := 0
    hmacSha256Hex := fun _ _ => Bytes.toHex (List.replicate 32 0) }

/-- A token for a name with a dot and a byte above 127, issued in C++ and verified in Python. -/
theorem verify_issue_dotted :
    verify .python { zerosEnv with now := 1030 }
      (issue .cpp zerosEnv 900 0 [97, 46, 233] [] 60 1000
        (Bytes.ofText (Bytes.toHex (List.replicate 16 7)))) =
      (some (.ok, some ⟨[97, 46, 233], [], Bytes.ofText (Bytes.toHex (List.replicate 16 7)), 1000,
        1060⟩), []) := by
  have hissuable : Issuable zerosEnv [97, 46, 233] [] 60 1000
      (Bytes.ofText (Bytes.toHex (List.replicate 16 7))) := by
    refine ⟨by simp [zerosEnv], by simp, by decide, by simp, by decide, by decide, by decide, ?_, ?_⟩
    · exact ⟨List.replicate 16 7, by simp, rfl⟩
    · exact fun _ _ => ⟨List.replicate 32 0, by simp, rfl⟩
  refine (verify_issue 900 0 hissuable .cpp .python 1030 none).1 (by decide) (by decide) ?_
  simp [GateEnv.isRevoked]

end Roundtrip

end Harpia
