import Harpia.Lib.Bytes

namespace Utf8

def encode (cs : List Char) : Bytes := cs.flatMap String.utf8EncodeChar

/-- The character whose encoding the bytes start with. -/
def decodeChar? (bs : Bytes) : Option Char := bs.toByteArray.utf8DecodeChar? 0

/-- A continuation byte in its place after a lead byte: the second one has a narrower range after some. -/
def continues (lead second : UInt8) : Bool :=
  let low := if lead = 0xE0 then 0xA0 else if lead = 0xF0 then 0x90 else 0x80
  let high := if lead = 0xED then 0x9F else if lead = 0xF4 then 0x8F else 0xBF
  low ≤ second && second ≤ high

/-- How many bytes one replacement character stands for, where no character starts: the lead byte and
what could still have followed it. -/
def badLength : Bytes → Nat
  | lead :: second :: rest =>
    if 0xE0 ≤ lead ∧ lead ≤ 0xEF then if continues lead second then 2 else 1
    else if 0xF0 ≤ lead ∧ lead ≤ 0xF4 then
      if continues lead second then
        match rest with
        | third :: _ => if 0x80 ≤ third ∧ third ≤ 0xBF then 3 else 2
        | [] => 2
      else 1
    else 1
  | _ => 1

/-- Decoding, once `skip` bytes are passed; what is no character is replaced. -/
def decodeFrom : (skip : Nat) → Bytes → List Char
  | _, [] => []
  | skip + 1, _ :: bs => decodeFrom skip bs
  | 0, b :: bs =>
    match decodeChar? (b :: bs) with
    | some c => c :: decodeFrom (c.utf8Size - 1) bs
    | none => '\uFFFD' :: decodeFrom (badLength (b :: bs) - 1) bs

/-- `decode` with `errors="replace"`. -/
def decode (bs : Bytes) : List Char := decodeFrom 0 bs

theorem decodeChar?_eq_some {bs : Bytes} {c : Char} :
    decodeChar? bs = some c ↔ ∃ rest, bs = String.utf8EncodeChar c ++ rest := by
  constructor
  · intro h
    obtain ⟨rest, hrest⟩ := ByteArray.exists_of_utf8DecodeChar?_eq_some h
    refine ⟨rest.data.toList, List.toByteArray_inj.mp ?_⟩
    rw [hrest, List.toByteArray_append]
    congr 1
    exact ByteArray.ext (by rw [List.data_toByteArray])
  · rintro ⟨rest, rfl⟩
    rw [decodeChar?, List.toByteArray_append]
    exact ByteArray.utf8DecodeChar?_utf8EncodeChar_append

/-- An ASCII character is its own byte; every byte of another one lies above. -/
theorem encodeChar_cases (c : Char) :
    (c.toNat < 128 ∧ String.utf8EncodeChar c = [UInt8.ofNat c.toNat]) ∨
      (128 ≤ c.toNat ∧ ∀ b ∈ String.utf8EncodeChar c, 128 ≤ b.toNat) := by
  have above : ∀ n, 128 ≤ n → n < 256 → 128 ≤ (UInt8.ofNat n).toNat := by
    intro n low high
    rwa [UInt8.toNat_ofNat_of_lt' high]
  unfold String.utf8EncodeChar
  simp only [Char.toNat]
  split_ifs with one two three
  · exact Or.inl ⟨by omega, rfl⟩
  all_goals
    refine Or.inr ⟨by omega, fun b hb => ?_⟩
    simp only [List.mem_cons, List.not_mem_nil, or_false] at hb
  · rcases hb with rfl | rfl <;> exact above _ (by omega) (by omega)
  · rcases hb with rfl | rfl | rfl <;> exact above _ (by omega) (by omega)
  · rcases hb with rfl | rfl | rfl | rfl <;> exact above _ (by omega) (by omega)

theorem toNat_ofNat_ascii {n : Nat} (h : n < 128) : (Char.ofNat n).toNat = n := by
  have valid : n.isValidChar := Or.inl (by omega)
  rw [Char.ofNat, dif_pos valid]
  rfl

theorem decodeChar?_ascii {b : UInt8} (h : b.toNat < 128) (bs : Bytes) :
    decodeChar? (b :: bs) = some (Char.ofNat b.toNat) := by
  have small := toNat_ofNat_ascii h
  refine decodeChar?_eq_some.mpr ⟨bs, ?_⟩
  rcases encodeChar_cases (Char.ofNat b.toNat) with ⟨_, one⟩ | ⟨above, _⟩
  · rw [one, small, UInt8.ofNat_toNat]
    rfl
  · omega

/-- What follows an ASCII byte does not matter to a character before it. -/
theorem decodeChar?_append {x : Bytes} (hx : x ≠ []) {b : UInt8} (h : b.toNat < 128) (y : Bytes) :
    decodeChar? (x ++ b :: y) = decodeChar? x := by
  have same : ∀ c, (∃ rest, x ++ b :: y = String.utf8EncodeChar c ++ rest) ↔
      ∃ rest, x = String.utf8EncodeChar c ++ rest := by
    intro c
    constructor
    · rintro ⟨rest, hrest⟩
      rcases List.append_eq_append_iff.mp hrest with ⟨mid, hc, hmid⟩ | ⟨mid, hc, hmid⟩
      · -- the character would run over the ASCII byte
        cases mid with
        | nil => exact ⟨[], by simpa using hc.symm⟩
        | cons m mid =>
          rw [List.cons_append] at hmid
          obtain ⟨rfl, _⟩ := List.cons.inj hmid
          have inside : b ∈ String.utf8EncodeChar c := by
            rw [hc]
            simp
          rcases encodeChar_cases c with ⟨_, one⟩ | ⟨_, above⟩
          · rw [one] at hc
            have := congrArg List.length hc
            have := List.length_pos_iff.mpr hx
            simp only [List.length_append, List.length_cons, List.length_nil] at *
            omega
          · exact absurd (above b inside) (by omega)
      · exact ⟨mid, hc⟩
    · rintro ⟨rest, rfl⟩
      exact ⟨rest ++ b :: y, by rw [List.append_assoc]⟩
  cases hd : decodeChar? x with
  | some c => exact decodeChar?_eq_some.mpr ((same c).mpr (decodeChar?_eq_some.mp hd))
  | none =>
    cases hd' : decodeChar? (x ++ b :: y) with
    | none => rfl
    | some c =>
      rw [decodeChar?_eq_some.mpr ((same c).mp (decodeChar?_eq_some.mp hd'))] at hd
      cases hd

theorem badLength_append {x : Bytes} (hx : x ≠ []) {b : UInt8} (h : b.toNat < 128) (y : Bytes) :
    badLength (x ++ b :: y) = badLength x := by
  have low : ¬ (0x80 : UInt8) ≤ b := by
    rw [UInt8.le_iff_toNat_le]
    exact Nat.not_le.mpr h
  have stops : ∀ lead, continues lead b = false := by
    intro lead
    have above : ∀ k : UInt8, 0x80 ≤ k → decide (k ≤ b) = false := fun k hk =>
      decide_eq_false fun hb => low (UInt8.le_trans hk hb)
    unfold continues
    simp only
    split_ifs <;> rw [above _ (by decide), Bool.false_and]
  rcases x with _ | ⟨lead, _ | ⟨second, _ | ⟨third, rest⟩⟩⟩
  · exact absurd rfl hx
  · simp [badLength, stops]
  · simp [badLength, low]
  · rfl

theorem badLength_le {b : UInt8} {bs : Bytes} : badLength (b :: bs) - 1 ≤ bs.length := by
  rcases bs with _ | ⟨second, _ | ⟨third, rest⟩⟩
  · exact Nat.le_refl 0
  all_goals
    simp only [badLength, List.length_cons]
    split_ifs <;> omega

/-- An ASCII byte starts afresh. -/
theorem decodeFrom_append {skip : Nat} {x : Bytes} (hs : skip ≤ x.length) {b : UInt8}
    (h : b.toNat < 128) (y : Bytes) :
    decodeFrom skip (x ++ b :: y) = decodeFrom skip x ++ Char.ofNat b.toNat :: decode y := by
  induction x generalizing skip with
  | nil =>
    obtain rfl : skip = 0 := Nat.le_zero.mp hs
    have size : (Char.ofNat b.toNat).utf8Size = 1 := by
      have small := toNat_ofNat_ascii h
      rcases encodeChar_cases (Char.ofNat b.toNat) with ⟨_, one⟩ | ⟨above, _⟩
      · rw [← String.length_utf8EncodeChar, one]
        rfl
      · omega
    have head : decodeFrom 0 (b :: y) = Char.ofNat b.toNat :: decode y := by
      rw [decodeFrom, decodeChar?_ascii h]
      simp only [size]
      rfl
    exact head
  | cons x xs ih =>
    rw [List.cons_append]
    cases skip with
    | succ skip =>
      rw [decodeFrom, decodeFrom]
      exact ih (Nat.le_of_succ_le_succ hs)
    | zero =>
      have head := decodeChar?_append (List.cons_ne_nil x xs) h y
      have bad := badLength_append (List.cons_ne_nil x xs) h y
      rw [List.cons_append] at head bad
      rw [decodeFrom, decodeFrom, head, bad]
      cases hd : decodeChar? (x :: xs) with
      | none =>
        simp only
        rw [ih badLength_le]
        rfl
      | some c =>
        have fits : c.utf8Size - 1 ≤ xs.length := by
          obtain ⟨rest, hrest⟩ := decodeChar?_eq_some.mp hd
          have := congrArg List.length hrest
          rw [List.length_append, String.length_utf8EncodeChar, List.length_cons] at this
          omega
        simp only
        rw [ih fits]
        rfl

theorem decode_append (x : Bytes) {b : UInt8} (h : b.toNat < 128) (y : Bytes) :
    decode (x ++ b :: y) = decode x ++ Char.ofNat b.toNat :: decode y :=
  decodeFrom_append (Nat.zero_le _) h y

/-- An ASCII character of the text was a byte. -/
theorem mem_of_mem_decodeFrom {skip : Nat} {bs : Bytes} {c : Char} (h : c ∈ decodeFrom skip bs)
    (ascii : c.toNat < 128) : UInt8.ofNat c.toNat ∈ bs := by
  induction bs generalizing skip with
  | nil => simp [decodeFrom] at h
  | cons b bs ih =>
    cases skip with
    | succ skip =>
      rw [decodeFrom] at h
      exact List.mem_cons_of_mem _ (ih h)
    | zero =>
      rw [decodeFrom] at h
      cases hd : decodeChar? (b :: bs) with
      | none =>
        rw [hd] at h
        rcases List.mem_cons.mp h with rfl | h
        · exact absurd ascii (by decide)
        · exact List.mem_cons_of_mem _ (ih h)
      | some d =>
        rw [hd] at h
        rcases List.mem_cons.mp h with rfl | h
        · obtain ⟨rest, hrest⟩ := decodeChar?_eq_some.mp hd
          rcases encodeChar_cases c with ⟨_, one⟩ | ⟨above, _⟩
          · rw [one] at hrest
            rw [hrest]
            exact List.mem_cons_self ..
          · omega
        · exact List.mem_cons_of_mem _ (ih h)

theorem decodeFrom_length (xs ys : Bytes) : decodeFrom xs.length (xs ++ ys) = decode ys := by
  induction xs with
  | nil => rfl
  | cons x xs ih => exact ih

/-- Decoding reads an encoding back. -/
@[simp] theorem decode_encode (cs : List Char) : decode (encode cs) = cs := by
  induction cs with
  | nil => rfl
  | cons c cs ih =>
    have split : encode (c :: cs) = String.utf8EncodeChar c ++ encode cs := rfl
    have head : decodeChar? (encode (c :: cs)) = some c := decodeChar?_eq_some.mpr ⟨_, split⟩
    obtain ⟨b, bs, hb⟩ := List.exists_cons_of_ne_nil (String.utf8EncodeChar_ne_nil (c := c))
    have size : c.utf8Size - 1 = bs.length := by
      have := String.length_utf8EncodeChar c
      rw [hb, List.length_cons] at this
      omega
    rw [split, hb, List.cons_append] at head ⊢
    rw [decode, decodeFrom, head]
    simp only [size, decodeFrom_length]
    rw [ih]

/-- An ASCII text comes from its own bytes only. -/
theorem encode_decode_of_ascii {bs : Bytes} (h : ∀ c ∈ decode bs, c.toNat < 128) :
    encode (decode bs) = bs := by
  induction bs with
  | nil => rfl
  | cons b bs ih =>
    rw [decode, decodeFrom] at h ⊢
    cases hd : decodeChar? (b :: bs) with
    | none =>
      rw [hd] at h
      exact absurd (h _ (List.mem_cons_self ..)) (by decide)
    | some c =>
      rw [hd] at h
      have ascii := h c (List.mem_cons_self ..)
      rcases encodeChar_cases c with ⟨_, one⟩ | ⟨above, _⟩
      · have size : c.utf8Size - 1 = 0 := by
          rw [← String.length_utf8EncodeChar, one]
          rfl
        simp only [size] at h ⊢
        obtain ⟨rest, hrest⟩ := decodeChar?_eq_some.mp hd
        have same := ih fun d hd => h d (List.mem_cons_of_mem _ hd)
        rw [one] at hrest
        obtain ⟨rfl, _⟩ := List.cons.inj hrest
        have split : encode (c :: decodeFrom 0 bs) =
            String.utf8EncodeChar c ++ encode (decode bs) := rfl
        rw [split, one, same]
        rfl
      · omega

theorem encode_ofText {cs : List Char} (h : ∀ c ∈ cs, c.toNat < 128) : encode cs = Bytes.ofText cs := by
  induction cs with
  | nil => rfl
  | cons c cs ih =>
    have rest := ih fun d hd => h d (List.mem_cons_of_mem _ hd)
    have split : encode (c :: cs) = String.utf8EncodeChar c ++ encode cs := rfl
    rcases encodeChar_cases c with ⟨_, one⟩ | ⟨above, _⟩
    · rw [split, one, rest]
      rfl
    · have := h c List.mem_cons_self
      omega

theorem encode_injective : Function.Injective encode := fun x y h => by
  rw [← decode_encode x, h, decode_encode]

example : decode [0x61, 0xE2, 0x82, 0x28, 0xC2, 0xA0, 0xFF] = ['a', '\uFFFD', '(', '\u00A0', '\uFFFD'] := by
  decide +kernel

end Utf8
