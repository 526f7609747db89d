import Harpia.EncryptedColumn

namespace Harpia

/-- The length of the wrapped key, as a frame's header declares it. -/
def declaredLen (bytes : Bytes) : Nat := Bytes.getBE ((bytes.drop 8).take 4)

/-- What follows the marker is no frame: it is not hexadecimal of even length, the header is not
whole, or the declared key does not fit. -/
def Malformed (body : List Char) : Prop :=
  Bytes.fromHex body = none ∨ ∃ bytes, Bytes.fromHex body = some bytes ∧
    (bytes.length < 12 ∨ bytes.length < 12 + declaredLen bytes)

/-- The header is whole, and its length is one of the last twelve of 32 bits. -/
def Overflows (body : List Char) : Prop :=
  ∃ bytes, Bytes.fromHex body = some bytes ∧ 12 ≤ bytes.length ∧ 2 ^ 32 - 12 ≤ declaredLen bytes

theorem getBE_lt (bs : Bytes) : Bytes.getBE bs < 256 ^ bs.length := by
  induction bs using List.reverseRecOn with
  | nil => decide
  | append_singleton bs b ih =>
    have step : Bytes.getBE (bs ++ [b]) = Bytes.getBE bs * 256 + b.toNat := by
      simp only [Bytes.getBE, List.foldl_append, List.foldl_cons, List.foldl_nil]
    have hb := b.toNat_lt
    rw [step, List.length_append, List.length_singleton, Nat.pow_succ]
    omega

theorem declaredLen_lt (bytes : Bytes) : declaredLen bytes < 2 ^ 32 := by
  have bound := getBE_lt ((bytes.drop 8).take 4)
  have four : ((bytes.drop 8).take 4).length ≤ 4 := by
    rw [List.length_take]
    exact Nat.min_le_left _ _
  have power : 256 ^ ((bytes.drop 8).take 4).length ≤ 256 ^ 4 := Nat.pow_le_pow_right (by decide) four
  exact Nat.lt_of_lt_of_le bound power

/-- The frame of a body, where the header is whole. -/
theorem parseFrame_of_header {lang : Lang} {body : List Char} {bytes : Bytes}
    (h : Bytes.fromHex body = some bytes) (header : 12 ≤ bytes.length) :
    parseFrame lang body =
      if bytes.length < frameEnd lang (declaredLen bytes) then none
      else some (⟨Bytes.getBE (bytes.take 8), (bytes.drop 12).take (declaredLen bytes)⟩,
        bytes.drop (frameEnd lang (declaredLen bytes))) := by
  simp only [parseFrame, h, Option.bind_eq_bind, Option.bind_some]
  rw [if_neg (by omega)]
  rfl

theorem parseFrame_of_short {lang : Lang} {body : List Char} {bytes : Bytes}
    (h : Bytes.fromHex body = some bytes) (short : bytes.length < 12) :
    parseFrame lang body = none := by
  simp only [parseFrame, h, Option.bind_eq_bind, Option.bind_some]
  rw [if_pos short]

theorem frameEnd_of_fits {n : Nat} (h : n < 2 ^ 32 - 12) : frameEnd .cpp n = frameEnd .python n :=
  Nat.mod_eq_of_lt (by omega)

theorem frameEnd_of_overflow {n : Nat} (h : 2 ^ 32 - 12 ≤ n) (hn : n < 2 ^ 32) :
    frameEnd .cpp n = n + 12 - 2 ^ 32 := by
  rw [frameEnd]
  omega

theorem parseFrame_agree {body : List Char} (h : ¬ Overflows body) :
    parseFrame .cpp body = parseFrame .python body := by
  cases hex : Bytes.fromHex body with
  | none => simp only [parseFrame, hex, Option.bind_eq_bind, Option.bind_none]
  | some bytes =>
    by_cases header : 12 ≤ bytes.length
    · have fits : declaredLen bytes < 2 ^ 32 - 12 := by
        by_contra big
        exact h ⟨bytes, hex, header, by omega⟩
      rw [parseFrame_of_header hex header, parseFrame_of_header hex header, frameEnd_of_fits fits]
    · rw [parseFrame_of_short hex (by omega), parseFrame_of_short hex (by omega)]

/-- Where the sum overflows, C++ takes the ciphertext from within the header on. -/
theorem parseFrame_ne {body : List Char} (h : Overflows body) :
    parseFrame .cpp body ≠ parseFrame .python body := by
  obtain ⟨bytes, hex, header, big⟩ := h
  have wrapped := frameEnd_of_overflow big (declaredLen_lt bytes)
  have early : frameEnd .cpp (declaredLen bytes) < 12 := by
    have bound := declaredLen_lt bytes
    omega
  rw [parseFrame_of_header hex header, parseFrame_of_header hex header, if_neg (by omega)]
  split
  · simp
  next fits =>
    intro same
    have tails := congrArg (fun o : Option (WrappedDek × Bytes) => (o.map fun r => r.2.length)) same
    simp only [Option.map_some, List.length_drop, Option.some.injEq] at tails
    have later : 12 ≤ frameEnd .python (declaredLen bytes) := by
      rw [frameEnd]
      omega
    omega

theorem parseFrame_of_malformed {body : List Char} (h : Malformed body) :
    parseFrame .python body = none := by
  rcases h with hex | ⟨bytes, hex, short | long⟩
  · simp only [parseFrame, hex, Option.bind_eq_bind, Option.bind_none]
  · exact parseFrame_of_short hex short
  · by_cases header : 12 ≤ bytes.length
    · rw [parseFrame_of_header hex header, frameEnd, if_pos long]
    · exact parseFrame_of_short hex (by omega)

theorem decryptField_of_none {lang : Lang} {body : List Char} (h : parseFrame lang body = none)
    (p : KeyProvider) : decryptField lang p (encMarker ++ body) = Plain.blank lang := by
  have marked : encMarker.isPrefixOf (encMarker ++ body) = true :=
    List.isPrefixOf_iff_prefix.mpr (List.prefix_append _ _)
  simp only [decryptField, if_pos marked, List.drop_left, h]

/-- The C++ `decrypt_field` is to give the empty string for what is no frame, and to part every
frame as Python does. -/
structure FrameLaw (body : List Char) : Prop where
  refuses : Malformed body → ∀ p, decryptField .cpp p (encMarker ++ body) = Plain.blank .cpp
  parts : parseFrame .cpp body = parseFrame .python body

/-- It does so exactly if twelve and the declared length do not overflow 32 bits. -/
theorem decrypt_field_lawful_iff (body : List Char) : FrameLaw body ↔ ¬ Overflows body := by
  refine ⟨fun law overflows => parseFrame_ne overflows law.parts, fun fits => ?_⟩
  have same := parseFrame_agree fits
  refine ⟨fun malformed p => ?_, same⟩
  rw [parseFrame_of_malformed malformed] at same
  exact decryptField_of_none same p

/-- Version 1, the length `ffffffff`, and one more byte. -/
def overflowingBody : List Char := "0000000000000001ffffffff00".toList

/-- A frame of thirteen bytes that declares a key of 4294967295 is not refused. -/
theorem not_decrypt_field_lawful : ¬ ∀ body, FrameLaw body := by
  intro h
  have malformed : Malformed overflowingBody :=
    .inr ⟨[0, 0, 0, 0, 0, 0, 0, 1, 255, 255, 255, 255, 0], by decide +kernel, by decide +kernel⟩
  have blank := (h overflowingBody).refuses malformed (.fresh [7])
  have some_ : List.length (α := UInt8)
      (decryptField .cpp (.fresh [7]) (encMarker ++ overflowingBody)) ≠ 0 := by decide +kernel
  rw [blank] at some_
  exact some_ rfl

end Harpia
