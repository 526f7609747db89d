import Harpia.KeyProvider

namespace Harpia

/-- The values `encrypt_field` takes: byte strings in C++, text in Python. -/
def Plain : Lang → Type
  | .cpp => Bytes
  | .python => String

namespace Plain

def blank : (lang : Lang) → Plain lang
  | .cpp => ([] : Bytes)
  | .python => ""

/-- The bytes that are sealed; text is UTF-8. -/
def encode : {lang : Lang} → Plain lang → Bytes
  | .cpp, x => x
  | .python, x => (String.toUTF8 x).data.toList

def decode : (lang : Lang) → Bytes → Option (Plain lang)
  | .cpp, bs => some bs
  | .python, bs => String.fromUTF8? ⟨bs.toArray⟩

/-- A stored column value, taken as it is. -/
def ofStored : (lang : Lang) → List Char → Plain lang
  | .cpp, stored => Bytes.ofText stored
  | .python, stored => String.ofList stored

theorem decode_encode {lang : Lang} (x : Plain lang) : decode lang (encode x) = some x := by
  cases lang with
  | cpp => rfl
  | python =>
    have valid : (String.toUTF8 x).IsValidUTF8 := String.isValidUTF8 x
    have bytes : (⟨(String.toUTF8 x).data.toList.toArray⟩ : ByteArray) = String.toUTF8 x := rfl
    simp only [decode, encode, bytes, String.fromUTF8?, dif_pos valid]
    rfl

end Plain

/-- The marker before every encrypted column value. -/
def encMarker : List Char := "enc:v1:".toList

/-- `u64 kek_version | u32 len(wrapped DEK) | wrapped DEK | ciphertext`. The C++ casts truncate;
    `struct.pack` refuses a number that does not fit. -/
def frame (lang : Lang) (w : WrappedDek) (ciphertext : Bytes) : Option Bytes :=
  if lang = .python ∧ (2 ^ 64 ≤ w.kekVersion ∨ 2 ^ 32 ≤ w.bytes.length) then none
  else some (Bytes.putBE 8 w.kekVersion ++ Bytes.putBE 4 w.bytes.length ++ w.bytes ++ ciphertext)

/-- One value for storage, with the random bytes drawn for its DEK; nothing when the call raises. -/
def encryptField (lang : Lang) (p : KeyProvider) (dek : Bytes) (x : Plain lang) : Option (List Char) := do
  let w ← p.wrapDek dek
  let bytes ← frame lang w (Bytes.xorWith x.encode dek)
  return encMarker ++ Bytes.toHex bytes

/-- Where the ciphertext starts; the C++ sum `12u + wrapped_len` is 32 bits wide. -/
def frameEnd : Lang → Nat → Nat
  | .cpp, wrappedLen => (12 + wrappedLen) % 2 ^ 32
  | .python, wrappedLen => 12 + wrappedLen

/-- The wrapped DEK and the ciphertext of a stored value's hexadecimal body. -/
def parseFrame (lang : Lang) (body : List Char) : Option (WrappedDek × Bytes) := do
  let bytes ← Bytes.fromHex body
  if bytes.length < 12 then none
  else
    let wrappedLen := Bytes.getBE ((bytes.drop 8).take 4)
    if bytes.length < frameEnd lang wrappedLen then none
    else
      some (⟨Bytes.getBE (bytes.take 8), (bytes.drop 12).take wrappedLen⟩,
        bytes.drop (frameEnd lang wrappedLen))

def decryptField (lang : Lang) (p : KeyProvider) (stored : List Char) : Plain lang :=
  if encMarker.isPrefixOf stored then
    match parseFrame lang (stored.drop encMarker.length) with
    | none => Plain.blank lang
    | some (w, ciphertext) =>
      match p.unwrapDek w with
      | none => Plain.blank lang
      | some dek => (Plain.decode lang (Bytes.xorWith ciphertext dek)).getD (Plain.blank lang)
  else Plain.ofStored lang stored

/-- A frame whose numbers fit is taken apart as it was put together. -/
theorem parseFrame_frame {lang : Lang} {w : WrappedDek} {ciphertext bytes : Bytes}
    (h : frame lang w ciphertext = some bytes) (hv : w.kekVersion < 2 ^ 64)
    (hn : w.bytes.length + 12 < 2 ^ 32) :
    parseFrame lang (Bytes.toHex bytes) = some (w, ciphertext) := by
  have fits : ¬ (lang = .python ∧ (2 ^ 64 ≤ w.kekVersion ∨ 2 ^ 32 ≤ w.bytes.length)) := by omega
  rw [frame, if_neg fits, Option.some.injEq] at h
  subst h
  have version : Bytes.getBE (Bytes.putBE 8 w.kekVersion) = w.kekVersion :=
    Bytes.getBE_putBE (by omega)
  have wrappedLen : Bytes.getBE (Bytes.putBE 4 w.bytes.length) = w.bytes.length :=
    Bytes.getBE_putBE (by omega)
  have start : frameEnd lang w.bytes.length = 12 + w.bytes.length := by
    cases lang
    · exact Nat.mod_eq_of_lt (by omega)
    · rfl
  have l8 : (Bytes.putBE 8 w.kekVersion).length = 8 := Bytes.length_putBE 8 _
  have l4 : (Bytes.putBE 4 w.bytes.length).length = 4 := Bytes.length_putBE 4 _
  generalize Bytes.putBE 8 w.kekVersion = high at *
  generalize Bytes.putBE 4 w.bytes.length = low at *
  have header : (high ++ low ++ w.bytes ++ ciphertext).take 8 = high := by
    simp [List.append_assoc, ← l8]
  have len : ((high ++ low ++ w.bytes ++ ciphertext).drop 8).take 4 = low := by
    simp [List.append_assoc, ← l8, ← l4]
  have rest : (high ++ low ++ w.bytes ++ ciphertext).drop 12 = w.bytes ++ ciphertext := by
    have twelve : 12 = (high ++ low).length := by simp [l8, l4]
    rw [twelve, List.append_assoc (high ++ low), List.drop_left]
  have total : (high ++ low ++ w.bytes ++ ciphertext).length
      = 12 + w.bytes.length + ciphertext.length := by
    simp only [List.length_append, l8, l4]
  simp only [parseFrame, Bytes.fromHex_toHex, Option.bind_eq_bind, Option.bind_some]
  rw [header, len, version, wrappedLen, start, total, if_neg (by omega), if_neg (by omega)]
  rw [← List.drop_drop, rest, List.take_left, List.drop_left]

/-- The wrapped DEK inside a stored value. -/
def wrappedOf (lang : Lang) (stored : List Char) : Option WrappedDek :=
  (parseFrame lang (stored.drop encMarker.length)).map Prod.fst

/-- What an encryption that returned has put into its value. -/
theorem encryptField_eq_some {lang : Lang} {p : KeyProvider} {dek : Bytes} {x : Plain lang}
    {stored : List Char} (h : encryptField lang p dek x = some stored) (hd : dek.length = 32)
    (hv : lang = .cpp → p.active < 2 ^ 64) :
    ∃ kek, p.keks.get? p.active = some kek ∧ encMarker.isPrefixOf stored ∧
      parseFrame lang (stored.drop encMarker.length)
        = some (⟨p.active, Bytes.xorWith dek kek⟩, Bytes.xorWith x.encode dek) := by
  obtain ⟨w, hw, rest⟩ := Option.bind_eq_some_iff.mp h
  obtain ⟨bytes, hf, hs⟩ := Option.bind_eq_some_iff.mp rest
  obtain ⟨kek, hk, rfl⟩ := KeyProvider.wrapDek_eq_some.mp hw
  simp only [Option.pure_def, Option.some.injEq] at hs
  subst hs
  have version : p.active < 2 ^ 64 := by
    cases lang with
    | cpp => exact hv rfl
    | python =>
      by_contra big
      have refused : frame .python ⟨p.active, Bytes.xorWith dek kek⟩ (Bytes.xorWith x.encode dek) = none :=
        if_pos ⟨rfl, Or.inl (Nat.le_of_not_lt big)⟩
      rw [refused] at hf
      cases hf
  have short : (Bytes.xorWith dek kek).length + 12 < 2 ^ 32 := by
    rw [Bytes.length_xorWith, hd]
    decide
  refine ⟨kek, hk, List.isPrefixOf_iff_prefix.mpr (List.prefix_append _ _), ?_⟩
  rw [List.drop_left]
  exact parseFrame_frame hf version short

/-- A stored value opens exactly when its wrapped DEK does. -/
theorem decryptField_of_parse {lang : Lang} {p : KeyProvider} {stored : List Char} {w : WrappedDek}
    {ciphertext : Bytes} (hm : encMarker.isPrefixOf stored)
    (hp : parseFrame lang (stored.drop encMarker.length) = some (w, ciphertext)) :
    decryptField lang p stored = (p.unwrapDek w).elim (Plain.blank lang) fun dek =>
      (Plain.decode lang (Bytes.xorWith ciphertext dek)).getD (Plain.blank lang) := by
  simp only [decryptField, hm, if_true, hp]
  cases p.unwrapDek w <;> rfl

end Harpia
