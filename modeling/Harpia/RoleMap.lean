import Harpia.Lib.Words
import Harpia.LocalKeyStore
import Harpia.Session

namespace Harpia

namespace RoleMap

variable {α : Type} [DecidableEq α]

/-- `parse_role`, on the texts of either language. -/
def parseRole (text : String → List α) (s : List α) : Role :=
  if s = text "admin" then .admin
  else if s = text "main" then .main
  else if s = text "guest" then .guest
  else .none

/-- The binding of a line with at least two words. -/
def binding (text : String → List α) : List (List α) → Option (List α × Role)
  | cn :: role :: _ => some (cn, parseRole text role)
  | _ => none

/-- A line of the file, up to a `#`. -/
def readLine (text : String → List α) (hash : α) (space : α → Bool) (line : List α) :
    Option (List α × Role) :=
  binding text (Text.splitWords space (line.takeWhile fun c => !(c = hash)))

/-- The C++ reader takes the words of `>>` in the C locale. -/
def readCpp : Bytes → Option (Bytes × Role) :=
  readLine (fun s => Bytes.ofText s.toList) 35 isSpaceByte

/-- The Python reader takes those of `str.split`. -/
def readPython : List Char → Option (List Char × Role) := readLine String.toList '#' Text.isBlank

/-- The C++ `from_file`, on bytes cut by `getline`. -/
def fromFileCpp (file : Bytes) : Dict Bytes Role :=
  Dict.ofPairs ((file.splitOnP (· = 10)).filterMap readCpp)

/-- The Python `from_file`, on decoded text with universal newlines. -/
def fromFilePython (file : Bytes) : Dict (List Char) Role :=
  Dict.ofPairs ((Text.lines (Utf8.decode file)).filterMap readPython)

/-- `role_for`. -/
def roleFor (byCn : Dict (List α) Role) (cn : List α) : Role :=
  if cn = [] then .none else (byCn.get? cn).getD .none

/-- The words the C++ reader finds on a line. -/
def wordsOf (line : Bytes) : List Bytes :=
  Text.splitWords isSpaceByte (line.takeWhile fun b => !(b = 35))

/-- The word is cut nowhere else by the Python reader. -/
def oneWord (word : Bytes) : Bool := (Utf8.decode word).all fun c => !Text.isBlank c

/-- The CN of a line with two words is UTF-8. -/
def ReadableCn : List Bytes → Prop
  | cn :: _ :: _ => Utf8.encode (Utf8.decode cn) = cn
  | _ => True

instance (words : List Bytes) : Decidable (ReadableCn words) :=
  match words with
  | [] => inferInstanceAs (Decidable True)
  | [_] => inferInstanceAs (Decidable True)
  | _ :: _ :: _ => inferInstanceAs (Decidable (_ = _))

/-- A line both readers cut alike: only blanks follow a carriage return, the first two words hold no
blank that only Python knows, and the CN is readable. -/
structure PlainLine (line : Bytes) : Prop where
  return_last : (line.dropWhile (· ≠ 13)).all isSpaceByte
  words : ((wordsOf line).take 2).all oneWord
  cn : ReadableCn (wordsOf line)

instance (line : Bytes) : Decidable (PlainLine line) :=
  decidable_of_iff ((line.dropWhile (· ≠ 13)).all isSpaceByte ∧
      ((wordsOf line).take 2).all oneWord ∧ ReadableCn (wordsOf line))
    ⟨fun ⟨ends, words, cn⟩ => ⟨ends, words, cn⟩, fun ⟨ends, words, cn⟩ => ⟨ends, words, cn⟩⟩

/-- A file of such lines. -/
def PlainFile (file : Bytes) : Prop := ∀ line ∈ file.splitOnP (· = 10), PlainLine line

instance (file : Bytes) : Decidable (PlainFile file) := inferInstanceAs (Decidable (∀ _ ∈ _, _))

theorem isSpaceByte_eq : isSpaceByte = Utf8.asciiByte isCSpace := by
  funext b
  have kinds : Utf8.asciiByte isCSpace b =
      (b = 32 || b = 9 || b = 10 || b = 11 || b = 12 || b = 13) := by
    unfold isCSpace
    simp only [Utf8.asciiByte_or]
    rw [Utf8.asciiByte_eq (by decide), Utf8.asciiByte_eq (by decide), Utf8.asciiByte_eq (by decide),
      Utf8.asciiByte_eq (by decide), Utf8.asciiByte_eq (by decide), Utf8.asciiByte_eq (by decide)]
    rfl
  rw [kinds, Bool.eq_iff_iff]
  simp only [isSpaceByte, Bool.or_eq_true, Bool.and_eq_true, decide_eq_true_eq,
    UInt8.le_iff_toNat_le, ← UInt8.toNat_inj]
  have literals : (9 : UInt8).toNat = 9 ∧ (10 : UInt8).toNat = 10 ∧ (11 : UInt8).toNat = 11 ∧
      (12 : UInt8).toNat = 12 ∧ (13 : UInt8).toNat = 13 ∧ (32 : UInt8).toNat = 32 := by decide
  omega

theorem isCSpace_ascii {c : Char} (h : isCSpace c) : c.toNat < 128 := by
  simp only [isCSpace, Bool.or_eq_true, decide_eq_true_eq] at h
  rcases h with ((((rfl | rfl) | rfl) | rfl) | rfl) | rfl <;> decide

theorem isBlank_of_isCSpace {c : Char} (h : isCSpace c) : Text.isBlank c := by
  simp only [isCSpace, Bool.or_eq_true, decide_eq_true_eq] at h
  rcases h with ((((rfl | rfl) | rfl) | rfl) | rfl) | rfl <;> decide

theorem decode_eq_ascii {word : Bytes} {s : List Char} (ascii : ∀ c ∈ s, c.toNat < 128) :
    Utf8.decode word = s ↔ word = Utf8.encode s := by
  constructor
  · rintro rfl
    exact (Utf8.encode_decode_of_ascii ascii).symm
  · rintro rfl
    exact Utf8.decode_encode s

theorem parseRole_decode (word : Bytes) :
    parseRole String.toList (Utf8.decode word) =
      parseRole (fun s => Bytes.ofText s.toList) word := by
  have named : ∀ s ∈ ["admin", "main", "guest"], (Utf8.decode word = s.toList ↔
      word = Bytes.ofText s.toList) := by
    intro s hs
    have ascii : s.toList.all (fun c => c.toNat < 128) ∧
        Utf8.encode s.toList = Bytes.ofText s.toList := by
      rcases List.mem_cons.mp hs with rfl | hs
      · decide +kernel
      · rcases List.mem_cons.mp hs with rfl | hs
        · decide +kernel
        · rw [List.mem_singleton.mp hs]
          decide +kernel
    rw [decode_eq_ascii fun c hc => of_decide_eq_true (List.all_eq_true.mp ascii.1 c hc), ascii.2]
  unfold parseRole
  simp only [named "admin" (by decide), named "main" (by decide), named "guest" (by decide)]

/-- The words the Python reader finds where the C++ reader finds `words`. -/
theorem pythonWords (line : Bytes) :
    Text.splitWords Text.isBlank ((Utf8.decode line).takeWhile fun c => !(c = '#')) =
      ((wordsOf line).map Utf8.decode).flatMap (Text.splitWords Text.isBlank) := by
  have hash : (fun b : UInt8 => !Utf8.asciiByte (fun c => decide (c = '#')) b) =
      fun b => !(b = 35) := by
    funext b
    rw [Utf8.asciiByte_eq (by decide)]
    rfl
  have cut := Utf8.takeWhile_decode (p := fun c => decide (c = '#'))
    (fun c hc => by rw [of_decide_eq_true hc]; decide) line
  rw [cut, hash, Text.splitWords_flatMap fun _ => isBlank_of_isCSpace,
    Utf8.splitWords_decode fun _ => isCSpace_ascii, ← isSpaceByte_eq]
  rfl

theorem splitWords_oneWord {word : Bytes} (ne : word ≠ []) (one : oneWord word) :
    Text.splitWords Text.isBlank (Utf8.decode word) = [Utf8.decode word] := by
  have free : ∀ c ∈ Utf8.decode word, Text.isBlank c = false := by
    intro c hc
    simpa using List.all_eq_true.mp one c hc
  have nonempty : Utf8.decode word ≠ [] := fun h => ne (Utf8.decode_eq_nil_iff.mp h)
  rw [Text.splitWords_free free, if_neg (by simpa using nonempty)]

/-- What the Python reader stores for a record of the C++ one. -/
def decoded (record : Bytes × Role) : List Char × Role := (Utf8.decode record.1, record.2)

theorem readCpp_eq (line : Bytes) :
    readCpp line = binding (fun s => Bytes.ofText s.toList) (wordsOf line) := rfl

/-- On a line of plain words both readers find the same record. -/
theorem readPython_decode {l : Bytes} (h : ∀ word ∈ (wordsOf l).take 2, oneWord word) :
    readPython (Utf8.decode l) = (readCpp l).map decoded := by
  have nonempty : ∀ word ∈ wordsOf l, word ≠ [] := fun word hw => (Text.splitWords_mem hw).1
  rw [readPython, readLine, pythonWords, readCpp_eq]
  rcases hw : wordsOf l with _ | ⟨cn, _ | ⟨role, rest⟩⟩
  · rfl
  · rw [hw] at h nonempty
    rw [List.map_singleton, List.flatMap_singleton,
      splitWords_oneWord (nonempty cn (by simp)) (h cn (by simp))]
    rfl
  · rw [hw] at h nonempty
    rw [List.map_cons, List.map_cons, List.flatMap_cons, List.flatMap_cons,
      splitWords_oneWord (nonempty cn (by simp)) (h cn (by simp)),
      splitWords_oneWord (nonempty role (by simp)) (h role (by simp))]
    simp only [List.singleton_append, binding, Option.map_some, decoded, parseRole_decode]

/-- Blanks at the end of a line do not matter to the C++ reader. -/
theorem wordsOf_append (front : Bytes) {back : Bytes} (h : ∀ b ∈ back, isSpaceByte b) :
    wordsOf (front ++ back) = wordsOf front := by
  have noHash : ∀ b ∈ back, !(decide (b = 35)) := by
    intro b hb
    simp only [Bool.not_eq_true', decide_eq_false_iff_not]
    rintro rfl
    exact absurd (h 35 hb) (by decide)
  cases back with
  | nil => rw [List.append_nil]
  | cons sep back =>
    have hsep := h sep (List.mem_cons_self ..)
    have blank := Text.splitWords_blank fun b hb => h b (List.mem_cons_of_mem _ hb)
    rw [wordsOf, wordsOf, List.takeWhile_append]
    split_ifs with whole
    · have front_all : front.takeWhile (fun b => !(decide (b = 35))) = front :=
        (List.takeWhile_prefix _).eq_of_length whole
      rw [List.takeWhile_eq_self_iff.mpr noHash, front_all, Text.splitWords_append _ hsep, blank,
        List.append_nil]
    · rfl

def isLineEnd (b : UInt8) : Bool := b = 10 || b = 13

/-- The lines of text mode are those of `getline`, cut again at carriage returns. -/
theorem lines_decode (file : Bytes) :
    Text.lines (Utf8.decode file) =
      ((file.splitOnP (· = 10)).flatMap (·.splitOnP isLineEnd)).map Utf8.decode := by
  have ends : Utf8.asciiByte (fun c => decide (c = '\n') || decide (c = '\r')) = isLineEnd := by
    funext b
    rw [Utf8.asciiByte_or, Utf8.asciiByte_eq (by decide), Utf8.asciiByte_eq (by decide)]
    rfl
  have ascii : ∀ c : Char, (decide (c = '\n') || decide (c = '\r')) → c.toNat < 128 := by
    intro c hc
    rw [Bool.or_eq_true, decide_eq_true_eq, decide_eq_true_eq] at hc
    rcases hc with rfl | rfl <;> decide
  have sub : ∀ b : UInt8, decide (b = 10) → isLineEnd b := by
    intro b hb
    rw [isLineEnd, hb, Bool.true_or]
  rw [Text.lines, Utf8.splitOnP_decode ascii, ends, Text.splitOnP_flatMap sub]

/-- A line before its first carriage return, and the blanks from there on. -/
theorem PlainLine.cut {line : Bytes} (plain : PlainLine line)
    (free : ∀ b ∈ line, decide (b = 10) = false) :
    ∃ front back, line = front ++ back ∧ (∀ b ∈ front, isLineEnd b = false) ∧
      (∀ b ∈ back, isSpaceByte b) ∧ (back = [] ∨ ∃ rest, back = 13 :: rest) := by
  refine ⟨line.takeWhile (· ≠ 13), line.dropWhile (· ≠ 13),
    List.takeWhile_append_dropWhile.symm, ?_, List.all_eq_true.mp plain.return_last, ?_⟩
  · intro b hb
    have other := List.mem_takeWhile_imp hb
    have inside := free b (List.takeWhile_subset _ hb)
    rw [isLineEnd, inside, Bool.false_or]
    simpa using other
  · cases hd : line.dropWhile (· ≠ 13) with
    | nil => exact Or.inl rfl
    | cons sep rest =>
      have stop := List.head?_dropWhile_not (fun b : UInt8 => decide (b ≠ 13)) line
      rw [hd] at stop
      obtain rfl : sep = 13 := by simpa using stop
      exact Or.inr ⟨rest, rfl⟩

/-- The records the Python reader finds on one line of `getline`. -/
theorem readPython_line {line : Bytes} (free : ∀ b ∈ line, decide (b = 10) = false)
    (plain : PlainLine line) :
    ((line.splitOnP isLineEnd).map Utf8.decode).filterMap readPython =
      ((readCpp line).map decoded).toList := by
  obtain ⟨front, back, rfl, before, blank, ends⟩ := plain.cut free
  have words := wordsOf_append front blank
  have first := readPython_decode (l := front)
    (List.all_eq_true.mp (words ▸ plain.words))
  rw [readCpp_eq, words, ← readCpp_eq, ← first]
  rcases ends with rfl | ⟨rest, rfl⟩
  · rw [List.append_nil, List.splitOnP_eq_singleton before]
    cases h : readPython (Utf8.decode front) <;> simp [h]
  · -- the pieces after the first carriage return are blank
    have nothing : ((rest.splitOnP isLineEnd).map Utf8.decode).filterMap readPython = [] := by
      refine List.filterMap_eq_nil_iff.mpr fun piece hp => ?_
      obtain ⟨w, hw, rfl⟩ := List.mem_map.mp hp
      have wBlank : ∀ b ∈ w, isSpaceByte b := fun b hb =>
        blank b (List.mem_cons_of_mem _ ((Text.splitOnP_mem hw).2 hb))
      have none : wordsOf w = [] := wordsOf_append [] wBlank
      rw [readPython, readLine, pythonWords, none]
      rfl
    rw [List.splitOnP_append_cons_of_forall_mem before _ (by decide), List.map_cons,
      List.filterMap_cons]
    cases h : readPython (Utf8.decode front) <;> simp [nothing]

theorem readers_agree {file : Bytes} (plain : PlainFile file) :
    (Text.lines (Utf8.decode file)).filterMap readPython =
      ((file.splitOnP (· = 10)).filterMap readCpp).map decoded := by
  have each : ∀ ls : List Bytes, (∀ l ∈ ls, PlainLine l ∧ ∀ b ∈ l, decide (b = 10) = false) →
      ((ls.flatMap (·.splitOnP isLineEnd)).map Utf8.decode).filterMap readPython =
        (ls.filterMap readCpp).map decoded := by
    intro ls h
    induction ls with
    | nil => rfl
    | cons l ls ih =>
      obtain ⟨plainLine, free⟩ := h l (List.mem_cons_self ..)
      rw [List.flatMap_cons, List.map_append, List.filterMap_append,
        readPython_line free plainLine, ih fun l' hl' => h l' (List.mem_cons_of_mem _ hl'),
        List.filterMap_cons]
      cases readCpp l <;> rfl
  rw [lines_decode]
  exact each _ fun l hl => ⟨plain l hl, (Text.splitOnP_mem hl).1⟩

/-- Decoding does not mix up the CNs of plain lines. -/
theorem get?_decoded {records : List (Bytes × Role)}
    (readable : ∀ record ∈ records, Utf8.encode (Utf8.decode record.1) = record.1) (cn : List Char) :
    (Dict.ofPairs (records.map decoded)).get? cn = (Dict.ofPairs records).get? (Utf8.encode cn) := by
  induction records using List.reverseRecOn with
  | nil => rfl
  | append_singleton records record ih =>
    have rest := ih fun r hr => readable r (List.mem_append_left _ hr)
    have same : cn = Utf8.decode record.1 ↔ Utf8.encode cn = record.1 := by
      constructor
      · rintro rfl
        exact readable record (by simp)
      · intro h
        rw [← h, Utf8.decode_encode]
    rw [List.map_append, List.map_singleton, Dict.ofPairs_append, Dict.ofPairs_append, Dict.get?_set,
      Dict.get?_set, rest]
    simp only [decoded, same]

theorem readable_records {file : Bytes} (plain : PlainFile file) :
    ∀ record ∈ (file.splitOnP (· = 10)).filterMap readCpp,
      Utf8.encode (Utf8.decode record.1) = record.1 := by
  intro record hr
  obtain ⟨line, hl, hread⟩ := List.mem_filterMap.mp hr
  have cn := (plain line hl).cn
  rw [readCpp_eq] at hread
  rcases hw : wordsOf line with _ | ⟨first, _ | ⟨second, rest⟩⟩ <;> rw [hw] at hread cn
  · cases hread
  · cases hread
  · obtain rfl := Option.some.inj hread
    exact cn

end RoleMap

/-- A plain role map gives every CN the same role on both servers. -/
theorem roleMaps_agree {file : Bytes} (plain : RoleMap.PlainFile file) (cn : List Char) :
    RoleMap.roleFor (RoleMap.fromFileCpp file) (Utf8.encode cn) =
      RoleMap.roleFor (RoleMap.fromFilePython file) cn := by
  have empty : Utf8.encode cn = [] ↔ cn = [] :=
    ⟨fun h => Utf8.encode_injective h, fun h => by rw [h]; rfl⟩
  have lookup := RoleMap.get?_decoded (RoleMap.readable_records plain) cn
  rw [← RoleMap.readers_agree plain] at lookup
  rw [RoleMap.roleFor, RoleMap.roleFor, RoleMap.fromFileCpp, RoleMap.fromFilePython, lookup]
  simp only [empty]

/-- A file with a comment, a CRLF and an LF. -/
def anaFile : Bytes := Bytes.ofText "ana admin # the owner\r\nbo guest\n".toList

theorem roleMaps_agree_ana :
    RoleMap.roleFor (RoleMap.fromFileCpp anaFile) (Utf8.encode "ana".toList) =
      RoleMap.roleFor (RoleMap.fromFilePython anaFile) "ana".toList :=
  roleMaps_agree (by decide +kernel) _

/-- `ana`, a carriage return and `admin` on one line. -/
def brokenFile : Bytes := Bytes.ofText "ana\radmin\n".toList

theorem not_roleMaps_agree :
    ¬ ∀ (file : Bytes) (cn : List Char),
      RoleMap.roleFor (RoleMap.fromFileCpp file) (Utf8.encode cn) =
        RoleMap.roleFor (RoleMap.fromFilePython file) cn := by
  intro h
  have roles : RoleMap.roleFor (RoleMap.fromFileCpp brokenFile) (Utf8.encode "ana".toList) = .admin ∧
      RoleMap.roleFor (RoleMap.fromFilePython brokenFile) "ana".toList = .none := by decide +kernel
  have same := h brokenFile "ana".toList
  rw [roles.1, roles.2] at same
  cases same

end Harpia
