import Harpia.Lib.Dict
import Harpia.Lib.NatSet
import Harpia.Lib.Text
import Harpia.Lib.Zip

namespace Harpia

open Text

/-- What a `.fieldmap` sidecar records: the wire number of every live identity and the retired
numbers. -/
structure FieldMap where
  numbers : Dict String Nat
  reserved : NatSet
deriving DecidableEq

def FieldMap.empty : FieldMap := ⟨Dict.empty, NatSet.empty⟩

def hiddenPrefixes : List String :=
  ["HARPIA_ID", "HARPIA_STATUS", "HARPIA_ERROR", "HARPIA_ORIGINATOR"]

def legacyHiddenPrefixes : List String := ["ID_", "STATUS_", "ERROR_", "ORIGINATOR"]

/-- `str.rstrip("_")`. -/
def rstripUnderscore (s : String) : String :=
  String.ofList (s.toList.reverse.dropWhile (· = '_')).reverse

/-- `_identity`: the sidecar key of a field name. -/
def identity (name : String) : String :=
  match hiddenPrefixes.find? (fun hidden => name = hidden) with
  | some hidden => String.ofList (hidden.toList.drop "HARPIA_".length)
  | none =>
    match legacyHiddenPrefixes.find? (startsWith name) with
    | some legacy => rstripUnderscore legacy
    | none => name

def fieldLine (entry : String × Nat) : List Char := entry.1.toList ++ ':' :: decimal entry.2

def reservedWord : List Char := ['r', 'e', 's', 'e', 'r', 'v', 'e', 'd', ':']

def reservedLine (reserved : NatSet) : List Char :=
  '#' :: ' ' :: (reservedWord ++ ' ' :: [','].intercalate (reserved.elems.map decimal))

def saveLines (m : FieldMap) : List (List Char) :=
  (m.numbers.entries.insertionSort fun a b => a.2 ≤ b.2).map fieldLine ++
    if m.reserved.elems = [] then [] else [reservedLine m.reserved]

/-- `_save`: the content written to the sidecar. -/
def save (m : FieldMap) : List Char :=
  ['\n'].intercalate (saveLines m) ++ if saveLines m = [] then [] else ['\n']

/-- `_RESERVED_LINE`, `^#\s*reserved:\s*(.*)$`: its group. -/
def matchReserved : List Char → Option (List Char)
  | '#' :: rest =>
    let rest := rest.dropWhile isBlank
    if reservedWord.isPrefixOf rest then
      some ((rest.drop reservedWord.length).dropWhile isBlank)
    else none
  | _ => none

/-- The numbers of a reserved line; `none` where `int` raises. -/
def parseReserved (group : List Char) : Option (List Nat) :=
  ((group.splitOn ',').filter fun tok => stripOf isBlank tok ≠ []).mapM fun tok =>
    parseDecimal (stripOf isBlank tok)

section Load

variable (W : WordClass)

/-- `[A-Za-z_]\w*`. -/
def isFieldName (name : List Char) : Bool :=
  name.head?.any (fun c => c.isAlpha || c = '_') && name.all W.mem

/-- `_FIELD_LINE`, `^([A-Za-z_]\w*):(\d+)$`: its groups. -/
def matchField (line : List Char) : Option (String × Nat) :=
  let name := line.takeWhile W.mem
  match line.dropWhile W.mem with
  | ':' :: digits =>
    if isFieldName W name then (parseDecimal digits).map fun num => (String.ofList name, num)
    else none
  | _ => none

def loadLine (m : FieldMap) (line : List Char) : Option FieldMap :=
  if stripOf isBlank line = [] then some m
  else
    match matchReserved (stripOf isBlank line) with
    | some group => (parseReserved group).map fun ns => { m with reserved := m.reserved.insertAll ns }
    | none =>
      match matchField W (stripOf isBlank line) with
      | some (name, num) => some { m with numbers := m.numbers.set name num }
      | none => some m

/-- `_load`: an absent sidecar is an empty map. -/
def load : Option (List Char) → Option FieldMap
  | none => some FieldMap.empty
  | some content => (lines content).foldlM (loadLine W) FieldMap.empty

/-- The key that the line of a key is read as, if it is read as one. -/
def readKey (key : String) : Option String :=
  let name := key.toList.dropWhile isBlank
  if isFieldName W name then some (String.ofList name) else none

/-- A key that is read back. -/
def ReadableKey (key : String) : Prop := isFieldName W key.toList

instance (key : String) : Decidable (ReadableKey W key) :=
  inferInstanceAs (Decidable (isFieldName W key.toList = true))

end Load

/-- A key on one line. -/
def OneLine (key : String) : Prop := ∀ c ∈ key.toList, c ≠ '\n' ∧ c ≠ '\r'

instance (key : String) : Decidable (OneLine key) :=
  inferInstanceAs (Decidable (∀ c ∈ key.toList, _))

section Decimals

theorem isBlank_decimal {n : Nat} {c : Char} (h : c ∈ decimal n) : isBlank c = false :=
  isBlank_eq_false_of_isWord (isWord_of_isDigit (decimal_isDigit h))

theorem dropWhile_decimal (n : Nat) : (decimal n).dropWhile isBlank = decimal n :=
  dropWhile_of_head fun _ hc => isBlank_decimal (List.mem_of_head? hc)

theorem stripOf_decimal (n : Nat) : stripOf isBlank (decimal n) = decimal n := by
  rw [stripOf_eq_dropWhile fun _ hc => isBlank_decimal (List.mem_of_getLast? hc), dropWhile_decimal]

theorem parseDecimal_colon {cs : List Char} (h : ':' ∈ cs) : parseDecimal cs = none := by
  rw [parseDecimal, if_neg]
  rintro ⟨_, digits⟩
  exact absurd (List.all_eq_true.mp digits ':' h) (by decide)

theorem parseReserved_intercalate {ns : List Nat} (h : ns ≠ []) :
    parseReserved ([','].intercalate (ns.map decimal)) = some ns := by
  have split : ([','].intercalate (ns.map decimal)).splitOn ',' = ns.map decimal := by
    apply List.splitOn_intercalate
    · intro l hl
      obtain ⟨n, _, rfl⟩ := List.mem_map.mp hl
      intro hc
      exact absurd (decimal_isDigit hc) (by decide)
    · simpa using h
  have keep : (ns.map decimal).filter (fun tok => stripOf isBlank tok ≠ []) = ns.map decimal := by
    rw [List.filter_eq_self]
    intro l hl
    obtain ⟨n, _, rfl⟩ := List.mem_map.mp hl
    simp [stripOf_decimal, decimal_ne_nil]
  rw [parseReserved, split, keep]
  clear split keep h
  induction ns with
  | nil => rfl
  | cons n ns ih => simp [List.mapM_cons, stripOf_decimal, ih]

/-- `int` does not read a token with a colon in it. -/
theorem parseReserved_colon {group : List Char} (h : ':' ∈ group) : parseReserved group = none := by
  have whole : [','].intercalate (group.splitOn ',') = group := List.intercalate_splitOn ','
  rw [← whole] at h
  rcases List.mem_intercalate h with separator | ⟨tok, htok, colon⟩
  · exact absurd separator (by decide)
  · have stays : ':' ∈ stripOf isBlank tok := mem_stripOf colon (by decide)
    have kept : tok ∈ (group.splitOn ',').filter fun tok => stripOf isBlank tok ≠ [] :=
      List.mem_filter.mpr ⟨htok, by simpa using List.ne_nil_of_mem stays⟩
    exact List.mapM_eq_none_of_mem kept (parseDecimal_colon stays)

theorem mem_intercalate_decimals {ns : List Nat} {c : Char}
    (h : c ∈ [','].intercalate (ns.map decimal)) : c = ',' ∨ c.isDigit := by
  rcases List.mem_intercalate h with same | ⟨l, hl, hc⟩
  · exact .inl same
  · obtain ⟨n, _, rfl⟩ := List.mem_map.mp hl
    exact .inr (decimal_isDigit hc)

theorem isBlank_intercalate_decimals {ns : List Nat} {c : Char}
    (h : c ∈ [','].intercalate (ns.map decimal)) : isBlank c = false := by
  rcases mem_intercalate_decimals h with rfl | hd
  · decide
  · exact isBlank_eq_false_of_isWord (isWord_of_isDigit hd)

end Decimals

section FieldLine

variable {W : WordClass} {key : String} {num : Nat} {name : List Char}

theorem stripOf_fieldLine (key : String) (num : Nat) :
    stripOf isBlank (fieldLine (key, num)) = key.toList.dropWhile isBlank ++ ':' :: decimal num := by
  rw [stripOf_eq_dropWhile, fieldLine, List.dropWhile_append]
  · split
    next all =>
      rw [List.isEmpty_iff.mp all]
      exact List.dropWhile_cons_of_neg (by decide)
    next => rfl
  · intro c hc
    have hne : (':' :: decimal num) ≠ [] := by simp
    rw [fieldLine, List.getLast?_append_of_ne_nil _ hne,
      List.getLast?_cons_of_ne_nil (decimal_ne_nil num)] at hc
    exact isBlank_decimal (List.mem_of_getLast? hc)

theorem isFieldName_head (h : isFieldName W name) : ∃ c, name.head? = some c ∧ (c.isAlpha ∨ c = '_') := by
  obtain ⟨first, _⟩ := Bool.and_eq_true_iff.mp h
  cases hc : name.head? with
  | none =>
    rw [hc] at first
    cases first
  | some c =>
    rw [hc] at first
    exact ⟨c, rfl, by simpa using first⟩

theorem isFieldName_word (h : isFieldName W name) {c : Char} (hc : c ∈ name) : W.mem c :=
  List.all_eq_true.mp (Bool.and_eq_true_iff.mp h).2 c hc

/-- The head of a field name begins neither a comment nor a blank. -/
theorem isFieldName_start (h : isFieldName W name) : ∀ c ∈ name.head?, c ≠ '#' ∧ isBlank c = false := by
  obtain ⟨c, hc, start⟩ := isFieldName_head h
  have word : isWord c := by
    rcases start with alpha | rfl
    · exact isWord_of_isAlpha alpha
    · decide
  intro d hd
  cases Option.some.inj (hc.symm.trans hd)
  exact ⟨ne_of_isWord word (by decide), isBlank_eq_false_of_isWord word⟩

theorem matchField_line (W : WordClass) (name : List Char) (num : Nat) :
    matchField W (name ++ ':' :: decimal num) =
      if isFieldName W name then some (String.ofList name, num) else none := by
  have colon : W.mem ':' = false := W.mem_ascii ':' (by decide)
  by_cases words : ∀ c ∈ name, W.mem c
  · have taken : (name ++ ':' :: decimal num).takeWhile W.mem = name ∧
        (name ++ ':' :: decimal num).dropWhile W.mem = ':' :: decimal num := by
      refine span_append words fun c hc => ?_
      cases Option.some.inj hc
      exact colon
    simp [matchField, taken.1, taken.2]
  · -- the first other character ends the name
    have notName : isFieldName W name = false := by
      by_contra all
      rw [Bool.not_eq_false] at all
      exact words fun c hc => isFieldName_word all hc
    obtain ⟨c, rest, hrest, hc⟩ : ∃ c rest, name.dropWhile W.mem = c :: rest ∧ W.mem c = false := by
      have some_ : name.dropWhile W.mem ≠ [] := by
        rw [ne_eq, List.dropWhile_eq_nil_iff]
        exact words
      obtain ⟨c, rest, hrest⟩ := List.exists_cons_of_ne_nil some_
      have stop := List.head?_dropWhile_not W.mem name
      rw [hrest] at stop
      exact ⟨c, rest, hrest, by simpa using stop⟩
    have dropped : (name ++ ':' :: decimal num).dropWhile W.mem = c :: (rest ++ ':' :: decimal num) := by
      rw [List.dropWhile_append, hrest]
      rfl
    rw [matchField, dropped, notName, if_neg (by decide)]
    split
    next digits same =>
      have colonIn : ':' ∈ digits := by
        rw [← (List.cons.inj same).2]
        simp
      rw [parseDecimal_colon colonIn, Option.map_none, ite_self]
    next => rfl

theorem matchReserved_of_head {line : List Char} (h : ∀ c ∈ line.head?, c ≠ '#') :
    matchReserved line = none := by
  unfold matchReserved
  split
  next rest => exact absurd rfl (h '#' rfl)
  next => rfl

/-- The colon of a field line is the one of `reserved:`, or is left in the group. -/
theorem parseReserved_line {name : List Char} {num : Nat} {group : List Char}
    (h : matchReserved (name ++ ':' :: decimal num) = some group) :
    parseReserved group = none ∨ parseReserved group = some [num] := by
  obtain ⟨more, hmore⟩ : ∃ more, name ++ ':' :: decimal num = '#' :: more := by
    unfold matchReserved at h
    split at h
    next more same => exact ⟨more, same⟩
    next => cases h
  obtain ⟨tail, rfl⟩ : ∃ tail, more = tail ++ ':' :: decimal num := by
    cases name with
    | nil => cases hmore
    | cons c tail => exact ⟨tail, (List.cons.inj hmore).2.symm⟩
  rw [hmore, matchReserved] at h
  have stays : (tail ++ ':' :: decimal num).dropWhile isBlank =
      tail.dropWhile isBlank ++ ':' :: decimal num := by
    rw [List.dropWhile_append]
    split
    next all =>
      rw [List.isEmpty_iff.mp all]
      exact List.dropWhile_cons_of_neg (by decide)
    next => rfl
  simp only [stays] at h
  split at h
  · next begins =>
    obtain ⟨rest, hrest⟩ := List.isPrefixOf_iff_prefix.mp begins
    rw [← hrest, List.drop_left] at h
    cases h
    by_cases colon : ':' ∈ rest
    · exact .inl (parseReserved_colon (mem_dropWhile colon (by decide)))
    · have word : "reserved".toList ++ ':' :: rest = tail.dropWhile isBlank ++ ':' :: decimal num := hrest
      have apart : rest = decimal num :=
        ((List.append_cons_inj_of_notMem (by decide) colon).mp word).2.2
      rw [apart, dropWhile_decimal]
      have one : parseReserved ([','].intercalate ([num].map decimal)) = some [num] :=
        parseReserved_intercalate (List.cons_ne_nil _ _)
      exact .inr (by simpa using one)
  · cases h

theorem stripOf_fieldLine_ne_nil (key : String) (num : Nat) :
    stripOf isBlank (fieldLine (key, num)) ≠ [] := by
  rw [stripOf_fieldLine]
  simp

/-- The line of a key that is read. -/
theorem loadLine_read (m : FieldMap) {read : String} (h : readKey W key = some read) :
    loadLine W m (fieldLine (key, num)) = some { m with numbers := m.numbers.set read num } := by
  unfold readKey at h
  simp only at h
  split at h
  next named =>
    cases h
    have start : matchReserved (key.toList.dropWhile isBlank ++ ':' :: decimal num) = none := by
      apply matchReserved_of_head
      intro c hc
      obtain ⟨d, hd, _⟩ := isFieldName_head named
      rw [List.head?_append, hd, Option.some_or] at hc
      cases hc
      exact (isFieldName_start named _ hd).1
    rw [loadLine, if_neg (stripOf_fieldLine_ne_nil key num), stripOf_fieldLine, start]
    simp only [matchField_line, named, if_true]
  next => cases h

/-- The line of any other key is passed over, or taken for a reserved line. -/
theorem loadLine_unread (m : FieldMap) (h : readKey W key = none) :
    loadLine W m (fieldLine (key, num)) = none ∨ loadLine W m (fieldLine (key, num)) = some m ∨
      loadLine W m (fieldLine (key, num)) = some { m with reserved := m.reserved.insertAll [num] } := by
  unfold readKey at h
  simp only at h
  split at h
  next => cases h
  next named =>
    rw [loadLine, if_neg (stripOf_fieldLine_ne_nil key num), stripOf_fieldLine]
    cases reserved : matchReserved (key.toList.dropWhile isBlank ++ ':' :: decimal num) with
    | none =>
      simp only [matchField_line, named]
      exact .inr (.inl rfl)
    | some group =>
      rcases parseReserved_line reserved with raises | one
      · simp only [raises]
        exact .inl rfl
      · simp only [one]
        exact .inr (.inr rfl)

theorem readKey_of_readable (h : ReadableKey W key) : readKey W key = some key := by
  have free : key.toList.dropWhile isBlank = key.toList :=
    dropWhile_of_head fun c hc => (isFieldName_start h c hc).2
  have named : isFieldName W key.toList = true := h
  simp [readKey, free, named]

end FieldLine

/-- A sidecar key is the name of a role, or the name of the field. -/
theorem identity_cases (name : String) : identity name ∈ ["ID", "STATUS", "ERROR", "ORIGINATOR"] ∨
    identity name = name := by
  unfold identity
  split
  next hidden hf =>
    have hm := List.mem_of_find?_eq_some hf
    simp only [hiddenPrefixes, List.mem_cons, List.not_mem_nil, or_false] at hm
    rcases hm with rfl | rfl | rfl | rfl <;> exact .inl (by decide)
  next =>
    split
    next legacy hf =>
      have hm := List.mem_of_find?_eq_some hf
      simp only [legacyHiddenPrefixes, List.mem_cons, List.not_mem_nil, or_false] at hm
      rcases hm with rfl | rfl | rfl | rfl <;> exact .inl (by decide)
    next => exact .inr rfl

theorem oneLine_identity {name : String} (h : OneLine name) : OneLine (identity name) := by
  rcases identity_cases name with role | same
  · have roles : ∀ role ∈ ["ID", "STATUS", "ERROR", "ORIGINATOR"], OneLine role := by
      simp [OneLine]
    exact roles _ role
  · rwa [same]

section ReservedLine

variable {W : WordClass}

theorem stripOf_reservedLine {r : NatSet} (h : r.elems ≠ []) :
    stripOf isBlank (reservedLine r) = reservedLine r := by
  have hne : [','].intercalate (r.elems.map decimal) ≠ [] := by
    intro he
    have read := parseReserved_intercalate h
    rw [he] at read
    exact h (by simpa [parseReserved, stripOf] using read.symm)
  have last : (reservedLine r).getLast? = ([','].intercalate (r.elems.map decimal)).getLast? := by
    have split : reservedLine r = ('#' :: ' ' :: (reservedWord ++ [' '])) ++
        [','].intercalate (r.elems.map decimal) := rfl
    rw [split, List.getLast?_append_of_ne_nil _ hne]
  rw [stripOf_eq_dropWhile]
  · exact dropWhile_of_head fun c hc => by
      cases hc
      decide
  · intro c hc
    rw [last] at hc
    exact isBlank_intercalate_decimals (List.mem_of_getLast? hc)

theorem matchReserved_reservedLine (r : NatSet) :
    matchReserved (reservedLine r) = some ([','].intercalate (r.elems.map decimal)) := by
  have hdrop : ([','].intercalate (r.elems.map decimal)).dropWhile isBlank =
      [','].intercalate (r.elems.map decimal) := by
    cases hc : [','].intercalate (r.elems.map decimal) with
    | nil => rfl
    | cons c cs =>
      have hm : c ∈ [','].intercalate (r.elems.map decimal) := by
        rw [hc]
        exact List.mem_cons_self
      simp [isBlank_intercalate_decimals hm]
  have hfirst : ∀ rest, (' ' :: (reservedWord ++ rest)).dropWhile isBlank = reservedWord ++ rest := by
    intro rest
    rw [List.dropWhile_cons_of_pos (by decide)]
    exact List.dropWhile_cons_of_neg (by decide)
  have hprefix : ∀ rest, reservedWord.isPrefixOf (reservedWord ++ rest) := fun rest =>
    List.isPrefixOf_iff_prefix.mpr (List.prefix_append _ _)
  simp only [reservedLine, matchReserved, hfirst, hprefix, ↓reduceIte, List.drop_left]
  rw [List.dropWhile_cons_of_pos (by decide), hdrop]

theorem loadLine_reservedLine (m : FieldMap) {r : NatSet} (h : r.elems ≠ []) :
    loadLine W m (reservedLine r) = some { m with reserved := m.reserved.insertAll r.elems } := by
  have hne : reservedLine r ≠ [] := by simp [reservedLine]
  simp only [loadLine, stripOf_reservedLine h, hne, ↓reduceIte, matchReserved_reservedLine,
    parseReserved_intercalate h, Option.map_some]

theorem save_eq_flatMap (m : FieldMap) : save m = (saveLines m).flatMap fun l => l ++ ['\n'] := by
  unfold save
  generalize saveLines m = ls
  induction ls with
  | nil => rfl
  | cons l ls ih =>
    cases ls with
    | nil => simp
    | cons k ks =>
      simp only [List.intercalate_cons_cons, List.flatMap_cons, reduceCtorEq, ↓reduceIte,
        List.append_assoc] at ih ⊢
      rw [ih]

theorem saveLines_oneLine {m : FieldMap} (h : ∀ k ∈ m.numbers.keys, OneLine k) :
    ∀ l ∈ saveLines m, ∀ c ∈ l, c ≠ '\n' ∧ c ≠ '\r' := by
  have word : ∀ c, isWord c → c ≠ '\n' ∧ c ≠ '\r' := fun c hc =>
    ⟨ne_of_isWord hc (by decide), ne_of_isWord hc (by decide)⟩
  intro l hl c hc
  rcases List.mem_append.mp hl with hl | hl
  · obtain ⟨⟨key, num⟩, he, rfl⟩ := List.mem_map.mp hl
    have hk := h key (List.mem_map_of_mem ((List.mem_insertionSort _).mp he))
    rcases List.mem_append.mp hc with hc | hc
    · exact hk c hc
    · rcases List.mem_cons.mp hc with rfl | hc
      · decide
      · exact word c (isWord_of_isDigit (decimal_isDigit hc))
  · split at hl
    next => simp at hl
    next =>
      obtain rfl := List.mem_singleton.mp hl
      have fixed : ∀ d ∈ '#' :: ' ' :: (reservedWord ++ [' ']), d ≠ '\n' ∧ d ≠ '\r' := by
        simp [reservedWord]
      by_cases hin : c ∈ [','].intercalate (m.reserved.elems.map decimal)
      · rcases mem_intercalate_decimals hin with rfl | hd
        · decide
        · exact word c (isWord_of_isDigit hd)
      · have split : reservedLine m.reserved = ('#' :: ' ' :: (reservedWord ++ [' '])) ++
            [','].intercalate (m.reserved.elems.map decimal) := rfl
        rw [split] at hc
        rcases List.mem_append.mp hc with hc | hc
        · exact fixed c hc
        · exact absurd hc hin

/-- What is read of a saved sidecar: its field lines, then the retired numbers. -/
theorem load_save_eq {m : FieldMap} (h : ∀ k ∈ m.numbers.keys, OneLine k) :
    load W (some (save m)) =
      (((m.numbers.entries.insertionSort fun a b => a.2 ≤ b.2).map fieldLine).foldlM (loadLine W)
        FieldMap.empty).map fun m' => { m' with reserved := m'.reserved.insertAll m.reserved.elems } := by
  rw [load, save_eq_flatMap, lines_join _ (saveLines_oneLine h), saveLines, List.foldlM_append,
    List.foldlM_append]
  cases ((m.numbers.entries.insertionSort fun a b => a.2 ≤ b.2).map fieldLine).foldlM (loadLine W)
    FieldMap.empty with
  | none => rfl
  | some m' =>
    have blank : ∀ m, loadLine W m [] = some m := fun _ => rfl
    by_cases hr : m.reserved.elems = []
    · simp [hr, blank, NatSet.insertAll]
    · simp [hr, blank, loadLine_reservedLine m' hr]

end ReservedLine

section SaveLoad

variable {W : WordClass} {m : FieldMap}

theorem loadLine_fieldLines {es : List (String × Nat)} (h : ∀ e ∈ es, ReadableKey W e.1)
    (m : FieldMap) : (es.map fieldLine).foldlM (loadLine W) m =
      some { m with numbers := es.foldl (fun d e => d.set e.1 e.2) m.numbers } := by
  induction es generalizing m with
  | nil => rfl
  | cons e es ih =>
    obtain ⟨key, num⟩ := e
    have read := readKey_of_readable (h (key, num) List.mem_cons_self)
    simp only [List.map_cons, List.foldlM_cons, loadLine_read m read,
      Option.bind_eq_bind, Option.bind_some, List.foldl_cons]
    exact ih (fun e he => h e (List.mem_cons_of_mem _ he)) _

/-- What the lines of some entries leave of a map, and add to it. -/
structure FieldMap.Reads (W : WordClass) (es : List (String × Nat)) (m m' : FieldMap) : Prop where
  numbers : ∀ k num, m'.numbers.get? k = some num →
    m.numbers.get? k = some num ∨ ∃ key, (key, num) ∈ es ∧ readKey W key = some k
  reserved : ∀ num ∈ m'.reserved, num ∈ m.reserved ∨ ∃ key, (key, num) ∈ es ∧ readKey W key = none
  kept : ∀ num ∈ m.reserved, num ∈ m'.reserved

theorem FieldMap.Reads.cons {es : List (String × Nat)} {key : String} {num : Nat} {m₁ m' : FieldMap}
    (line : loadLine W m (fieldLine (key, num)) = some m₁) (rest : FieldMap.Reads W es m₁ m') :
    FieldMap.Reads W ((key, num) :: es) m m' := by
  cases read : readKey W key with
  | some k =>
    rw [loadLine_read m read] at line
    cases line
    refine ⟨fun k' num' h => ?_, fun num' h => ?_, rest.kept⟩
    · rcases rest.numbers k' num' h with here | ⟨key', he, hk⟩
      · rw [Dict.get?_set] at here
        split at here
        · next same =>
          cases here
          exact .inr ⟨key, List.mem_cons_self, by rw [read, same]⟩
        · exact .inl here
      · exact .inr ⟨key', List.mem_cons_of_mem _ he, hk⟩
    · rcases rest.reserved num' h with here | ⟨key', he, hk⟩
      · exact .inl here
      · exact .inr ⟨key', List.mem_cons_of_mem _ he, hk⟩
  | none =>
    have later : ∀ k' num', (∃ key', (key', num') ∈ es ∧ readKey W key' = k') →
        ∃ key', (key', num') ∈ (key, num) :: es ∧ readKey W key' = k' := fun k' num' found => by
      obtain ⟨key', he, hk⟩ := found
      exact ⟨key', List.mem_cons_of_mem _ he, hk⟩
    have gone := @loadLine_unread W key num m read
    rcases gone with raises | skipped | retired
    · rw [raises] at line
      cases line
    · rw [skipped] at line
      cases line
      exact ⟨fun k' num' h => (rest.numbers k' num' h).imp_right (later _ _),
        fun num' h => (rest.reserved num' h).imp_right (later _ _), rest.kept⟩
    · rw [retired] at line
      cases line
      refine ⟨fun k' num' h => (rest.numbers k' num' h).imp_right (later _ _), fun num' h => ?_,
        fun num' h => rest.kept num' (NatSet.mem_insertAll.mpr (.inr h))⟩
      rcases rest.reserved num' h with here | found
      · rcases NatSet.mem_insertAll.mp here with one | here
        · rw [List.mem_singleton.mp one]
          exact .inr ⟨key, List.mem_cons_self, read⟩
        · exact .inl here
      · exact .inr (later _ _ found)

theorem reads_of_fieldLines {es : List (String × Nat)} {m' : FieldMap}
    (h : (es.map fieldLine).foldlM (loadLine W) m = some m') : FieldMap.Reads W es m m' := by
  induction es generalizing m with
  | nil =>
    cases h
    exact ⟨fun _ _ h => .inl h, fun _ h => .inl h, fun _ h => h⟩
  | cons e es ih =>
    obtain ⟨key, num⟩ := e
    rw [List.map_cons, List.foldlM_cons] at h
    obtain ⟨m₁, line, rest⟩ := Option.bind_eq_some_iff.mp h
    exact .cons line (ih rest)

/-- What is read back of a sidecar has been written to it: every key from the line of one key, and a
retired number that was none from a line that is read as no key. -/
theorem load_save_reads (h : ∀ k ∈ m.numbers.keys, OneLine k) {m' : FieldMap}
    (loaded : load W (some (save m)) = some m') :
    (∀ k num, m'.numbers.get? k = some num →
      ∃ key, m.numbers.get? key = some num ∧ readKey W key = some k) ∧
    (∀ num ∈ m'.reserved, num ∈ m.reserved ∨
      ∃ key, m.numbers.get? key = some num ∧ readKey W key = none) ∧
    ∀ num ∈ m.reserved, num ∈ m'.reserved := by
  have entry : ∀ e : String × Nat, e ∈ m.numbers.entries.insertionSort (fun a b => a.2 ≤ b.2) →
      m.numbers.get? e.1 = some e.2 := fun e he =>
    (Dict.get?_eq_some_iff _).mpr ((List.mem_insertionSort _).mp he)
  rw [load_save_eq h] at loaded
  obtain ⟨m₁, lines, rfl⟩ := Option.map_eq_some_iff.mp loaded
  have reads := reads_of_fieldLines lines
  refine ⟨fun k num hk => ?_, fun num hn => ?_, fun num hn => NatSet.mem_insertAll.mpr (.inl hn)⟩
  · rcases reads.numbers k num hk with none_ | ⟨key, he, read⟩
    · simp [FieldMap.empty] at none_
    · exact ⟨key, entry _ he, read⟩
  · rcases NatSet.mem_insertAll.mp hn with here | added
    · exact .inl here
    · rcases reads.reserved num added with none_ | ⟨key, he, read⟩
      · simp [FieldMap.empty, NatSet.mem_iff, NatSet.empty] at none_
      · exact .inr ⟨key, entry _ he, read⟩

/-- The sidecar round trip: where every key is read back, `_load` reads what `_save` writes. -/
theorem load_save (h : ∀ k ∈ m.numbers.keys, ReadableKey W k) (lines : ∀ k ∈ m.numbers.keys, OneLine k) :
    ∃ m', load W (some (save m)) = some m' ∧ m'.reserved = m.reserved ∧
      ∀ k, m'.numbers.get? k = m.numbers.get? k := by
  have perm := List.perm_insertionSort (fun a b : String × Nat => a.2 ≤ b.2) m.numbers.entries
  have readable : ∀ e ∈ m.numbers.entries.insertionSort (fun a b => a.2 ≤ b.2), ReadableKey W e.1 :=
    fun e he => h e.1 (List.mem_map_of_mem (perm.mem_iff.mp he))
  rw [load_save_eq lines, loadLine_fieldLines readable]
  refine ⟨_, rfl, NatSet.ext fun n => ?_, fun k => Option.ext fun v => ?_⟩
  · rw [NatSet.mem_insertAll]
    simp [FieldMap.empty, NatSet.mem_iff, NatSet.empty]
  · have nodup := (perm.map Prod.fst).nodup_iff.mpr m.numbers.nodup_keys
    have pairs := Dict.get?_ofPairs_of_nodup nodup (k := k) (v := v)
    rw [perm.mem_iff, ← Dict.get?_eq_some_iff] at pairs
    exact pairs

end SaveLoad

end Harpia
