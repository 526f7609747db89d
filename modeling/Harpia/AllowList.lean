import Harpia.RoleMap

namespace Harpia

namespace AllowList

section Reading

variable {α : Type} [DecidableEq α]

/-- The Z85 alphabet, which includes `#`. -/
def z85Alphabet : String :=
  "0123456789abcdefghijklmnopqrstuvwxyzABCDEFGHIJKLMNOPQRSTUVWXYZ.-:+=^!/*?&<>()[]\x7b\x7d@%$#"

/-- `is_z85_key`, on the texts of either language. -/
def isZ85Key (text : String → List α) (token : List α) : Bool :=
  token.length = 40 && token.all fun c => decide (c ∈ text z85Alphabet)

/-- A first word that makes its line a comment. -/
def isComment (text : String → List α) (hash : α) (key : List α) : Bool :=
  key.head? = some hash && !isZ85Key text key

/-- The key and the identity that the words of a line list. -/
def entry (text : String → List α) (hash : α) : List (List α) → Option (List α × Option (List α))
  | [] => none
  | key :: rest =>
    if isComment text hash key then none
    else some (key, rest.head?.filter fun identity => !(identity.head? = some hash))

end Reading

def textCpp (s : String) : Bytes := Bytes.ofText s.toList

/-- A line as `>>` reads it. -/
def readCpp (line : Bytes) : Option (Bytes × Option Bytes) :=
  entry textCpp 35 (Text.splitWords isSpaceByte line)

/-- A line as `str.split` cuts it. -/
def readPython (line : List Char) : Option (List Char × Option (List Char)) :=
  entry String.toList '#' (Text.splitWords Text.isBlank line)

/-- What the lines of a file list for the C++ reader. -/
def listedCpp (file : Bytes) : List (Bytes × Option Bytes) :=
  (file.splitOnP (· = 10)).filterMap readCpp

/-- What they list for the Python reader, in text mode. -/
def listedPython (file : Bytes) : List (List Char × Option (List Char)) :=
  (Text.splitlines (Text.universalNewlines (Utf8.decode file))).filterMap readPython

end AllowList

/-- The C++ `AllowList`: a set of keys, and the identities of some of them. -/
structure CppAllowList where
  keys : Finset Bytes := ∅
  identities : Dict Bytes Bytes := .empty

namespace CppAllowList

def add (a : CppAllowList) (listed : Bytes × Option Bytes) : CppAllowList where
  keys := insert listed.1 a.keys
  identities := listed.2.elim a.identities (a.identities.set listed.1)

def fromFile (file : Bytes) : CppAllowList := (AllowList.listedCpp file).foldl add {}

def contains (a : CppAllowList) (key : Bytes) : Bool := key ∈ a.keys

def identity (a : CppAllowList) (key : Bytes) : Bytes := (a.identities.get? key).getD []

end CppAllowList

/-- The Python `AllowList`: one dict, with `""` where a line names no identity. -/
structure PyAllowList where
  entries : Dict (List Char) (List Char)

namespace PyAllowList

def fromFile (file : Bytes) : PyAllowList :=
  ⟨Dict.ofPairs ((AllowList.listedPython file).map fun listed => (listed.1, listed.2.getD []))⟩

def contains (a : PyAllowList) (key : List Char) : Bool := (a.entries.get? key).isSome

def identity (a : PyAllowList) (key : List Char) : List Char := (a.entries.get? key).getD []

end PyAllowList

namespace AllowList

/-- Both servers give the key the same answers. -/
def Agree (file : Bytes) (key : List Char) : Prop :=
  (CppAllowList.fromFile file).contains (Utf8.encode key) = (PyAllowList.fromFile file).contains key ∧
    (CppAllowList.fromFile file).identity (Utf8.encode key) =
      Utf8.encode ((PyAllowList.fromFile file).identity key)

instance (file : Bytes) (key : List Char) : Decidable (Agree file key) :=
  inferInstanceAs (Decidable (_ ∧ _))

/-- The word is read alike: Python cuts it nowhere else and replaces none of its bytes. -/
def plainWord (word : Bytes) : Bool :=
  RoleMap.oneWord word && decide (Utf8.encode (Utf8.decode word) = word)

/-- The words that count are read alike: up to its first blank a comment's first word is none that
Python takes for a key, and else the key is plain and so is the identity. -/
def plainWords : List Bytes → Bool
  | [] => true
  | key :: rest =>
    if isComment textCpp 35 key then
      !isZ85Key String.toList ((Utf8.decode key).takeWhile fun c => !Text.isBlank c)
    else plainWord key && rest.head?.all fun identity => identity.head? = some 35 || plainWord identity

/-- The words of the pieces that `splitlines` makes of a line of `getline`. -/
def pieces (line : Bytes) : List (List (List Char)) :=
  ((Text.splitWords Text.isLineBreak (Utf8.decode line)).map (Text.splitWords Text.isBlank)).filter
    fun words => !words.isEmpty

/-- A line both readers cut alike: Python finds no further key on it. -/
structure PlainLine (line : Bytes) : Prop where
  words : plainWords (Text.splitWords isSpaceByte line)
  alone : ∀ words ∈ (pieces line).tail, entry String.toList '#' words = none

instance (line : Bytes) : Decidable (PlainLine line) :=
  decidable_of_iff (plainWords (Text.splitWords isSpaceByte line) ∧
      ∀ words ∈ (pieces line).tail, entry String.toList '#' words = none)
    ⟨fun ⟨words, alone⟩ => ⟨words, alone⟩, fun ⟨words, alone⟩ => ⟨words, alone⟩⟩

def PlainFile (file : Bytes) : Prop := ∀ line ∈ file.splitOnP (· = 10), PlainLine line

instance (file : Bytes) : Decidable (PlainFile file) := inferInstanceAs (Decidable (∀ _ ∈ _, _))

/-- Where the last line of a key names no identity, no line of the key does. -/
def NamedLast (listed : List (Bytes × Option Bytes)) (key : Bytes) : Prop :=
  ∀ before after, listed = before ++ (key, none) :: after → (∀ other ∈ after, other.1 ≠ key) →
    ∀ earlier ∈ before, earlier.1 = key → earlier.2 = none

theorem head_decode (word : Bytes) : (Utf8.decode word).head? = some '#' ↔ word.head? = some 35 := by
  have cut := Utf8.takeWhile_decode (p := fun c => decide (c = '#'))
    (fun c hc => by rw [of_decide_eq_true hc]; decide) word
  have hash : (fun b : UInt8 => !Utf8.asciiByte (fun c => decide (c = '#')) b) =
      fun b => !(decide (b = 35)) := by
    funext b
    rw [Utf8.asciiByte_eq (by decide)]
    rfl
  have first : ∀ {β : Type} [DecidableEq β] (x : β) (xs : List β),
      xs.head? = some x ↔ xs ≠ [] ∧ xs.takeWhile (fun y => !(decide (y = x))) = [] := by
    intro β _ x xs
    cases xs with
    | nil => simp
    | cons y ys =>
      by_cases h : y = x <;> simp [h]
  rw [first, first, cut, hash, Utf8.decode_eq_nil_iff, Ne, Utf8.decode_eq_nil_iff]

theorem z85Alphabet_ascii : ∀ c ∈ z85Alphabet.toList, c.toNat < 128 := by
  have all : z85Alphabet.toList.all (fun c => c.toNat < 128) := by decide +kernel
  exact fun c hc => of_decide_eq_true (List.all_eq_true.mp all c hc)

/-- A key is ASCII, so both languages see the same one. -/
theorem isZ85Key_decode (word : Bytes) :
    isZ85Key String.toList (Utf8.decode word) = isZ85Key textCpp word := by
  have ofChars : ∀ t : List Char, t.all (fun c => decide (c ∈ z85Alphabet.toList)) →
      Utf8.encode t = Bytes.ofText t ∧
        (Bytes.ofText t).all (fun b => decide (b ∈ textCpp z85Alphabet)) := by
    intro t ht
    have inside : ∀ c ∈ t, c ∈ z85Alphabet.toList :=
      fun c hc => of_decide_eq_true (List.all_eq_true.mp ht c hc)
    refine ⟨Utf8.encode_ofText fun c hc => z85Alphabet_ascii c (inside c hc), ?_⟩
    refine List.all_eq_true.mpr fun b hb => ?_
    obtain ⟨c, hc, rfl⟩ := List.mem_map.mp hb
    exact decide_eq_true (List.mem_map_of_mem (inside c hc))
  have ofBytes : ∀ w : Bytes, w.all (fun b => decide (b ∈ textCpp z85Alphabet)) →
      ∃ t : List Char, t.all (fun c => decide (c ∈ z85Alphabet.toList)) ∧ w = Bytes.ofText t := by
    intro w hw
    induction w with
    | nil => exact ⟨[], rfl, rfl⟩
    | cons b w ih =>
      rw [List.all_cons, Bool.and_eq_true] at hw
      obtain ⟨t, ht, rfl⟩ := ih hw.2
      obtain ⟨c, hc, rfl⟩ := List.mem_map.mp (of_decide_eq_true hw.1)
      refine ⟨c :: t, ?_, rfl⟩
      rw [List.all_cons, ht, decide_eq_true hc]
      rfl
  rw [Bool.eq_iff_iff, isZ85Key, isZ85Key, Bool.and_eq_true, Bool.and_eq_true]
  constructor
  · rintro ⟨size, all⟩
    obtain ⟨same, all'⟩ := ofChars _ all
    have back : Utf8.encode (Utf8.decode word) = word := Utf8.encode_decode_of_ascii fun c hc =>
      z85Alphabet_ascii c (of_decide_eq_true (List.all_eq_true.mp all c hc))
    rw [← same, back] at all'
    rw [← back, same, Bytes.ofText, List.length_map]
    exact ⟨size, by rw [← Bytes.ofText, ← same, back]; exact all'⟩
  · rintro ⟨size, all⟩
    obtain ⟨t, ht, rfl⟩ := ofBytes word all
    rw [← (ofChars t ht).1, Utf8.decode_encode]
    rw [Bytes.ofText, List.length_map] at size
    exact ⟨size, ht⟩

theorem isComment_decode (key : Bytes) :
    isComment String.toList '#' (Utf8.decode key) = isComment textCpp 35 key := by
  rw [isComment, isComment, isZ85Key_decode, decide_eq_decide.mpr (head_decode key)]

/-- The words of all pieces are those `>>` reads, cut again at the blanks only Python knows. -/
theorem pieces_flatten (line : Bytes) :
    (pieces line).flatten = ((Text.splitWords isSpaceByte line).map Utf8.decode).flatMap
      (Text.splitWords Text.isBlank) := by
  have breaks : ∀ c, Text.isLineBreak c → Text.isBlank c := by
    intro c hc
    simp only [Text.isLineBreak, Bool.or_eq_true, decide_eq_true_eq] at hc
    rcases hc with ((((((((rfl | rfl) | rfl) | rfl) | rfl) | rfl) | rfl) | rfl) | rfl) | rfl <;> decide
  have drop : ∀ ls : List (List (List Char)), (ls.filter fun words => !words.isEmpty).flatten =
      ls.flatten := by
    intro ls
    induction ls with
    | nil => rfl
    | cons l ls ih => cases l <;> simp [ih]
  rw [pieces, drop, ← List.flatMap_def, ← Text.splitWords_flatMap breaks,
    Text.splitWords_flatMap fun _ => RoleMap.isBlank_of_isCSpace,
    Utf8.splitWords_decode fun _ => RoleMap.isCSpace_ascii, ← RoleMap.isSpaceByte_eq]

theorem splitWords_plainWord {word : Bytes} (ne : word ≠ []) (plain : plainWord word) :
    Text.splitWords Text.isBlank (Utf8.decode word) = [Utf8.decode word] :=
  RoleMap.splitWords_oneWord ne (Bool.and_eq_true_iff.mp plain).1

/-- What the Python reader makes of a word that starts with `#`. -/
theorem splitWords_hash {word : Bytes} (hash : word.head? = some 35) :
    ∃ more, Text.splitWords Text.isBlank (Utf8.decode word) =
        (Utf8.decode word).takeWhile (fun c => !Text.isBlank c) :: more ∧
      ((Utf8.decode word).takeWhile fun c => !Text.isBlank c).head? = some '#' := by
  have first := (head_decode word).mpr hash
  cases hd : Utf8.decode word with
  | nil => simp [hd] at first
  | cons c cs =>
    obtain rfl : c = '#' := by simpa [hd] using first
    obtain ⟨more, hm⟩ := @Text.splitWords_head _ Text.isBlank '#' cs (by decide)
    exact ⟨more, hm, by simp [show Text.isBlank '#' = false by decide]⟩

/-- What the Python reader lists where the C++ reader lists this. -/
def decoded (listed : Bytes × Option Bytes) : List Char × Option (List Char) :=
  (Utf8.decode listed.1, listed.2.map Utf8.decode)

/-- The identity is the same: the second word, if it is no comment. -/
theorem identity_decoded {rest : List Bytes} {more : List (List Char)}
    {tail : List (List (List Char))} (nonempty : ∀ word ∈ rest, word ≠ [])
    (filled : ∀ words ∈ tail, words ≠ [])
    (flat : more ++ tail.flatten =
      (rest.map Utf8.decode).flatMap (Text.splitWords Text.isBlank))
    (plain : rest.head?.all fun identity => identity.head? = some 35 || plainWord identity)
    (alone : ∀ words ∈ tail, entry String.toList '#' words = none) :
    (more.head?.filter fun identity => !(decide (identity.head? = some '#'))) =
      (rest.head?.filter fun identity => !(decide (identity.head? = some 35))).map Utf8.decode := by
  cases rest with
  | nil =>
    obtain ⟨rfl, -⟩ := List.append_eq_nil_iff.mp flat
    rfl
  | cons identity rest =>
    rw [List.map_cons, List.flatMap_cons] at flat
    by_cases hash : identity.head? = some 35
    · -- both take it for a comment
      obtain ⟨words, hw, first⟩ := splitWords_hash hash
      rw [hw, List.cons_append] at flat
      cases more with
      | nil => simp [Option.filter, hash]
      | cons word more =>
        obtain ⟨rfl, -⟩ := List.cons.inj flat
        simp [Option.filter, hash, first]
    · have kept : plainWord identity := by simpa [hash] using plain
      rw [splitWords_plainWord (nonempty identity List.mem_cons_self) kept] at flat
      have other : (Utf8.decode identity).head? ≠ some '#' := mt (head_decode identity).mp hash
      cases more with
      | cons word more =>
        obtain ⟨rfl, -⟩ := List.cons.inj flat
        simp [Option.filter, hash, other]
      | nil =>
        -- then the identity would stand first on the next piece, as a key
        exfalso
        cases tail with
        | nil => cases flat
        | cons words tail =>
          cases words with
          | nil => exact filled [] List.mem_cons_self rfl
          | cons word words =>
            obtain ⟨rfl, -⟩ := List.cons.inj flat
            have none := alone _ List.mem_cons_self
            simp [entry, isComment, other] at none

/-- On a plain line Python lists what C++ lists, and nothing more. -/
theorem pieces_line {line : Bytes} (plain : PlainLine line) :
    (pieces line).filterMap (entry String.toList '#') = ((readCpp line).map decoded).toList := by
  have flat := pieces_flatten line
  have filled : ∀ words ∈ pieces line, words ≠ [] := by
    intro words hw
    simpa using (List.mem_filter.mp hw).2
  have nonempty : ∀ word ∈ Text.splitWords isSpaceByte line, word ≠ [] :=
    fun word hw => (Text.splitWords_mem hw).1
  have words := plain.words
  have alone := plain.alone
  rw [readCpp]
  generalize Text.splitWords isSpaceByte line = found at flat words nonempty
  generalize pieces line = ps at flat filled alone
  cases found with
  | nil =>
    have none : ps = [] := by
      cases ps with
      | nil => rfl
      | cons words ps => exact absurd (List.append_eq_nil_iff.mp flat).1 (filled _ List.mem_cons_self)
    rw [none]
    rfl
  | cons key rest =>
    rw [List.map_cons, List.flatMap_cons] at flat
    have one : ∀ words tail, ps = words :: tail →
        ps.filterMap (entry String.toList '#') = (entry String.toList '#' words).toList := by
      rintro words tail rfl
      have rest : tail.filterMap (entry String.toList '#') = [] := List.filterMap_eq_nil_iff.mpr alone
      rw [List.filterMap_cons, rest]
      cases entry String.toList '#' words <;> rfl
    rw [plainWords] at words
    split_ifs at words with comment
    · -- a comment for both readers
      have hash : key.head? = some 35 := by
        simp only [isComment, Bool.and_eq_true, decide_eq_true_eq] at comment
        exact comment.1
      obtain ⟨further, hf, start⟩ := splitWords_hash hash
      rw [hf] at flat
      rcases ps with _ | ⟨_ | ⟨word, more⟩, tail⟩
      · cases flat
      · exact absurd rfl (filled [] List.mem_cons_self)
      · obtain ⟨rfl, -⟩ := List.cons.inj flat
        rw [one _ _ rfl]
        have skipped : isComment String.toList '#'
            ((Utf8.decode key).takeWhile fun c => !Text.isBlank c) := by
          simp [isComment, start, words]
        rw [entry, entry, if_pos skipped, if_pos comment]
        rfl
    · -- a key for both
      rw [Bool.and_eq_true] at words
      rw [splitWords_plainWord (nonempty key List.mem_cons_self) words.1] at flat
      rcases ps with _ | ⟨_ | ⟨word, more⟩, tail⟩
      · cases flat
      · exact absurd rfl (filled [] List.mem_cons_self)
      · obtain ⟨rfl, later⟩ := List.cons.inj flat
        have same := identity_decoded (fun word hw => nonempty word (List.mem_cons_of_mem _ hw))
          (fun words hw => filled words (List.mem_cons_of_mem _ hw)) later words.2 alone
        rw [one _ _ rfl, entry, entry, isComment_decode, if_neg comment, if_neg comment, same]
        rfl

/-- The C++ reader's key and identity come back from their text. -/
def Readable (listed : Bytes × Option Bytes) : Prop :=
  Utf8.encode (Utf8.decode listed.1) = listed.1 ∧
    ∀ identity ∈ listed.2, Utf8.encode (Utf8.decode identity) = identity ∧ identity ≠ []

theorem readable_line {line : Bytes} (plain : PlainLine line) {listed : Bytes × Option Bytes}
    (h : readCpp line = some listed) : Readable listed := by
  have words := plain.words
  have nonempty : ∀ word ∈ Text.splitWords isSpaceByte line, word ≠ [] :=
    fun word hw => (Text.splitWords_mem hw).1
  rw [readCpp] at h
  rcases hw : Text.splitWords isSpaceByte line with _ | ⟨key, rest⟩
  · rw [hw] at h
    cases h
  · rw [hw] at h words nonempty
    rw [plainWords] at words
    rw [entry] at h
    split_ifs at h words with comment
    cases Option.some.inj h
    rw [Bool.and_eq_true] at words
    refine ⟨of_decide_eq_true (Bool.and_eq_true_iff.mp words.1).2, fun identity hi => ?_⟩
    obtain ⟨first, hash⟩ := Option.filter_eq_some_iff.mp hi
    have kept : plainWord identity := by
      have := words.2
      rw [first] at this
      simpa [show ¬ identity.head? = some 35 by simpa using hash] using this
    exact ⟨of_decide_eq_true (Bool.and_eq_true_iff.mp kept).2,
      nonempty identity (List.mem_cons_of_mem _ (List.mem_of_head? first))⟩

/-- Both readers list the same entries of a plain file. -/
theorem listedPython_eq {file : Bytes} (plain : PlainFile file) :
    listedPython file = (listedCpp file).map decoded := by
  have feed : (fun b : UInt8 => decide (b = 10)) = Utf8.asciiByte fun c => decide (c = '\n') := by
    funext b
    rw [Utf8.asciiByte_eq (by decide)]
    rfl
  have each : ∀ lines : List Bytes, (∀ line ∈ lines, PlainLine line) →
      ((lines.map Utf8.decode).flatMap (Text.splitWords Text.isLineBreak)).filterMap readPython =
        (lines.filterMap readCpp).map decoded := by
    intro lines h
    induction lines with
    | nil => rfl
    | cons line lines ih =>
      have first : (Text.splitWords Text.isLineBreak (Utf8.decode line)).filterMap readPython =
          ((readCpp line).map decoded).toList := by
        rw [← pieces_line (h line List.mem_cons_self), pieces, List.filterMap_filter,
          List.filterMap_map]
        refine List.filterMap_congr fun piece _ => ?_
        rw [readPython, Function.comp]
        cases Text.splitWords Text.isBlank piece <;> rfl
      rw [List.map_cons, List.flatMap_cons, List.filterMap_append, first,
        ih fun l hl => h l (List.mem_cons_of_mem _ hl), List.filterMap_cons]
      cases readCpp line <;> rfl
  have sub : ∀ c : Char, decide (c = '\n') → Text.isLineBreak c := by
    intro c hc
    rw [of_decide_eq_true hc]
    decide
  have lines : ∀ line ∈ Text.splitWords (fun b : UInt8 => decide (b = 10)) file, PlainLine line :=
    fun line hl => plain line (List.mem_filter.mp hl).1
  rw [listedPython, Text.filterMap_splitlines rfl,
    Text.splitWords_universalNewlines (by decide) (by decide), Text.splitWords_flatMap sub,
    Utf8.splitWords_decode fun c hc => by rw [of_decide_eq_true hc]; decide]
  rw [← feed, each _ lines, listedCpp, Text.filterMap_splitWords rfl]

theorem readable_listed {file : Bytes} (plain : PlainFile file) :
    ∀ listed ∈ listedCpp file, Readable listed := by
  intro listed h
  obtain ⟨line, hl, hread⟩ := List.mem_filterMap.mp h
  exact readable_line (plain line hl) hread

/-- The lists both readers build from the same entries. -/
def builtCpp (listed : List (Bytes × Option Bytes)) : CppAllowList := listed.foldl CppAllowList.add {}

def builtPython (listed : List (Bytes × Option Bytes)) : PyAllowList :=
  ⟨Dict.ofPairs ((listed.map decoded).map fun listed => (listed.1, listed.2.getD []))⟩

section Answers

variable {listed : List (Bytes × Option Bytes)} {last : Bytes × Option Bytes} {key : List Char}

theorem builtCpp_concat : builtCpp (listed ++ [last]) = (builtCpp listed).add last :=
  List.foldl_concat ..

theorem builtPython_concat : (builtPython (listed ++ [last])).entries =
    (builtPython listed).entries.set (Utf8.decode last.1) ((last.2.map Utf8.decode).getD []) := by
  rw [builtPython, List.map_append, List.map_append]
  exact Dict.ofPairs_append _ _

/-- Both readers mean the same key. -/
theorem key_iff (readable : Readable last) : key = Utf8.decode last.1 ↔ Utf8.encode key = last.1 := by
  constructor
  · rintro rfl
    exact readable.1
  · intro h
    rw [← h, Utf8.decode_encode]

theorem contains_eq (readable : ∀ l ∈ listed, Readable l) (key : List Char) :
    (builtCpp listed).contains (Utf8.encode key) = (builtPython listed).contains key := by
  induction listed using List.reverseRecOn with
  | nil => rfl
  | append_singleton listed last ih =>
    have before := ih fun l hl => readable l (List.mem_append_left _ hl)
    have same : key = Utf8.decode last.1 ↔ Utf8.encode key = last.1 :=
      key_iff (readable last (by simp))
    rw [builtCpp_concat, PyAllowList.contains, builtPython_concat, Dict.get?_set]
    rw [PyAllowList.contains] at before
    by_cases h : key = Utf8.decode last.1
    · rw [if_pos h]
      simp [CppAllowList.contains, CppAllowList.add, same.mp h]
    · rw [if_neg h, ← before]
      simp [CppAllowList.contains, CppAllowList.add, mt same.mpr h]

theorem identity_concat (key : Bytes) : (builtCpp (listed ++ [last])).identity key =
    if key = last.1 then last.2.getD ((builtCpp listed).identity key)
    else (builtCpp listed).identity key := by
  rw [builtCpp_concat, CppAllowList.identity, CppAllowList.identity, CppAllowList.add]
  cases last.2 with
  | none => simp
  | some identity =>
    rw [Option.elim_some, Dict.get?_set]
    split_ifs <;> rfl

/-- The C++ list has no identity for a key that no line names one for. -/
theorem identity_eq_nil_iff (readable : ∀ l ∈ listed, Readable l) (key : Bytes) :
    (builtCpp listed).identity key = [] ↔ ∀ l ∈ listed, l.1 = key → l.2 = none := by
  induction listed using List.reverseRecOn with
  | nil => simp [builtCpp, CppAllowList.identity]
  | append_singleton listed last ih =>
    have before := ih fun l hl => readable l (List.mem_append_left _ hl)
    have filled := (readable last (by simp)).2
    rw [identity_concat, List.forall_mem_append, List.forall_mem_singleton, ← before]
    by_cases h : key = last.1
    · rw [if_pos h]
      cases named : last.2 with
      | none => simp
      | some identity =>
        have := (filled identity named).2
        simp [this, h]
    · rw [if_neg h]
      simp [Ne.symm h]

theorem namedLast_concat (key : Bytes) : NamedLast (listed ++ [last]) key ↔
    (last.1 = key → last.2 = none → ∀ l ∈ listed, l.1 = key → l.2 = none) ∧
      (last.1 ≠ key → NamedLast listed key) := by
  constructor
  · intro named
    refine ⟨fun same none => named listed [] ?_ (by simp), fun other before after parts none => ?_⟩
    · rw [← same, ← none]
    · subst parts
      refine named before (after ++ [last]) (by simp) fun l hl => ?_
      rcases List.mem_append.mp hl with hl | hl
      · exact none l hl
      · exact List.mem_singleton.mp hl ▸ other
  · rintro ⟨here, before_⟩ before after parts none
    rcases List.eq_nil_or_concat' after with rfl | ⟨after, final, rfl⟩
    · obtain ⟨rfl, one⟩ := List.append_inj' parts rfl
      cases one
      exact here rfl rfl
    · have parts' : listed ++ [last] = (before ++ (key, Option.none) :: after) ++ [final] := by
        simpa using parts
      obtain ⟨rfl, one⟩ := List.append_inj' parts' rfl
      cases one
      exact before_ (none last (by simp)) before after rfl fun l hl => none l (by simp [hl])

/-- The identities are the same exactly if the last line of the key decides for both. -/
theorem identity_eq_iff (readable : ∀ l ∈ listed, Readable l) (key : List Char) :
    (builtCpp listed).identity (Utf8.encode key) = Utf8.encode ((builtPython listed).identity key) ↔
      NamedLast listed (Utf8.encode key) := by
  induction listed using List.reverseRecOn with
  | nil =>
    refine iff_of_true rfl fun before after h => ?_
    cases before <;> cases h
  | append_singleton listed last ih =>
    have earlier : ∀ l ∈ listed, Readable l := fun l hl => readable l (List.mem_append_left _ hl)
    have same : key = Utf8.decode last.1 ↔ Utf8.encode key = last.1 :=
      key_iff (readable last (by simp))
    have back := (readable last (by simp)).2
    rw [identity_concat, PyAllowList.identity, builtPython_concat, Dict.get?_set, namedLast_concat]
    by_cases h : Utf8.encode key = last.1
    · rw [if_pos h, if_pos (same.mpr h)]
      cases named : last.2 with
      | none =>
        have nothing : Utf8.encode [] = [] := rfl
        simp [h.symm, identity_eq_nil_iff earlier, nothing]
      | some identity => simp [h.symm, (back identity named).1]
    · rw [if_neg h, if_neg (mt same.mp h)]
      have other := ih earlier
      rw [PyAllowList.identity] at other
      rw [other]
      simp [Ne.symm h]

end Answers

end AllowList

/-- On plain lines the servers agree about a key exactly if it keeps its identity to its last line. -/
theorem allowLists_agree_iff {file : Bytes} (plain : AllowList.PlainFile file) (key : List Char) :
    AllowList.Agree file key ↔ AllowList.NamedLast (AllowList.listedCpp file) (Utf8.encode key) := by
  have readable := AllowList.readable_listed plain
  rw [AllowList.Agree, PyAllowList.fromFile, AllowList.listedPython_eq plain,
    ← AllowList.identity_eq_iff readable key]
  exact and_iff_right (AllowList.contains_eq readable key)

/-- A comment, a key that starts with `#`, and a key with a comment where its identity would be. -/
def gatewayFile : Bytes := Bytes.ofText
  ("# gateways\r\n#123456789012345678901234567890123456789 alice\nplain-key\t#nobody\r\n").toList

theorem allowLists_agree_iff_gateway :
    AllowList.Agree gatewayFile "plain-key".toList ↔
      AllowList.NamedLast (AllowList.listedCpp gatewayFile) (Utf8.encode "plain-key".toList) :=
  allowLists_agree_iff (by decide +kernel) _

/-- A key that is listed again without its identity. -/
def repeatedFile : Bytes := Bytes.ofText "plain-key alice\nplain-key\n".toList

theorem not_allowLists_agree : ¬ ∀ (file : Bytes) (key : List Char), AllowList.Agree file key := by
  intro all
  have answers : (CppAllowList.fromFile repeatedFile).identity (Utf8.encode "plain-key".toList) =
        Bytes.ofText "alice".toList ∧
      (PyAllowList.fromFile repeatedFile).identity "plain-key".toList = [] := by decide +kernel
  have same := (all repeatedFile "plain-key".toList).2
  rw [answers.1, answers.2] at same
  revert same
  decide +kernel

end Harpia
