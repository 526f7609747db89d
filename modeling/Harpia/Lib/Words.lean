import Harpia.Lib.Text
import Harpia.Lib.Utf8
import Mathlib.Data.List.TakeWhile

namespace Text

variable {α : Type}

/-- The words between separators: `str.split`, or what `>>` reads one after another. -/
def splitWords (p : α → Bool) (xs : List α) : List (List α) :=
  (xs.splitOnP p).filter fun w => !w.isEmpty

/-- A list is free of separators, or is cut at the first one. -/
theorem free_or_cut (p : α → Bool) (xs : List α) : (∀ x ∈ xs, p x = false) ∨
    ∃ before sep ys, xs = before ++ sep :: ys ∧ (∀ x ∈ before, p x = false) ∧ p sep := by
  have split : xs = xs.takeWhile (fun x => !p x) ++ xs.dropWhile (fun x => !p x) :=
    List.takeWhile_append_dropWhile.symm
  have before : ∀ x ∈ xs.takeWhile (fun x => !p x), p x = false := fun x hx => by
    simpa using List.mem_takeWhile_imp hx
  cases hd : xs.dropWhile (fun x => !p x) with
  | nil =>
    rw [hd, List.append_nil] at split
    exact .inl (split ▸ before)
  | cons sep ys =>
    have stop : p sep := by
      have := List.head?_dropWhile_not (fun x => !p x) xs
      rw [hd] at this
      simpa using this
    rw [hd] at split
    exact .inr ⟨_, sep, ys, split, before, stop⟩

theorem cut_induction {motive : List α → Prop} (p : α → Bool)
    (free : ∀ xs, (∀ x ∈ xs, p x = false) → motive xs)
    (cut : ∀ xs sep ys, (∀ x ∈ xs, p x = false) → p sep → motive ys → motive (xs ++ sep :: ys))
    (xs : List α) : motive xs := by
  obtain none_ | ⟨before, sep, ys, split, apart, stop⟩ := free_or_cut p xs
  · exact free xs none_
  · have shorter : ys.length < xs.length := by
      rw [split]
      simp
      omega
    rw [split]
    exact cut before sep ys apart stop (cut_induction p free cut ys)
termination_by xs.length

theorem splitWords_free {p : α → Bool} {xs : List α} (h : ∀ x ∈ xs, p x = false) :
    splitWords p xs = if xs.isEmpty then [] else [xs] := by
  rw [splitWords, List.splitOnP_eq_singleton h]
  cases xs <;> rfl

theorem splitWords_append {p : α → Bool} (xs : List α) {sep : α} (h : p sep) (ys : List α) :
    splitWords p (xs ++ sep :: ys) = splitWords p xs ++ splitWords p ys := by
  rw [splitWords, List.splitOnP_append_cons _ _ h, List.filter_append]
  rfl

theorem splitWords_blank {p : α → Bool} {xs : List α} (h : ∀ x ∈ xs, p x) : splitWords p xs = [] := by
  induction xs with
  | nil => rfl
  | cons x xs ih =>
    have step := splitWords_append [] (h x (List.mem_cons_self ..)) xs
    rw [List.nil_append] at step
    rw [step, ih fun y hy => h y (List.mem_cons_of_mem _ hy)]
    rfl

/-- Splitting at fewer separators first. -/
theorem splitWords_flatMap {p q : α → Bool} (sub : ∀ x, q x → p x) (xs : List α) :
    splitWords p xs = (splitWords q xs).flatMap (splitWords p) := by
  induction xs using cut_induction q with
  | free xs h =>
    rw [splitWords_free h]
    cases xs with
    | nil => rfl
    | cons x xs => simp
  | cut xs sep ys h hsep ih =>
    rw [splitWords_append xs (sub sep hsep), splitWords_append xs hsep, List.flatMap_append, ih]
    congr 1
    rw [splitWords_free h]
    cases xs with
    | nil => rfl
    | cons x xs => simp

theorem splitWords_mem {p : α → Bool} {xs w : List α} (h : w ∈ splitWords p xs) :
    w ≠ [] ∧ ∀ x ∈ w, p x = false := by
  induction xs using cut_induction p with
  | free xs free =>
    rw [splitWords_free free] at h
    cases xs with
    | nil => cases h
    | cons x xs =>
      rw [List.mem_singleton.mp h]
      exact ⟨List.cons_ne_nil x xs, free⟩
  | cut xs sep ys free hsep ih =>
    rw [splitWords_append xs hsep, splitWords_free free] at h
    rcases List.mem_append.mp h with h | h
    · cases xs with
      | nil => cases h
      | cons x xs =>
        rw [List.mem_singleton.mp h]
        exact ⟨List.cons_ne_nil x xs, free⟩
    · exact ih h

/-- A list that starts with a word. -/
theorem splitWords_head {p : α → Bool} {x : α} {xs : List α} (h : p x = false) :
    ∃ more, splitWords p (x :: xs) = (x :: xs).takeWhile (fun y => !p y) :: more := by
  have parts : (x :: xs).takeWhile (fun y => !p y) ++ (x :: xs).dropWhile (fun y => !p y) = x :: xs :=
    List.takeWhile_append_dropWhile
  have first : ∀ y ∈ (x :: xs).takeWhile (fun y => !p y), p y = false := fun y hy => by
    simpa using List.mem_takeWhile_imp hy
  have word : splitWords p ((x :: xs).takeWhile fun y => !p y) =
      [(x :: xs).takeWhile fun y => !p y] := by
    rw [splitWords_free first, if_neg]
    simp [h]
  cases hd : (x :: xs).dropWhile (fun y => !p y) with
  | nil =>
    rw [hd, List.append_nil] at parts
    rw [parts] at word
    exact ⟨[], by rw [parts, word]⟩
  | cons sep rest =>
    have stop : p sep := by
      have := List.head?_dropWhile_not (fun y => !p y) (x :: xs)
      rw [hd] at this
      simpa using this
    refine ⟨splitWords p rest, ?_⟩
    rw [hd] at parts
    rw [← parts, splitWords_append _ stop, word, parts]
    rfl

/-- Splitting at fewer separators first, with the empty pieces. -/
theorem splitOnP_flatMap {p q : α → Bool} (sub : ∀ x, q x → p x) (xs : List α) :
    xs.splitOnP p = (xs.splitOnP q).flatMap (·.splitOnP p) := by
  induction xs using cut_induction q with
  | free xs h => simp [List.splitOnP_eq_singleton h]
  | cut xs sep ys h hsep ih =>
    rw [List.splitOnP_append_cons _ _ (sub sep hsep),
      List.splitOnP_append_cons_of_forall_mem h _ hsep, List.flatMap_cons, ih]

theorem splitOnP_mem {p : α → Bool} {xs w : List α} (h : w ∈ xs.splitOnP p) :
    (∀ x ∈ w, p x = false) ∧ w ⊆ xs := by
  induction xs using cut_induction p with
  | free xs free =>
    rw [List.splitOnP_eq_singleton free, List.mem_singleton] at h
    subst h
    exact ⟨free, List.Subset.refl _⟩
  | cut xs sep ys free hsep ih =>
    rw [List.splitOnP_append_cons_of_forall_mem free _ hsep] at h
    rcases List.mem_cons.mp h with rfl | h
    · exact ⟨free, List.subset_append_left _ _⟩
    · obtain ⟨inside, sub⟩ := ih h
      exact ⟨inside, fun x hx => List.mem_append_right _ (List.mem_cons_of_mem _ (sub hx))⟩

/-- The pieces of text mode are those of the text itself: the rest of a `\r\n` is empty. -/
theorem splitWords_universalNewlines {p : Char → Bool} (feed : p '\n') (return_ : p '\r')
    (cs : List Char) : splitWords p (universalNewlines cs) = splitWords p cs := by
  have passes : ∀ xs ys : List Char, (∀ x ∈ xs, p x = false) →
      universalNewlines (xs ++ ys) = xs ++ universalNewlines ys := by
    intro xs ys free
    induction xs with
    | nil => rfl
    | cons x xs ih =>
      have other : x ≠ '\r' := by
        rintro rfl
        exact absurd return_ (by rw [free '\r' List.mem_cons_self]; decide)
      rw [List.cons_append, List.cons_append, universalNewlines,
        ih fun y hy => free y (List.mem_cons_of_mem _ hy)]
      · exact fun _ h _ => other h
      · exact other
  induction cs using cut_induction p with
  | free xs free => rw [← List.append_nil xs, passes xs [] free, universalNewlines]
  | cut xs sep ys free hsep ih =>
    rw [passes xs _ free, splitWords_append xs hsep]
    rw [← ih]
    by_cases hr : sep = '\r'
    · subst hr
      cases ys with
      | nil => exact splitWords_append xs feed []
      | cons y ys =>
        by_cases hn : y = '\n'
        · subst hn
          have first := splitWords_append [] feed (universalNewlines ys)
          rw [List.nil_append] at first
          rw [universalNewlines, splitWords_append xs feed, universalNewlines, first]
          · rfl
          · simp
          · simp
        · rw [universalNewlines, splitWords_append xs feed]
          intro ys' h
          exact hn (List.cons.inj h).1
    · rw [universalNewlines, splitWords_append xs hsep]
      · exact fun _ h _ => hr h
      · exact hr

/-- `str.splitlines` of a text without `\r\n`. -/
def splitlines (cs : List Char) : List (List Char) :=
  let ls := cs.splitOnP isLineBreak
  if ls.getLast? = some [] then ls.dropLast else ls

/-- What reads nothing from an empty line reads the same from the lines that are not empty. -/
theorem filterMap_splitWords {β : Type} {read : List α → Option β} (empty : read [] = none)
    (p : α → Bool) (xs : List α) :
    (xs.splitOnP p).filterMap read = (splitWords p xs).filterMap read := by
  rw [splitWords, List.filterMap_filter]
  refine List.filterMap_congr fun w _ => ?_
  cases w with
  | nil => simp [empty]
  | cons x w => simp

theorem filterMap_splitlines {β : Type} {read : List Char → Option β} (empty : read [] = none)
    (cs : List Char) :
    (splitlines cs).filterMap read = (splitWords isLineBreak cs).filterMap read := by
  rw [← filterMap_splitWords empty, splitlines]
  split_ifs with last
  · obtain ⟨ls, hls⟩ := List.getLast?_eq_some_iff.mp last
    rw [hls, List.dropLast_concat, List.filterMap_append]
    simp [empty]
  · rfl

end Text

namespace Utf8

/-- A kind of ASCII characters, on bytes. -/
def asciiByte (p : Char → Bool) (b : UInt8) : Bool := b.toNat < 128 && p (Char.ofNat b.toNat)

theorem asciiByte_or (p q : Char → Bool) (b : UInt8) :
    asciiByte (fun c => p c || q c) b = (asciiByte p b || asciiByte q b) := by
  simp only [asciiByte, Bool.and_or_distrib_left]

theorem asciiByte_eq {d : Char} (h : d.toNat < 128) (b : UInt8) :
    asciiByte (fun c => decide (c = d)) b = decide (b = UInt8.ofNat d.toNat) := by
  have back : (UInt8.ofNat d.toNat).toNat = d.toNat :=
    UInt8.toNat_ofNat_of_lt' (Nat.lt_trans h (by decide))
  rw [asciiByte, ← Bool.decide_and, decide_eq_decide]
  constructor
  · rintro ⟨small, rfl⟩
    rw [toNat_ofNat_ascii small, UInt8.ofNat_toNat]
  · rintro rfl
    rw [back, Char.ofNat_toNat]
    exact ⟨h, rfl⟩

variable {p : Char → Bool}

/-- Bytes without a separator have none in their text. -/
theorem decode_free (ascii : ∀ c, p c → c.toNat < 128) {bs : Bytes}
    (h : ∀ b ∈ bs, asciiByte p b = false) : ∀ c ∈ decode bs, p c = false := by
  intro c hc
  by_contra sep
  rw [Bool.not_eq_false] at sep
  have small := ascii c sep
  have mem := mem_of_mem_decodeFrom hc small
  have back : (UInt8.ofNat c.toNat).toNat = c.toNat :=
    UInt8.toNat_ofNat_of_lt' (Nat.lt_trans small (by decide))
  have := h _ mem
  simp [asciiByte, back, small, sep] at this

/-- Splitting at ASCII separators and decoding commute. -/
theorem splitOnP_decode (ascii : ∀ c, p c → c.toNat < 128) (bs : Bytes) :
    (decode bs).splitOnP p = (bs.splitOnP (asciiByte p)).map decode := by
  induction bs using Text.cut_induction (asciiByte p) with
  | free bs h =>
    rw [List.splitOnP_eq_singleton h, List.splitOnP_eq_singleton (decode_free ascii h)]
    rfl
  | cut xs sep ys h hsep ih =>
    obtain ⟨small, hp⟩ : sep.toNat < 128 ∧ p (Char.ofNat sep.toNat) := by
      simpa [asciiByte] using hsep
    rw [decode_append xs small,
      List.splitOnP_append_cons_of_forall_mem (decode_free ascii h) _ hp, ih,
      List.splitOnP_append_cons_of_forall_mem h _ hsep]
    rfl

theorem decode_eq_nil_iff {bs : Bytes} : decode bs = [] ↔ bs = [] := by
  cases bs with
  | nil => simp [decode, decodeFrom]
  | cons b bs =>
    rw [decode, decodeFrom]
    cases decodeChar? (b :: bs) <;> simp

theorem splitWords_decode (ascii : ∀ c, p c → c.toNat < 128) (bs : Bytes) :
    Text.splitWords p (decode bs) = (Text.splitWords (asciiByte p) bs).map decode := by
  rw [Text.splitWords, splitOnP_decode ascii, Text.splitWords, List.filter_map]
  congr 1
  refine List.filter_congr fun w _ => ?_
  refine congrArg not (Bool.eq_iff_iff.mpr ?_)
  rw [List.isEmpty_iff, List.isEmpty_iff, decode_eq_nil_iff]

/-- A text up to its first ASCII separator. -/
theorem takeWhile_decode (ascii : ∀ c, p c → c.toNat < 128) (bs : Bytes) :
    (decode bs).takeWhile (fun c => !p c) = decode (bs.takeWhile fun b => !asciiByte p b) := by
  obtain h | ⟨xs, sep, ys, rfl, h, hsep⟩ := Text.free_or_cut (asciiByte p) bs
  · rw [List.takeWhile_eq_self_iff.mpr fun c hc => by simp [decode_free ascii h c hc],
      List.takeWhile_eq_self_iff.mpr fun b hb => by simp [h b hb]]
  · obtain ⟨small, hp⟩ : sep.toNat < 128 ∧ p (Char.ofNat sep.toNat) := by
      simpa [asciiByte] using hsep
    rw [decode_append xs small,
      List.takeWhile_append_of_pos fun c hc => by simp [decode_free ascii h c hc],
      List.takeWhile_append_of_pos fun b hb => by simp [h b hb],
      List.takeWhile_cons_of_neg (by simp [hp]), List.takeWhile_cons_of_neg (by simp [hsep]),
      List.append_nil, List.append_nil]

end Utf8
