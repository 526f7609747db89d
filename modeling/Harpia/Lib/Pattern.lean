import Harpia.Lib.Text
import Mathlib.Data.List.TakeWhile

/-- How much of the head of a text a pattern matches. A repetition takes all it can and gives nothing
back, which is what backtracking finds too wherever the part after it cannot start inside it. -/
abbrev Pattern := List Char → Option Nat

namespace Pattern

def lit (text : String) : Pattern := fun s =>
  if text.toList.isPrefixOf s then some text.length else none

def one (p : Char → Bool) : Pattern := fun s =>
  match s with
  | [] => none
  | c :: _ => if p c then some 1 else none

def many (p : Char → Bool) : Pattern := fun s => some (s.takeWhile p).length

def seq (first second : Pattern) : Pattern := fun s =>
  match first s with
  | none => none
  | some n => (second (s.drop n)).map (n + ·)

def either (first second : Pattern) : Pattern := fun s => (first s).or (second s)

def opt (p : Pattern) : Pattern := fun s => some ((p s).getD 0)

/-- `\b` after a word character. -/
def wordEnd : Pattern := fun s =>
  match s with
  | [] => some 0
  | c :: _ => if Text.isWord c then none else some 0

/-- One or more. -/
def many1 (p : Char → Bool) : Pattern := seq (one p) (many p)

end Pattern

/-- A match of `finditer`, with the name of the rule that matched. -/
structure Match (κ : Type) where
  kind : κ
  lexeme : List Char
  start : Nat
deriving DecidableEq, Repr

namespace Pattern

variable {κ : Type}

/-- The first rule that matches at the head. -/
def firstRule (rules : List (κ × Pattern)) (s : List Char) : Option (κ × Nat) :=
  rules.findSome? fun rule => (rule.2 s).map fun n => (rule.1, n)

/-- The matches from left to right, once `skip` characters are passed. -/
def finditerFrom (rules : List (κ × Pattern)) : (skip start : Nat) → List Char → List (Match κ)
  | _, _, [] => []
  | skip + 1, start, _ :: s => finditerFrom rules skip (start + 1) s
  | 0, start, c :: s =>
    match firstRule rules (c :: s) with
    | none => finditerFrom rules 0 (start + 1) s
    | some (kind, n) =>
      { kind := kind, lexeme := (c :: s).take n, start := start } ::
        finditerFrom rules (n - 1) (start + 1) s

def finditer (rules : List (κ × Pattern)) (s : List Char) : List (Match κ) := finditerFrom rules 0 0 s

/-- What the pattern matches ends in a character other than a line feed. -/
def InLine (p : Pattern) : Prop :=
  ∀ (s : List Char) (n : Nat), p s = some (n + 1) → ∃ c, s[n]? = some c ∧ c ≠ '\n'

/-- A match is never empty. -/
def Positive (p : Pattern) : Prop := ∀ s : List Char, p s ≠ some 0

theorem lit_some {text : String} {s : List Char} {n : Nat} (h : lit text s = some n) :
    n = text.toList.length ∧ ∃ rest, s = text.toList ++ rest := by
  unfold lit at h
  split at h
  next pre =>
    obtain ⟨rest, hrest⟩ := List.isPrefixOf_iff_prefix.mp pre
    exact ⟨by rw [← Option.some.inj h, String.length_toList], rest, hrest.symm⟩
  next => cases h

theorem one_head {p : Char → Bool} {s : List Char} {n : Nat} (h : one p s = some n) :
    n = 1 ∧ ∃ c rest, s = c :: rest ∧ p c := by
  cases s with
  | nil => cases h
  | cons c s =>
    unfold one at h
    simp only at h
    split at h
    next hc => exact ⟨(Option.some.inj h).symm, c, s, rfl, hc⟩
    next => cases h

theorem seq_some {p q : Pattern} {s : List Char} {n : Nat} (h : seq p q s = some n) :
    ∃ k m, p s = some k ∧ q (s.drop k) = some m ∧ k + m = n := by
  unfold seq at h
  split at h
  · cases h
  next k hk =>
    obtain ⟨m, hm, sum⟩ := Option.map_eq_some_iff.mp h
    exact ⟨k, m, hk, hm, sum⟩

theorem inLine_lit {text : String} (h : '\n' ∉ text.toList) : (lit text).InLine := by
  intro s n hs
  obtain ⟨length, rest, rfl⟩ := lit_some hs
  have inside : n < text.toList.length := by omega
  refine ⟨text.toList[n], ?_, fun hc => h (hc ▸ List.getElem_mem inside)⟩
  rw [List.getElem?_append_left inside, List.getElem?_eq_getElem inside]

theorem positive_lit {text : String} (h : text.toList ≠ []) : (lit text).Positive := by
  intro s hs
  exact h (List.length_eq_zero_iff.mp (lit_some hs).1.symm)

theorem inLine_one {p : Char → Bool} (h : p '\n' = false) : (one p).InLine := by
  intro s n hs
  obtain ⟨length, c, rest, rfl, hc⟩ := one_head hs
  obtain rfl : n = 0 := by omega
  refine ⟨c, rfl, ?_⟩
  rintro rfl
  rw [h] at hc
  cases hc

theorem positive_one (p : Char → Bool) : (one p).Positive := by
  intro s hs
  cases (one_head hs).1

theorem inLine_many {p : Char → Bool} (h : p '\n' = false) : (many p).InLine := by
  intro s n hs
  have length : (s.takeWhile p).length = n + 1 := Option.some.inj hs
  have inside : n < (s.takeWhile p).length := by omega
  refine ⟨(s.takeWhile p)[n], ?_, ?_⟩
  · have split : s = s.takeWhile p ++ s.dropWhile p := List.takeWhile_append_dropWhile.symm
    conv_lhs => rw [split]
    rw [List.getElem?_append_left inside, List.getElem?_eq_getElem inside]
  · intro hc
    have := List.mem_takeWhile_imp (List.getElem_mem inside)
    rw [hc, h] at this
    cases this

/-- After a first part that may run over a line end, the second part must match something. -/
theorem inLine_seq_of {p q : Pattern} (hp : p.InLine ∨ q.Positive) (hq : q.InLine) :
    (seq p q).InLine := by
  intro s n hs
  obtain ⟨k, m, hk, hm, sum⟩ := seq_some hs
  cases m with
  | zero =>
    rcases hp with hp | positive
    · exact hp s n (by rw [hk, ← sum]; rfl)
    · exact absurd hm (positive _)
  | succ m =>
    obtain ⟨c, hc, other⟩ := hq (s.drop k) m hm
    refine ⟨c, ?_, other⟩
    rw [List.getElem?_drop] at hc
    rw [← hc]
    congr 1
    omega

theorem inLine_seq {p q : Pattern} (hp : p.InLine) (hq : q.InLine) : (seq p q).InLine :=
  inLine_seq_of (Or.inl hp) hq

theorem positive_seq {p q : Pattern} (positive : p.Positive ∨ q.Positive) : (seq p q).Positive := by
  intro s hs
  obtain ⟨k, m, hk, hm, sum⟩ := seq_some hs
  rcases positive with positive | positive
  · exact positive s (by rw [hk]; congr 1; omega)
  · exact positive _ (by rw [hm]; congr 1; omega)

theorem inLine_wordEnd : wordEnd.InLine := by
  intro s n hs
  unfold wordEnd at hs
  split at hs
  · simp at hs
  · split at hs <;> simp at hs

/-- On a line whose only line feed ends it, every rule but one stays before the line feed, and that
one matches nothing else: the matches end with it. -/
theorem finditerFrom_line {rules : List (κ × Pattern)} {newline : κ}
    (inLine : ∀ rule ∈ rules, rule.2.InLine ∨ ∀ c s, c ≠ '\n' → rule.2 (c :: s) = none)
    (last : firstRule rules ['\n'] = some (newline, 1)) {init : List Char} (free : '\n' ∉ init)
    {skip start : Nat} (h : skip ≤ init.length) :
    ∃ ms m, finditerFrom rules skip start (init ++ ['\n']) = ms ++ [m] ∧ m.kind = newline := by
  induction init generalizing skip start with
  | nil =>
    obtain rfl : skip = 0 := Nat.le_zero.mp h
    refine ⟨[], { kind := newline, lexeme := ['\n'], start := start }, ?_, rfl⟩
    simp [finditerFrom, last]
  | cons c init ih =>
    obtain ⟨other, free'⟩ := not_or.mp (List.mem_cons.not.mp free)
    rw [List.cons_append]
    cases skip with
    | succ skip =>
      rw [finditerFrom]
      exact ih free' (Nat.le_of_succ_le_succ h)
    | zero =>
      rw [finditerFrom]
      split
      next => exact ih free' (Nat.zero_le _)
      next kind n found =>
        obtain ⟨rule, hrule, hn⟩ := List.exists_of_findSome?_eq_some found
        obtain ⟨n', hmatch, he⟩ := Option.map_eq_some_iff.mp hn
        obtain ⟨rfl, rfl⟩ := Prod.mk.inj he
        have before : n' - 1 ≤ init.length := by
          rcases inLine rule hrule with stays | never
          · cases n' with
            | zero => exact Nat.zero_le _
            | succ n =>
              obtain ⟨d, hd, hother⟩ := stays _ n hmatch
              have bound : n < (c :: (init ++ ['\n'])).length := by
                exact (List.getElem?_eq_some_iff.mp hd).1
              simp only [List.length_cons, List.length_append, List.length_nil] at bound
              by_contra beyond
              obtain rfl : n = init.length + 1 := by omega
              rw [List.getElem?_cons_succ, List.getElem?_concat_length] at hd
              exact hother (Option.some.inj hd).symm
          · rw [never c _ (Ne.symm other)] at hmatch
            cases hmatch
        obtain ⟨ms, m, hms, hm⟩ := ih free' before
        exact ⟨_ :: ms, m, by rw [hms]; rfl, hm⟩

/-- The matches cut the text into pieces, each the first rule's at its place. -/
inductive Cuts (rules : List (κ × Pattern)) : List (Match κ) → List Char → Prop
  | nil : Cuts rules [] []
  | cons {m : Match κ} {ms : List (Match κ)} {s : List Char} {n : Nat}
      (first : firstRule rules s = some (m.kind, n)) (lexeme : m.lexeme = s.take n)
      (rest : Cuts rules ms (s.drop n)) : Cuts rules (m :: ms) s

/-- Rules one of which always matches something, and none of which matches nothing, cut every text. -/
theorem finditerFrom_cuts {rules : List (κ × Pattern)} (positive : ∀ rule ∈ rules, rule.2.Positive)
    (total : ∀ c s, firstRule rules (c :: s) ≠ none) (skip start : Nat) (s : List Char) :
    Cuts rules (finditerFrom rules skip start s) (s.drop skip) := by
  induction s generalizing skip start with
  | nil =>
    rw [List.drop_nil, finditerFrom]
    exact .nil
  | cons c s ih =>
    cases skip with
    | succ skip =>
      rw [finditerFrom]
      exact ih skip (start + 1)
    | zero =>
      rw [finditerFrom, List.drop_zero]
      split
      next none => exact absurd none (total c s)
      next kind n found =>
        obtain ⟨rule, hrule, hn⟩ := List.exists_of_findSome?_eq_some found
        obtain ⟨n', hmatch, he⟩ := Option.map_eq_some_iff.mp hn
        obtain ⟨rfl, rfl⟩ := Prod.mk.inj he
        cases n' with
        | zero => exact absurd hmatch (positive rule hrule _)
        | succ n => exact .cons found rfl (ih n (start + 1))

theorem Cuts.flatMap {rules : List (κ × Pattern)} {ms : List (Match κ)} {s : List Char}
    (h : Cuts rules ms s) : ms.flatMap Match.lexeme = s := by
  induction h with
  | nil => rfl
  | cons _ lexeme _ ih => rw [List.flatMap_cons, ih, lexeme, List.take_append_drop]

/-- Each piece is what the first rule matches of the text from there on. -/
theorem Cuts.at {rules : List (κ × Pattern)} {before after : List (Match κ)} {m : Match κ}
    {s : List Char} (h : Cuts rules (before ++ m :: after) s) :
    ∃ n, firstRule rules (m.lexeme ++ after.flatMap Match.lexeme) = some (m.kind, n) ∧
      m.lexeme = (m.lexeme ++ after.flatMap Match.lexeme).take n := by
  induction before generalizing s with
  | nil =>
    cases h with
    | @cons _ _ _ n first lexeme rest =>
      have whole : m.lexeme ++ after.flatMap Match.lexeme = s := by
        rw [rest.flatMap, lexeme, List.take_append_drop]
      rw [whole]
      exact ⟨n, first, lexeme⟩
  | cons b before ih =>
    cases h with
    | cons _ _ rest => exact ih rest

theorem many1_take {p : Char → Bool} {s : List Char} {n : Nat} (h : many1 p s = some n) :
    ∀ c ∈ s.take n, p c := by
  obtain ⟨k, m, hone, hmany, rfl⟩ := seq_some h
  obtain ⟨rfl, c, rest, rfl, hc⟩ := one_head hone
  cases Option.some.inj hmany
  intro d hd
  rw [List.drop_one, List.tail_cons, Nat.add_comm, List.take_succ_cons] at hd
  rcases List.mem_cons.mp hd with rfl | hd
  · exact hc
  · rw [← List.prefix_iff_eq_take.mp (List.takeWhile_prefix p)] at hd
    exact List.mem_takeWhile_imp hd

theorem positive_many1 (p : Char → Bool) : (many1 p).Positive :=
  positive_seq (.inl (positive_one p))

end Pattern
