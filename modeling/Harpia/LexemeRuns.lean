import Harpia.LexicalAnalyzer

namespace Harpia

open Pattern

/-- The word that a rule stands for. -/
def keyword : TokenKind → Option String
  | .IMPORT => some "import"
  | .ENUM => some "enum"
  | .STREAM => some "stream"
  | .PULL => some "pull"
  | .PUSH => some "push"
  | .EVENT => some "event"
  | .PUSHPULL => some "pushpull"
  | .DDS => some "dds"
  | .PROTECTED => some "protected"
  | .OPEN => some "open"
  | .AUTOKEY => some "autokey"
  | .CRITICAL => some "critical"
  | .MESSAGE => some "message"
  | .PHI => some "phi"
  | .OPTIONAL => some "optional"
  | .REPETEABLE => some "repeteable"
  | .PAGINATION => some "pagination"
  | .REQUIRED => some "required"
  | .UNIQUE => some "unique"
  | .RENAMED_FROM => some "renamed_from"
  | .MAP => some "map"
  | .INT64 => some "int64"
  | .INT32 => some "int"
  | .FLOAT => some "float"
  | .STRING => some "string"
  | _ => none

/-- The maximal run `[a-zA-Z][a-zA-Z0-9_]*` at the head of a text. -/
def leadingRun : List Char → List Char
  | [] => []
  | c :: s => if c.isAlpha then c :: s.takeWhile Text.isWord else []

/-- The piece is a keyword that the whole run spells, or an identifier that is the run. -/
def CoversRun (m : Match TokenKind) (run : List Char) : Prop :=
  (∃ word, keyword m.kind = some word ∧ run = word.toList ∧ run <+: m.lexeme) ∨
    (m.kind = .ID ∧ m.lexeme = run)

/-- How the line of text was cut: the tokens emitted and the blanks skipped give it back, and no
identifier is split. -/
structure CutLine (lex lex' : LexicalAnalyzer) (code : List Char) (pieces : List (Match TokenKind)) :
    Prop where
  text : pieces.flatMap Match.lexeme = code
  tokens : lex'.tokens.map (fun t => (t.kind, t.lexeme)) =
    lex.tokens.map (fun t => (t.kind, t.lexeme)) ++
      (pieces.filter fun m => m.kind ≠ .SKIP).map fun m => (m.kind, String.ofList m.lexeme)
  blanks : ∀ m ∈ pieces, m.kind = .SKIP → ∀ c ∈ m.lexeme, c = ' ' ∨ c = '\t'
  runs : ∀ before m after, pieces = before ++ m :: after →
    leadingRun (m.lexeme ++ after.flatMap Match.lexeme) ≠ [] →
      CoversRun m (leadingRun (m.lexeme ++ after.flatMap Match.lexeme))

/-- On a text that starts with a letter the rule matches its keyword only. -/
def ReadsWord (kind : TokenKind) (p : Pattern) : Prop :=
  ∀ s n, leadingRun s ≠ [] → p s = some n →
    ∃ word, keyword kind = some word ∧ leadingRun s = word.toList ∧ word.length ≤ n

theorem leadingRun_append {w rest : List Char} (letter : w.head?.any Char.isAlpha)
    (word : w.all Text.isWord) (ends : ∀ c ∈ rest.head?, Text.isWord c = false) :
    leadingRun (w ++ rest) = w := by
  cases w with
  | nil => cases letter
  | cons c w =>
    rw [List.all_cons, Bool.and_eq_true] at word
    have stop : rest.takeWhile Text.isWord = [] := by
      cases rest with
      | nil => rfl
      | cons d rest => simp [ends d (by simp)]
    rw [List.cons_append, leadingRun, if_pos (by simpa using letter),
      List.takeWhile_append_of_pos (fun d hd => List.all_eq_true.mp word.2 d hd), stop,
      List.append_nil]

theorem readsWord_of {kind : TokenKind} {word : String} {p : Pattern}
    (hk : keyword kind = some word) (letter : word.toList.head?.any Char.isAlpha)
    (all : word.toList.all Text.isWord) (reads : ∀ s n, p s = some n → word.length ≤ n ∧
      ∃ rest, s = word.toList ++ rest ∧ ∀ c ∈ rest.head?, Text.isWord c = false) :
    ReadsWord kind p := by
  intro s n _ hs
  obtain ⟨long, rest, rfl, ends⟩ := reads s n hs
  exact ⟨word, hk, leadingRun_append letter all ends, long⟩

/-- The keywords that a second part guards, which matches only where the word ends. -/
theorem readsWord_seq {kind : TokenKind} {word : String} {q : Pattern}
    (hk : keyword kind = some word) (letter : word.toList.head?.any Char.isAlpha)
    (all : word.toList.all Text.isWord)
    (guard : ∀ s n, q s = some n → ∀ c ∈ s.head?, Text.isWord c = false) :
    ReadsWord kind (seq (lit word) q) := by
  refine readsWord_of hk letter all fun s n hs => ?_
  obtain ⟨k, m, hlit, hq, rfl⟩ := seq_some hs
  obtain ⟨rfl, rest, rfl⟩ := lit_some hlit
  rw [List.drop_left] at hq
  exact ⟨by rw [String.length_toList]; omega, rest, rfl, guard _ _ hq⟩

theorem wordEnd_guards (s : List Char) (n : Nat) (h : wordEnd s = some n) :
    ∀ c ∈ s.head?, Text.isWord c = false := by
  intro c hc
  cases s with
  | nil => cases hc
  | cons d s =>
    cases Option.some.inj hc
    by_contra word
    rw [Bool.not_eq_false] at word
    rw [wordEnd, if_pos word] at h
    cases h

theorem lit_reads {word text : String} {sep : Char} {more : List Char}
    (split : text.toList = word.toList ++ sep :: more) (other : Text.isWord sep = false)
    {s : List Char} {n : Nat} (h : lit text s = some n) : word.length ≤ n ∧
      ∃ rest, s = word.toList ++ rest ∧ ∀ c ∈ rest.head?, Text.isWord c = false := by
  obtain ⟨rfl, rest, rfl⟩ := lit_some h
  refine ⟨?_, sep :: more ++ rest, by rw [split, List.append_assoc], ?_⟩
  · rw [split, List.length_append, String.length_toList]
    omega
  · intro c hc
    cases Option.some.inj hc
    exact other

/-- The keywords that a space guards, inside the literal. -/
theorem readsWord_space {kind : TokenKind} {word text : String} (hk : keyword kind = some word)
    (letter : word.toList.head?.any Char.isAlpha) (all : word.toList.all Text.isWord)
    (split : text.toList = word.toList ++ [' ']) : ReadsWord kind (lit text) :=
  readsWord_of hk letter all fun _ _ h => lit_reads split (by decide) h

theorem readsWord_mark {kind : TokenKind} {text : String}
    (mark : text.toList.head?.any fun c => !c.isAlpha) : ReadsWord kind (lit text) := by
  intro s n run hs
  obtain ⟨-, rest, rfl⟩ := lit_some hs
  cases ht : text.toList with
  | nil =>
    rw [ht] at mark
    cases mark
  | cons c cs =>
    rw [ht] at mark run
    simp only [List.head?_cons, Option.any_some, Bool.not_eq_true'] at mark
    simp [leadingRun, mark] at run

theorem event_guards {s : List Char} {n : Nat} {p : Pattern}
    (h : seq (opt (seq (lit "[") p)) (lit " ") s = some n) :
    ∀ c ∈ s.head?, Text.isWord c = false := by
  obtain ⟨k, m, hopt, hspace, -⟩ := seq_some h
  intro c hc
  obtain ⟨rest, rfl⟩ : ∃ rest, s = c :: rest := by
    cases s with
    | nil => cases hc
    | cons d s =>
      cases Option.some.inj hc
      exact ⟨s, rfl⟩
  have bracket : "[".toList = ['['] := by decide
  have space : " ".toList = [' '] := by decide
  by_cases open_ : c = '['
  · rw [open_]
    decide
  · -- without the bracket the space stands here
    have none : seq (lit "[") p (c :: rest) = none := by
      simp [seq, lit, bracket, Ne.symm open_]
    cases Option.some.inj hopt
    rw [none] at hspace
    obtain ⟨-, more, hm⟩ := lit_some hspace
    rw [space, Option.getD_none, List.drop_zero] at hm
    cases hm
    decide

/-- Every rule before that of identifiers matches its keyword, as a whole run, or no letter. -/
theorem lexicalRules_readsWord : ∀ rule ∈ lexicalRules.take 51, ReadsWord rule.1 rule.2 := by
  simp only [lexicalRules, List.take_succ_cons, List.take_zero, List.forall_mem_cons]
  and_intros
  all_goals first
    | exact readsWord_mark (by decide)
    | exact readsWord_seq rfl (by decide) (by decide) wordEnd_guards
    | exact readsWord_space rfl (by decide) (by decide) (by decide)
    | exact readsWord_seq rfl (by decide) (by decide) fun _ _ => event_guards
    | skip
  · refine readsWord_of rfl (by decide) (by decide) fun s n hs => ?_
    obtain ⟨k, m, hlit, -, rfl⟩ := seq_some hs
    obtain ⟨long, rest⟩ := @lit_reads "renamed_from" _ '[' [] (by decide) (by decide) _ _ hlit
    exact ⟨by omega, rest⟩
  · exact fun rule h => absurd h List.not_mem_nil

theorem lexicalRules_split : lexicalRules =
    lexicalRules.take 51 ++ (.ID, seq (one Char.isAlpha) (many Text.isWord)) :: lexicalRules.drop 52 :=
  rfl

/-- The rule that matches a text that starts with a letter is a keyword's, or that of identifiers,
which matches the whole run. -/
theorem firstRule_word {s : List Char} {kind : TokenKind} {n : Nat} (run : leadingRun s ≠ [])
    (h : firstRule lexicalRules s = some (kind, n)) :
    (∃ word, keyword kind = some word ∧ leadingRun s = word.toList ∧ word.length ≤ n) ∨
      (kind = .ID ∧ n = (leadingRun s).length) := by
  obtain ⟨c, rest, rfl, letter⟩ : ∃ c rest, s = c :: rest ∧ c.isAlpha := by
    cases s with
    | nil => exact absurd rfl run
    | cons c rest =>
      by_cases alpha : c.isAlpha
      · exact ⟨c, rest, rfl, alpha⟩
      · simp [leadingRun, alpha] at run
  rw [lexicalRules_split, firstRule, List.findSome?_append] at h
  cases front : (lexicalRules.take 51).findSome? fun rule =>
      (rule.2 (c :: rest)).map fun n => (rule.1, n) with
  | some found =>
    rw [front] at h
    cases Option.some.inj h
    obtain ⟨rule, hrule, hn⟩ := List.exists_of_findSome?_eq_some front
    obtain ⟨n', hmatch, he⟩ := Option.map_eq_some_iff.mp hn
    obtain ⟨rfl, rfl⟩ := Prod.mk.inj he
    exact .inl (lexicalRules_readsWord rule hrule _ _ run hmatch)
  | none =>
    have ident : seq (one Char.isAlpha) (many Text.isWord) (c :: rest) =
        some (leadingRun (c :: rest)).length := by
      simp [seq, one, many, leadingRun, letter, Nat.add_comm]
    rw [front, Option.none_or, List.findSome?_cons] at h
    simp only [ident, Option.map_some] at h
    cases Option.some.inj h
    exact .inr ⟨rfl, rfl⟩

theorem lexicalRules_positive : ∀ rule ∈ lexicalRules, rule.2.Positive := by
  have word : ∀ {text : String} {q : Pattern}, text.toList ≠ [] → (seq (lit text) q).Positive :=
    fun ne => positive_seq (.inl (positive_lit ne))
  simp only [lexicalRules, List.forall_mem_cons]
  and_intros
  all_goals first
    | exact positive_lit (by decide)
    | exact word (by decide)
    | exact positive_seq (.inl (positive_one _))
    | exact positive_seq (.inl (positive_many1 _))
    | exact positive_one _
    | exact fun rule h => absurd h List.not_mem_nil

theorem lexicalRules_total (c : Char) (s : List Char) : firstRule lexicalRules (c :: s) ≠ none := by
  intro none
  have never := List.findSome?_eq_none_iff.mp none
  by_cases feed : c = '\n'
  · have newline := never (.NEWLINE, lit "\n") (by simp [lexicalRules])
    have text : "\n".toList = ['\n'] := by decide
    simp [lit, text, feed] at newline
  · have mismatch := never (.MISMATCH, one fun c => c ≠ '\n') (by simp [lexicalRules])
    simp [one, feed] at mismatch

theorem leadingRun_prefix (s : List Char) : leadingRun s <+: s := by
  cases s with
  | nil => exact List.prefix_refl []
  | cons c s =>
    rw [leadingRun]
    split_ifs
    · exact List.cons_prefix_cons.mpr ⟨rfl, List.takeWhile_prefix _⟩
    · exact List.nil_prefix

theorem skip_blanks {s : List Char} {n : Nat} (h : firstRule lexicalRules s = some (.SKIP, n)) :
    ∀ c ∈ s.take n, c = ' ' ∨ c = '\t' := by
  obtain ⟨rule, hrule, hn⟩ := List.exists_of_findSome?_eq_some h
  obtain ⟨n', hmatch, he⟩ := Option.map_eq_some_iff.mp hn
  obtain ⟨hk, rfl⟩ := Prod.mk.inj he
  have only : ∀ rule ∈ lexicalRules, rule.1 = .SKIP →
      rule.2 = many1 fun c => c = ' ' || c = '\t' := by
    simp only [lexicalRules, List.forall_mem_cons]
    and_intros
    all_goals first
      | exact fun _ => trivial
      | exact fun h => absurd h (by decide)
      | exact fun rule h => absurd h List.not_mem_nil
  rw [only rule hrule hk] at hmatch
  intro c hc
  simpa using many1_take hmatch c hc

namespace LexicalAnalyzer

theorem readMatches_tokens {ms : List (Match TokenKind)} {s s' : LexicalAnalyzer × Nat}
    (h : ms.foldlM readMatch s = .ok s') :
    s'.1.tokens.map (fun t => (t.kind, t.lexeme)) = s.1.tokens.map (fun t => (t.kind, t.lexeme)) ++
      (ms.filter fun m => m.kind ≠ .SKIP).map fun m => (m.kind, String.ofList m.lexeme) := by
  induction ms generalizing s with
  | nil =>
    cases Except.ok.inj h
    simp
  | cons m ms ih =>
    rw [List.foldlM_cons] at h
    obtain ⟨s₁, step, rest⟩ := bind_eq_ok.mp h
    rw [ih rest]
    unfold readMatch at step
    simp only at step
    split at step
    next skip =>
      cases Except.ok.inj step
      simp [skip]
    next => cases step
    next other _ =>
      cases Except.ok.inj step
      have kept : m.kind ≠ .SKIP := fun skip => other skip
      simp [kept]

/-- Every line that `tokenize` accepts is cut into its tokens and blanks, and no identifier is split:
a run of word characters is one token, a keyword only if it spells it. -/
theorem tokenize_cuts {lex lex' : LexicalAnalyzer} {code : List Char}
    (h : lex.tokenize code = .ok lex') : ∃ pieces, CutLine lex lex' code pieces := by
  obtain ⟨⟨last, linStart⟩, fold, done⟩ := bind_eq_ok.mp h
  cases Except.ok.inj done
  have cuts := finditerFrom_cuts lexicalRules_positive lexicalRules_total 0 0 code
  rw [List.drop_zero] at cuts
  refine ⟨finditer lexicalRules code, cuts.flatMap, readMatches_tokens fold, ?_, ?_⟩
  · intro m hm skip
    obtain ⟨before, after, parts⟩ := List.append_of_mem hm
    rw [← finditer, parts] at cuts
    obtain ⟨n, first, lexeme⟩ := cuts.at
    rw [skip] at first
    rw [lexeme]
    exact skip_blanks first
  · intro before m after parts run
    rw [← finditer, parts] at cuts
    obtain ⟨n, first, lexeme⟩ := cuts.at
    generalize m.lexeme ++ after.flatMap Match.lexeme = whole at first lexeme run
    have head : leadingRun whole <+: whole := leadingRun_prefix whole
    rcases firstRule_word run first with ⟨word, hk, spelled, long⟩ | ⟨hk, rfl⟩
    · refine .inl ⟨word, hk, spelled, ?_⟩
      rw [lexeme]
      exact List.prefix_take_iff.mpr ⟨head, by rw [spelled, String.length_toList]; exact long⟩
    · exact .inr ⟨hk, lexeme.trans (List.prefix_iff_eq_take.mp head).symm⟩

theorem tokenize_cuts_integrator : ∃ lex' : LexicalAnalyzer,
    ({ name := "link.harpia", tokens := [] } : LexicalAnalyzer).tokenize
        "int64 integrator_link_state enum;\n".toList = .ok lex' ∧
      ∃ pieces, CutLine { name := "link.harpia", tokens := [] } lex'
        "int64 integrator_link_state enum;\n".toList pieces := by
  have run : ({ name := "link.harpia", tokens := [] } : LexicalAnalyzer).tokenize
      "int64 integrator_link_state enum;\n".toList = .ok {
        name := "link.harpia"
        linNum := 2
        tokens := [⟨.INT64, "int64", 1, 0⟩, ⟨.ID, "integrator_link_state", 1, 6⟩,
          ⟨.ID, "enum", 1, 28⟩,
          ⟨.PCOMMA, ";", 1, 32⟩, ⟨.NEWLINE, "\n", 2, -1⟩] } := by decide +kernel
  exact ⟨_, run, tokenize_cuts run⟩

end LexicalAnalyzer

end Harpia
