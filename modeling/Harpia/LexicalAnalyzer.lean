import Harpia.Lib.Pattern
import Harpia.Token

namespace Harpia

open Pattern in
/-- `self.rules`, tried in this order. `\w` and `\d` are those of ASCII. -/
def lexicalRules : List (TokenKind × Pattern) := [
  (.IMPORT, seq (lit "import") wordEnd),
  (.QUOTES, lit "\""),
  (.POINT, lit "."),
  (.ENUM, lit "enum "),
  (.STREAM, lit "stream "),
  (.PULL, lit "pull "),
  (.PUSH, lit "push "),
  (.EVENT, seq (lit "event") (seq (opt (seq (lit "[") (seq (many Text.isBlank)
    (seq (either (lit "cached") (lit "not-cached")) (seq (many Text.isBlank) (lit "]")))))) (lit " "))),
  (.PUSHPULL, lit "pushpull "),
  (.DDS, lit "dds "),
  (.PROTECTED, lit "protected "),
  (.OPEN, lit "open "),
  (.AUTOKEY, lit "autokey "),
  (.CRITICAL, lit "critical "),
  (.MESSAGE, lit "message "),
  (.PHI, lit "phi "),
  (.OPTIONAL, lit "optional "),
  (.REPETEABLE, seq (lit "repeteable") wordEnd),
  (.PAGINATION, seq (lit "pagination") wordEnd),
  (.REQUIRED, lit "required "),
  (.UNIQUE, lit "unique "),
  (.RENAMED_FROM, seq (lit "renamed_from[") (seq (many Text.isBlank) (seq (one Char.isAlpha)
    (seq (many Text.isWord) (seq (many Text.isBlank) (lit "]")))))),
  (.MAP, seq (lit "map") wordEnd),
  (.INT64, seq (lit "int64") wordEnd),
  (.INT32, seq (lit "int") wordEnd),
  (.FLOAT, seq (lit "float") wordEnd),
  (.STRING, seq (lit "string") wordEnd),
  (.LBRACKET, lit "("),
  (.RBRACKET, lit ")"),
  (.LBRACE, lit "\x7b"),
  (.RBRACE, lit "\x7d"),
  (.SQLEFTBRACKET, lit "["),
  (.SQRIGHTBRACKET, lit "]"),
  (.COMMA, lit ","),
  (.PCOMMA, lit ";"),
  (.EQ, lit "=="),
  (.NE, lit "!="),
  (.LE, lit "<="),
  (.GE, lit ">="),
  (.OR, lit "||"),
  (.AND, lit "&&"),
  (.ATTR, lit "="),
  (.LT, lit "<"),
  (.GT, lit ">"),
  (.PLUS, lit "+"),
  (.MINUS, lit "-"),
  (.COMMENT_LINE, lit "//"),
  (.COMMENT_START, lit "/*"),
  (.COMMENT_END, lit "*/"),
  (.MULT, lit "*"),
  (.DIV, lit "/"),
  (.ID, seq (one Char.isAlpha) (many Text.isWord)),
  (.FLOAT_CONST, seq (many1 Char.isDigit) (seq (lit ".") (many1 Char.isDigit))),
  (.INTEGER_CONST, many1 Char.isDigit),
  (.NEWLINE, lit "\n"),
  (.SKIP, many1 fun c => c = ' ' || c = '\t'),
  (.MISMATCH, one fun c => c ≠ '\n')]

/-- `LexicalAnalyzer`. The token list belongs to the class: a new analyser finds the tokens of the one
before it. -/
structure LexicalAnalyzer where
  name : String
  linNum : Nat := 1
  tokens : List Token
deriving DecidableEq, Repr

namespace LexicalAnalyzer

/-- One match of `tokenize`; `linStart` is where the line starts in the text. -/
def readMatch (s : LexicalAnalyzer × Nat) (m : Match TokenKind) :
    Except Failure (LexicalAnalyzer × Nat) :=
  let (lex, linStart) := s
  let (linNum, linStart) :=
    if m.kind = .NEWLINE then (lex.linNum + 1, m.start + m.lexeme.length) else (lex.linNum, linStart)
  match m.kind with
  | .SKIP => .ok (lex, linStart)
  | .MISMATCH => .error (.error {
      errCl := .FILE_HAS_ERROR
      errTp := .LEXICAL_ANALYZER_ERROR
      fileName := lex.name
      fileLine := ""
      characterNumber := "0" })
  | _ =>
    let token : Token := {
      kind := m.kind
      lexeme := String.ofList m.lexeme
      line := linNum
      col := (m.start : Int) - linStart }
    .ok ({ lex with linNum := linNum, tokens := lex.tokens ++ [token] }, linStart)

/-- `tokenize`, on one line of the file. -/
def tokenize (lex : LexicalAnalyzer) (code : List Char) : Except Failure LexicalAnalyzer := do
  let (lex, _) ← (Pattern.finditer lexicalRules code).foldlM readMatch (lex, 0)
  .ok lex

/-- `process`, on the text of the file. -/
def process (lex : LexicalAnalyzer) (text : List Char) : Except Failure LexicalAnalyzer :=
  (Text.keepLines (Text.universalNewlines text)).foldlM tokenize lex

end LexicalAnalyzer

example : (LexicalAnalyzer.process { name := "t", tokens := [] } "int x; // a\n".toList).map
    (fun lex => lex.tokens.map Token.kind) =
    .ok [.INT32, .ID, .PCOMMA, .COMMENT_LINE, .ID, .NEWLINE] := by decide +kernel

theorem inLine_keyword {text : String} (h : '\n' ∉ text.toList) :
    (Pattern.seq (Pattern.lit text) Pattern.wordEnd).InLine :=
  Pattern.inLine_seq (Pattern.inLine_lit h) Pattern.inLine_wordEnd

theorem inLine_digits : (Pattern.many1 Char.isDigit).InLine :=
  Pattern.inLine_seq (Pattern.inLine_one (by decide)) (Pattern.inLine_many (by decide))

open Pattern in
/-- Only the rule for line ends matches one. -/
theorem lexicalRules_inLine : ∀ rule ∈ lexicalRules,
    rule.2.InLine ∨ ∀ c s, c ≠ '\n' → rule.2 (c :: s) = none := by
  have bracket : ∀ p : Pattern, (seq p (lit "]")).InLine ∧ (seq p (lit "]")).Positive := fun p =>
    ⟨inLine_seq_of (Or.inr (positive_lit (by decide))) (inLine_lit (by decide)),
      positive_seq (Or.inr (positive_lit (by decide)))⟩
  -- a part before the closing bracket may run over blanks of any kind
  have before : ∀ {p q : Pattern}, q.InLine ∧ q.Positive → (seq p q).InLine ∧ (seq p q).Positive :=
    fun h => ⟨inLine_seq_of (Or.inr h.2) h.1, positive_seq (Or.inr h.2)⟩
  simp only [lexicalRules, List.forall_mem_cons]
  and_intros
  all_goals first
    | exact Or.inl (inLine_lit (by decide))
    | exact Or.inl (inLine_keyword (by decide))
    | skip
  · refine Or.inl (before (before ⟨inLine_lit (by decide), positive_lit (by decide)⟩)).1
  · exact Or.inl (before (before (before (before (bracket _))))).1
  · exact Or.inl (inLine_seq (inLine_one (by decide)) (inLine_many (by decide)))
  · exact Or.inl (inLine_seq inLine_digits (inLine_seq (inLine_lit (by decide)) inLine_digits))
  · exact Or.inl inLine_digits
  · refine Or.inr fun c s other => ?_
    have : "\n".toList = ['\n'] := by decide
    simp [lit, this, Ne.symm other]
  · exact Or.inl (inLine_seq (inLine_one (by decide)) (inLine_many (by decide)))
  · exact Or.inl (inLine_one (by decide))
  · exact fun rule h => absurd h List.not_mem_nil

theorem lexicalRules_newline : Pattern.firstRule lexicalRules ['\n'] = some (.NEWLINE, 1) := by
  decide +kernel

namespace LexicalAnalyzer

theorem readMatch_newline {s s' : LexicalAnalyzer × Nat} {m : Match TokenKind}
    (hm : m.kind = .NEWLINE) (h : readMatch s m = .ok s') :
    ∀ t ∈ s'.1.tokens.getLast?, t.kind = .NEWLINE := by
  unfold readMatch at h
  simp only [hm] at h
  cases Except.ok.inj h
  simp

/-- A line of text ends in a line end token. -/
theorem tokenize_ends {lex lex' : LexicalAnalyzer} {init : List Char} (free : '\n' ∉ init)
    (h : lex.tokenize (init ++ ['\n']) = .ok lex') :
    ∀ t ∈ lex'.tokens.getLast?, t.kind = .NEWLINE := by
  obtain ⟨ms, m, hms, hm⟩ := Pattern.finditerFrom_line lexicalRules_inLine
    lexicalRules_newline free (Nat.zero_le _)
  obtain ⟨⟨last, linStart⟩, fold, h⟩ := bind_eq_ok.mp h
  cases Except.ok.inj h
  rw [Pattern.finditer, hms, List.foldlM_append] at fold
  obtain ⟨s, _, step⟩ := bind_eq_ok.mp fold
  rw [List.foldlM_cons] at step
  obtain ⟨s', step, done⟩ := bind_eq_ok.mp step
  cases Except.ok.inj done
  exact readMatch_newline hm step

/-- The tokens of a text whose last line ends in a line feed end in a line end. -/
theorem process_ends {lex lex' : LexicalAnalyzer} {text : List Char}
    (ends : ∃ lines line, Text.keepLines (Text.universalNewlines text) = lines ++ [line] ∧
      line.getLast? = some '\n')
    (h : lex.process text = .ok lex') : ∀ t ∈ lex'.tokens.getLast?, t.kind = .NEWLINE := by
  obtain ⟨lines, line, hlines, newline⟩ := ends
  rw [process, hlines, List.foldlM_append] at h
  obtain ⟨lex₁, _, step⟩ := bind_eq_ok.mp h
  rw [List.foldlM_cons] at step
  obtain ⟨lex₂, step, done⟩ := bind_eq_ok.mp step
  cases Except.ok.inj done
  have mem : line ∈ Text.keepLines (Text.universalNewlines text) := by
    rw [hlines]
    simp
  obtain ⟨_, free⟩ := Text.keepLines_newline mem
  have split : line = line.dropLast ++ ['\n'] := (List.dropLast_append_getLast? _ newline).symm
  rw [split] at step
  exact tokenize_ends free step

end LexicalAnalyzer

end Harpia
