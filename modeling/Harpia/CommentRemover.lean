import Harpia.PreLex

namespace Harpia

namespace LexicalAnalyzer

/-- Where a search through a list for a kind of token stops: there, or at the last token. -/
def stopAt (kind : TokenKind) (ts : List Token) : Nat :=
  match ts.findIdx? fun t => t.kind = kind with
  | some j => j
  | none => ts.length - 1

/-- The loop of `CommentRemover`, which deletes from the list it walks over: the next token is the one
at the next index of what is left. -/
def removeComments : Nat → Nat → List Token → List Token
  | 0, _, tokens => tokens
  | rounds + 1, i, tokens =>
    match tokens[i]? with
    | none => tokens
    | some t =>
      if t.kind = .COMMENT_LINE then
        let j := stopAt .NEWLINE (tokens.drop i)
        removeComments rounds (i + 1) (tokens.take i ++ tokens.drop (i + j))
      else if t.kind = .COMMENT_START then
        let j := stopAt .COMMENT_END (tokens.drop i)
        removeComments rounds (i + 1) (tokens.take i ++ tokens.drop (i + j))
      else removeComments rounds (i + 1) tokens

/-- `CommentRemover`, for its effect on the tokens: each round goes one index on. -/
def commentRemover (lex : LexicalAnalyzer) : LexicalAnalyzer :=
  { lex with tokens := removeComments lex.tokens.length 0 lex.tokens }

end LexicalAnalyzer

/-- Where a token stands: outside comments, in a line comment or in a block comment. -/
inductive Region
  | code
  | line
  | block
deriving DecidableEq, Repr

/-- The tokens outside comments; the line end after a line comment is outside. -/
def outsideComments : Region → List Token → List Token
  | _, [] => []
  | .code, t :: ts =>
    if t.kind = .COMMENT_LINE then outsideComments .line ts
    else if t.kind = .COMMENT_START then outsideComments .block ts
    else t :: outsideComments .code ts
  | .line, t :: ts =>
    if t.kind = .NEWLINE then t :: outsideComments .code ts else outsideComments .line ts
  | .block, t :: ts =>
    if t.kind = .COMMENT_END then outsideComments .code ts else outsideComments .block ts

/-- No block comment is opened or closed outside line comments. -/
def LineCommentsOnly : Region → List Token → Prop
  | _, [] => True
  | .code, t :: ts =>
    if t.kind = .COMMENT_LINE then LineCommentsOnly .line ts
    else t.kind ≠ .COMMENT_START ∧ t.kind ≠ .COMMENT_END ∧ LineCommentsOnly .code ts
  | .line, t :: ts => LineCommentsOnly (if t.kind = .NEWLINE then .code else .line) ts
  | .block, _ :: _ => False

def TokenKind.commentMarker : TokenKind → Bool
  | .COMMENT_LINE | .COMMENT_START | .COMMENT_END => true
  | _ => false

/-- The token that ends a comment. -/
def Region.stop : Region → TokenKind
  | .line => .NEWLINE
  | _ => .COMMENT_END

/-- What the loop leaves: as outside comments, but a comment leaves the token its search stopped at. -/
def leftover : Region → List Token → List Token
  | _, [] => []
  | .code, t :: ts =>
    if t.kind = .COMMENT_LINE then leftover .line ts
    else if t.kind = .COMMENT_START then leftover .block ts
    else t :: leftover .code ts
  | .line, t :: ts =>
    if t.kind = .NEWLINE ∨ ts = [] then t :: leftover .code ts else leftover .line ts
  | .block, t :: ts =>
    if t.kind = .COMMENT_END ∨ ts = [] then t :: leftover .code ts else leftover .block ts

theorem leftover_comment {r : Region} (hr : r ≠ .code) (t : Token) (ts : List Token) :
    leftover r (t :: ts) =
      if t.kind = r.stop ∨ ts = [] then t :: leftover .code ts else leftover r ts := by
  cases r with
  | code => exact absurd rfl hr
  | line => rfl
  | block => rfl

namespace LexicalAnalyzer

theorem stopAt_cons {kind : TokenKind} {t : Token} {ts : List Token} (other : t.kind ≠ kind)
    (more : ts ≠ []) : stopAt kind (t :: ts) = stopAt kind ts + 1 := by
  have length : 0 < ts.length := List.length_pos_iff.mpr more
  rw [stopAt, stopAt, List.findIdx?_cons, if_neg (by simpa using other)]
  cases ts.findIdx? fun t => t.kind = kind with
  | none =>
    simp only [Option.map_none, List.length_cons]
    omega
  | some j => rfl

/-- A comment is deleted up to the token its search stops at. -/
theorem drop_stopAt {r : Region} (hr : r ≠ .code) {ts : List Token} (more : ts ≠ []) :
    ∃ s rest, ts.drop (stopAt r.stop ts) = s :: rest ∧ leftover r ts = s :: leftover .code rest ∧
      rest <:+ ts ∧ rest.length < ts.length := by
  induction ts with
  | nil => exact absurd rfl more
  | cons t ts ih =>
    rw [leftover_comment hr]
    by_cases stop : t.kind = r.stop
    · have here : stopAt r.stop (t :: ts) = 0 := by
        rw [stopAt, List.findIdx?_cons, if_pos (by simpa using stop)]
      rw [here, if_pos (Or.inl stop)]
      exact ⟨t, ts, rfl, rfl, List.suffix_cons t ts, by simp⟩
    · by_cases last : ts = []
      · subst last
        have here : stopAt r.stop [t] = 0 := by
          rw [stopAt, List.findIdx?_cons, if_neg (by simpa using stop)]
          rfl
        rw [here, if_pos (Or.inr rfl)]
        exact ⟨t, [], rfl, rfl, List.suffix_cons t [], by simp⟩
      · obtain ⟨s, rest, drop, left, suffix, shorter⟩ := ih last
        rw [stopAt_cons stop last, List.drop_succ_cons, if_neg (by simp [stop, last])]
        refine ⟨s, rest, drop, left, suffix.trans (List.suffix_cons t ts), ?_⟩
        rw [List.length_cons]
        omega

theorem removeComments_eq {rounds : Nat} (done : List Token) {rest : List Token}
    (ends : ∀ t ∈ rest.getLast?, t.kind = .NEWLINE) (enough : rest.length ≤ rounds) :
    removeComments rounds done.length (done ++ rest) = done ++ leftover .code rest := by
  induction rounds generalizing done rest with
  | zero =>
    obtain rfl := List.length_eq_zero_iff.mp (Nat.le_zero.mp enough)
    rfl
  | succ rounds ih =>
    cases rest with
    | nil => simp [removeComments, leftover]
    | cons t rest =>
      have here : (done ++ t :: rest)[done.length]? = some t := by simp
      have before : (done ++ t :: rest).take done.length = done := List.take_left
      have shift : ∀ j, (done ++ t :: rest).drop (done.length + j) = (t :: rest).drop j :=
        List.drop_length_add_append
      have after : (done ++ t :: rest).drop done.length = t :: rest := List.drop_left
      have next : ∀ (s : Token) (left : List Token),
          left <:+ t :: rest → left.length ≤ rounds →
          removeComments rounds (done.length + 1) (done ++ s :: left) =
            done ++ s :: leftover .code left := by
        intro s left suffix enough
        have ends' : ∀ t ∈ left.getLast?, t.kind = .NEWLINE := by
          intro t' ht'
          obtain ⟨front, hfront⟩ := suffix
          refine ends t' ?_
          rw [← hfront, List.getLast?_append, Option.mem_def.mp ht']
          rfl
        have := ih (done ++ [s]) ends' enough
        rwa [List.length_append, List.length_singleton, List.append_assoc, List.append_assoc] at this
      -- the comment at hand is cut down to the token its search stops at
      have cut : ∀ r : Region, r ≠ .code → t.kind ≠ r.stop → rest ≠ [] →
          removeComments rounds (done.length + 1) (done ++
            (t :: rest).drop (stopAt r.stop (t :: rest))) = done ++ leftover r rest := by
        intro r hr other more
        obtain ⟨s, left, drop, result, suffix, shorter⟩ := drop_stopAt hr more
        rw [stopAt_cons other more, List.drop_succ_cons, drop, result]
        simp only [List.length_cons] at enough
        exact next s left (suffix.trans (List.suffix_cons t rest)) (by omega)
      have more : t.kind ≠ .NEWLINE → rest ≠ [] := by
        intro other hrest
        subst hrest
        exact other (ends t rfl)
      rw [removeComments, here]
      simp only [before, shift, after]
      rw [leftover]
      split_ifs with line block
      · exact cut .line (by decide) (by simp [line, Region.stop]) (more (by simp [line]))
      · exact cut .block (by decide) (by simp [block, Region.stop]) (more (by simp [block]))
      · simp only [List.length_cons] at enough
        exact next t rest (List.suffix_cons t rest) (by omega)

theorem commentRemover_tokens {lex : LexicalAnalyzer}
    (ends : ∀ t ∈ lex.tokens.getLast?, t.kind = .NEWLINE) :
    lex.commentRemover.tokens = leftover .code lex.tokens :=
  removeComments_eq [] ends le_rfl

end LexicalAnalyzer

/-- An opened block comment leaves a marker, or what is left is not what stands outside comments. -/
theorem leftover_block {ts : List Token} (more : ts ≠ [])
    (same : leftover .block ts = outsideComments .block ts) :
    ∃ t ∈ leftover .block ts, t.kind.commentMarker := by
  induction ts with
  | nil => exact absurd rfl more
  | cons t ts ih =>
    rw [leftover, outsideComments] at same
    rw [leftover]
    by_cases stop : t.kind = .COMMENT_END
    · rw [if_pos (Or.inl stop)]
      exact ⟨t, List.mem_cons_self .., by rw [stop]; rfl⟩
    · by_cases last : ts = []
      · subst last
        simp [stop, outsideComments] at same
      · simp only [stop, last, or_self, if_false] at same ⊢
        exact ih last same

theorem ends_tail {t : Token} {ts : List Token}
    (ends : ∀ t' ∈ (t :: ts).getLast?, t'.kind = .NEWLINE) :
    (t.kind ≠ .NEWLINE → ts ≠ []) ∧ ∀ t' ∈ ts.getLast?, t'.kind = .NEWLINE := by
  refine ⟨fun other hts => ?_, fun t' ht' => ends t' ?_⟩
  · subst hts
    exact other (ends t rfl)
  · rw [List.getLast?_cons, Option.mem_def.mp ht']
    rfl

theorem leftover_iff {r : Region} (hr : r ≠ .block) {ts : List Token}
    (ends : ∀ t ∈ ts.getLast?, t.kind = .NEWLINE) :
    (leftover r ts = outsideComments r ts ∧ ∀ t ∈ leftover r ts, t.kind.commentMarker = false) ↔
      LineCommentsOnly r ts := by
  induction ts generalizing r with
  | nil => cases r <;> simp [leftover, outsideComments, LineCommentsOnly]
  | cons t ts ih =>
    obtain ⟨more, ends'⟩ := ends_tail ends
    -- a token kept on both sides
    have kept : (t :: leftover .code ts = t :: outsideComments .code ts ∧
        ∀ t' ∈ t :: leftover .code ts, t'.kind.commentMarker = false) ↔
        t.kind.commentMarker = false ∧ LineCommentsOnly .code ts := by
      rw [← ih (r := .code) (by decide) ends', List.cons.injEq, List.forall_mem_cons]
      tauto
    cases r with
    | block => exact absurd rfl hr
    | code =>
      rw [leftover, outsideComments, LineCommentsOnly]
      by_cases line : t.kind = .COMMENT_LINE
      · rw [if_pos line, if_pos line, if_pos line]
        exact ih (by decide) ends'
      · by_cases block : t.kind = .COMMENT_START
        · simp only [block, reduceCtorEq, if_false, if_true, ne_eq, not_true, false_and, iff_false]
          rintro ⟨same, unmarked⟩
          obtain ⟨marker, hm, marked⟩ := leftover_block (more (by simp [block])) same
          simp [unmarked marker hm] at marked
        · have marker : t.kind.commentMarker = false ↔ t.kind ≠ .COMMENT_END := by
            unfold TokenKind.commentMarker
            split <;> simp_all
          simp only [line, block, if_false, ne_eq, not_false_eq_true, true_and]
          rw [kept, marker]
    | line =>
      rw [leftover, outsideComments, LineCommentsOnly]
      by_cases newline : t.kind = .NEWLINE
      · rw [if_pos (Or.inl newline), if_pos newline, if_pos newline, kept, newline]
        simp [TokenKind.commentMarker]
      · simp only [newline, more newline, or_self, if_false]
        exact ih (by decide) ends'

/-- Of an accepted file, `CommentRemover` leaves the tokens outside comments, and no marker among them,
exactly when no block comment is opened or closed outside line comments. -/
theorem commentRemover_iff {p : PreLex} {text : List Char} {imports : List String}
    {lex lex' : LexicalAnalyzer} (accepted : p.process text = .ok imports)
    (tokenized : lex.process text = .ok lex') :
    (lex'.commentRemover.tokens = outsideComments .code lex'.tokens ∧
        ∀ t ∈ lex'.commentRemover.tokens, t.kind.commentMarker = false) ↔
      LineCommentsOnly .code lex'.tokens := by
  have ends := LexicalAnalyzer.process_ends (PreLex.process_ends accepted) tokenized
  rw [LexicalAnalyzer.commentRemover_tokens ends]
  exact leftover_iff (by decide) ends

/-- A search that finds nothing. -/
def nothingFound : PreLex where
  file := "test.harpia"
  isFileInFolders := fun file => .error {
    errCl := .FILE_HAS_ERROR
    errTp := .IMPORT_INCOMPLETE_ERROR
    fileName := file
    fileLine := ""
    characterNumber := "0" }

/-- An analyser of a file, the first one. -/
def firstAnalyzer : LexicalAnalyzer where
  name := "test.harpia"
  tokens := []

theorem commentRemover_iff_line : ∃ imports lex,
    nothingFound.process "int x; // a /* b */\n".toList = .ok imports ∧
      firstAnalyzer.process "int x; // a /* b */\n".toList = .ok lex ∧
      ((lex.commentRemover.tokens = outsideComments .code lex.tokens ∧
          ∀ t ∈ lex.commentRemover.tokens, t.kind.commentMarker = false) ↔
        LineCommentsOnly .code lex.tokens) := by
  obtain ⟨imports, accepted⟩ := exists_of_isOk
    (x := nothingFound.process "int x; // a /* b */\n".toList) (by decide +kernel)
  obtain ⟨lex, tokenized⟩ := exists_of_isOk
    (x := firstAnalyzer.process "int x; // a /* b */\n".toList) (by decide +kernel)
  exact ⟨imports, lex, accepted, tokenized, commentRemover_iff accepted tokenized⟩

theorem not_commentRemover_block :
    ¬ ∀ (p : PreLex) (text : List Char) (imports : List String) (lex lex' : LexicalAnalyzer),
      p.process text = .ok imports → lex.process text = .ok lex' →
      lex'.commentRemover.tokens = outsideComments .code lex'.tokens ∧
        ∀ t ∈ lex'.commentRemover.tokens, t.kind.commentMarker = false := by
  intro h
  obtain ⟨imports, accepted⟩ := exists_of_isOk
    (x := nothingFound.process "/* a */ int x;\n".toList) (by decide +kernel)
  obtain ⟨lex, tokenized⟩ := exists_of_isOk
    (x := firstAnalyzer.process "/* a */ int x;\n".toList) (by decide +kernel)
  have left : (firstAnalyzer.process "/* a */ int x;\n".toList).map
      (fun lex => lex.commentRemover.tokens.any fun t => t.kind.commentMarker) = .ok true := by
    decide +kernel
  rw [tokenized] at left
  obtain ⟨t, ht, marked⟩ := List.any_eq_true.mp (Except.ok.inj left)
  have unmarked := (h _ _ _ _ _ accepted tokenized).2 t ht
  rw [unmarked] at marked
  cases marked

end Harpia
