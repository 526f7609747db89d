import Harpia.LexicalAnalyzer

namespace Harpia

/-- What `process` counts and collects while it reads; `c` is unbound before the first line. -/
structure PreLexed where
  line : Nat := 0
  c : Option Nat := none
  openParentesis : Nat := 0
  closeParentesis : Nat := 0
  openBraquets : Nat := 0
  closeBraquets : Nat := 0
  openComment : Nat := 0
  closeComment : Nat := 0
  openSquare : Nat := 0
  closeSquare : Nat := 0
  lastLine : List Char := []
  listOfHarpiaImports : List String := []
deriving DecidableEq, Repr

/-- `pre_lex`, with the search for a file in its include folders. -/
structure PreLex where
  file : String
  isFileInFolders : String → Except Error String

namespace PreLex

/-- `isascii`: when some character is not ASCII, the position of the first that is no letter. -/
def isascii (s : List Char) : Bool × Nat :=
  if s.all fun c => c.toNat < 128 then (true, 0) else (false, s.findIdx fun c => !c.isAlpha)

/-- `count` of a text of two different characters. -/
def countPair (a b : Char) : List Char → Nat
  | [] => 0
  | x :: s => countPair a b s + if x = a ∧ s.head? = some b then 1 else 0

def error (p : PreLex) (errTp : ErrorType) (fileLine characterNumber : String) : Failure :=
  .error {
    errCl := .FILE_HAS_ERROR
    errTp := errTp
    fileName := p.file
    fileLine := fileLine
    characterNumber := characterNumber }

/-- The import of a line that starts with `import` and ends in `;`. -/
def readImport (p : PreLex) (raw : List Char) (line c : Nat) : Except Failure String :=
  match raw.splitOn ' ' with
  | _ :: impFile :: _ =>
    let impFile := Text.stripOf (fun c => c = '"' || c = ';') impFile
    (p.isFileInFolders (String.ofList impFile)).mapError .error
  | _ => .error (p.error .IMPORT_INCOMPLETE_ERROR (toString line) (toString c))

/-- One line, with its line feed. -/
def readLine (p : PreLex) (s : PreLexed) (rawData : List Char) : Except Failure PreLexed := do
  let raw := Text.stripOf Text.isBlank rawData
  let (r, c) := isascii raw
  if r then
    let s := { s with
      lastLine := rawData
      c := some c
      line := s.line + 1
      openParentesis := s.openParentesis + raw.count '('
      closeParentesis := s.closeParentesis + raw.count ')'
      openBraquets := s.openBraquets + raw.count '\x7b'
      closeBraquets := s.closeBraquets + raw.count '\x7d'
      openComment := s.openComment + countPair '/' '*' raw
      closeComment := s.closeComment + countPair '*' '/' raw
      openSquare := s.openSquare + raw.count '['
      closeSquare := s.closeSquare + raw.count ']' }
    if "import".toList.isPrefixOf raw then
      if raw.getLast? = some ';' then
        let impFile ← p.readImport raw s.line c
        .ok { s with listOfHarpiaImports := s.listOfHarpiaImports ++ [impFile] }
      else .error (p.error .IMPORT_INCOMPLETE_ERROR (toString s.line) (toString c))
    else .ok s
  else .error (p.error .NON_ASCII_CHAR (toString s.line) (toString c))

/-- What stands at the end of the file, and the counts. -/
def finish (p : PreLex) (s : PreLexed) : Except Failure (List String) :=
  if s.lastLine.getLast? ≠ some '\n' then
    match s.c with
    | none => .error .raised
    | some c => .error (p.error .FILE_DOES_NOT_END_IN_NEW_LINE (toString s.line) (toString c))
  else if s.openParentesis ≠ s.closeParentesis then
    .error (p.error .PARENTESIS_COUNT_ERROR "" "0")
  else if s.openSquare ≠ s.closeSquare then .error (p.error .SQUARE_COUNT_ERROR "" "0")
  else if s.openBraquets ≠ s.closeBraquets then .error (p.error .BRAKETS_COUNT_ERROR "" "0")
  else if s.openComment ≠ s.closeComment then .error (p.error .COMMENTS_COUNT_ERROR "" "0")
  else .ok s.listOfHarpiaImports

/-- `process` on the text of the file that was found: the files it imports. -/
def process (p : PreLex) (text : List Char) : Except Failure (List String) := do
  let s ← (Text.keepLines (Text.universalNewlines text)).foldlM p.readLine {}
  p.finish s

theorem readLine_lastLine {p : PreLex} {s s' : PreLexed} {raw : List Char}
    (h : p.readLine s raw = .ok s') : s'.lastLine = raw := by
  unfold readLine at h
  simp only at h
  split_ifs at h
  · obtain ⟨impFile, _, h⟩ := bind_eq_ok.mp h
    cases Except.ok.inj h
    rfl
  · cases Except.ok.inj h
    rfl

theorem readLines_lastLine {p : PreLex} {s s' : PreLexed} {lines : List (List Char)}
    {line : List Char} (h : (lines ++ [line]).foldlM p.readLine s = .ok s') : s'.lastLine = line := by
  rw [List.foldlM_append] at h
  obtain ⟨s₁, _, step⟩ := bind_eq_ok.mp h
  rw [List.foldlM_cons] at step
  obtain ⟨s₂, step, done⟩ := bind_eq_ok.mp step
  cases Except.ok.inj done
  exact readLine_lastLine step

/-- An accepted file ends in a line feed. -/
theorem process_ends {p : PreLex} {text : List Char} {imports : List String}
    (h : p.process text = .ok imports) :
    ∃ lines line, Text.keepLines (Text.universalNewlines text) = lines ++ [line] ∧
      line.getLast? = some '\n' := by
  obtain ⟨s, fold, finished⟩ := bind_eq_ok.mp h
  have newline : s.lastLine.getLast? = some '\n' := by
    unfold finish at finished
    split_ifs at finished with last
    · split at finished <;> cases finished
    all_goals exact not_not.mp last
  rcases List.eq_nil_or_concat' (Text.keepLines (Text.universalNewlines text)) with none | ⟨lines, line, hl⟩
  · rw [none] at fold
    cases Except.ok.inj fold
    cases newline
  · rw [hl] at fold
    rw [readLines_lastLine fold] at newline
    exact ⟨lines, line, hl, newline⟩

end PreLex

end Harpia
