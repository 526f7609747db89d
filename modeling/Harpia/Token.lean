import Harpia.Errors
import Harpia.KeyProvider

namespace Harpia

open Text

/-- The rules of the lexical analyser, in the order its alternation tries them. -/
inductive TokenKind
  | IMPORT | QUOTES | POINT | ENUM | STREAM | PULL | PUSH | EVENT | PUSHPULL | DDS | PROTECTED
  | OPEN | AUTOKEY | CRITICAL | MESSAGE | PHI | OPTIONAL | REPETEABLE | PAGINATION | REQUIRED
  | UNIQUE | RENAMED_FROM | MAP | INT64 | INT32 | FLOAT | STRING | LBRACKET | RBRACKET | LBRACE
  | RBRACE | SQLEFTBRACKET | SQRIGHTBRACKET | COMMA | PCOMMA | EQ | NE | LE | GE | OR | AND | ATTR
  | LT | GT | PLUS | MINUS | COMMENT_LINE | COMMENT_START | COMMENT_END | MULT | DIV | ID
  | FLOAT_CONST | INTEGER_CONST | NEWLINE | SKIP | MISMATCH
deriving DecidableEq, Repr

/-- `(type, lexeme, line, column)`. -/
structure Token where
  kind : TokenKind
  lexeme : String
  line : Nat
  col : Int
deriving DecidableEq, Repr

/-- A token of a given kind, where its place in the file does not matter. -/
def Token.of (kind : TokenKind) (lexeme : String) : Token := ⟨kind, lexeme, 1, 0⟩

/-- How a pass of the front end fails: with the `Error` it returns, or with a Python exception. -/
inductive Failure
  | error (err : Error)
  | raised
deriving DecidableEq, Repr

/-- An error reported at a token. -/
def Token.error (t : Token) (file : String) (errCl : ErrorClass) (errTp : ErrorType) : Failure :=
  .error {
    errCl := errCl
    errTp := errTp
    fileName := file
    fileLine := toString t.line
    characterNumber := toString t.col }

/-- A bound of a Python slice: a negative one counts from the end. -/
def sliceBound (len : Nat) (k : Int) : Nat := if k < 0 then (k + len).toNat else k.toNat

/-- `xs[start:stop]`. -/
def slice {α : Type} (xs : List α) (start stop : Int) : List α :=
  (xs.take (sliceBound xs.length stop)).drop (sliceBound xs.length start)

/-- `int` of a constant's lexeme. -/
def Token.int (t : Token) : Except Failure Nat :=
  match parseDecimal t.lexeme.toList with
  | some n => if t.lexeme.length ≤ maxStrDigits then .ok n else .error .raised
  | none => .error .raised

/-- The tokens that structure a file: line ends, braces, and the keywords of a definition. -/
def TokenKind.structural : TokenKind → Bool
  | .NEWLINE | .LBRACE | .RBRACE | .MESSAGE | .ENUM => true
  | _ => false

theorem bind_eq_ok {ε α β : Type} {x : Except ε α} {f : α → Except ε β} {r : β} :
    (x >>= f) = .ok r ↔ ∃ a, x = .ok a ∧ f a = .ok r := by
  cases x with
  | error err => simp [Bind.bind, Except.bind]
  | ok a => simp [Bind.bind, Except.bind]

theorem exists_of_isOk {ε α : Type} {x : Except ε α} (h : x.isOk) : ∃ a, x = .ok a := by
  cases x with
  | error err => cases h
  | ok a => exact ⟨a, rfl⟩

@[simp] theorem ok_bind {ε α β : Type} (a : α) (f : α → Except ε β) :
    ((.ok a : Except ε α) >>= f) = f a := rfl

@[simp] theorem sliceBound_natCast (len n : Nat) : sliceBound len (n : Int) = n := by
  simp [sliceBound]

theorem slice_natCast {α : Type} (xs : List α) (start stop : Nat) :
    slice xs (start : Int) (stop : Int) = (xs.take stop).drop start := by
  simp [slice]

/-- The slice between two cut points. -/
theorem slice_append {α : Type} (before mid after : List α) :
    slice (before ++ (mid ++ after)) (before.length : Int) ((before.length + mid.length : Nat) : Int)
      = mid := by
  rw [slice_natCast, ← List.append_assoc, ← List.length_append, List.take_left', List.drop_left']
  · rfl
  · rfl

/-- A slice up to and including a position. -/
theorem slice_upTo {α : Type} {before after : List α} {t : α} {c : Nat} (hc : c ≤ before.length) :
    slice (before ++ t :: after) c ((before.length : Int) + 1) = before.drop c ++ [t] := by
  have stop : (before.length : Int) + 1 = (before.length + 1 : Nat) := by omega
  have take : (before ++ t :: after).take (before.length + 1) = before ++ [t] := by
    simp [List.take_append]
  rw [stop, slice_natCast, take, List.drop_append_of_le_length hc]

end Harpia
