import Harpia.Token
import Mathlib.Data.List.Sort

namespace Harpia.EnumValues

/-- An enumerator and the number its declaration gives it, if any: `tmpValue`. -/
abbrev Declared := String × Option Nat

/-- `getValue`: one declaration, from the line end before it to its `;`. An error it returns is the
inner one. -/
def getValue (file : String) (tokens : List Token) : Except Failure (Except Failure Declared) :=
  match tokens with
  | [] => .error .raised
  | newline :: rest =>
    let failed (errTp : ErrorType) : Except Failure (Except Failure Declared) :=
      .ok (.error (newline.error file .ENUMTYPES errTp))
    if newline.kind ≠ .NEWLINE then failed .ENUM_VALUE_MUST_START_THE_LINE
    else
      match rest with
      | [name, pcomma] =>
        if name.kind = .ID ∧ pcomma.kind = .PCOMMA then .ok (.ok (name.lexeme, none))
        else failed .NOT_VALID_ENUM
      | [name, attr, const, _] =>
        if name.kind ≠ .ID then failed .ENUMNAME_NOT_VALID
        else if attr.kind ≠ .ATTR then failed .EXPECTING_A_INTEGER_CONST_VALUE
        else if const.kind = .INTEGER_CONST then do
          let number ← const.int
          .ok (.ok (name.lexeme, some number))
        else failed .MALFORMED_ENUM_TYPE
      | _ => failed .TOO_LONG_DEFINITION_OF_ENUMERATOR

/-- `allUnique`: it asks an enumerator for its `index`, which a pair does not have. -/
def allUnique (tmpValues : List (String × Nat)) : Except Failure Bool :=
  match tmpValues with
  | [] => .ok true
  | _ :: _ => .error .raised

/-- The locals of both loops: `lastValid` and `tmpValues` for the pass at hand. -/
structure Progress where
  curNewLine : Nat := 0
  tmpValues : List (String × Nat) := []
  lastValid : Nat := 0
deriving DecidableEq, Repr

/-- First loop: the enumerators that declare a number. -/
def collectNumbered (file : String) (tokens : List Token) (p : Progress) (e : Token × Nat) :
    Except Failure Progress := do
  let (t, j) := e
  match t.kind with
  | .NEWLINE => .ok { p with curNewLine := j }
  | .PCOMMA => do
    let (name, number) ← ← getValue file (slice tokens p.curNewLine (j + 1))
    match number with
    | some number => .ok { p with tmpValues := p.tmpValues ++ [(name, number)] }
    | none => .ok p
  | _ => .ok p

/-- Second loop: the other enumerators count on from `lastValid`. -/
def collectUnnumbered (file : String) (tokens : List Token) (p : Progress) (e : Token × Nat) :
    Except Failure Progress := do
  let (t, j) := e
  match t.kind with
  | .NEWLINE => .ok { p with curNewLine := j }
  | .PCOMMA => do
    match ← getValue file (slice tokens p.curNewLine (j + 1)) with
    | .ok (name, none) =>
      .ok { p with tmpValues := p.tmpValues ++ [(name, p.lastValid)], lastValid := p.lastValid + 1 }
    | _ => .ok p
  | _ => .ok p

/-- What stands between the loops: the numbered enumerators are sorted by number. The check runs
while `self.tmpValues` is still empty. -/
def sortNumbered (file : String) (tokens : List Token) (p : Progress) : Except Failure Progress := do
  if ← allUnique [] then
    let sorted := p.tmpValues.insertionSort fun a b => a.2 ≤ b.2
    .ok { p with
      tmpValues := sorted
      lastValid := sorted.getLast?.elim 0 fun last => last.2 + 1 }
  else
    match tokens with
    | [] => .error .raised
    | first :: _ => .error (.error {
        errCl := .ENUMTYPES
        errTp := .MULTIPLE_INSTANCES_OF_INDEX
        fileName := file
        fileLine := first.lexeme
        characterNumber := toString first.line })

/-- `EnumValues.Process`, then `get`: the enumerators with their numbers. -/
def process (file : String) (tokens : List Token) : Except Failure (List (String × Nat)) := do
  let p ← tokens.zipIdx.foldlM (collectNumbered file tokens) {}
  let p ← sortNumbered file tokens p
  let p ← tokens.zipIdx.foldlM (collectUnnumbered file tokens) p
  .ok p.tmpValues

end Harpia.EnumValues
