import Harpia.Token
import Harpia.Variable

namespace Harpia

open Text

/-- What `variable.regex` holds: a pattern, a map's patterns, the bracketed tokens, or the composed
type itself. -/
inductive Regex
  | pattern (text : String)
  | patterns (texts : List String)
  | tokens (bracketed : List Token)
  | composed (type : Token)
deriving DecidableEq, Repr

/-- `class variable`, once parsed. -/
structure ParsedVariable where
  index : Int := -1
  name : String
  regex : Regex
  type : Token
  typeMap : List Token := []
  paginationSize : Nat := 0
  repeteableSize : Nat := 0
  modifiers : List Token := []
  renamedFrom : Option String := none
  isPhi : Bool := false
deriving DecidableEq, Repr

namespace Variables

def RegexForInt : String := "^[0-9]*$"
def RegexForFloat : String := "[+-]?([0-9]+([.][0-9]*)?|[.][0-9]+)"
def RegexForString : String := "(\\\\d+)\\\\n"

/-- The last position of a kind; the loops of `getRegex`, `getPagination` and `getMap` start at 0. -/
def lastPosition (kind : TokenKind) (tokens : List Token) : Nat :=
  tokens.zipIdx.foldl (fun last e => if e.1.kind = kind then e.2 else last) 0

/-- `getRepeteable`: the bound, 0 when there is no bracket, `none` when the bracket is malformed. -/
def getRepeteable (tokens : List Token) : Except Failure (Option Nat) :=
  match tokens.dropWhile (fun t => t.kind ≠ .SQLEFTBRACKET) with
  | [] => .ok (some 0)
  | _ :: rest => do
    let bound ← (rest.takeWhile fun t => t.kind ≠ .SQRIGHTBRACKET).foldlM (fun bound t =>
      if t.kind = .INTEGER_CONST then some <$> t.int else .ok bound) none
    .ok (if rest.any fun t => t.kind = .SQRIGHTBRACKET then bound else none)

/-- `getPagination`. -/
def getPagination (tokens : List Token) : Except Failure (Option Nat) := do
  let pagination ← tokens.foldlM (fun pagination t =>
    if t.kind = .INTEGER_CONST then some <$> t.int else .ok pagination) none
  let pagStart := lastPosition .SQLEFTBRACKET tokens
  let pagStop := lastPosition .SQRIGHTBRACKET tokens
  .ok (if pagStart + 2 < pagStop then none else pagination)

/-- `getMap`: the basic types among the tokens, `none` when the angle brackets are malformed. -/
def getMap (tokens : List Token) : Option (List Token) :=
  let mapStart : Int := lastPosition .LT tokens
  let mapStop : Int := lastPosition .GT tokens
  if mapStop - mapStart < 2 ∨ 4 < mapStop - mapStart then none
  else some (tokens.filter fun t => t.kind ∈ [.INT32, .INT64, .FLOAT, .STRING])

/-- `getRegex`: it looks at the first token before it looks for the brackets. -/
def getRegex (tokens : List Token) : Except Failure (Option Regex) :=
  match tokens with
  | [] => .error .raised
  | first :: _ =>
    let repStart := lastPosition .SQLEFTBRACKET tokens
    let repStop := lastPosition .SQRIGHTBRACKET tokens
    .ok (if first.kind ≠ .SQLEFTBRACKET then none
      else if repStart + 2 < repStop then none
      else some (.tokens (slice tokens repStart repStop)))

/-- The pattern of a basic type, as `getRegexFromType` and `RegexForMaps` choose it. -/
def regexOf (kind : TokenKind) : Option String :=
  match kind with
  | .INT32 | .INT64 => some RegexForInt
  | .FLOAT => some RegexForFloat
  | .STRING => some RegexForString
  | _ => none

def RegexForMaps (varType : List Token) : Option Regex :=
  if 3 < varType.length ∨ varType.length < 2 then none
  else some (.patterns (varType.filterMap fun t => regexOf t.kind))

/-- `getRegexFromType`. -/
def getRegexFromType (type : Token) (typeMap : List Token) : Option Regex :=
  if type.kind = .MAP then RegexForMaps typeMap else (regexOf type.kind).map .pattern

/-- The group of `renamed_from\[\s*([a-zA-Z]\w*)\s*\]`; `none` where `re.match` finds nothing. -/
def renamedGroup (lexeme : String) : Option String :=
  if startsWith lexeme "renamed_from[" then
    let rest := (lexeme.toList.drop "renamed_from[".length).dropWhile isSpace
    let old := rest.takeWhile isWord
    match (rest.dropWhile isWord).dropWhile isSpace with
    | ']' :: _ => if old.head?.any Char.isAlpha then some (String.ofList old) else none
    | _ => none
  else none

/-- The locals of the loop over one declaration. -/
structure FieldScan where
  index : Int := -1
  name : String := ""
  type : Option Token := none
  typeMap : List Token := []
  paginationSize : Nat := 0
  repeteableSize : Nat := 0
  modifiers : List Token := []
  renamedFrom : Option String := none
  isPhi : Bool := false
  regexEnd : Nat := 0
  regexStart : Nat := 0
  firstID : Int := 0
  currVarName : Option Token := none
deriving DecidableEq, Repr

def FieldScan.modifier (scan : FieldScan) (i : Nat) (t : Token) : FieldScan :=
  { scan with firstID := i, modifiers := scan.modifiers ++ [t] }

def FieldScan.typed (scan : FieldScan) (i : Nat) (t : Token) : FieldScan :=
  { scan with firstID := -1, type := some t, regexStart := i }

/-- What one token of a declaration does; `count` is `len(self.variables)`. -/
def readToken (file : String) (line : List Token) (count : Nat) (scan : FieldScan) (t : Token)
    (i : Nat) : Except Failure FieldScan :=
  match t.kind with
  | .REPETEABLE => do
    match ← getRepeteable (line.drop i) with
    | none => .error (t.error file .VARTYPES .MALFORMED_REPETEABLE)
    | some repeteable => .ok { scan.modifier i t with repeteableSize := repeteable }
  | .PHI => .ok { scan.modifier i t with isPhi := true }
  | .OPTIONAL | .UNIQUE | .REQUIRED => .ok (scan.modifier i t)
  | .RENAMED_FROM =>
    match renamedGroup t.lexeme with
    | none => .error .raised
    | some old => .ok { scan.modifier i t with renamedFrom := some old }
  | .PAGINATION => do
    match ← getPagination (line.drop i) with
    | none => .error (t.error file .VARTYPES .MALFORMED_PAGINATION)
    | some pagination => .ok { scan.modifier i t with paginationSize := pagination }
  | .MAP =>
    match getMap (line.drop i) with
    | none => .error (t.error file .VARTYPES .MALFORMED_MAP)
    | some [] => .error .raised
    | some (first :: rest) =>
      .ok { scan with firstID := -1, type := some first, typeMap := first :: rest }
  | .ID => .ok (if 0 ≤ scan.firstID then scan.typed i t else scan)
  | .INT32 | .INT64 | .FLOAT | .STRING => .ok (scan.typed i t)
  | .SQLEFTBRACKET => .ok (if scan.regexStart ≠ 0 then { scan with regexStart := i } else scan)
  | .SQRIGHTBRACKET => .ok (if scan.regexStart ≠ 0 then { scan with regexEnd := i } else scan)
  | .PCOMMA =>
    match scan.currVarName with
    | none => .error .raised
    | some prev =>
      if isReservedHiddenName prev.lexeme then
        .error (t.error file .VARTYPES .RESERVED_HIDDEN_FIELD_NAME)
      else .ok { scan with name := prev.lexeme, index := count + 1 }
  | _ => .ok scan

/-- One round of the loop over a declaration's tokens. -/
def scanToken (file : String) (line : List Token) (count : Nat) (scan : FieldScan)
    (e : Token × Nat) : Except Failure FieldScan := do
  let scan ← readToken file line count scan e.1 e.2
  .ok { scan with currVarName := some e.1 }

/-- `Variables` while `Process` runs: its `curNewLine` local, the variables, the dependencies. -/
structure Progress where
  curNewLine : Int := 0
  vars : List ParsedVariable
  dependencies : List Token := []
deriving DecidableEq, Repr

def FieldScan.variable (scan : FieldScan) (type : Token) (regex : Regex) : ParsedVariable where
  index := scan.index
  name := scan.name
  regex := regex
  type := type
  typeMap := scan.typeMap
  paginationSize := scan.paginationSize
  repeteableSize := scan.repeteableSize
  modifiers := scan.modifiers
  renamedFrom := scan.renamedFrom
  isPhi := scan.isPhi

/-- The regex of a field whose type is not composed. The bracket positions count from the start of
the declaration, the slice is taken from the start of the body. -/
def fieldRegex (tokens : List Token) (scan : FieldScan) (type : Token) :
    Except Failure (Option Regex) :=
  if 0 < scan.regexEnd ∧ 0 < scan.regexStart then
    getRegex (slice tokens (scan.regexStart + 1) (scan.regexEnd + 1))
  else .ok (getRegexFromType type scan.typeMap)

/-- What follows the loop over one declaration: the type is looked up and the variable stored.
`var.index` is never `None`, and no type equals the bare texts it is compared with. -/
def storeField (file : String) (composedVariables : List String) (tokens : List Token)
    (pcomma : Token) (p : Progress) (scan : FieldScan) : Except Failure Progress :=
  match scan.type with
  | none => .error (pcomma.error file .VARTYPES .VARTYPE_NOT_DEFINED)
  | some type =>
    if type.lexeme ∈ composedVariables then
      .ok { p with
        vars := p.vars ++ [scan.variable type (.composed type)]
        dependencies := if type ∈ p.dependencies then p.dependencies else p.dependencies ++ [type] }
    else do
      match ← fieldRegex tokens scan type with
      | none => .error (pcomma.error file .REGEX .REGEX_NOT_FOUND)
      | some regex => .ok { p with vars := p.vars ++ [scan.variable type regex] }

/-- One round of the outer loop. After a `;` there is no line until the next `NEWLINE`. -/
def processToken (file : String) (composedVariables : List String) (tokens : List Token)
    (p : Progress) (e : Token × Nat) : Except Failure Progress := do
  let (t, j) := e
  match t.kind with
  | .NEWLINE => .ok { p with curNewLine := j }
  | .PCOMMA => do
    let line := slice tokens p.curNewLine (j + 1)
    let scan ← line.zipIdx.foldlM (scanToken file line p.vars.length) {}
    storeField file composedVariables tokens t { p with curNewLine := -1 } scan
  | _ => .ok p

/-- The variable every message starts with. -/
def idVariable : ParsedVariable where
  index := 1
  name := "HARPIA_ID"
  regex := .pattern RegexForInt
  type := ⟨.INT32, "int", 0, 0⟩

/-- `AddHiddenVariables`. -/
def addHiddenVariables (vars : List ParsedVariable) : List ParsedVariable :=
  let hidden (index : Nat) (name lexeme : String) : ParsedVariable :=
    { index := index, name := name, regex := .pattern RegexForString, type := ⟨.STRING, lexeme, 0, 0⟩ }
  vars ++ [
    hidden (vars.length + 1) "HARPIA_STATUS" "string ",
    hidden (vars.length + 2) "HARPIA_ERROR" "string ",
    hidden (vars.length + 3) "HARPIA_ORIGINATOR" "string"]

/-- `Variables.Process`: the variables and the dependencies. -/
def process (file : String) (composedVariables : List String) (tokens : List Token) :
    Except Failure (List ParsedVariable × List Token) := do
  let p ← tokens.zipIdx.foldlM (processToken file composedVariables tokens)
    { vars := [idVariable] }
  let vars := addHiddenVariables p.vars
  if (vars.map ParsedVariable.index).Nodup then .ok (vars, p.dependencies)
  else .error (.error {
    errCl := .VARTYPES
    errTp := .MULTIPLE_INSTANCES_OF_INDEX
    fileName := file
    fileLine := "0"
    characterNumber := "0" })

end Variables

/-- The part of a parsed variable the field numbering and the generators read. -/
def Token.typeToken (t : Token) : TypeToken :=
  match t.kind with
  | .INT32 => .INT32
  | .INT64 => .INT64
  | .FLOAT => .FLOAT
  | .STRING => .STRING
  | .ID => .ID t.lexeme
  | _ => .other t.lexeme

def Token.modifier (t : Token) : Option Modifier :=
  match t.kind with
  | .REPETEABLE => some .REPETEABLE
  | .PHI => some .PHI
  | .OPTIONAL => some .OPTIONAL
  | .UNIQUE => some .UNIQUE
  | .REQUIRED => some .REQUIRED
  | .RENAMED_FROM => some .RENAMED_FROM
  | .PAGINATION => some .PAGINATION
  | _ => none

def ParsedVariable.variable (v : ParsedVariable) : Variable where
  name := v.name
  type := v.type.typeToken
  typeMap := v.typeMap.map Token.typeToken
  modifiers := v.modifiers.filterMap Token.modifier
  renamedFrom := v.renamedFrom
  isPhi := v.isPhi

end Harpia
