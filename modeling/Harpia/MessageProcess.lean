import Harpia.EnumValues
import Harpia.FieldMapFreeze
import Harpia.Variables
import Mathlib.Logic.Function.Basic

namespace Harpia

/-- `Message.visibility`. -/
inductive Visibility
  | PUBLIC
  | PRIVATE
deriving DecidableEq, Repr

/-- `event_cache_mode`. -/
inductive EventCacheMode
  | cached
  | notCached
deriving DecidableEq, Repr

/-- What a message declares: fields, or the numbered enumerators of an enum. -/
inductive Declarations
  | fields (vars : List ParsedVariable)
  | values (enumerators : List (String × Nat))
deriving DecidableEq, Repr

/-- `Message` after `Process`. -/
structure ParsedMessage where
  file : String
  name : String
  accessModifiers : List Token := []
  vars : Declarations := .fields []
  dependency : Option (List Token) := none
  tableName : String := ""
  visibility : Visibility := .PUBLIC
  isEnum : Bool := false
  isCritical : Bool := false
  isDds : Bool := false
  isProtected : Bool := false
  isOpen : Bool := false
  isAutokey : Bool := false
  eventCacheMode : Option EventCacheMode := none
deriving DecidableEq, Repr

/-- The sidecars on disk, by message name. -/
abbrev Sidecars := String → Option (List Char)

/-- `Message` while `Process` runs: its attributes, the locals, and the sidecars it writes. The
name is not known from the start, and `isEnum` is the local. -/
structure Processing where
  name : Option String := none
  message : ParsedMessage
  curNewLine : Option Nat := none
  isEnum : Bool := false
  lastToken : Option TokenKind := none
  startOfVariables : Nat := 0
  rBracePosition : Option Nat := none
  sidecars : Sidecars

namespace Processing

def modified (modifiers : List Token) (kind : TokenKind) : Bool :=
  modifiers.any fun access => access.kind = kind

/-- `'not-cached' in access[1]`. -/
def notCached (lexeme : String) : Bool :=
  lexeme.toList.tails.any fun rest => "not-cached".toList.isPrefixOf rest

def cacheMode (modifiers : List Token) : Option EventCacheMode :=
  (modifiers.find? fun access => access.kind = .EVENT).map fun access =>
    if notCached access.lexeme then .notCached else .cached

/-- The flags and the cache mode a modifier list sets. -/
def applyModifiers (message : ParsedMessage) (modifiers : List Token) : ParsedMessage :=
  { message with
    accessModifiers := modifiers
    isCritical := message.isCritical || modified modifiers .CRITICAL
    isDds := message.isDds || modified modifiers .DDS
    isProtected := message.isProtected || modified modifiers .PROTECTED
    isOpen := message.isOpen || modified modifiers .OPEN
    isAutokey := message.isAutokey || modified modifiers .AUTOKEY
    eventCacheMode := (cacheMode modifiers).or message.eventCacheMode }

def readNewLine (p : Processing) (t : Token) (j : Nat) : Processing :=
  if t.kind = .NEWLINE then { p with curNewLine := some j } else p

/-- `message` or `enum`: an enum's modifiers are not read. -/
def readKeyword (file : String) (tokens : List Token) (p : Processing) (t : Token) (j : Nat) :
    Except Failure Processing :=
  if t.kind = .MESSAGE ∨ t.kind = .ENUM then
    if t.kind = .ENUM ∨ p.isEnum then .ok { p with isEnum := true }
    else
      let modStart := p.curNewLine.elim 0 fun newLine => newLine + 1
      let message := applyModifiers p.message (slice tokens modStart j)
      if message.isProtected ∧ message.isOpen then
        .error (t.error file .MODIFIERS .CONFLICTING_HARDENING_MODIFIERS)
      else .ok { p with message := message }
  else .ok p

/-- The token after the keyword is the name. -/
def readName (file : String) (p : Processing) (t : Token) : Except Failure Processing :=
  if p.lastToken = some .MESSAGE ∨ p.lastToken = some .ENUM then
    if t.kind = .ID then .ok { p with name := some t.lexeme }
    else .error (t.error file .MESSAGES .NO_NAME_IN_MESSAGE)
  else .ok p

/-- `freezeFieldNumbers` on the variables of a message, which has written its sidecar when it
succeeds. -/
def freezeFieldNumbers (file : String) (name : Option String) (sidecars : Sidecars)
    (vars : List ParsedVariable) : Except Failure (List ParsedVariable × Sidecars) :=
  let key := name.getD "None"
  match freeze .ascii file (sidecars key) (vars.map ParsedVariable.variable) with
  | .raised => .error .raised
  | .error err => .error (.error err)
  | .ok indices content =>
    .ok (vars.zipWith (fun var num => { var with index := (num : Nat) }) indices,
      Function.update sidecars key (some content))

/-- The body at a closing brace: everything from the opening brace up to the token before. -/
def readBody (file : String) (availableMessages : List String) (name : Option String)
    (isEnum : Bool) (sidecars : Sidecars) (message : ParsedMessage) (body : List Token) :
    Except Failure (ParsedMessage × Sidecars) :=
  if isEnum then do
    let values ← EnumValues.process file body
    .ok ({ message with vars := .values values, isEnum := isEnum }, sidecars)
  else do
    let (vars, dependencies) ← Variables.process file availableMessages body
    let (vars, sidecars) ← freezeFieldNumbers file name sidecars vars
    .ok ({ message with
      vars := .fields vars, dependency := some dependencies, isEnum := isEnum }, sidecars)

/-- The opening brace needs a name before it. -/
def readLBrace (file : String) (p : Processing) (t : Token) (j : Nat) : Except Failure Processing :=
  if t.kind = .LBRACE then
    if p.name.isNone then .error (t.error file .MESSAGES .NO_NAME_IN_MESSAGE)
    else .ok { p with startOfVariables := j + 1 }
  else .ok p

/-- The closing brace; `startOfVariables` is never `None`. -/
def readRBrace (file : String) (availableMessages : List String) (tokens : List Token)
    (p : Processing) (t : Token) (j : Nat) : Except Failure Processing :=
  if t.kind = .RBRACE then do
    let (message, sidecars) ← readBody file availableMessages p.name p.isEnum p.sidecars p.message
      (slice tokens p.startOfVariables ((j : Int) - 1))
    .ok { p with message := message, sidecars := sidecars, rBracePosition := some j }
  else .ok p

/-- What follows a closing brace: the table name, and a `;` for a private message. -/
def readTail (p : Processing) (t : Token) : Processing :=
  if p.rBracePosition.isSome then
    if t.kind = .PCOMMA then { p with message := { p.message with visibility := .PRIVATE } }
    else if t.kind = .ID then { p with message := { p.message with tableName := t.lexeme } }
    else p
  else p

/-- One round of the loop of `Message.Process`. -/
def processToken (file : String) (availableMessages : List String) (tokens : List Token)
    (p : Processing) (e : Token × Nat) : Except Failure Processing := do
  let (t, j) := e
  let p ← readKeyword file tokens (p.readNewLine t j) t j
  let p ← readName file p t
  let p ← readLBrace file { p with lastToken := some t.kind } t j
  let p ← readRBrace file availableMessages tokens p t j
  .ok (p.readTail t)

/-- The checks after the loop. -/
def finish (file : String) (p : Processing) : Except Failure (ParsedMessage × Sidecars) :=
  match p.name with
  | none => .error (.error {
      errCl := .MESSAGES
      errTp := .NO_NAME_IN_MESSAGE
      fileName := file
      fileLine := "1"
      characterNumber := "1" })
  | some name =>
    if p.message.isAutokey ∧ p.message.tableName = "" then
      .error (.error {
        errCl := .MODIFIERS
        errTp := .AUTOKEY_WITHOUT_TABLE
        fileName := file
        fileLine := "0"
        characterNumber := "0" })
    else .ok ({ p.message with name := name }, p.sidecars)

end Processing

/-- `Message.Process`: the message, and the sidecars after it. -/
def Message.process (file : String) (availableMessages : List String) (sidecars : Sidecars)
    (tokens : List Token) : Except Failure (ParsedMessage × Sidecars) := do
  let p ← tokens.zipIdx.foldlM (Processing.processToken file availableMessages tokens)
    { message := { file := file, name := "" }, sidecars := sidecars }
  p.finish file

end Harpia
