import Harpia.MessageProcess

namespace Harpia

/-- What the definitions parsed so far leave behind. -/
structure Parsed where
  messages : List ParsedMessage := []
  availableMessages : List String := []
  sidecars : Sidecars

structure MessageCreator extends Parsed where
  file : String
  tokens : List Token

/-- How a call of `CreateMessages` ends; `exhausted` is one that is still running. -/
inductive Outcome
  | exhausted
  | raised
  | returned (err : Option Error)
deriving DecidableEq, Repr

def Outcome.ofFailure : Failure → Outcome
  | .error err => .returned (some err)
  | .raised => .raised

/-- The locals of one call of `CreateMessages`. -/
structure Scan where
  i : Nat
  endPos : Nat
  curNewLine : Nat := 0
  startMessage : Option Nat := none
  endOfBody : Option Nat := none
  endOfMessage : Option Nat := none
deriving DecidableEq, Repr

namespace Scan

/-- The line and message marks a token sets. -/
def mark (s : Scan) (kind : TokenKind) : Scan :=
  match kind with
  | .NEWLINE =>
    { s with
      curNewLine := s.i
      endOfMessage := if s.endOfBody.isSome then some s.i else s.endOfMessage }
  | .LBRACE => { s with startMessage := some s.curNewLine }
  | _ => s

/-- The extent of the message that ends here, once all three marks are set. -/
def extent (s : Scan) : Option (Nat × Nat) :=
  match s.startMessage, s.endOfMessage, s.endOfBody with
  | some start, some stop, some _ => some (start, stop)
  | _, _, _ => none

end Scan

/-- A round either goes on with the scan or ends the call. -/
abbrev Turn := Except Outcome Scan × MessageCreator

namespace MessageCreator

def multipleInstances (mc : MessageCreator) (place : String) : Error where
  errCl := .MESSAGES
  errTp := .MULTIPLE_INSTANCES_OF_MESSAGES
  fileName := mc.file
  fileLine := place
  characterNumber := place

/-- `allUnique`: when two messages share name and file, one of the names seen. -/
def allUnique (mc : MessageCreator) : Option String :=
  let seen := mc.messages.map fun msg => msg.name ++ " - " ++ msg.file
  if seen.Nodup then none else seen.head?

/-- The call for the definition that starts on the line at `beginToken`. -/
def begin (mc : MessageCreator) (beginToken : Nat) : Scan :=
  { i := beginToken, endPos := mc.tokens.length }

/-- The message is stored and its tokens are deleted. -/
def store (mc : MessageCreator) (m : ParsedMessage) (sidecars : Sidecars) (start stop : Nat) :
    MessageCreator where
  messages := mc.messages ++ [m]
  availableMessages := mc.availableMessages ++ [m.name]
  sidecars := sidecars
  file := mc.file
  tokens := mc.tokens.take start ++ mc.tokens.drop (max start stop)

/-- A complete message is processed and stored; an internal call ends there. -/
def close (mc : MessageCreator) (isInternal : Bool) (s : Scan) : Turn :=
  match s.extent with
  | none => (.ok s, mc)
  | some (start, stop) =>
    match Message.process mc.file mc.availableMessages mc.sidecars (slice mc.tokens start stop) with
    | .error failure => (.error (.ofFailure failure), mc)
    | .ok (m, sidecars) =>
      let mc := mc.store m sidecars start stop
      if isInternal then (.error (.returned none), mc)
      else (.ok { i := s.i - (stop - start), endPos := mc.tokens.length }, mc)

/-- The rest of a round, from the test for a closing brace on. -/
def advance (mc : MessageCreator) (isInternal : Bool) (s : Scan) : Turn :=
  match mc.tokens[s.i]? with
  | none => (.error .raised, mc)
  | some t =>
    let s := if t.kind = .RBRACE then
        { s with
          endOfBody := some s.i
          endOfMessage := if mc.tokens.length = s.i then some s.i else s.endOfMessage }
      else s
    match mc.close isInternal s with
    | (.ok s, mc) => (.ok { s with i := s.i + 1 }, mc)
    | stopped => stopped

/-- The loop of `CreateMessages` and the check after it. A keyword inside a message starts an
internal call at the current line; the round then goes on one token before the keyword. -/
def loop : Nat → MessageCreator → Bool → Scan → Outcome × MessageCreator
  | 0, mc, _, _ => (.exhausted, mc)
  | fuel + 1, mc, isInternal, s =>
    if s.i < s.endPos then
      match mc.tokens[s.i]? with
      | none => (.raised, mc)
      | some t =>
        let s := s.mark t.kind
        let entered : Turn :=
          if (t.kind = .ENUM ∨ t.kind = .MESSAGE) ∧ s.startMessage.isSome then
            match loop fuel mc true (mc.begin s.curNewLine) with
            | (.returned none, mc) =>
              (.ok { s with endOfBody := none, endOfMessage := none, i := s.i - 1 }, mc)
            | (.returned (some _), mc) =>
              (.error (.returned (some (mc.multipleInstances (toString s.curNewLine)))), mc)
            | (stopped, mc) => (.error stopped, mc)
          else (.ok s, mc)
        match entered with
        | (.error stopped, mc) => (stopped, mc)
        | (.ok s, mc) =>
          match mc.advance isInternal s with
          | (.error stopped, mc) => (stopped, mc)
          | (.ok s, mc) => loop fuel mc isInternal s
    else (.returned (mc.allUnique.map mc.multipleInstances), mc)

/-- `CreateMessages`, within a number of rounds. -/
def createMessages (mc : MessageCreator) (fuel beginToken : Nat) : Outcome × MessageCreator :=
  mc.loop fuel false (mc.begin beginToken)

end MessageCreator

end Harpia
