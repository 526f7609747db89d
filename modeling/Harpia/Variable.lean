import Harpia.Lib.Text

namespace Harpia

open Text

/-- The token a field's type is declared with, `variable.type[0]`; `ID` carries the name of the
message or enum it refers to, and `other` stands for a token no type table knows. -/
inductive TypeToken
  | INT32 | INT64 | BOOL | FLOAT | STRING
  | ID (target : String)
  | other (token : String)
deriving DecidableEq, Repr

/-- The field modifiers, `variable.modifiers`. -/
inductive Modifier
  | REPETEABLE | PHI | OPTIONAL | UNIQUE | REQUIRED | RENAMED_FROM | PAGINATION
deriving DecidableEq, Repr

structure Variable where
  name : String
  type : TypeToken
  /-- The key and value types of a map field; empty for any other field. -/
  typeMap : List TypeToken := []
  modifiers : List Modifier := []
  renamedFrom : Option String := none
  isPhi : Bool := false
deriving DecidableEq, Repr

def hiddenJsonNames : List String :=
  ["harpiaid", "harpiastatus", "harpiaerror", "harpiaoriginator"]

/-- `is_reserved_hidden_name`: the `HARPIA_` spelling in any case, or a name protoc's JSON rule
would fold onto a hidden field. -/
def isReservedHiddenName (name : String) : Bool :=
  startsWith (upper name) "HARPIA_" ||
    hiddenJsonNames.contains (lower (String.ofList (name.toList.filter (· ≠ '_'))))

/-- The fields the front end puts into every message. -/
def harpiaId : Variable := { name := "HARPIA_ID", type := .INT32 }
def harpiaStatus : Variable := { name := "HARPIA_STATUS", type := .STRING }
def harpiaError : Variable := { name := "HARPIA_ERROR", type := .STRING }
def harpiaOriginator : Variable := { name := "HARPIA_ORIGINATOR", type := .STRING }

/-- `Variables` after `Process`: the key first, then the declared fields, then the three fields
`AddHiddenVariables` appends. -/
def withHidden (user : List Variable) : List Variable :=
  harpiaId :: user ++ [harpiaStatus, harpiaError, harpiaOriginator]

end Harpia
