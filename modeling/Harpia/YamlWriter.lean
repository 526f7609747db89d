import Harpia.ScalarText

namespace Harpia

open Text Reflection

def quoteChar : Char → List Char
  | '\\' => ['\\', '\\']
  | '"' => ['\\', '"']
  | '\n' => ['\\', 'n']
  | '\t' => ['\\', 't']
  | c => [c]

def quote (s : List Char) : List Char := '"' :: (s.flatMap quoteChar ++ ['"'])

def pad (k : Nat) : List Char := List.replicate k ' '

/-- The loop of `splice_dash` over the lines of a block, of which the last has no line end. -/
def spliceLines (dashIndent : Nat) (first : Bool) : List (List Char) → List Char
  | [] => []
  | line :: rest =>
    if line = [] ∧ rest = [] then []
    else
      (if first then pad dashIndent ++ '-' :: ' ' :: line.drop (dashIndent + 2) else line) ++
        if rest = [] then [] else '\n' :: spliceLines dashIndent false rest

def spliceDash (block : List Char) (dashIndent : Nat) : List Char :=
  spliceLines dashIndent true (block.splitOn '\n')

variable {n : Nat} (F : FloatText) (P : Pool n)

/-- `write_singular_inline`, and `_inline`. -/
def inlineText (ty : CppType n) : Scalar → List Char
  | .text s => quote s
  | x => scalarText F ty x

/-- What `GetInt32` and its like return: the value of a singular field, or its default. -/
def scalarOf (f : Field n) : List Value → Scalar
  | .scalar x :: _ => x
  | _ => f.type.default

mutual

/-- `write_message`, field by field. -/
def writeFields (indent : Nat) : List (Field n) → List (List Value) → List Char
  | _, [] => []
  | [], _ :: _ => []
  | f :: fields, slot :: slots => writeField indent f slot ++ writeFields indent fields slots

/-- One field of `write_message`, by what it holds. -/
def writeField (indent : Nat) (f : Field n) : List Value → List Char
  | [] =>
    if P.isMap f then pad indent ++ f.name ++ [':', ' ', '{', '}', '\n']
    else if f.repeated then pad indent ++ f.name ++ [':', ' ', '[', ']', '\n']
    else if f.presence then []
    else pad indent ++ f.name ++ ':' :: ' ' :: inlineText F f.type f.type.default ++ ['\n']
  | v :: vs =>
    if P.isMap f then
      pad indent ++ f.name ++ ':' :: '\n' :: writeEntry indent f v ++ writeEntries indent f vs
    else if f.repeated then
      pad indent ++ f.name ++ ':' :: '\n' :: writeItem indent f v ++ writeItems indent f vs
    else pad indent ++ f.name ++ ':' :: writeBlock (indent + 2) f v

def writeEntries (indent : Nat) (f : Field n) : List Value → List Char
  | [] => []
  | v :: vs => writeEntry indent f v ++ writeEntries indent f vs

/-- One entry of `write_map`: the fields of an entry are its key and its value. -/
def writeEntry (indent : Nat) (f : Field n) : Value → List Char
  | .message [key, value] =>
    match f.type.messageType?.map fun s => (P.desc s).fields with
    | some [kf, vf] =>
      pad (indent + 2) ++ inlineText F kf.type (scalarOf kf key) ++
        ':' :: writeEntryValue indent vf value
    | _ => []
  | _ => []

def writeEntryValue (indent : Nat) (vf : Field n) : List Value → List Char
  | [] => if vf.type.isMessage then [' ', '{', '}', '\n']
    else ' ' :: inlineText F vf.type vf.type.default ++ ['\n']
  | v :: _ => writeBlock (indent + 4) vf v

/-- What follows the colon of a singular field or of a map key. -/
def writeBlock (indent : Nat) (f : Field n) : Value → List Char
  | .scalar x => ' ' :: inlineText F f.type x ++ ['\n']
  | .message slots =>
    match f.type.messageType? with
    | some s =>
      let block := writeFields indent (P.desc s).fields slots
      if block = [] then [' ', '{', '}', '\n'] else '\n' :: block
    | none => []

def writeItems (indent : Nat) (f : Field n) : List Value → List Char
  | [] => []
  | v :: vs => writeItem indent f v ++ writeItems indent f vs

/-- An element of a repeated field, after its dash. -/
def writeItem (indent : Nat) (f : Field n) : Value → List Char
  | .scalar x => pad (indent + 2) ++ '-' :: ' ' :: inlineText F f.type x ++ ['\n']
  | .message slots =>
    match f.type.messageType? with
    | some s =>
      let block := writeFields (indent + 4) (P.desc s).fields slots
      if block = [] then pad (indent + 2) ++ ['-', ' ', '{', '}', '\n']
      else spliceDash block (indent + 2)
    | none => []

end

/-- `to_yaml`. -/
def toYaml (t : Fin n) (m : Slots) : List Char :=
  let out := writeFields F P 0 (P.desc t).fields m
  if out = [] then ['{', '}', '\n'] else out

end Harpia
