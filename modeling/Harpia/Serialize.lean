import Harpia.XmlWriter

namespace Harpia

open Text Reflection

inductive Format
  | json
  | xml
  | yaml
deriving DecidableEq, Repr

def hexLower (k : Nat) : Char := Nat.digitChar (k % 16)

def jsonEscapeChar (c : Char) : List Char :=
  if c = '"' then ['\\', '"']
  else if c = '\\' then ['\\', '\\']
  else if c = '\n' then ['\\', 'n']
  else if c = '\r' then ['\\', 'r']
  else if c = '\t' then ['\\', 't']
  else if c.toNat < 32 then ['\\', 'u', '0', '0', hexLower (c.toNat / 16), hexLower c.toNat]
  else [c]

/-- `json_escape`. -/
def jsonEscape (s : List Char) : List Char := s.flatMap jsonEscapeChar

def quoted (s : List Char) : List Char := '"' :: s ++ ['"']

/-- `kPlaceholder`. -/
def placeholderText : List Char := ['[', 'R', 'E', 'D', 'A', 'C', 'T', 'E', 'D', ']']

def placeholder : Format → List Char
  | .xml => placeholderText
  | _ => quoted placeholderText

variable {n : Nat} (F : FloatText) (P : Pool n)

/-- `scalar_value`. -/
def scalarValue (fmt : Format) (ty : CppType n) : Scalar → List Char
  | .text s => if fmt = .xml then escape s else quoted (jsonEscape s)
  | .int k =>
    match ty with
    | .enum e => if fmt = .xml then enumName e k else quoted (enumName e k)
    | _ => intText k
  | x => scalarText F ty x

/-- A map key in JSON is always a string: one that already is loses its quotes, and is escaped
once more. -/
def jsonKey (kf : Field n) (x : Scalar) : List Char :=
  let text := scalarValue F .json kf.type x
  quoted (jsonEscape
    (if kf.type = .string ∧ 2 ≤ text.length then (text.drop 1).dropLast else text))

/-- The indent of what stands below a field; only YAML has one. -/
def deeper (fmt : Format) (indent columns : Nat) : Nat :=
  if fmt = .yaml then indent + columns else indent

/-- What follows the colon of a YAML key. -/
def yamlBlock (ty : CppType n) (text : List Char) : List Char :=
  if ty.isMessage then (if text = [] then [' ', '{', '}', '\n'] else '\n' :: text)
  else ' ' :: text ++ ['\n']

/-- A field that redaction hides. -/
def redactedField (fmt : Format) (indent : Nat) (key : List Char) : List Char :=
  match fmt with
  | .json => quoted (jsonEscape key) ++ ':' :: placeholder .json
  | .xml => tagged key (placeholder .xml)
  | .yaml => pad indent ++ key ++ ':' :: ' ' :: placeholder .yaml ++ ['\n']

def singularField (fmt : Format) (indent : Nat) (f : Field n) (text : List Char) : List Char :=
  match fmt with
  | .json => quoted (jsonEscape f.name) ++ ':' :: text
  | .xml => tagged f.name text
  | .yaml => pad indent ++ f.name ++ ':' :: yamlBlock f.type text

/-- What stands before the first element of a repeated field, or before the first entry of a
map. -/
def openField (fmt : Format) (indent : Nat) (bracket : Char) (f : Field n) : List Char :=
  match fmt with
  | .json => quoted (jsonEscape f.name) ++ [':', bracket]
  | .xml => []
  | .yaml => pad indent ++ f.name ++ [':', '\n']

def closeField (fmt : Format) (bracket : Char) : List Char :=
  match fmt with
  | .json => [bracket]
  | _ => []

def emptyField (fmt : Format) (indent : Nat) (left right : Char) (f : Field n) : List Char :=
  match fmt with
  | .yaml => pad indent ++ f.name ++ [':', ' ', left, right, '\n']
  | _ => openField fmt indent left f ++ closeField fmt right

def listItem (fmt : Format) (indent : Nat) (first : Bool) (f : Field n) (text : List Char) :
    List Char :=
  match fmt with
  | .json => if first then text else ',' :: text
  | .xml => tagged f.name text
  | .yaml =>
    if f.type.isMessage then
      (if text = [] then pad (indent + 2) ++ ['-', ' ', '{', '}', '\n']
      else pad (indent + 2) ++ '-' :: ' ' :: text.drop (indent + 4))
    else pad (indent + 2) ++ '-' :: ' ' :: text ++ ['\n']

def mapItem (fmt : Format) (indent : Nat) (first : Bool) (f kf vf : Field n) (key : Scalar)
    (text : List Char) : List Char :=
  match fmt with
  | .json => (if first then [] else [',']) ++ jsonKey F kf key ++ ':' :: text
  | .xml => tagged f.name (tagged ['k', 'e', 'y'] (scalarValue F .xml kf.type key) ++
      tagged ['v', 'a', 'l', 'u', 'e'] text)
  | .yaml => pad (indent + 2) ++ scalarValue F .yaml kf.type key ++ ':' :: yamlBlock vf.type text

def braced (fmt : Format) (text : List Char) : List Char :=
  if fmt = .json then '{' :: text ++ ['}'] else text

/-- `_visible`. -/
def visible (f : Field n) (slot : List Value) : Bool :=
  f.repeated || !f.presence || !slot.isEmpty

/-- `should_redact` for a message and a field, by their names. -/
abbrev Redacts := List Char → List Char → Bool

mutual

/-- `walk_message`, field by field. -/
def walkFields (redact : Redacts) (fmt : Format) (t : Fin n) (indent : Nat) (first : Bool) :
    List (Field n) → List (List Value) → List Char
  | _, [] => []
  | [], _ :: _ => []
  | f :: fields, slot :: slots =>
    if visible f slot then
      (if fmt = .json ∧ first = false then [','] else []) ++ walkField redact fmt t indent f slot ++
        walkFields redact fmt t indent false fields slots
    else walkFields redact fmt t indent first fields slots

/-- `walk_field`, and `walk_map` for a map that is not redacted. -/
def walkField (redact : Redacts) (fmt : Format) (t : Fin n) (indent : Nat) (f : Field n) :
    List Value → List Char
  | [] =>
    if redact (P.desc t).name f.name then redactedField fmt indent f.name
    else if P.isMap f then emptyField fmt indent '{' '}' f
    else if f.repeated then emptyField fmt indent '[' ']' f
    else singularField fmt indent f (scalarValue F fmt f.type f.type.default)
  | v :: vs =>
    if redact (P.desc t).name f.name then redactedField fmt indent f.name
    else if P.isMap f then
      openField fmt indent '{' f ++ walkEntry redact fmt indent true f v ++
        walkEntries redact fmt indent f vs ++ closeField fmt '}'
    else if f.repeated then
      openField fmt indent '[' f ++
        listItem fmt indent true f (walkValue redact fmt (deeper fmt indent 4) f.type v) ++
        walkItems redact fmt indent f vs ++ closeField fmt ']'
    else singularField fmt indent f (walkValue redact fmt (deeper fmt indent 2) f.type v)

def walkEntries (redact : Redacts) (fmt : Format) (indent : Nat) (f : Field n) :
    List Value → List Char
  | [] => []
  | v :: vs => walkEntry redact fmt indent false f v ++ walkEntries redact fmt indent f vs

/-- One entry of `walk_map`. -/
def walkEntry (redact : Redacts) (fmt : Format) (indent : Nat) (first : Bool) (f : Field n) :
    Value → List Char
  | .message [key, value] =>
    match f.type.messageType?.map fun s => (P.desc s).fields with
    | some [kf, vf] =>
      mapItem F fmt indent first f kf vf (scalarOf kf key)
        (walkEntryValue redact fmt (deeper fmt indent 4) vf value)
    | _ => []
  | _ => []

def walkEntryValue (redact : Redacts) (fmt : Format) (indent : Nat) (vf : Field n) :
    List Value → List Char
  | [] => if vf.type.isMessage then braced fmt [] else scalarValue F fmt vf.type vf.type.default
  | v :: _ => walkValue redact fmt indent vf.type v

def walkItems (redact : Redacts) (fmt : Format) (indent : Nat) (f : Field n) :
    List Value → List Char
  | [] => []
  | v :: vs =>
    listItem fmt indent false f (walkValue redact fmt (deeper fmt indent 4) f.type v) ++
      walkItems redact fmt indent f vs

/-- A scalar, or a message within its braces. -/
def walkValue (redact : Redacts) (fmt : Format) (indent : Nat) (ty : CppType n) :
    Value → List Char
  | .scalar x => scalarValue F fmt ty x
  | .message slots =>
    match ty.messageType? with
    | some s => braced fmt (walkFields redact fmt s indent true (P.desc s).fields slots)
    | none => []

end

/-- `redacted_to_string`. -/
def redactedToString (redact : Redacts) (fmt : Format) (t : Fin n) (m : Slots) : List Char :=
  let out := braced fmt (walkFields F P redact fmt t 0 true (P.desc t).fields m)
  match fmt with
  | .json => out
  | .xml => tagged (P.desc t).name out
  | .yaml => if out = [] then ['{', '}', '\n'] else out

/-- `_phi_pairs`: the message and field names of the fields that carry the marker. -/
def phiPairs (marked : Fin n → Field n → Bool) : List (List Char × List Char) :=
  (List.finRange n).flatMap fun t =>
    if (P.desc t).mapEntry then []
    else ((P.desc t).fields.filter (marked t)).map fun f => ((P.desc t).name, f.name)

def isPhi (pairs : List (List Char × List Char)) (message field : List Char) : Bool :=
  (message, field) ∈ pairs

/-- The loop of `tree_has_phi` over the fields of a type; `visit` is the recursive call. -/
def anyPhi (pairs : List (List Char × List Char)) (name : List Char)
    (visit : Fin n → List (Fin n) → Bool × List (Fin n)) :
    List (Field n) → List (Fin n) → Bool × List (Fin n)
  | [], seen => (false, seen)
  | f :: fields, seen =>
    if isPhi pairs name f.name then (true, seen)
    else
      match f.type.messageType? with
      | none => anyPhi pairs name visit fields seen
      | some s =>
        match visit s seen with
        | (true, seen) => (true, seen)
        | (false, seen) => anyPhi pairs name visit fields seen

/-- `tree_has_phi`, with the types seen so far and a bound on the types yet unseen. -/
def treeHasPhiFrom (pairs : List (List Char × List Char)) :
    Nat → Fin n → List (Fin n) → Bool × List (Fin n)
  | 0, _, seen => (false, seen)
  | unseen + 1, t, seen =>
    if t ∈ seen then (false, seen)
    else anyPhi pairs (P.desc t).name (treeHasPhiFrom pairs unseen) (P.desc t).fields (seen ++ [t])

def treeHasPhi (pairs : List (List Char × List Char)) (t : Fin n) : Bool :=
  (treeHasPhiFrom P pairs n t []).1

def shouldRedact (enabled : Bool) (pairs : List (List Char × List Char)) : Redacts :=
  fun message field => enabled && isPhi pairs message field

/-- `to_string`; the JSON of a message without `phi` fields is left to protobuf's own printer. -/
def toString (toJson : Lang → Fin n → Slots → List Char) (lang : Lang) (enabled : Bool)
    (pairs : List (List Char × List Char)) (fmt : Format) (t : Fin n) (m : Slots) : List Char :=
  if enabled && treeHasPhi P pairs t then
    redactedToString F P (shouldRedact enabled pairs) fmt t m
  else
    match fmt with
    | .xml => toXml F P t m
    | .yaml => toYaml F P t m
    | .json => toJson lang t m

end Harpia
