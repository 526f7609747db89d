import Harpia.YamlWriter

namespace Harpia

open Text Reflection

def escapeChar : Char → List Char
  | '&' => ['&', 'a', 'm', 'p', ';']
  | '<' => ['&', 'l', 't', ';']
  | '>' => ['&', 'g', 't', ';']
  | '"' => ['&', 'q', 'u', 'o', 't', ';']
  | '\'' => ['&', 'a', 'p', 'o', 's', ';']
  | c => [c]

def escape (s : List Char) : List Char := s.flatMap escapeChar

def tagged (tag : List Char) (content : List Char) : List Char :=
  '<' :: tag ++ '>' :: content ++ '<' :: '/' :: tag ++ ['>']

variable {n : Nat} (F : FloatText) (P : Pool n)

def xmlText (ty : CppType n) : Scalar → List Char
  | .text s => escape s
  | x => scalarText F ty x

namespace Xml

mutual

/-- `write_message`, field by field; the entries of a map are its elements. -/
def writeFields : List (Field n) → List (List Value) → List Char
  | _, [] => []
  | [], _ :: _ => []
  | f :: fields, slot :: slots => writeField f slot ++ writeFields fields slots

def writeField (f : Field n) : List Value → List Char
  | [] => if f.repeated || f.presence then [] else tagged f.name (xmlText F f.type f.type.default)
  | v :: vs => tagged f.name (writeValue f.type v) ++ if f.repeated then writeItems f vs else []

def writeItems (f : Field n) : List Value → List Char
  | [] => []
  | v :: vs => tagged f.name (writeValue f.type v) ++ writeItems f vs

def writeValue (ty : CppType n) : Value → List Char
  | .scalar x => xmlText F ty x
  | .message slots =>
    match ty.messageType? with
    | some s => writeFields (P.desc s).fields slots
    | none => []

end

end Xml

/-- `to_xml`. -/
def toXml (t : Fin n) (m : Slots) : List Char :=
  tagged (P.desc t).name (Xml.writeFields F P (P.desc t).fields m)

end Harpia
