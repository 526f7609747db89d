import Harpia.Lib.Markup
import Harpia.XmlWriter
import Harpia.YamlReader

namespace Harpia

open Text Reflection Markup

variable {n : Nat} (F : FloatText) (P : Pool n) (lang : Lang)

/-- `GetText()`, and `text` of an element tree: the characters before the first element, if there
are any. -/
def getText (content : List Item) : Option (List Char) :=
  if leadingText content = [] then none else some (leadingText content)

/-- `parse_scalar` on the text of an element. An element without text is read as an empty one,
except that it names no value of an enum. -/
def scalarOfText (ty : CppType n) : Option (List Char) → Option Scalar
  | some cs => parseScalar F lang ty cs
  | none =>
    match ty with
    | .enum _ => none
    | ty => parseScalar F lang ty []

/-- `find`: the content of the first element of a name. -/
def findElement (name : List Char) : List Item → Option (List Item)
  | .element tag content :: items => if tag = name then some content else findElement name items
  | .char _ :: items => findElement name items
  | [] => none

/-- The text that `_read_message` takes for the key or the value of a map entry. -/
def entryText (name : List Char) (content : List Item) : Option (List Char) :=
  (findElement name content).bind getText

/-- A scalar value of a map entry; one that the type does not have becomes its default. -/
def entryScalar (f : Field n) (content : List Item) : Value :=
  .scalar ((scalarOfText F lang f.type (entryText f.name content)).getD f.type.default)

/-- `set_scalar`, and the setters and adders that the C++ reader calls for the label of the field:
a value that the field cannot hold is left out. -/
def storeText (f : Field n) (i : Nat) (text : Option (List Char)) (m : Slots) : Slots :=
  match scalarOfText F lang f.type text with
  | none => m
  | some x => if f.repeated then m.modify i (· ++ [.scalar x]) else m.set i [.scalar x]

namespace Xml

mutual

/-- `read_message`: the elements within a message are read in their order. -/
def readMessage (t : Fin n) : List Item → Slots → Slots
  | [], m => m
  | x :: items, m => readMessage t items (readChild t x m)

/-- An element within a message. The C++ reader takes an entry of a map for an element of a
repeated field, the Python reader looks for its key and its value. -/
def readChild (t : Fin n) : Item → Slots → Slots
  | .char _, m => m
  | .element name content, m =>
    match (P.desc t).find? name with
    | none => m
    | some (i, f) =>
      match f.type.messageType? with
      | none => storeText F lang f i (getText content) m
      | some s =>
        match lang, (P.desc s).mapEntry, (P.desc s).fields with
        | .python, true, [kf, vf] =>
          let value := match vf.type.messageType? with
            | some v => .message (readNamed v vf.name content)
            | none => entryScalar F .python vf content
          m.modify i fun es =>
            putEntry es (.message [[entryScalar F .python kf content], [value]])
        | _, _, _ =>
          if f.repeated then m.modify i (· ++ [.message (readMessage s content (P.new s))])
          else
            m.set i [.message (readMessage s content ((P.mutableMessage f i m).getD (P.new s)))]

/-- The first element of a name, read into a new message. -/
def readNamed (t : Fin n) (name : List Char) : List Item → Slots
  | [] => P.new t
  | x :: items =>
    match readIfNamed t name x with
    | some m => m
    | none => readNamed t name items

def readIfNamed (t : Fin n) (name : List Char) : Item → Option Slots
  | .char _ => none
  | .element tag content => if tag = name then some (readMessage t content (P.new t)) else none

end

end Xml

/-- `from_xml`: a document is merged into a message. -/
def fromXml (parse : List Char → Option Item) (t : Fin n) (text : List Char) (m : Slots) :
    Bool × Slots :=
  match parse text with
  | some (.element _ content) => (true, Xml.readMessage F P lang t content m)
  | _ => (false, m)

end Harpia
