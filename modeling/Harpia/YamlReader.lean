import Harpia.YamlWriter

namespace Harpia

open Text Reflection

/-- A line of the document without its indent and the blanks at its end. -/
structure Ln where
  indent : Nat
  s : List Char
deriving DecidableEq, Repr

def dropReturn (line : List Char) : List Char :=
  if line.getLast? = some '\r' then line.dropLast else line

def dropBlanksRight (cs : List Char) : List Char :=
  (cs.reverse.dropWhile fun c => c = ' ' || c = '\t').reverse

def lineOf (line : List Char) : Option Ln :=
  let line := dropReturn line
  let content := dropBlanksRight (line.dropWhile (· = ' '))
  if content = [] ∨ content = ['-', '-', '-'] ∨ content = ['.', '.', '.'] then none
  else some ⟨(line.takeWhile (· = ' ')).length, content⟩

/-- `tokenize`. -/
def tokenize (text : List Char) : List Ln := (text.splitOn '\n').filterMap lineOf

def unescape : List Char → List Char
  | '\\' :: c :: cs => (if c = 'n' then '\n' else if c = 't' then '\t' else c) :: unescape cs
  | c :: cs => c :: unescape cs
  | [] => []

/-- `unquote`: the last character between the quotes is never taken for an escape. -/
def unquote (cs : List Char) : List Char :=
  if 2 ≤ cs.length ∧ cs.head? = some '"' ∧ cs.getLast? = some '"' then
    unescape (cs.drop 1).dropLast
  else cs

/-- What a quoted key still holds after its first quote, and what follows it. -/
def scanQuoted : List Char → List Char × List Char
  | '\\' :: c :: cs => ('\\' :: c :: (scanQuoted cs).1, (scanQuoted cs).2)
  | '"' :: cs => (['"'], cs)
  | c :: cs => (c :: (scanQuoted cs).1, (scanQuoted cs).2)
  | [] => ([], [])

def afterColon (cs : List Char) : List Char :=
  ((cs.dropWhile (· ≠ ':')).drop 1).dropWhile (· = ' ')

/-- `split_kv`; there is a value where the second text is not empty. -/
def splitKv : List Char → List Char × List Char
  | '"' :: cs => ('"' :: (scanQuoted cs).1, afterColon (scanQuoted cs).2)
  | cs => (cs.takeWhile (· ≠ ':'), afterColon cs)

def isSeqItem : List Char → Bool
  | ['-'] => true
  | '-' :: ' ' :: _ => true
  | _ => false

/-- `skip_block`. -/
def skipBlock (indent : Nat) (lines : List Ln) : List Ln :=
  lines.dropWhile fun l => indent < l.indent

def isFlow (val : List Char) : Bool := val = ['{', '}'] || val = ['[', ']']

/-- A block that is being read, with its column: the fields of a message, the elements of a
field, or the entries of a map field. -/
inductive Block (n : Nat)
  | mapping (indent : Nat) (t : Fin n)
  | sequence (indent : Nat) (i : Nat) (f : Field n)
  | map (indent : Nat) (i : Nat) (f : Field n)

def Block.indent {n : Nat} : Block n → Nat
  | .mapping indent _ => indent
  | .sequence indent _ _ => indent
  | .map indent _ _ => indent

/-- The condition of the loops that read a block. -/
def Block.holds {n : Nat} (b : Block n) (l : Ln) : Bool :=
  l.indent = b.indent &&
    match b with
    | .sequence .. => isSeqItem l.s
    | _ => !isSeqItem l.s

/-- The lines still unread, the message that is filled, and the number of fields found. -/
structure ReadState where
  lines : List Ln
  msg : Slots
  hits : Nat

/-- An accessor was called on a field of another label, the Python reader raised a `ValueError`, or
the bound on the calls was too low. -/
inductive Fault
  | accessor
  | value
  | exhausted
deriving DecidableEq, Repr

abbrev Read (n : Nat) := Block n → ReadState → Except Fault ReadState

variable {n : Nat}

def orAbort {α : Type} : Option α → Except Fault α
  | some a => .ok a
  | none => .error .accessor

variable (F : FloatText) (P : Pool n) (lang : Lang)

/-- `set_scalar` on a message, and whether it counts: a value that the field cannot hold is left
out. -/
def storeScalar (f : Field n) (i : Nat) (raw : List Char) (repeated : Bool) (m : Slots) :
    Except Fault (Slots × Nat) :=
  if lang = .python ∧ overlong f.type (unquote raw) then .error .value
  else
    match parseScalar F lang f.type (unquote raw) with
    | none => .ok (m, 0)
    | some x =>
      (orAbort (if repeated then addValue f.type.kind f i (.scalar x) m
        else setValue f.type.kind f i (.scalar x) m)).map fun m => (m, 1)

def setScalar (f : Field n) (i : Nat) (raw : List Char) (repeated : Bool) (st : ReadState) :
    Except Fault ReadState :=
  (storeScalar F lang f i raw repeated st.msg).map fun r =>
    { st with msg := r.1, hits := st.hits + r.2 }

/-- Reads a block into the message that a singular field holds. -/
def readSub (rec : Read n) (b : Block n) (f : Field n) (i : Nat) (st : ReadState) :
    Except Fault ReadState := do
  let sub ← orAbort (P.mutableMessage f i st.msg)
  let r ← rec b { st with msg := sub }
  .ok { r with msg := st.msg.set i [.message r.msg] }

/-- `apply_entry`; the state stands behind the line `s`. -/
def applyEntry (rec : Read n) (indent : Nat) (t : Fin n) (s : List Char) (st : ReadState) :
    Except Fault ReadState :=
  let (key, val) := splitKv s
  match (P.desc t).find? (unquote key) with
  | none => .ok (if val = [] then { st with lines := skipBlock indent st.lines } else st)
  | some (i, f) =>
    if val ≠ [] then
      if isFlow val then .ok st else setScalar F lang f i val f.repeated st
    else
      match st.lines with
      | [] => .ok st
      | child :: _ =>
        if child.indent ≤ indent then .ok st
        else if isSeqItem child.s then rec (.sequence child.indent i f) st
        else if P.isMap f then rec (.map child.indent i f) st
        else
          match f.singleMessage? with
          | some s => readSub P rec (.mapping child.indent s) f i st
          | none => .ok { st with lines := skipBlock child.indent st.lines }

/-- The field that stands on the line of the dash. Only the Python reader asks for a singular
field before it reads a mapping into it. -/
def firstEntry (rec : Read n) (indent : Nat) (t : Fin n) (rest : List Char) (st : ReadState) :
    Except Fault ReadState :=
  if rest = [] ∨ rest = ['{', '}'] then .ok st
  else
    let (key, val) := splitKv rest
    match (P.desc t).find? (unquote key) with
    | none => .ok st
    | some (i, f) =>
      if val ≠ [] then
        if isFlow val then .ok st else setScalar F lang f i val f.repeated st
      else
        match st.lines with
        | [] => .ok st
        | child :: _ =>
          if child.indent ≤ indent + 2 then .ok st
          else if isSeqItem child.s then rec (.sequence child.indent i f) st
          else
            match if lang = .python then f.singleMessage? else f.type.messageType? with
            | some s => readSub P rec (.mapping child.indent s) f i st
            | none => .ok { st with lines := skipBlock (indent + 2) st.lines }

/-- The text of an element, behind its dash. -/
def itemText (s : List Char) : List Char := (s.drop 1).dropWhile (· = ' ')

/-- An element of `read_sequence`, from the line of its dash. -/
def readItem (rec : Read n) (indent : Nat) (f : Field n) (i : Nat) (s : List Char)
    (st : ReadState) : Except Fault ReadState :=
  let rest := itemText s
  if lang = .python ∧ P.isMap f then .ok { st with lines := skipBlock indent st.lines }
  else
    match f.type.messageType? with
    | none =>
      if rest = [] ∨ rest = ['[', ']'] then .ok st
      else setScalar F lang f i rest (lang = .cpp || f.repeated) st
    | some t => do
      let msg ← orAbort (addValue .message f i (.message (P.new t)) st.msg)
      let item ← firstEntry F P lang rec indent t rest
        { st with msg := P.new t, hits := st.hits + 1 }
      let item ← rec (.mapping (indent + 2) t) item
      .ok { item with msg := msg.modify i fun vs => vs.dropLast ++ [.message item.msg] }

/-- The key of an entry. -/
def entryKey : Value → Option Scalar
  | .message ((.scalar k :: _) :: _) => some k
  | _ => none

/-- `container[key] = ...`. -/
def putEntry (entries : List Value) (e : Value) : List Value :=
  if entries.any fun o => entryKey o = entryKey e then
    entries.map fun o => if entryKey o = entryKey e then e else o
  else entries ++ [e]

theorem putEntry_new {es : List Value} {e : Value} (h : entryKey e ∉ es.map entryKey) :
    putEntry es e = es ++ [e] := by
  have absent : (es.any fun o => entryKey o = entryKey e) = false := by
    rw [List.any_eq_false]
    intro o ho he
    exact h (List.mem_map.mpr ⟨o, ho, by simpa using he⟩)
  simp [putEntry, absent]

/-- The value of an entry of `read_map`, after its key. The Python reader starts from an empty
message. -/
def readEntryValue (rec : Read n) (indent : Nat) (vf : Field n) (val : List Char)
    (st : ReadState) : Except Fault ReadState :=
  if val ≠ [] then
    if isFlow val then .ok st
    else (storeScalar F lang vf 1 val false st.msg).map fun r => { st with msg := r.1 }
  else
    match st.lines, vf.type.messageType? with
    | child :: _, some v =>
      if indent < child.indent then readSub P rec (.mapping child.indent v) vf 1 st else .ok st
    | _, _ => .ok st

def clearValue (vf : Field n) (e : Slots) : Slots :=
  match lang, vf.type.messageType? with
  | .python, some v => e.set 1 [.message (P.new v)]
  | _, _ => e

/-- An entry of `read_map`: an entry has its key first and then its value. -/
def readEntry (rec : Read n) (indent : Nat) (f : Field n) (i : Nat) (s : List Char)
    (st : ReadState) : Except Fault ReadState :=
  match f.type.messageType? with
  | none => .error .accessor
  | some t =>
    match (P.desc t).fields with
    | [kf, vf] => do
      let msg ← orAbort (addValue .message f i (.message (P.new t)) st.msg)
      let (key, val) := splitKv s
      let e ← storeScalar F lang kf 0 key false (P.new t)
      let r ← readEntryValue F P lang rec indent vf val
        { st with msg := clearValue P lang vf e.1, hits := st.hits + 1 }
      let msg := match lang with
        | .cpp => msg.modify i fun es => es.dropLast ++ [.message r.msg]
        | .python => st.msg.modify i fun es => putEntry es (.message r.msg)
      .ok { r with msg := msg }
    | _ => .ok st

/-- What a block does with a line that it holds; the state stands behind the line. -/
def readLine (rec : Read n) (b : Block n) (s : List Char) (st : ReadState) :
    Except Fault ReadState :=
  match b with
  | .mapping indent t => applyEntry F P lang rec indent t s st
  | .sequence indent i f => readItem F P lang rec indent f i s st
  | .map indent i f => readEntry F P lang rec indent f i s st

/-- One round of the loops of `read_mapping`, `read_sequence` and `read_map`, and then the rest of
the loop. -/
def readStep (rec : Read n) (b : Block n) (st : ReadState) : Except Fault ReadState :=
  match st.lines with
  | [] => .ok st
  | l :: lines =>
    if b.holds l then readLine F P lang rec b l.s { st with lines := lines } >>= rec b
    else .ok st

/-- The readers, to a bound on the depth of the calls. -/
def read : Nat → Read n
  | 0 => fun _ _ => .error .exhausted
  | bound + 1 => readStep F P lang (read bound)

/-- `from_yaml`: the text of a document is merged into a message. -/
def fromYaml (t : Fin n) (text : List Char) (m : Slots) : Except Fault (Bool × Slots) :=
  let lines := tokenize text
  if lines = [⟨0, ['{', '}']⟩] then .ok (true, m)
  else
    (read F P lang (lines.length + 1) (.mapping 0 t) ⟨lines, m, 0⟩).map fun r =>
      (decide (lines = [] ∨ r.hits ≠ 0), r.msg)

end Harpia
