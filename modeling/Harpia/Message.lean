import Harpia.Lib.Dict
import Harpia.Variable

namespace Harpia

open Text

/-- A parsed message or enum. `user` are the declared fields; an empty `tableName` means the
message owns no table. -/
structure Message where
  name : String
  user : List Variable
  tableName : String := ""
  isEnum : Bool := false
  isAutokey : Bool := false
deriving DecidableEq, Repr

def Message.vars (m : Message) : List Variable := withHidden m.user

inductive TypeKind
  | enum | table | message
deriving DecidableEq, Repr

def Message.kind (m : Message) : TypeKind :=
  if m.isEnum then .enum else if m.tableName ≠ "" then .table else .message

abbrev Types := Dict String (TypeKind × Message)

def typeRegistry (messages : List Message) : Types :=
  Dict.ofPairs (messages.map fun m => (m.name, (m.kind, m)))

/-- `_lookup`: `none` for an unknown type name. -/
def lookupType (types : Types) (name : String) : Option (TypeKind × Message) := types.get? name

def isHidden (name : String) : Bool := startsWith name "HARPIA_"

/-- The fields an embed or a repeated element contributes: hidden ones stay out. -/
def Message.visible (m : Message) : List Variable := m.vars.filter fun v => !isHidden v.name

/-- The table-less message a singular composed field embeds. -/
def embedTarget (types : Types) (v : Variable) : Option Message :=
  if v.typeMap = [] ∧ .REPETEABLE ∉ v.modifiers then
    match v.type with
    | .ID target =>
      match lookupType types target with
      | some (.message, m) => some m
      | _ => none
    | _ => none
  else none

/-- A schema the generator accepts: declared names are unique, no declared field takes a hidden
name, table names are identifiers, and table-less messages are not embedded in themselves (a composed type is declared before
it is used). `rank` is any such order of declaration. -/
structure Schema where
  messages : List Message
  names_nodup : (messages.map Message.name).Nodup
  names_allowed : ∀ m ∈ messages, ∀ v ∈ m.user, isReservedHiddenName v.name = false
  tables_identifier : ∀ m ∈ messages, m.tableName ≠ "" → isIdentifier m.tableName
  rank : Message → Nat
  rank_lt : ∀ m ∈ messages, rank m < messages.length
  declared_before : ∀ m ∈ messages, ∀ v ∈ m.vars, ∀ m' ∈ embedTarget (typeRegistry messages) v,
    rank m' < rank m

def Schema.types (S : Schema) : Types := typeRegistry S.messages

theorem typeRegistry_mem {messages : List Message} {name : String} {k : TypeKind} {m : Message}
    (h : lookupType (typeRegistry messages) name = some (k, m)) :
    m ∈ messages ∧ m.name = name ∧ m.kind = k := by
  obtain ⟨m', hm, he⟩ := List.mem_map.mp (Dict.mem_of_get?_ofPairs h)
  simp only [Prod.mk.injEq] at he
  obtain ⟨rfl, rfl, rfl⟩ := he
  exact ⟨hm, rfl, rfl⟩

theorem embedTarget_eq_some {types : Types} {v : Variable} {m : Message}
    (h : embedTarget types v = some m) :
    v.typeMap = [] ∧ .REPETEABLE ∉ v.modifiers ∧
      ∃ target, v.type = .ID target ∧ lookupType types target = some (.message, m) := by
  unfold embedTarget at h
  split at h
  next plain =>
    refine ⟨plain.1, plain.2, ?_⟩
    split at h
    next target ht =>
      refine ⟨target, ht, ?_⟩
      split at h
      next hl => cases Option.some.inj h; exact hl
      next => simp at h
    next => simp at h
  next => simp at h

end Harpia
