import Harpia.Lib.Text
import Mathlib.Data.List.Nodup

namespace Reflection

/-- A name as the schema compiler reads them. -/
def isName (cs : List Char) : Bool := !cs.isEmpty && cs.all Text.isWord

/-- The values of an enum, by name; two names may have one number. -/
structure EnumType where
  name : List Char
  values : List (List Char × Int)
  names_nodup : (values.map Prod.fst).Nodup := by decide
  names_word : ∀ v ∈ values, isName v.1 := by decide
deriving DecidableEq

/-- `FieldDescriptor::CppType`, with the type that an enum or a message field refers to. The
message types of a pool are numbered, so types may refer to themselves and to each other. -/
inductive CppType (n : Nat)
  | int32
  | int64
  | uint32
  | uint64
  | double
  | float
  | bool
  | enum (e : EnumType)
  | string
  | message (t : Fin n)
deriving DecidableEq

structure Field (n : Nat) where
  name : List Char
  type : CppType n
  repeated : Bool := false
  presence : Bool := false
deriving DecidableEq

structure Descriptor (n : Nat) where
  name : List Char
  fields : List (Field n)
  mapEntry : Bool := false
deriving DecidableEq

variable {n : Nat}

/-- The accessors of a field, by the type of its values. -/
inductive Kind
  | int32
  | int64
  | uint32
  | uint64
  | double
  | float
  | bool
  | enum
  | string
  | message
deriving DecidableEq, Repr

def CppType.kind : CppType n → Kind
  | .int32 => .int32
  | .int64 => .int64
  | .uint32 => .uint32
  | .uint64 => .uint64
  | .double => .double
  | .float => .float
  | .bool => .bool
  | .enum _ => .enum
  | .string => .string
  | .message _ => .message

def CppType.messageType? : CppType n → Option (Fin n)
  | .message t => some t
  | _ => none

theorem CppType.eq_message {ty : CppType n} {t : Fin n} (h : ty.messageType? = some t) :
    ty = .message t := by
  cases ty with
  | message s => rw [Option.some.inj h]
  | _ => exact absurd h (by simp [messageType?])

/-- The type of a singular message field. -/
def Field.singleMessage? (f : Field n) : Option (Fin n) :=
  if f.repeated then none else f.type.messageType?

theorem Field.singleMessage?_eq_some {f : Field n} {s : Fin n} (h : f.singleMessage? = some s) :
    f.type.messageType? = some s ∧ f.repeated = false := by
  unfold singleMessage? at h
  split at h
  · simp at h
  next hr => exact ⟨h, by simpa using hr⟩

def CppType.isMessage (ty : CppType n) : Bool := ty.messageType?.isSome

/-- What the compiler makes of a `map` field: a key and a value, each singular. -/
def Descriptor.isEntry (d : Descriptor n) : Bool :=
  match d.fields with
  | [k, v] =>
    k.name = ['k', 'e', 'y'] && v.name = ['v', 'a', 'l', 'u', 'e'] && !k.repeated && !v.repeated &&
      !k.type.isMessage
  | _ => false

/-- The message types of a program, as a proto3 compiler accepts them. -/
structure Pool (n : Nat) where
  desc : Fin n → Descriptor n
  names_word : ∀ t, ∀ f ∈ (desc t).fields, isName f.name
  names_nodup : ∀ t, ((desc t).fields.map Field.name).Nodup
  presence_repeated : ∀ t, ∀ f ∈ (desc t).fields, f.repeated → f.presence = false
  presence_message : ∀ t, ∀ f ∈ (desc t).fields, f.repeated = false → f.type.isMessage →
    f.presence
  entry : ∀ t, (desc t).mapEntry → (desc t).isEntry
  map_repeated : ∀ t, ∀ f ∈ (desc t).fields, ∀ s, f.type = .message s → (desc s).mapEntry →
    f.repeated

/-- `is_map()`. -/
def Pool.isMap (P : Pool n) (f : Field n) : Bool :=
  match f.type with
  | .message s => (P.desc s).mapEntry
  | _ => false

theorem Pool.isMap_repeated (P : Pool n) {t : Fin n} {f : Field n} (hf : f ∈ (P.desc t).fields)
    (hm : P.isMap f) : f.repeated := by
  unfold isMap at hm
  split at hm
  next s hs => exact P.map_repeated t f hf s hs hm
  next => simp at hm

theorem Pool.isMap_message {P : Pool n} {f : Field n} (hm : P.isMap f) :
    ∃ s, f.type.messageType? = some s := by
  unfold isMap at hm
  split at hm
  next s hs => exact ⟨s, by rw [hs]; rfl⟩
  next => simp at hm

theorem notMap_of_notMessage {P : Pool n} {f : Field n} (h : f.type.messageType? = none) :
    P.isMap f = false := by
  by_contra hm
  obtain ⟨s, hs⟩ := Pool.isMap_message (P := P) (by simpa using hm)
  simp [h] at hs

theorem isMap_of_messageType {P : Pool n} {f : Field n} {s : Fin n}
    (hs : f.type.messageType? = some s) : P.isMap f = (P.desc s).mapEntry := by
  rw [Pool.isMap, CppType.eq_message hs]

/-- The two fields of an entry. -/
theorem Pool.isMap_fields {P : Pool n} {f : Field n} {s : Fin n} (hm : P.isMap f)
    (hs : f.type.messageType? = some s) :
    (P.desc s).mapEntry ∧ ∃ kf vf, (P.desc s).fields = [kf, vf] ∧ kf.name = ['k', 'e', 'y'] ∧
      vf.name = ['v', 'a', 'l', 'u', 'e'] ∧ kf.repeated = false ∧ vf.repeated = false ∧
      kf.type.isMessage = false := by
  have hentry : (P.desc s).mapEntry := by
    rwa [isMap, CppType.eq_message hs] at hm
  refine ⟨hentry, ?_⟩
  have shape := P.entry s hentry
  unfold Descriptor.isEntry at shape
  split at shape
  next k v hkv =>
    simp only [Bool.and_eq_true, decide_eq_true_eq, Bool.not_eq_true'] at shape
    obtain ⟨⟨⟨⟨hk, hv⟩, hkr⟩, hvr⟩, hkm⟩ := shape
    exact ⟨k, v, hkv, hk, hv, hkr, hvr, hkm⟩
  next => simp at shape

inductive Scalar
  | int (n : Int)
  | bool (b : Bool)
  | float (bits : UInt64)
  | text (s : List Char)
deriving DecidableEq, Repr

/-- A value of a field. A message holds the values of each of its fields, in the order of its
descriptor: a singular field has one when it is set, a map has its entries. -/
inductive Value
  | scalar (x : Scalar)
  | message (slots : List (List Value))

abbrev Slots := List (List Value)

/-- A property of every value, if a message has it whenever all that it holds does. -/
theorem Value.induct {motive : Value → Prop} (scalar : ∀ x, motive (.scalar x))
    (message : ∀ slots, (∀ slot ∈ slots, ∀ v ∈ slot, motive v) → motive (.message slots))
    (v : Value) : motive v := by
  refine @Value.rec motive (fun slots => ∀ slot ∈ slots, ∀ v ∈ slot, motive v)
    (fun slot => ∀ v ∈ slot, motive v) scalar message ?_ ?_ ?_ ?_ v
  · intro slot h
    exact absurd h List.not_mem_nil
  · intro slot slots here below
    exact List.forall_mem_cons.mpr ⟨here, below⟩
  · intro v h
    exact absurd h List.not_mem_nil
  · intro v vs here below
    exact List.forall_mem_cons.mpr ⟨here, below⟩

/-- The default of a scalar type. An enum's is its first value. -/
def CppType.default : CppType n → Scalar
  | .double | .float => .float 0
  | .bool => .bool false
  | .string => .text []
  | .enum e => .int ((e.values.head?.map Prod.snd).getD 0)
  | _ => .int 0

/-- What a new message holds of a field. -/
def Field.initial (f : Field n) : List Value :=
  if f.repeated || f.presence then [] else [.scalar f.type.default]

/-- A new message of a type. -/
def Pool.new (P : Pool n) (t : Fin n) : Slots := (P.desc t).fields.map Field.initial

/-- `SetInt32` and its like; the process is stopped where the field is repeated or has another
type. -/
def setValue (kind : Kind) (f : Field n) (i : Nat) (v : Value) (m : Slots) : Option Slots :=
  if f.repeated = false ∧ f.type.kind = kind then some (m.set i [v]) else none

/-- `AddInt32` and its like, and `AddMessage`. -/
def addValue (kind : Kind) (f : Field n) (i : Nat) (v : Value) (m : Slots) : Option Slots :=
  if f.repeated ∧ f.type.kind = kind then some (m.modify i (· ++ [v])) else none

/-- `MutableMessage`: the message that a field holds, or a new one. -/
def Pool.mutableMessage (P : Pool n) (f : Field n) (i : Nat) (m : Slots) : Option Slots :=
  match f.type.messageType? with
  | some s =>
    if f.repeated then none
    else
      match m[i]? with
      | some (.message sub :: _) => some sub
      | _ => some (P.new s)
  | none => none

/-- `FindFieldByName`, with the field's place in the descriptor. -/
def Descriptor.find? (d : Descriptor n) (name : List Char) : Option (Nat × Field n) :=
  (d.fields.findIdx? fun f => f.name = name).bind fun i => d.fields[i]?.map fun f => (i, f)

theorem Descriptor.find?_mem {d : Descriptor n} {name : List Char} {i : Nat} {f : Field n}
    (h : d.find? name = some (i, f)) : d.fields[i]? = some f := by
  obtain ⟨j, -, hf⟩ := Option.bind_eq_some_iff.mp h
  obtain ⟨f', hf', he⟩ := Option.map_eq_some_iff.mp hf
  obtain ⟨rfl, rfl⟩ := Prod.mk.inj he
  exact hf'

theorem Pool.find?_of_not_isName (P : Pool n) (t : Fin n) {name : List Char}
    (h : isName name = false) : (P.desc t).find? name = none := by
  have missing : ((P.desc t).fields.findIdx? fun f => f.name = name) = none := by
    refine List.findIdx?_eq_none_iff.mpr fun f hf => ?_
    have word := P.names_word t f hf
    simp only [decide_eq_false_iff_not]
    rintro rfl
    simp [h] at word
  simp [Descriptor.find?, missing]

theorem Pool.find?_name (P : Pool n) (t : Fin n) {i : Nat} {f : Field n}
    (h : (P.desc t).fields[i]? = some f) : (P.desc t).find? f.name = some (i, f) := by
  have found : ((P.desc t).fields.findIdx? fun g => g.name = f.name) = some i := by
    obtain ⟨hi, hf⟩ := List.getElem?_eq_some_iff.mp h
    refine List.findIdx?_eq_some_iff_getElem.mpr ⟨hi, by simp [hf], fun j hj hs => ?_⟩
    have hl : j < ((P.desc t).fields.map Field.name).length := by
      rw [List.length_map]
      omega
    have hjl : j < (P.desc t).fields.length := by omega
    have same : ((P.desc t).fields.map Field.name)[j]? = ((P.desc t).fields.map Field.name)[i]? := by
      rw [List.getElem?_map, List.getElem?_map, List.getElem?_eq_getElem hi,
        List.getElem?_eq_getElem hjl, Option.map_some, Option.map_some, hf,
        decide_eq_true_eq.mp hs]
    have equal := (List.getElem?_inj hl (P.names_nodup t)).mp same
    omega
  simp [Descriptor.find?, found, h]

end Reflection
