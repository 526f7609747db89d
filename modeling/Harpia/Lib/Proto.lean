import Harpia.Lib.Dict
import Mathlib.Data.Option.Defs

namespace Proto

inductive Scalar
  | int (n : Int)
  | bool (b : Bool)
  | float (bits : UInt64)
  | text (s : String)
deriving DecidableEq, Repr

/-- What a field that is set holds. -/
inductive Content (α : Type)
  | scalar (x : Scalar)
  | map (entries : Dict Scalar Scalar)
  | list (items : List Scalar)
  | sub (m : α)
  | elements (ms : List α)

/-- A message: its set fields by name. -/
inductive Msg
  | mk (fields : List (String × Content Msg))

namespace Msg

def fields : Msg → List (String × Content Msg)
  | mk fields => fields

def empty : Msg := mk []

def get? (m : Msg) (name : String) : Option (Content Msg) := m.fields.lookup name

/-- Sets a field, or clears it. -/
def set (m : Msg) (name : String) (c : Option (Content Msg)) : Msg :=
  mk ((c.toList.map fun c => (name, c)) ++ m.fields.filter fun e => e.1 ≠ name)

theorem lookup_filter_ne (fields : List (String × Content Msg)) (name n : String) :
    (fields.filter fun e => e.1 ≠ name).lookup n = if n = name then none else fields.lookup n := by
  induction fields with
  | nil => simp
  | cons e fields ih =>
    obtain ⟨k, c⟩ := e
    by_cases hk : k = name
    · have dropped : ((k, c) :: fields).filter (fun e => e.1 ≠ name) =
          fields.filter fun e => e.1 ≠ name := by simp [hk]
      rw [dropped, ih]
      by_cases hn : n = name
      · simp [hn]
      · have hne : n ≠ k := hk ▸ hn
        simp [hn, List.lookup_cons, beq_eq_false_iff_ne.mpr hne]
    · have kept : ((k, c) :: fields).filter (fun e => e.1 ≠ name) =
          (k, c) :: fields.filter fun e => e.1 ≠ name := by simp [hk]
      rw [kept, List.lookup_cons, ih, List.lookup_cons]
      by_cases hn : n = k
      · have hne : n ≠ name := hn ▸ hk
        simp [hn, hk]
      · simp [beq_eq_false_iff_ne.mpr hn]

@[simp] theorem get?_set (m : Msg) (name n : String) (c : Option (Content Msg)) :
    (m.set name c).get? n = if n = name then c else m.get? n := by
  cases c with
  | none => simpa [set, get?, fields] using lookup_filter_ne m.fields name n
  | some c =>
    have head : (m.set name (some c)).get? n =
        ((name, c) :: m.fields.filter fun e => e.1 ≠ name).lookup n := rfl
    rw [head, List.lookup_cons, lookup_filter_ne]
    by_cases hn : n = name
    · simp [hn]
    · simp [hn, beq_eq_false_iff_ne.mpr hn, get?]

@[simp] theorem get?_empty (n : String) : empty.get? n = none := rfl

def scalar? (m : Msg) (name : String) : Option Scalar :=
  match m.get? name with
  | some (.scalar x) => some x
  | _ => none

def map (m : Msg) (name : String) : Dict Scalar Scalar :=
  match m.get? name with
  | some (.map entries) => entries
  | _ => Dict.empty

def list (m : Msg) (name : String) : List Scalar :=
  match m.get? name with
  | some (.list items) => items
  | _ => []

def sub? (m : Msg) (name : String) : Option Msg :=
  match m.get? name with
  | some (.sub c) => some c
  | _ => none

def elements (m : Msg) (name : String) : List Msg :=
  match m.get? name with
  | some (.elements ms) => ms
  | _ => []

/-- The message below some fields, if each of them is set. -/
def at? : Msg → List String → Option Msg
  | m, [] => some m
  | m, name :: path => (m.sub? name).bind fun c => c.at? path

/-- Below a field that is not set stands the default message. -/
def inner (m : Msg) (path : List String) : Msg := (m.at? path).getD empty

/-- Changes the message below some fields, which are then set. -/
def modify (f : Msg → Option Msg) : List String → Msg → Option Msg
  | [], m => f m
  | name :: path, m => (((m.sub? name).getD empty).modify f path).map fun c =>
    m.set name (some (.sub c))

end Msg

end Proto
