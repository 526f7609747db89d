import Harpia.Lib.Enumerate
import Harpia.Model

namespace Harpia

open Text

/-- A singular scalar, enum or foreign-key field. -/
def HasColumn (types : Types) (v : Variable) : Prop :=
  v.typeMap = [] ∧ .REPETEABLE ∉ v.modifiers ∧
    (isScalarToken v.type ∨
      ∃ target k m, v.type = .ID target ∧ lookupType types target = some (k, m) ∧ k ≠ .message)

/-- A singular composed field whose type is declared nowhere. -/
def Unresolved (types : Types) (v : Variable) : Prop :=
  v.typeMap = [] ∧ .REPETEABLE ∉ v.modifiers ∧
    ∃ target, v.type = .ID target ∧ lookupType types target = none

/-- The columns below a field: `path` are the fields from it down to the one the column is for,
`position` their places inside the embedded messages; `presence` marks the columns that record
whether an embed is there. -/
inductive ColumnOf (types : Types) : Variable → Bool → List Nat → List Variable → Prop
  | own {v : Variable} (h : HasColumn types v) : ColumnOf types v false [] [v]
  | presence {v : Variable} {m : Message} (h : embedTarget types v = some m) :
      ColumnOf types v true [] [v]
  | inner {v w : Variable} {m : Message} {i : Nat} {presence : Bool} {position : List Nat}
      {path : List Variable} (h : embedTarget types v = some m) (hw : m.visible[i]? = some w)
      (hc : ColumnOf types w presence position path) :
      ColumnOf types v presence (i :: position) (v :: path)

def pathWords (path : List Variable) : List (List Char) := path.flatMap fun v => words v.name

/-- The words of a column name, from those of the fields it is for. -/
def columnWords (presence : Bool) (ws : List (List Char)) : List (List Char) :=
  if presence then words "HARPIA_HAS" ++ ws else ws

/-- The main-table columns of a message, by the words of their names. -/
inductive MainColumn (types : Types) (msg : Message) : Bool → List Nat → List (List Char) → Prop
  | field {i : Nat} {v : Variable} {presence : Bool} {position : List Nat} {path : List Variable}
      (hv : msg.vars[i]? = some v) (hc : ColumnOf types v presence position path) :
      MainColumn types msg presence (i :: position) (columnWords presence (pathWords path))
  | unresolved {i : Nat} {v : Variable} (hv : msg.vars[i]? = some v) (hu : Unresolved types v) :
      MainColumn types msg false [i] (words v.name)

/-- The columns one repetition of a table-less message takes: fields at any depth, each under
its own name. -/
inductive ElementColumn (types : Types) (m : Message) : List Nat → String → Prop
  | mk {i : Nat} {v w : Variable} {position : List Nat} {path : List Variable}
      (hv : m.visible[i]? = some v) (hc : ColumnOf types v false position path)
      (hw : path.getLast? = some w) : ElementColumn types m (i :: position) w.name

/-- A map field with a scalar key and a scalar value. -/
def ScalarMap (v : Variable) : Prop :=
  ∃ key val rest, v.typeMap = key :: val :: rest ∧ isScalarToken key ∧ isScalarToken val

def RepeatedScalar (v : Variable) : Prop :=
  v.typeMap = [] ∧ .REPETEABLE ∈ v.modifiers ∧ isScalarToken v.type

/-- A repeated field over a table, or over a table-less message with something to store. -/
def RepeatedMessage (types : Types) (v : Variable) : Prop :=
  v.typeMap = [] ∧ .REPETEABLE ∈ v.modifiers ∧ ∃ target k m, v.type = .ID target ∧
    lookupType types target = some (k, m) ∧
      (k = .table ∨ k = .message ∧ ∃ position name, ElementColumn types m position name)

/-- The child tables of a message, by the words after the table name. -/
inductive ChildField (types : Types) (msg : Message) :
    Nat × Option Nat → List (List Char) → Prop
  | map {i : Nat} {v : Variable} (hv : msg.vars[i]? = some v) (h : ScalarMap v) :
      ChildField types msg (i, none) (words v.name)
  | repeated {i : Nat} {v : Variable} (hv : msg.vars[i]? = some v)
      (h : RepeatedScalar v ∨ RepeatedMessage types v) :
      ChildField types msg (i, none) (words v.name)
  | embedded {i j : Nat} {v w : Variable} {m : Message} (hv : msg.vars[i]? = some v)
      (plain : v.typeMap = []) (hm : composedTarget types v = some m)
      (hw : m.visible[j]? = some w) (h : ScalarMap w ∨ RepeatedScalar w) :
      ChildField types msg (i, some j) (words (lower v.name) ++ words w.name)

theorem hasColumn_not_embed {types : Types} {v : Variable} (h : HasColumn types v) :
    embedTarget types v = none := by
  by_contra hn
  obtain ⟨m, hm⟩ := Option.ne_none_iff_exists'.mp hn
  obtain ⟨-, -, target, ht, hl⟩ := embedTarget_eq_some hm
  obtain ⟨-, -, hs | ⟨target', k, m', ht', hl', hk⟩⟩ := h
  · simp [ht, isScalarToken] at hs
  · rw [ht, TypeToken.ID.injEq] at ht'
    subst ht'
    rw [hl, Option.some.injEq, Prod.mk.injEq] at hl'
    exact hk hl'.1.symm

theorem unresolved_not_column {types : Types} {v : Variable} (h : Unresolved types v) :
    ¬ HasColumn types v := by
  obtain ⟨-, -, target, ht, hl⟩ := h
  rintro ⟨-, -, hs | ⟨target', k, m, ht', hl', -⟩⟩
  · simp [ht, isScalarToken] at hs
  · rw [ht, TypeToken.ID.injEq] at ht'
    simp [← ht', hl] at hl'

theorem unresolved_not_embed {types : Types} {v : Variable} (h : Unresolved types v) :
    embedTarget types v = none := by
  obtain ⟨plain, single, target, ht, hl⟩ := h
  simp [embedTarget, plain, single, ht, hl]

/-- What a field of a flattened message is: a column, an embed, or neither. -/
inductive Shape (types : Types) (v : Variable) : Prop
  | column (h : HasColumn types v)
  | embed (m : Message) (h : embedTarget types v = some m)
  | neither (hc : ¬ HasColumn types v) (he : embedTarget types v = none)

theorem shape (types : Types) (v : Variable) : Shape types v := by
  by_cases hc : HasColumn types v
  · exact .column hc
  · cases he : embedTarget types v with
    | some m => exact .embed m he
    | none => exact .neither hc he

theorem columnOf_of_column {types : Types} {v : Variable} (h : HasColumn types v) {p : Bool}
    {is : List Nat} {path : List Variable} :
    ColumnOf types v p is path ↔ p = false ∧ is = [] ∧ path = [v] := by
  constructor
  · intro hc
    cases hc with
    | own => exact ⟨rfl, rfl, rfl⟩
    | presence he => simp [hasColumn_not_embed h] at he
    | inner he => simp [hasColumn_not_embed h] at he
  · rintro ⟨rfl, rfl, rfl⟩
    exact .own h

theorem columnOf_of_neither {types : Types} {v : Variable} (hc : ¬ HasColumn types v)
    (he : embedTarget types v = none) {p : Bool} {is : List Nat} {path : List Variable} :
    ¬ ColumnOf types v p is path := by
  intro h
  cases h with
  | own h => exact hc h
  | presence h => simp [he] at h
  | inner h => simp [he] at h

theorem columnOf_of_embed {types : Types} {v : Variable} {m : Message}
    (h : embedTarget types v = some m) {p : Bool} {is : List Nat} {path : List Variable} :
    ColumnOf types v p is path ↔
      (p = true ∧ is = [] ∧ path = [v]) ∨
        ∃ i is' path' w, m.visible[i]? = some w ∧ ColumnOf types w p is' path' ∧
          is = i :: is' ∧ path = v :: path' := by
  constructor
  · intro hc
    cases hc with
    | own hc => simp [hasColumn_not_embed hc] at h
    | presence _ => exact .inl ⟨rfl, rfl, rfl⟩
    | inner h' hw hc =>
      rw [h, Option.some.injEq] at h'
      subst h'
      exact .inr ⟨_, _, _, _, hw, hc, rfl, rfl⟩
  · rintro (⟨rfl, rfl, rfl⟩ | ⟨i, is', path', w, hw, hc, rfl, rfl⟩)
    · exact .presence h
    · exact .inner h hw hc

theorem flattenVar_of_column {b : Backend} {types : Types}
    {recur : String → Message → List String → Bool → Flattened} {owner : String} {child : Message}
    {embedPath : List String} {prefixed : Bool} {v : Variable} (h : HasColumn types v) :
    (flattenVar b types recur owner child embedPath prefixed v).1.map Column.name =
      [if prefixed then owner ++ "_" ++ v.name else v.name] := by
  obtain ⟨plain, single, hs | ⟨target, k, m, ht, hl, hk⟩⟩ := h
  · cases ht : v.type <;> simp_all [flattenVar, isScalarToken, scalar]
  · cases k <;> simp_all [flattenVar]

theorem flattenVar_of_embed {b : Backend} {types : Types}
    {recur : String → Message → List String → Bool → Flattened} {owner : String} {child : Message}
    {embedPath : List String} {prefixed : Bool} {v : Variable} {m : Message}
    (h : embedTarget types v = some m) :
    flattenVar b types recur owner child embedPath prefixed v =
      recur (if prefixed then owner ++ "_" ++ v.name else v.name) m
        (if prefixed then embedPath ++ [lower v.name] else []) prefixed := by
  obtain ⟨plain, single, target, ht, hl⟩ := embedTarget_eq_some h
  cases prefixed <;> simp [flattenVar, plain, single, ht, hl]

theorem flattenVar_of_neither {b : Backend} {types : Types}
    {recur : String → Message → List String → Bool → Flattened} {owner : String} {child : Message}
    {embedPath : List String} {prefixed : Bool} {v : Variable} (hc : ¬ HasColumn types v)
    (he : embedTarget types v = none) :
    (flattenVar b types recur owner child embedPath prefixed v).1 = [] := by
  simp only [HasColumn, embedTarget] at hc he
  by_cases plain : v.typeMap = []
  · by_cases single : .REPETEABLE ∈ v.modifiers
    · by_cases hs : isScalarToken v.type <;> simp [flattenVar, plain, single, hs]
    · cases ht : v.type with
      | ID target =>
        simp only [flattenVar, ht, plain, single]
        cases hl : lookupType types target with
        | none => simp
        | some found => obtain ⟨k, m⟩ := found; cases k <;> simp_all
      | other token => simp [flattenVar, ht, plain, single, scalar]
      | _ => simp_all [isScalarToken]
  · simp [flattenVar, plain]

theorem analyzeVar_of_column {b : Backend} {types : Types} {fuel : Nat} {msg : Message}
    {v : Variable} (h : HasColumn types v ∨ Unresolved types v) :
    (analyzeVar b types fuel msg v).1.map Column.name = [v.name] := by
  obtain ⟨plain, single, hs | ⟨target, k, m, ht, hl, hk⟩⟩ | ⟨plain, single, target, ht, hl⟩ := h
  · cases ht : v.type <;> simp_all [analyzeVar, isScalarToken, scalar]
  · cases k <;> simp_all [analyzeVar]
  · simp [analyzeVar, plain, single, ht, hl]

theorem analyzeVar_of_embed {b : Backend} {types : Types} {fuel : Nat} {msg m : Message}
    {v : Variable} (h : embedTarget types v = some m) :
    analyzeVar b types fuel msg v = flatten b types fuel v.name m [lower v.name] true := by
  obtain ⟨plain, single, target, ht, hl⟩ := embedTarget_eq_some h
  simp [analyzeVar, plain, single, ht, hl]

theorem analyzeVar_of_neither {b : Backend} {types : Types} {fuel : Nat} {msg : Message}
    {v : Variable} (hc : ¬ HasColumn types v) (hu : ¬ Unresolved types v)
    (he : embedTarget types v = none) : (analyzeVar b types fuel msg v).1 = [] := by
  simp only [HasColumn, Unresolved, embedTarget] at hc hu he
  by_cases plain : v.typeMap = []
  · by_cases single : .REPETEABLE ∈ v.modifiers
    · simp only [analyzeVar, plain, single, ne_eq, not_true_eq_false, ↓reduceIte]
      split
      · split <;> rfl
      · split <;> rfl
    · cases ht : v.type with
      | ID target =>
        simp only [analyzeVar, ht, plain, single]
        cases hl : lookupType types target with
        | none => simp_all
        | some found => obtain ⟨k, m⟩ := found; cases k <;> simp_all
      | other token => simp [analyzeVar, ht, plain, single, scalar]
      | _ => simp_all [isScalarToken]
  · simp [analyzeVar, plain]

end Harpia
