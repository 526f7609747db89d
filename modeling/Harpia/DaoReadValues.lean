import Mathlib.Data.List.TakeWhile
import Harpia.DaoRead
import Harpia.DaoKeys
import Harpia.Lib.ProtoOrder

namespace Harpia

open Text Sqlite Proto

/-- A value of its field's type; floats, which SQLite may round, are left out. -/
def Scalar.exact (type : TypeToken) : Scalar → Bool
  | .float _ => false
  | x => Scalar.fits type x

/-- What a field of a message may hold. -/
def Allowed (types : Types) (v : Variable) : Content Msg → Prop
  | .scalar x => isScalarField types v ∧ Scalar.exact v.type x ∧
      (hasPresence v = false → x ≠ defaultValue v.type)
  | .map entries => v.typeMap ≠ [] ∧ ∀ e ∈ entries.entries,
      (∀ type ∈ v.typeMap[0]?, Scalar.exact type e.1) ∧ ∀ type ∈ v.typeMap[1]?, Scalar.exact type e.2
  | .list items => v.typeMap = [] ∧ .REPETEABLE ∈ v.modifiers ∧
      (isScalarToken v.type || isEnumType types v) ∧ ∀ x ∈ items, Scalar.exact v.type x
  | .sub _ => (subType types v).isSome
  | .elements _ => v.typeMap = [] ∧ .REPETEABLE ∈ v.modifiers ∧ (messageType types v).isSome

/-- The fields of a message hold what their types allow, at every depth. -/
inductive WellTyped (types : Types) : Message → Msg → Prop
  | mk {d : Message} {m : Msg}
      (own : ∀ name v c, d.field? name = some v → m.get? name = some c → Allowed types v c)
      (deeper : ∀ name v d' o, d.field? name = some v → messageType types v = some d' →
        m.sub? name = some o ∨ o ∈ m.elements name → WellTyped types d' o) : WellTyped types d m

section Scalars

variable {R : ReadEnv} {types : Types} {type : TypeToken} {x : Scalar}

theorem kept_exact (h : Scalar.exact type x) : kept R type x = some x := by
  cases x with
  | float bits => simp [Scalar.exact] at h
  | int n => exact if_pos h
  | bool b => exact if_pos h
  | text s => exact if_pos h

theorem fromDb_exact (h : Scalar.exact type x) : fromDb R type (toDb x) = some x := by
  cases x with
  | float bits => simp [Scalar.exact] at h
  | int n =>
    cases type with
    | INT32 => rfl
    | INT64 => rfl
    | ID target => rfl
    | BOOL => simp [Scalar.exact, Scalar.fits] at h
    | FLOAT => simp [Scalar.exact, Scalar.fits] at h
    | STRING => simp [Scalar.exact, Scalar.fits] at h
    | other token => rfl
  | bool b =>
    cases type with
    | BOOL => cases b <;> rfl
    | _ => simp [Scalar.exact, Scalar.fits] at h
  | text s =>
    cases type with
    | STRING => rfl
    | _ => simp [Scalar.exact, Scalar.fits] at h

/-- What is stored of an exact value is read back as it was. -/
theorem fromDb_kept (h : Scalar.exact type x) :
    (fromDb R type (toDb x)).bind (kept R type) = some x := by
  rw [fromDb_exact h, Option.bind_some, kept_exact h]

theorem fromDb_default (h : isScalarToken type ∨ ∃ target, type = .ID target) :
    (fromDb R type (toDb (defaultValue type))).bind (kept R type) = some (defaultValue type) := by
  cases type with
  | INT32 => rfl
  | INT64 => rfl
  | BOOL => rfl
  | STRING => rfl
  | ID target => rfl
  | FLOAT =>
    have zero : kept R .FLOAT (.float 0) = some (.float (R.narrow 0)) := rfl
    rw [R.narrow_zero] at zero
    exact zero
  | other token =>
    rcases h with scalar | ⟨target, no⟩
    · cases scalar
    · cases no

theorem isScalarField_type {v : Variable} (h : isScalarField types v) :
    isScalarToken v.type ∨ ∃ target, v.type = .ID target := by
  simp only [isScalarField, Bool.and_eq_true, Bool.or_eq_true] at h
  rcases h.2 with scalar | enum
  · exact .inl scalar
  · unfold isEnumType at enum
    split at enum
    next target ht => exact .inr ⟨target, ht⟩
    next => cases enum

theorem messageType_of_scalar {v : Variable} (h : isScalarToken v.type || isEnumType types v) :
    messageType types v = none := by
  rw [messageType]
  split
  next target ht =>
    have enum : isEnumType types v := (Bool.or_eq_true_iff.mp h).resolve_left (by simp [ht, isScalarToken])
    rw [isEnumType, ht] at enum
    cases hl : lookupType types target with
    | none => rfl
    | some found =>
      obtain ⟨kind, m⟩ := found
      cases kind with
      | enum => rfl
      | table => simp [hl] at enum
      | message => simp [hl] at enum
  next => rfl

theorem subType_of_isScalarField {v : Variable} (h : isScalarField types v) : subType types v = none := by
  obtain ⟨single, scalar⟩ := Bool.and_eq_true_iff.mp h
  rw [subType, if_pos single, messageType_of_scalar scalar]

end Scalars

section Attributes

variable {R : ReadEnv} {types : Types} {m o : Msg} {name : String} {v : Variable}

theorem Allowed.of_scalarField {c : Content Msg} (h : Allowed types v c) (hs : isScalarField types v) :
    ∃ x, c = .scalar x ∧ Scalar.exact v.type x ∧ (hasPresence v = false → x ≠ defaultValue v.type) := by
  have single : v.typeMap = [] ∧ .REPETEABLE ∉ v.modifiers := by
    simp only [isScalarField, Variable.singular, Bool.and_eq_true, decide_eq_true_eq] at hs
    exact hs.1
  cases c with
  | scalar x => exact ⟨x, rfl, h.2⟩
  | map entries => exact absurd single.1 h.1
  | list items => exact absurd h.2.1 single.2
  | sub c => simp [Allowed, subType_of_isScalarField hs] at h
  | elements ms => exact absurd h.2.1 single.2

theorem singular_of_subType {v : Variable} (h : (subType types v).isSome) :
    v.typeMap = [] ∧ .REPETEABLE ∉ v.modifiers := by
  unfold subType at h
  split at h
  next single => simpa [Variable.singular] using single
  next => cases h

theorem Allowed.of_sub {c : Content Msg} (h : Allowed types v c) (hs : (subType types v).isSome) :
    ∃ o, c = .sub o := by
  have single := singular_of_subType hs
  cases c with
  | scalar x =>
    rw [subType_of_isScalarField h.1] at hs
    cases hs
  | map entries => exact absurd single.1 h.1
  | list items => exact absurd h.2.1 single.2
  | sub o => exact ⟨o, rfl⟩
  | elements ms => exact absurd h.2.1 single.2

/-- A scalar field holds nothing, or a value that is its attribute. -/
theorem attrValue_cases (own : ∀ c, m.get? name = some c → Allowed types v c)
    (hs : isScalarField types v) (hname : v.name = name) :
    (m.get? name = none ∧ attrValue v m = defaultValue v.type ∧ m.scalar? name = none) ∨
      ∃ x, m.get? name = some (.scalar x) ∧ attrValue v m = x ∧ Scalar.exact v.type x ∧
        (hasPresence v = false → x ≠ defaultValue v.type) := by
  subst hname
  cases hc : m.get? v.name with
  | none =>
    have read : m.scalar? v.name = none := by simp [Msg.scalar?, hc]
    exact .inl ⟨rfl, by rw [attrValue, read, Option.getD_none], read⟩
  | some c =>
    obtain ⟨x, rfl, exact_, other⟩ := (own c hc).of_scalarField hs
    have read : m.scalar? v.name = some x := by simp [Msg.scalar?, hc]
    exact .inr ⟨x, rfl, by rw [attrValue, read, Option.getD_some], exact_, other⟩

/-- Assigning an attribute the value it has in `m` makes the field what it is in `m`. -/
theorem setAttr_copies (own : ∀ c, m.get? name = some c → Allowed types v c)
    (hs : isScalarField types v) (hname : v.name = name) (given : isUnsetOptional v m = false)
    {x : Scalar} (hk : kept R v.type x = some (attrValue v m)) :
    setAttr R v o x = some (o.set name (m.get? name)) := by
  rw [setAttr, hk, Option.map_some, hname]
  rcases attrValue_cases own hs hname with ⟨none_, value, read⟩ | ⟨x, some_, value, _, other⟩
  · have implicit : hasPresence v = false := by
      cases hp : hasPresence v with
      | false => rfl
      | true => simp [isUnsetOptional, hp, hname, read] at given
    rw [none_, value, implicit]
    simp
  · rw [some_, value]
    cases hp : hasPresence v with
    | false => simp [other hp]
    | true => simp

theorem fromDb_attrValue (own : ∀ c, m.get? name = some c → Allowed types v c)
    (hs : isScalarField types v) (hname : v.name = name) :
    (fromDb R v.type (toDb (attrValue v m))).bind (kept R v.type) = some (attrValue v m) := by
  rcases attrValue_cases own hs hname with ⟨_, value, _⟩ | ⟨x, _, value, exact_, _⟩
  · rw [value]
    exact fromDb_default (isScalarField_type hs)
  · rw [value]
    exact fromDb_kept exact_

end Attributes

section Sealed

variable {R : ReadEnv}

theorem toList_toString (n : Int) : (toString n).toList =
    if n < 0 then '-' :: decimal n.natAbs else decimal n.natAbs := by
  cases n with
  | ofNat n => simp [toString, Int.repr, decimal, Nat.repr]
  | negSucc n => simp [toString, Int.repr, decimal, Nat.repr]

/-- The digits that are printed are read. -/
theorem foldl_digits {cs : List Char} (digits : ∀ c ∈ cs, c.isDigit) :
    cs.foldl (fun n c => 10 * n + (R.digit c).getD 0) 0 = Nat.ofDigitChars 10 cs 0 := by
  rw [Nat.ofDigitChars_eq_foldl]
  refine List.foldl_ext _ _ _ fun n c hc => ?_
  rw [R.digit_ascii c (digits c hc), Option.getD_some]

theorem strtoll_toString {n : Int} (lower : -2 ^ 63 ≤ n) (upper : n < 2 ^ 63) :
    strtoll R (toString n).toList = n := by
  have digits : ∀ c ∈ decimal n.natAbs, c.isDigit := fun c hc => decimal_isDigit hc
  have some_ : ∀ c ∈ decimal n.natAbs, (R.digit c).isSome := fun c hc => by
    rw [R.digit_ascii c (digits c hc), Option.isSome_some]
  have all : (decimal n.natAbs).takeWhile (fun c => (R.digit c).isSome) = decimal n.natAbs := by
    rw [List.takeWhile_eq_self_iff]
    exact some_
  have number : (decimal n.natAbs).foldl (fun n c => 10 * n + (R.digit c).getD 0) 0 = n.natAbs := by
    rw [foldl_digits digits]
    exact Nat.ofDigitChars_ten_toDigits
  have short : ¬ 19 < ((decimal n.natAbs).dropWhile (· = '0')).length := by
    have bound : (decimal n.natAbs).length ≤ 19 :=
      (Nat.length_toDigits_le_iff (by decide) (by decide)).mpr (by omega)
    have drop := (List.dropWhile_sublist (fun c : Char => decide (c = '0'))
      (l := decimal n.natAbs)).length_le
    omega
  obtain ⟨c, cs, hd⟩ := List.exists_cons_of_ne_nil (decimal_ne_nil n.natAbs)
  have first : c.isDigit := digits c (by rw [hd]; exact List.mem_cons_self)
  unfold strtoll
  rw [toList_toString]
  split
  next negative =>
    have rest : ('-' :: decimal n.natAbs).dropWhile isBlank = '-' :: decimal n.natAbs :=
      List.dropWhile_cons_of_neg (by decide)
    simp only [rest, List.head?_cons, true_or, if_true, List.tail_cons, all, number, if_neg short]
    omega
  next nonneg =>
    have rest : (decimal n.natAbs).dropWhile isBlank = decimal n.natAbs := by
      have shown : isBlank c = false := isBlank_eq_false_of_isWord (isWord_of_isDigit first)
      rw [hd]
      exact List.dropWhile_cons_of_neg (by rw [shown]; decide)
    have head : (decimal n.natAbs).head? = some c := by rw [hd, List.head?_cons]
    have minus : c ≠ '-' := fun he => by
      rw [he] at first
      exact absurd first (by decide)
    have plus : c ≠ '+' := fun he => by
      rw [he] at first
      exact absurd first (by decide)
    simp only [rest, head, Option.some.injEq, minus, plus, or_self, if_false, all, number,
      if_neg short]
    omega

/-- A sealed value that opens to its text is read as it was. -/
theorem decryptValue_plaintext {p : KeyProvider} {type : TypeToken} {stored : List Char} {x : Scalar}
    (opens : decryptField .python p stored = (plaintext R.fixed x : Plain .python))
    (read : Scalar.exact type x ∨ type = .FLOAT ∧ x = .float 0) :
    kept R type (decryptValue R p type stored) = some x := by
  have wraps : ∀ n : Int, -2 ^ 31 ≤ n → n < 2 ^ 31 → Int.bmod n (2 ^ 32) = n := fun n low high =>
    Int.bmod_eq_of_le (by omega) (by omega)
  have number : ∀ n : Int, -2 ^ 63 ≤ n → n < 2 ^ 63 →
      decryptField .python p stored = (toString n : Plain .python) →
      strtoll R (decryptField .python p stored : String).toList = n := fun n low high text => by
    rw [text]
    exact strtoll_toString low high
  rcases read with exact_ | ⟨rfl, rfl⟩
  · have keeps := kept_exact (R := R) exact_
    cases x with
    | float bits => simp [Scalar.exact] at exact_
    | text s =>
      cases type with
      | STRING =>
        have same : decryptValue R p .STRING stored = .text s := congrArg Scalar.text opens
        rw [same, keeps]
      | _ => simp [Scalar.exact, Scalar.fits] at exact_
    | bool b =>
      cases type with
      | BOOL =>
        have one : strtoll R (decryptField .python p stored : String).toList = if b then 1 else 0 := by
          cases b with
          | false => exact number 0 (by decide) (by decide) opens
          | true => exact number 1 (by decide) (by decide) opens
        have same : decryptValue R p .BOOL stored = .bool b := by
          simp only [decryptValue, one]
          cases b <;> rfl
        rw [same, keeps]
      | _ => simp [Scalar.exact, Scalar.fits] at exact_
    | int n =>
      cases type with
      | INT64 =>
        have range : -2 ^ 63 ≤ n ∧ n < 2 ^ 63 := by simpa [Scalar.exact, Scalar.fits] using exact_
        have same : decryptValue R p .INT64 stored = .int n :=
          congrArg Scalar.int (number n range.1 range.2 opens)
        rw [same, keeps]
      | INT32 =>
        have range : -2 ^ 31 ≤ n ∧ n < 2 ^ 31 := by simpa [Scalar.exact, Scalar.fits] using exact_
        have same : decryptValue R p .INT32 stored = .int n := by
          simp only [decryptValue, number n (by omega) (by omega) opens, wraps n range.1 range.2]
        rw [same, keeps]
      | ID target =>
        have range : -2 ^ 31 ≤ n ∧ n < 2 ^ 31 := by simpa [Scalar.exact, Scalar.fits] using exact_
        have same : decryptValue R p (.ID target) stored = .int n := by
          simp only [decryptValue, number n (by omega) (by omega) opens, wraps n range.1 range.2]
        rw [same, keeps]
      | _ => simp [Scalar.exact, Scalar.fits] at exact_
  · have zero : R.strtod (decryptField .python p stored : String) = 0 := by
      rw [opens]
      exact R.strtod_zero
    have same : decryptValue R p .FLOAT stored = .float 0 := congrArg Scalar.float zero
    have narrowed : kept R .FLOAT (.float 0) = some (.float (R.narrow 0)) := rfl
    rw [same, narrowed, R.narrow_zero]

theorem attrValue_read {types : Types} {m : Msg} {name : String} {v : Variable}
    (own : ∀ c, m.get? name = some c → Allowed types v c) (hs : isScalarField types v)
    (hname : v.name = name) :
    Scalar.exact v.type (attrValue v m) ∨ v.type = .FLOAT ∧ attrValue v m = .float 0 := by
  rcases attrValue_cases own hs hname with ⟨_, value, _⟩ | ⟨x, _, value, exact_, _⟩
  · rw [value]
    rcases isScalarField_type hs with scalar | ⟨target, ht⟩
    · cases ht : v.type with
      | FLOAT => exact .inr ⟨rfl, rfl⟩
      | INT32 => exact .inl (by decide)
      | INT64 => exact .inl (by decide)
      | BOOL => exact .inl (by decide)
      | STRING => exact .inl (by decide)
      | ID target => simp [ht, isScalarToken] at scalar
      | other token => simp [ht, isScalarToken] at scalar
    · rw [ht]
      exact .inl rfl
  · rw [value]
    exact .inl exact_

end Sealed

end Harpia
