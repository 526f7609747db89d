import Mathlib.Data.List.Sort

/-- A finite set of numbers, kept as its increasing list. -/
structure NatSet where
  elems : List Nat
  increasing : elems.Pairwise (· < ·)
deriving DecidableEq

namespace NatSet

def empty : NatSet := ⟨[], List.Pairwise.nil⟩

def insertElem (n : Nat) : List Nat → List Nat
  | [] => [n]
  | m :: rest => if n < m then n :: m :: rest else if n = m then m :: rest else m :: insertElem n rest

theorem mem_insertElem {n k : Nat} {xs : List Nat} : k ∈ insertElem n xs ↔ k = n ∨ k ∈ xs := by
  induction xs with
  | nil => simp [insertElem]
  | cons m rest ih =>
    simp only [insertElem]
    split
    next => simp
    next =>
      split
      next he => subst he; simp
      next => simp only [List.mem_cons, ih]; tauto

theorem increasing_insertElem {n : Nat} {xs : List Nat} (h : xs.Pairwise (· < ·)) :
    (insertElem n xs).Pairwise (· < ·) := by
  induction xs with
  | nil => simp [insertElem]
  | cons m rest ih =>
    obtain ⟨first, tail⟩ := List.pairwise_cons.mp h
    simp only [insertElem]
    split
    next hlt =>
      refine List.pairwise_cons.mpr ⟨?_, h⟩
      intro k hk
      rcases List.mem_cons.mp hk with rfl | hk
      · exact hlt
      · exact hlt.trans (first k hk)
    next hge =>
      split
      next => exact h
      next hne =>
        refine List.pairwise_cons.mpr ⟨?_, ih tail⟩
        intro k hk
        rcases mem_insertElem.mp hk with rfl | hk
        · omega
        · exact first k hk

instance : Membership Nat NatSet := ⟨fun s n => n ∈ s.elems⟩

theorem mem_iff {s : NatSet} {n : Nat} : n ∈ s ↔ n ∈ s.elems := Iff.rfl

instance (n : Nat) (s : NatSet) : Decidable (n ∈ s) := inferInstanceAs (Decidable (n ∈ s.elems))

def insert (s : NatSet) (n : Nat) : NatSet := ⟨insertElem n s.elems, increasing_insertElem s.increasing⟩

def insertAll (s : NatSet) (ns : List Nat) : NatSet := ns.foldl insert s

/-- Python's `max(s) + 1 if s else 1`. -/
def succMax (s : NatSet) : Nat := s.elems.foldr max 0 + 1

@[simp] theorem not_mem_empty (n : Nat) : ¬ n ∈ empty := List.not_mem_nil

@[simp] theorem mem_insert {s : NatSet} {n k : Nat} : k ∈ s.insert n ↔ k = n ∨ k ∈ s :=
  mem_insertElem

@[simp] theorem mem_insertAll {s : NatSet} {ns : List Nat} {k : Nat} :
    k ∈ s.insertAll ns ↔ k ∈ ns ∨ k ∈ s := by
  induction ns generalizing s with
  | nil => simp [insertAll]
  | cons n ns ih =>
    rw [show s.insertAll (n :: ns) = (s.insert n).insertAll ns from rfl, ih]
    simp only [mem_insert, List.mem_cons]
    tauto

theorem ext {s t : NatSet} (h : ∀ n, n ∈ s ↔ n ∈ t) : s = t := by
  obtain ⟨xs, hx⟩ := s
  obtain ⟨ys, hy⟩ := t
  have perm : xs.Perm ys :=
    (List.perm_ext_iff_of_nodup (hx.imp Nat.ne_of_lt) (hy.imp Nat.ne_of_lt)).mpr h
  have eq : xs = ys := perm.eq_of_pairwise (fun a b _ _ hab hba => absurd hba (Nat.not_lt_of_lt hab)) hx hy
  subst eq
  rfl

theorem lt_succMax {s : NatSet} {n : Nat} (h : n ∈ s) : n < s.succMax := by
  have le : ∀ xs : List Nat, n ∈ xs → n ≤ xs.foldr max 0 := by
    intro xs
    induction xs with
    | nil => simp
    | cons x xs ih =>
      intro hm
      rcases List.mem_cons.mp hm with rfl | hm
      · exact Nat.le_max_left _ _
      · exact (ih hm).trans (Nat.le_max_right _ _)
  exact Nat.lt_succ_of_le (le s.elems h)

end NatSet
