import Mathlib.Data.List.Chain
import Mathlib.Logic.Relation

namespace Harpia

open Relation

variable {α : Type} {edge : α → α → Prop}

/-- Each element stands once, after all those it points to. -/
structure Topological (edge : α → α → Prop) (l : List α) : Prop where
  nodup : l.Nodup
  after : ∀ {before a rest b}, l = before ++ a :: rest → edge a b → b ∈ before

namespace Topological

theorem nil : Topological edge [] :=
  ⟨List.nodup_nil, fun h => by simp at h⟩

theorem concat {l : List α} {a : α} (h : Topological edge l) (new : a ∉ l)
    (listed : ∀ b, edge a b → b ∈ l) : Topological edge (l ++ [a]) := by
  refine ⟨by simpa [List.nodup_append] using ⟨h.nodup, fun b hb => (ne_of_mem_of_not_mem hb new)⟩, ?_⟩
  intro before x rest b parts hb
  rcases List.eq_nil_or_concat' rest with rfl | ⟨rest, last, rfl⟩
  · obtain ⟨rfl, one⟩ := List.append_inj' parts rfl
    cases one
    exact listed b hb
  · have parts' : l ++ [a] = (before ++ x :: rest) ++ [last] := by simpa using parts
    obtain ⟨rfl, _⟩ := List.append_inj' parts' rfl
    exact h.after rfl hb

theorem closed {l : List α} {a b : α} (h : Topological edge l) (ha : a ∈ l) (hb : edge a b) :
    b ∈ l := by
  obtain ⟨before, rest, rfl⟩ := List.append_of_mem ha
  exact List.mem_append_left _ (h.after rfl hb)

/-- All that an element leads to is listed. -/
theorem reaches {l : List α} {a b : α} (h : Topological edge l) (ha : a ∈ l)
    (path : ReflTransGen edge a b) : b ∈ l := by
  induction path with
  | refl => exact ha
  | tail _ step ih => exact h.closed ih step

theorem idxOf_lt [DecidableEq α] {l : List α} {a b : α} (h : Topological edge l) (ha : a ∈ l)
    (path : TransGen edge a b) : l.idxOf b < l.idxOf a := by
  have earlier : ∀ {x y}, x ∈ l → edge x y → l.idxOf y < l.idxOf x := by
    intro x y hx hy
    obtain ⟨before, rest, rfl⟩ := List.append_of_mem hx
    have listed := h.after rfl hy
    have new : x ∉ before := by
      have apart := h.nodup
      rw [List.nodup_append] at apart
      exact fun mem => apart.2.2 x mem x List.mem_cons_self rfl
    rw [List.idxOf_append_of_mem listed, List.idxOf_append_of_notMem new]
    have := List.idxOf_lt_length_of_mem listed
    omega
  induction path with
  | single step => exact earlier ha step
  | tail path step ih => exact (earlier (h.reaches ha path.to_reflTransGen) step).trans ih

/-- No element leads back to itself. -/
theorem acyclic {l : List α} {a : α} (h : Topological edge l) (ha : a ∈ l) :
    ¬ TransGen edge a a := by
  classical
  exact fun path => lt_irrefl _ (h.idxOf_lt ha path)

end Topological

/-- A chain that comes back to one of its elements is a cycle. -/
theorem cycle_of_isChain {l : List α} {a : α} (chain : (l ++ [a]).IsChain edge) (ha : a ∈ l) :
    TransGen edge a a := by
  have all : (l ++ [a]).Pairwise (TransGen edge) :=
    List.isChain_iff_pairwise.mp (chain.imp fun _ _ => TransGen.single)
  exact (List.pairwise_append.mp all).2.2 a ha a List.mem_cons_self

end Harpia
