import Mathlib.Data.List.Nodup
import Mathlib.Data.List.Perm.Basic
import Mathlib.Logic.Function.Basic

/-- `l` lists the values of a keyed family, each key once: `R k b` says that key `k` has value
`b`. -/
def Enumerates {κ β : Type*} (l : List β) (R : κ → β → Prop) : Prop :=
  ∃ ps : List (κ × β), ps.map Prod.snd = l ∧ (ps.map Prod.fst).Nodup ∧ ∀ k b, (k, b) ∈ ps ↔ R k b

namespace Enumerates

variable {ι κ κ' α β γ : Type*} {l l₁ l₂ : List β} {R R₁ R₂ : κ → β → Prop}

theorem mem_iff (h : Enumerates l R) {b : β} : b ∈ l ↔ ∃ k, R k b := by
  obtain ⟨ps, rfl, -, hR⟩ := h
  simp [hR]

/-- The values are pairwise distinct exactly if each one determines its key. -/
theorem nodup_iff (h : Enumerates l R) :
    l.Nodup ↔ ∀ k₁ k₂ b, R k₁ b → R k₂ b → k₁ = k₂ := by
  obtain ⟨ps, rfl, hn, hR⟩ := h
  constructor
  · intro hv k₁ k₂ b h₁ h₂
    have he := List.inj_on_of_nodup_map hv ((hR k₁ b).mpr h₁) ((hR k₂ b).mpr h₂) rfl
    exact congrArg Prod.fst he
  · intro hdet
    refine (hn.of_map _).map_on ?_
    rintro ⟨k₁, b⟩ h₁ ⟨k₂, b'⟩ h₂ rfl
    rw [hdet k₁ k₂ b ((hR _ _).mp h₁) ((hR _ _).mp h₂)]

theorem congr (h : Enumerates l R₁) (he : ∀ k b, R₁ k b ↔ R₂ k b) : Enumerates l R₂ := by
  obtain ⟨ps, hl, hn, hR⟩ := h
  exact ⟨ps, hl, hn, fun k b => (hR k b).trans (he k b)⟩

theorem nil (hR : ∀ k b, ¬ R k b) : Enumerates [] R :=
  ⟨[], rfl, List.nodup_nil, fun k b => by simp [hR]⟩

theorem singleton (k₀ : κ) {b₀ : β} (hR : ∀ k b, R k b ↔ k = k₀ ∧ b = b₀) : Enumerates [b₀] R :=
  ⟨[(k₀, b₀)], rfl, List.nodup_singleton _, fun k b => by simp [hR]⟩

/-- At most one value, there exactly if `P` holds. -/
theorem guarded {P : Prop} {b₀ : β} (hp : P → l = [b₀]) (hn : ¬ P → l = []) :
    Enumerates l fun (_ : Unit) b => P ∧ b = b₀ := by
  by_cases h : P
  · rw [hp h]
    exact singleton () (by simp [h])
  · rw [hn h]
    exact nil (by simp [h])

theorem append (h₁ : Enumerates l₁ R₁) (h₂ : Enumerates l₂ R₂)
    (hd : ∀ k b₁ b₂, R₁ k b₁ → ¬ R₂ k b₂) :
    Enumerates (l₁ ++ l₂) fun k b => R₁ k b ∨ R₂ k b := by
  obtain ⟨ps₁, rfl, hn₁, hR₁⟩ := h₁
  obtain ⟨ps₂, rfl, hn₂, hR₂⟩ := h₂
  refine ⟨ps₁ ++ ps₂, List.map_append, ?_, fun k b => by simp [hR₁, hR₂]⟩
  rw [List.map_append]
  refine hn₁.append hn₂ ?_
  intro k hk₁ hk₂
  obtain ⟨⟨k', b₁⟩, hb₁, rfl⟩ := List.mem_map.mp hk₁
  obtain ⟨⟨k'', b₂⟩, hb₂, he⟩ := List.mem_map.mp hk₂
  obtain rfl : k'' = k' := he
  exact hd _ _ _ ((hR₁ _ _).mp hb₁) ((hR₂ _ _).mp hb₂)

theorem rekey (h : Enumerates l R) {g : κ → κ'} (hg : Function.Injective g) :
    Enumerates l fun k' b => ∃ k, g k = k' ∧ R k b := by
  obtain ⟨ps, rfl, hn, hR⟩ := h
  refine ⟨ps.map fun p => (g p.1, p.2), by simp, ?_, fun k' b => ?_⟩
  · have he : (ps.map fun p => (g p.1, p.2)).map Prod.fst = (ps.map Prod.fst).map g := by simp
    rw [he]
    exact hn.map hg
  · simp only [List.mem_map, Prod.mk.injEq, Prod.exists]
    constructor
    · rintro ⟨k, b', hm, rfl, rfl⟩
      exact ⟨k, rfl, (hR k b').mp hm⟩
    · rintro ⟨k, rfl, hk⟩
      exact ⟨k, b, (hR k b).mpr hk, rfl, rfl⟩

/-- Concatenating the lists of the elements of `xs`: the position in `xs` joins the key. -/
theorem flatMap (xs : List α) {f : α → List β} {Q : α → κ → β → Prop}
    (h : ∀ a ∈ xs, Enumerates (f a) (Q a)) :
    Enumerates (xs.flatMap f) fun (k : ℕ × κ) b => ∃ a, xs[k.1]? = some a ∧ Q a k.2 b := by
  induction xs with
  | nil => exact nil (by simp)
  | cons x xs ih =>
    have head := (h x List.mem_cons_self).rekey (g := fun k => (0, k)) (fun a b => by simp)
    have tail := (ih fun a ha => h a (List.mem_cons_of_mem _ ha)).rekey
      (g := fun k => (k.1 + 1, k.2)) (fun a b => by simp [Prod.ext_iff])
    refine (head.append tail ?_).congr ?_
    · rintro _ b₁ b₂ ⟨k, rfl, -⟩ ⟨k', he, -⟩
      simp at he
    · rintro ⟨i, k⟩ b
      cases i with
      | zero => simp
      | succ i => simp

/-- The same with tagged paths of positions as keys. -/
theorem flatMap_path {τ : Type*} (xs : List α) {f : α → List β} {Q : α → τ × List ℕ → β → Prop}
    (h : ∀ a ∈ xs, Enumerates (f a) (Q a)) :
    Enumerates (xs.flatMap f) fun (k : τ × List ℕ) b =>
      ∃ i a is, xs[i]? = some a ∧ k.2 = i :: is ∧ Q a (k.1, is) b := by
  have inj : Function.Injective fun k : ℕ × τ × List ℕ => (k.2.1, k.1 :: k.2.2) := by
    rintro ⟨i, t, is⟩ ⟨j, u, js⟩ he
    simp_all
  refine ((flatMap xs h).rekey inj).congr ?_
  rintro ⟨t, path⟩ b
  constructor
  · rintro ⟨⟨i, u, is⟩, he, a, ha, hQ⟩
    simp only [Prod.mk.injEq] at he
    obtain ⟨rfl, rfl⟩ := he
    exact ⟨i, a, is, ha, rfl, hQ⟩
  · rintro ⟨i, a, is, ha, rfl, hQ⟩
    exact ⟨(i, t, is), rfl, a, ha, hQ⟩

end Enumerates
