import Mathlib.Data.List.Forall2
import Mathlib.Data.List.Nodup

namespace List

variable {α β : Type}

theorem exists_mem_zip_of_mem_right {xs : List α} {ys : List β} (len : xs.length = ys.length)
    {y : β} (h : y ∈ ys) : ∃ x, (x, y) ∈ xs.zip ys := by
  induction ys generalizing xs with
  | nil => simp at h
  | cons z zs ih =>
    cases xs with
    | nil => simp at len
    | cons x xs =>
      rcases mem_cons.mp h with rfl | h
      · exact ⟨x, by simp⟩
      · obtain ⟨w, hw⟩ := ih (by simpa using len) h
        exact ⟨w, by simp [hw]⟩

theorem exists_mem_zip_of_mem_left {xs : List α} {ys : List β} (len : xs.length = ys.length)
    {x : α} (h : x ∈ xs) : ∃ y, (x, y) ∈ xs.zip ys := by
  induction xs generalizing ys with
  | nil => simp at h
  | cons z zs ih =>
    cases ys with
    | nil => simp at len
    | cons y ys =>
      rcases mem_cons.mp h with rfl | h
      · exact ⟨y, by simp⟩
      · obtain ⟨w, hw⟩ := ih (by simpa using len) h
        exact ⟨w, by simp [hw]⟩

/-- An entry of a duplicate-free right list pins its partner. -/
theorem zip_left_unique {xs : List α} {ys : List β} (nodup : ys.Nodup) {a b : α} {y : β}
    (ha : (a, y) ∈ xs.zip ys) (hb : (b, y) ∈ xs.zip ys) : a = b := by
  induction ys generalizing xs with
  | nil => simp at ha
  | cons z zs ih =>
    cases xs with
    | nil => simp at ha
    | cons x xs =>
      obtain ⟨absent, rest⟩ := nodup_cons.mp nodup
      simp only [zip_cons_cons, mem_cons, Prod.mk.injEq] at ha hb
      rcases ha with ⟨rfl, rfl⟩ | ha <;> rcases hb with ⟨rfl, hy⟩ | hb
      · rfl
      · exact absurd (of_mem_zip hb).2 absent
      · exact absurd (hy ▸ (of_mem_zip ha).2) absent
      · exact ih rest ha hb

/-- A zipped list whose right part is duplicate-free and functional in the left part has a
duplicate-free left part. -/
theorem nodup_left_of_zip {xs : List α} {ys : List β} (len : xs.length = ys.length)
    (nodup : ys.Nodup) (functional : ∀ a b c, (a, b) ∈ xs.zip ys → (a, c) ∈ xs.zip ys → b = c) :
    xs.Nodup := by
  induction ys generalizing xs with
  | nil => simp [length_eq_zero_iff.mp (by simpa using len)]
  | cons z zs ih =>
    cases xs with
    | nil => simp
    | cons x xs =>
      obtain ⟨absent, rest⟩ := nodup_cons.mp nodup
      have len' : xs.length = zs.length := by simpa using len
      refine nodup_cons.mpr ⟨?_, ih len' rest ?_⟩
      · intro hx
        obtain ⟨y, hy⟩ := exists_mem_zip_of_mem_left len' hx
        obtain rfl := functional x z y (by simp) (by simp [hy])
        exact absent (of_mem_zip hy).2
      · intro a b c hb hc
        exact functional a b c (by simp [hb]) (by simp [hc])

/-- The pairs a list gives have their second parts in the list's order. -/
theorem filterMap_snd_sublist {γ : Type} (f : α → Option β) (key : α → γ) (xs : List α) :
    ((xs.filterMap fun x => (f x).map fun y => (y, key x)).map Prod.snd).Sublist (xs.map key) := by
  induction xs with
  | nil => exact .slnil
  | cons x xs ih =>
    cases h : f x with
    | none =>
      rw [filterMap_cons_none (by rw [h]; rfl)]
      exact ih.cons _
    | some y =>
      rw [filterMap_cons_some (by rw [h]; rfl)]
      exact ih.cons_cons _

theorem mem_zip_map_left {γ : Type} {xs : List α} {ys : List β} {f : α → γ} {c : γ} {y : β} :
    (c, y) ∈ (xs.map f).zip ys ↔ ∃ x, (x, y) ∈ xs.zip ys ∧ f x = c := by
  rw [zip_map_left, mem_map]
  constructor
  · rintro ⟨⟨a, b⟩, hm, he⟩
    obtain ⟨rfl, rfl⟩ := Prod.mk.inj he
    exact ⟨a, hm, rfl⟩
  · rintro ⟨x, hm, rfl⟩
    exact ⟨(x, y), hm, rfl⟩

theorem Forall₂.comp {γ : Type} {R : α → β → Prop} {S : β → γ → Prop} {T : α → γ → Prop}
    (h : ∀ a b c, R a b → S b c → T a c) {xs : List α} {ys : List β} {zs : List γ}
    (h₁ : Forall₂ R xs ys) (h₂ : Forall₂ S ys zs) : Forall₂ T xs zs := by
  induction h₁ generalizing zs with
  | nil =>
    cases h₂
    exact .nil
  | cons hr _ ih =>
    cases h₂ with
    | cons hs hrest => exact .cons (h _ _ _ hr hs) (ih hrest)

theorem forall₂_of_mapM {f : α → Option β} {l : List α} {out : List β} (h : l.mapM f = some out) :
    Forall₂ (fun x y => f x = some y) l out := by
  induction l generalizing out with
  | nil =>
    cases h
    exact .nil
  | cons x l ih =>
    rw [mapM_cons] at h
    obtain ⟨y, hy, h⟩ := Option.bind_eq_some_iff.mp h
    obtain ⟨rest, hrest, h⟩ := Option.bind_eq_some_iff.mp h
    cases h
    exact .cons hy (ih hrest)

theorem mapM_eq_none_of_mem {f : α → Option β} {l : List α} {x : α} (hx : x ∈ l) (h : f x = none) :
    l.mapM f = none := by
  cases hm : l.mapM f with
  | none => rfl
  | some out =>
    obtain ⟨y, hy⟩ := exists_mem_zip_of_mem_left (forall₂_of_mapM hm).length_eq hx
    have read := (forall₂_iff_zip.mp (forall₂_of_mapM hm)).2 hy
    rw [h] at read
    cases read

theorem mem_intercalate {s x : α} {ls : List (List α)} (h : x ∈ [s].intercalate ls) :
    x = s ∨ ∃ l ∈ ls, x ∈ l := by
  induction ls with
  | nil => simp at h
  | cons l ls ih =>
    cases ls with
    | nil => exact .inr ⟨l, by simp, by simpa using h⟩
    | cons k ks =>
      simp only [intercalate_cons_cons, append_assoc, mem_append, mem_singleton] at h ih
      rcases h with here | rfl | later
      · exact .inr ⟨l, by simp, here⟩
      · exact .inl rfl
      · rcases ih later with same | ⟨l', hl', hx⟩
        · exact .inl same
        · exact .inr ⟨l', mem_cons_of_mem _ hl', hx⟩

end List
