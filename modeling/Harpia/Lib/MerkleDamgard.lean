import Harpia.Lib.Bytes

namespace MerkleDamgard

variable {σ τ α : Type} (n : Nat) (compress : σ → List α → σ)

/-- A hash that folds a compression function over blocks of `n` elements takes up all whole ones;
what is left is shorter than a block. -/
def absorb (h : σ) (xs : List α) : σ × List α :=
  if 0 < n ∧ n ≤ xs.length then absorb (compress h (xs.take n)) (xs.drop n) else (h, xs)
termination_by xs.length

variable {n} {compress} {h : σ} {xs ys : List α}

theorem absorb_step (long : 0 < n ∧ n ≤ xs.length) :
    absorb n compress h xs = absorb n compress (compress h (xs.take n)) (xs.drop n) := by
  rw [absorb, if_pos long]

theorem absorb_stop (short : ¬ (0 < n ∧ n ≤ xs.length)) : absorb n compress h xs = (h, xs) := by
  rw [absorb, if_neg short]

theorem absorb_short (short : xs.length < n) : absorb n compress h xs = (h, xs) :=
  absorb_stop (by omega)

theorem absorb_block (pos : 0 < n) (whole : xs.length = n) :
    absorb n compress h (xs ++ ys) = absorb n compress (compress h xs) ys := by
  rw [absorb_step ⟨pos, by rw [List.length_append]; omega⟩, ← whole, List.take_left, List.drop_left]

theorem length_take_block (long : 0 < n ∧ n ≤ xs.length) : (xs.take n).length = n := by
  rw [List.length_take]
  omega

/-- What comes later is taken up after what was left. -/
theorem absorb_append (h : σ) (xs ys : List α) : absorb n compress h (xs ++ ys) =
    absorb n compress (absorb n compress h xs).1 ((absorb n compress h xs).2 ++ ys) := by
  by_cases long : 0 < n ∧ n ≤ xs.length
  · rw [absorb_step long, ← absorb_append _ (xs.drop n) ys,
      ← absorb_block long.1 (length_take_block long), ← List.append_assoc, List.take_append_drop]
  · rw [absorb_stop long]
termination_by xs.length

/-- Two compression functions that agree on blocks, on related states. -/
theorem absorb_map {compress' : τ → List α → τ} (g : σ → τ)
    (same : ∀ h block, block.length = n → g (compress h block) = compress' (g h) block)
    (h : σ) (xs : List α) :
    (g (absorb n compress h xs).1, (absorb n compress h xs).2) = absorb n compress' (g h) xs := by
  by_cases long : 0 < n ∧ n ≤ xs.length
  · rw [absorb_step long, absorb_step long, ← same _ _ (length_take_block long)]
    exact absorb_map g same _ _
  · rw [absorb_stop long, absorb_stop long]
termination_by xs.length

theorem length_absorb (pos : 0 < n) (h : σ) (xs : List α) :
    (absorb n compress h xs).2.length = xs.length % n := by
  by_cases long : n ≤ xs.length
  · rw [absorb_step ⟨pos, long⟩, length_absorb pos, List.length_drop]
    exact (Nat.mod_eq_sub_mod long).symm
  · rw [absorb_short (by omega), Nat.mod_eq_of_lt (by omega)]
termination_by xs.length

end MerkleDamgard
