import Mathlib.Data.List.Basic
import Mathlib.Logic.Function.Iterate

namespace Crc

variable {w : Nat}

/-- A reflected cyclic redundancy check takes the bits of a message one by one; the bit that leaves
the register decides whether the polynomial is added. -/
def step (poly r : BitVec w) (bit : Bool) : BitVec w :=
  if r.getLsbD 0 ^^ bit then (r >>> 1) ^^^ poly else r >>> 1

def run (poly r : BitVec w) (bits : List Bool) : BitVec w := bits.foldl (step poly) r

/-- A step that takes no message bit. -/
def shift (poly r : BitVec w) : BitVec w := step poly r false

/-- A bit at the low end. -/
def low (bit : Bool) : BitVec w := if bit then 1#w else 0#w

/-- Some bits from the low end on. -/
def embed : List Bool → BitVec w
  | [] => 0#w
  | bit :: bits => (embed bits <<< 1) ^^^ low bit

variable {poly : BitVec w}

@[simp] theorem run_nil (r : BitVec w) : run poly r [] = r := rfl

@[simp] theorem run_cons (r : BitVec w) (bit : Bool) (bits : List Bool) :
    run poly r (bit :: bits) = run poly (step poly r bit) bits := rfl

theorem run_append (r : BitVec w) (xs ys : List Bool) :
    run poly r (xs ++ ys) = run poly (run poly r xs) ys := List.foldl_append

theorem getLsbD_low (pos : 0 < w) (bit : Bool) : (low bit : BitVec w).getLsbD 0 = bit := by
  cases bit <;> simp [low, pos]

theorem low_shift (bit : Bool) : (low bit : BitVec w) >>> 1 = 0#w := by
  apply BitVec.eq_of_getLsbD_eq
  intro i _
  rw [BitVec.getLsbD_ushiftRight, BitVec.getLsbD_zero]
  cases bit <;> simp [low]

/-- A message bit is added to the register's low end. -/
theorem step_eq_shift (pos : 0 < w) (r : BitVec w) (bit : Bool) :
    step poly r bit = shift poly (r ^^^ low bit) := by
  have same : (r ^^^ low bit).getLsbD 0 = (r.getLsbD 0 ^^ bit) := by
    rw [BitVec.getLsbD_xor, getLsbD_low pos]
  have moved : (r ^^^ low bit) >>> 1 = r >>> 1 := by
    rw [BitVec.ushiftRight_xor_distrib, low_shift, BitVec.xor_zero]
  rw [shift, step, step, same, moved, Bool.xor_false]

theorem shift_xor (a b : BitVec w) : shift poly (a ^^^ b) = shift poly a ^^^ shift poly b := by
  have cancel : ∀ x y : BitVec w, x ^^^ y = x ^^^ poly ^^^ (y ^^^ poly) := by
    intro x y
    rw [BitVec.xor_assoc, BitVec.xor_comm poly, BitVec.xor_assoc, BitVec.xor_self, BitVec.xor_zero]
  simp only [shift, step, Bool.xor_false, BitVec.getLsbD_xor, BitVec.ushiftRight_xor_distrib]
  cases a.getLsbD 0 <;> cases b.getLsbD 0
  · rfl
  · exact BitVec.xor_assoc _ _ _
  · simp only [Bool.xor_false, if_true, Bool.false_eq_true, if_false]
    rw [BitVec.xor_assoc, BitVec.xor_comm _ poly, ← BitVec.xor_assoc]
  · exact cancel _ _

theorem iterate_shift_xor (n : Nat) (a b : BitVec w) :
    (shift poly)^[n] (a ^^^ b) = (shift poly)^[n] a ^^^ (shift poly)^[n] b := by
  induction n generalizing a b with
  | zero => rfl
  | succ n ih => rw [Function.iterate_succ_apply, shift_xor, ih, ← Function.iterate_succ_apply,
      ← Function.iterate_succ_apply]

/-- Where the low bit is clear, a shift is just that. -/
theorem shift_of_clear {r : BitVec w} (h : r.getLsbD 0 = false) : shift poly r = r >>> 1 := by
  rw [shift, step, h]
  rfl

theorem getLsbD_embed {bits : List Bool} {i : Nat} (hi : i < w) :
    (embed bits : BitVec w).getLsbD i = bits.getD i false := by
  induction bits generalizing i with
  | nil => simp [embed]
  | cons bit bits ih =>
    rw [embed, BitVec.getLsbD_xor]
    cases i with
    | zero => rw [getLsbD_low hi, BitVec.getLsbD_shiftLeft]; simp
    | succ i =>
      have clear : (low bit : BitVec w).getLsbD (i + 1) = false := by
        cases bit <;> simp [low]
      rw [clear, Bool.xor_false, BitVec.getLsbD_shiftLeft, List.getD_cons_succ,
        ← ih (Nat.lt_of_succ_lt hi)]
      simp [hi]

theorem embed_shift {bits : List Bool} (len : bits.length < w) :
    shift poly (embed bits <<< 1 : BitVec w) = embed bits := by
  have clear : (embed bits <<< 1 : BitVec w).getLsbD 0 = false := by
    rw [BitVec.getLsbD_shiftLeft]
    simp
  rw [shift_of_clear clear]
  apply BitVec.eq_of_getLsbD_eq
  intro i hi
  rw [BitVec.getLsbD_ushiftRight, BitVec.getLsbD_shiftLeft]
  by_cases top : 1 + i < w
  · simp [top]
  · have out : (embed bits : BitVec w).getLsbD i = false := by
      have last : bits.length ≤ i := by omega
      rw [getLsbD_embed hi, List.getD_eq_getElem?_getD, List.getElem?_eq_none last, Option.getD_none]
    simp [top, out]

/-- As many bits as the register holds can be added at once. -/
theorem run_eq_iterate {bits : List Bool} (len : bits.length ≤ w) (r : BitVec w) :
    run poly r bits = (shift poly)^[bits.length] (r ^^^ embed bits) := by
  induction bits generalizing r with
  | nil => simp [embed]
  | cons bit bits ih =>
    have room : bits.length < w := len
    rw [run_cons, ih (Nat.le_of_lt room), List.length_cons, Function.iterate_succ_apply, embed,
      BitVec.xor_comm (embed bits <<< 1), ← BitVec.xor_assoc, shift_xor, embed_shift room,
      step_eq_shift (Nat.zero_lt_of_lt room)]

section Burst

variable (top : poly.getLsbD (w - 1) = true)

include top

theorem shift_injective : Function.Injective (shift poly) := by
  have pos : 0 < w := by
    by_contra h
    have none_ := BitVec.getLsbD_of_ge poly (w - 1) (by omega)
    rw [none_] at top
    cases top
  have clear : ∀ z : BitVec w, shift poly z = 0#w → z = 0#w := by
    intro z hz
    unfold shift step at hz
    rw [Bool.xor_false] at hz
    split at hz
    next =>
      have bit := congrArg (fun v : BitVec w => v.getLsbD (w - 1)) hz
      have above : z.getLsbD (1 + (w - 1)) = false := BitVec.getLsbD_of_ge z _ (by omega)
      simp [BitVec.getLsbD_xor, BitVec.getLsbD_ushiftRight, top, above] at bit
    next low =>
      apply BitVec.eq_of_getLsbD_eq
      intro i _
      cases i with
      | zero => simpa using low
      | succ i =>
        have bit := congrArg (fun v : BitVec w => v.getLsbD i) hz
        simp only [BitVec.getLsbD_ushiftRight, BitVec.getLsbD_zero] at bit
        rw [BitVec.getLsbD_zero, ← bit, Nat.add_comm]
  intro a b h
  have zero := clear (a ^^^ b) (by rw [shift_xor, h, BitVec.xor_self])
  have same := congrArg (· ^^^ b) zero
  simpa [BitVec.xor_assoc] using same

theorem step_injective (bit : Bool) : Function.Injective fun r => step poly r bit := by
  intro a b h
  have pos : 0 < w := by
    by_contra h
    have none_ := BitVec.getLsbD_of_ge poly (w - 1) (by omega)
    rw [none_] at top
    cases top
  simp only [step_eq_shift pos] at h
  have same := congrArg (· ^^^ low bit) (shift_injective top h)
  simpa [BitVec.xor_assoc] using same

/-- What differs once differs ever after. -/
theorem run_injective (bits : List Bool) : Function.Injective fun r => run poly r bits := by
  induction bits with
  | nil => exact fun _ _ h => h
  | cons bit bits ih => exact fun _ _ h => step_injective top bit (ih h)

theorem run_window_injective {xs ys : List Bool} (len : xs.length = ys.length)
    (room : xs.length ≤ w) {r : BitVec w} (h : run poly r xs = run poly r ys) : xs = ys := by
  rw [run_eq_iterate room, run_eq_iterate (len ▸ room), ← len] at h
  have sums := (shift_injective top).iterate xs.length h
  have same : (embed xs : BitVec w) = embed ys := by
    have cancelled := congrArg (r ^^^ ·) sums
    simpa [← BitVec.xor_assoc] using cancelled
  apply List.ext_getElem len
  intro i hx hy
  have bit := congrArg (fun v : BitVec w => v.getLsbD i) same
  simp only [getLsbD_embed (Nat.lt_of_lt_of_le hx room)] at bit
  simpa [hx, hy] using bit

/-- Messages of one length that differ within as many consecutive bits as the register has leave
different registers. -/
theorem run_ne_of_burst {xs ys : List Bool} (len : xs.length = ys.length) (ne : xs ≠ ys)
    {start : Nat} (same : ∀ i, i < start ∨ start + w ≤ i → xs[i]? = ys[i]?) (r : BitVec w) :
    run poly r xs ≠ run poly r ys := by
  have parts : ∀ zs : List Bool,
      zs = zs.take start ++ ((zs.drop start).take w ++ zs.drop (start + w)) := by
    intro zs
    rw [← List.drop_drop, List.take_append_drop, List.take_append_drop]
  have before : xs.take start = ys.take start := by
    apply List.ext_getElem?
    intro i
    by_cases hi : i < start
    · rw [List.getElem?_take_of_lt hi, List.getElem?_take_of_lt hi, same i (.inl hi)]
    · rw [List.getElem?_take_eq_none (by omega), List.getElem?_take_eq_none (by omega)]
  have after : xs.drop (start + w) = ys.drop (start + w) := by
    apply List.ext_getElem?
    intro i
    rw [List.getElem?_drop, List.getElem?_drop, same _ (.inr (by omega))]
  intro h
  rw [parts xs, parts ys, before, after, run_append, run_append, run_append, run_append] at h
  have room : ((xs.drop start).take w).length ≤ w := by
    rw [List.length_take]
    exact Nat.min_le_left _ _
  have window := run_window_injective top (by simp [len]) room (run_injective top _ h)
  refine ne ?_
  rw [parts xs, parts ys, before, after, window]

end Burst

end Crc
