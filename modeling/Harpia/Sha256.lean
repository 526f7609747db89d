import Harpia.Lib.Sha2
import Mathlib.Data.List.GetD
import Mathlib.Data.List.Induction
import Mathlib.Order.Lattice

namespace Harpia

open MerkleDamgard

/-- The members of `Sha256`; a block that is full is never left in the buffer. -/
structure Sha256 where
  h : Registers UInt32 :=
    ⟨0x6a09e667, 0xbb67ae85, 0x3c6ef372, 0xa54ff53a, 0x510e527f, 0x9b05688c, 0x1f83d9ab, 0x5be0cd19⟩
  total : UInt64 := 0
  buf : Bytes := List.replicate 64 0
  fill : Nat := 0
  length_buf : buf.length = 64 := by decide
  fill_lt : fill < 64 := by decide

namespace Sha256

def rotr (x : UInt32) (n : UInt32) : UInt32 := (x >>> n) ||| (x <<< (32 - n))

def k : List UInt32 :=
  [0x428a2f98, 0x71374491, 0xb5c0fbcf, 0xe9b5dba5, 0x3956c25b, 0x59f111f1, 0x923f82a4, 0xab1c5ed5,
    0xd807aa98, 0x12835b01, 0x243185be, 0x550c7dc3, 0x72be5d74, 0x80deb1fe, 0x9bdc06a7, 0xc19bf174,
    0xe49b69c1, 0xefbe4786, 0x0fc19dc6, 0x240ca1cc, 0x2de92c6f, 0x4a7484aa, 0x5cb0a9dc, 0x76f988da,
    0x983e5152, 0xa831c66d, 0xb00327c8, 0xbf597fc7, 0xc6e00bf3, 0xd5a79147, 0x06ca6351, 0x14292967,
    0x27b70a85, 0x2e1b2138, 0x4d2c6dfc, 0x53380d13, 0x650a7354, 0x766a0abb, 0x81c2c92e, 0x92722c85,
    0xa2bfe8a1, 0xa81a664b, 0xc24b8b70, 0xc76c51a3, 0xd192e819, 0xd6990624, 0xf40e3585, 0x106aa070,
    0x19a4c116, 0x1e376c08, 0x2748774c, 0x34b0bcb5, 0x391c0cb3, 0x4ed8aa4a, 0x5b9cca4f, 0x682e6ff3,
    0x748f82ee, 0x78a5636f, 0x84c87814, 0x8cc70208, 0x90befffa, 0xa4506ceb, 0xbef9a3f7, 0xc67178f2]

/-- `w[i]` of the first sixteen words. -/
def loadWord (p : Bytes) (i : Nat) : UInt32 :=
  ((p.getD (i * 4) 0).toUInt32 <<< 24) ||| ((p.getD (i * 4 + 1) 0).toUInt32 <<< 16) |||
    ((p.getD (i * 4 + 2) 0).toUInt32 <<< 8) ||| (p.getD (i * 4 + 3) 0).toUInt32

/-- `w[i]` of the words after them, from the words before it. -/
def extendWord (w : List UInt32) (i : Nat) : UInt32 :=
  let s0 := rotr (w.getD (i - 15) 0) 7 ^^^ rotr (w.getD (i - 15) 0) 18 ^^^ (w.getD (i - 15) 0 >>> 3)
  let s1 := rotr (w.getD (i - 2) 0) 17 ^^^ rotr (w.getD (i - 2) 0) 19 ^^^ (w.getD (i - 2) 0 >>> 10)
  w.getD (i - 16) 0 + s0 + w.getD (i - 7) 0 + s1

def schedule (p : Bytes) : List UInt32 :=
  (List.range' 16 48).foldl (fun w i => w ++ [extendWord w i]) ((List.range 16).map (loadWord p))

def roundStep (w : List UInt32) (r : Registers UInt32) (i : Nat) : Registers UInt32 :=
  let S1 := rotr r.e 6 ^^^ rotr r.e 11 ^^^ rotr r.e 25
  let ch := (r.e &&& r.f) ^^^ (~~~r.e &&& r.g)
  let t1 := r.h + S1 + ch + k.getD i 0 + w.getD i 0
  let S0 := rotr r.a 2 ^^^ rotr r.a 13 ^^^ rotr r.a 22
  let maj := (r.a &&& r.b) ^^^ (r.a &&& r.c) ^^^ (r.b &&& r.c)
  let t2 := S0 + maj
  { a := t1 + t2, b := r.a, c := r.b, d := r.c, e := r.d + t1, f := r.e, g := r.f, h := r.g }

/-- `block`: what it makes of `h_`. -/
def block (h : Registers UInt32) (p : Bytes) : Registers UInt32 :=
  h.zipWith (· + ·) ((List.range 64).foldl (roundStep (schedule p)) h)

/-- How much of the data one turn of the loop of `update` takes. -/
def take (s : Sha256) (data : Bytes) : Nat := min (64 - s.fill) data.length

/-- `buf_` after its `memcpy`. -/
def filled (s : Sha256) (data : Bytes) : Bytes :=
  s.buf.take s.fill ++ data.take (s.take data) ++ s.buf.drop (s.fill + s.take data)

theorem length_filled (s : Sha256) (data : Bytes) : (s.filled data).length = 64 := by
  have := s.length_buf
  have := s.fill_lt
  simp only [filled, take, List.length_append, List.length_take, List.length_drop]
  omega

theorem fill_take_le (s : Sha256) (data : Bytes) : s.fill + s.take data ≤ 64 := by
  have := s.fill_lt
  unfold take
  omega

/-- One turn of the loop. -/
def turn (s : Sha256) (data : Bytes) : Sha256 :=
  if hf : s.fill + s.take data = 64 then
    { h := block s.h (s.filled data)
      total := s.total
      buf := s.filled data
      fill := 0
      length_buf := s.length_filled data
      fill_lt := by decide }
  else
    { h := s.h
      total := s.total
      buf := s.filled data
      fill := s.fill + s.take data
      length_buf := s.length_filled data
      fill_lt := lt_of_le_of_ne (s.fill_take_le data) hf }

def updateLoop (s : Sha256) (data : Bytes) : Sha256 :=
  if data.length = 0 then s else (s.turn data).updateLoop (data.drop (s.take data))
termination_by data.length
decreasing_by
  have := s.fill_lt
  simp only [List.length_drop, take]
  omega

def update (s : Sha256) (data : Bytes) : Sha256 :=
  { s with total := s.total + UInt64.ofNat data.length }.updateLoop data

/-- The loop of `finish`; without fuel it is still running. -/
def padZeros : Nat → Sha256 → Option Sha256
  | 0, _ => none
  | fuel + 1, s => if s.fill = 56 then some s else padZeros fuel (s.update [0])

def lenbuf (bits : UInt64) : Bytes :=
  (List.range 8).map fun i => (bits >>> UInt64.ofNat (56 - 8 * i)).toUInt8

def finish (fuel : Nat) (s : Sha256) : Option Bytes := do
  let bits := s.total * 8
  let s ← (s.update [0x80]).padZeros fuel
  let s := s.update (lenbuf bits)
  some (s.h.toList.flatMap fun (w : UInt32) =>
    [(w >>> 24).toUInt8, (w >>> 16).toUInt8, (w >>> 8).toUInt8, w.toUInt8])

end Sha256

def sha256 (fuel : Nat) (data : Bytes) : Option Bytes := (({} : Sha256).update data).finish fuel

/-- `k0`: the key on a block, or its digest. -/
def hmacKey (fuel : Nat) (key : Bytes) : Option Bytes :=
  if key.length > 64 then (· ++ List.replicate 32 0) <$> sha256 fuel key
  else some (key ++ List.replicate (64 - key.length) 0)

/-- `hmac_sha256_hex`. -/
def hmacSha256Hex (fuel : Nat) (key msg : Bytes) : Option (List Char) := do
  let k0 ← hmacKey fuel key
  let ipad := k0.map (· ^^^ 0x36)
  let opad := k0.map (· ^^^ 0x5c)
  let inner ← ((({} : Sha256).update ipad).update msg).finish fuel
  let mac ← ((({} : Sha256).update opad).update inner).finish fuel
  some (Bytes.toHex mac)

namespace Sha256

/-- The bytes that wait for their block. -/
def pending (s : Sha256) : Bytes := s.buf.take s.fill

theorem length_pending (s : Sha256) : s.pending.length = s.fill := by
  have := s.length_buf
  have := s.fill_lt
  rw [pending, List.length_take]
  omega

@[simp] theorem total_turn (s : Sha256) (data : Bytes) : (s.turn data).total = s.total := by
  unfold turn
  split <;> rfl

/-- A turn compresses the block it fills, and else only moves data to the buffer. -/
theorem absorb_turn (s : Sha256) (data : Bytes) :
    absorb 64 block (s.turn data).h ((s.turn data).pending ++ data.drop (s.take data)) =
      absorb 64 block s.h (s.pending ++ data) := by
  have front := s.length_pending
  have bound := s.length_buf
  have room := s.fill_lt
  by_cases hf : s.fill + s.take data = 64
  · have size : s.take data ≤ data.length := min_le_right _ _
    have whole : (s.pending ++ data.take (s.take data)).length = 64 := by
      rw [List.length_append, front, List.length_take]
      omega
    have buf : s.filled data = s.pending ++ data.take (s.take data) := by
      rw [filled, hf, List.drop_of_length_le (by omega), List.append_nil]
      rfl
    rw [turn, dif_pos hf, pending, List.take_zero, List.nil_append]
    simp only [buf]
    rw [← absorb_block (by decide) whole, List.append_assoc, List.take_append_drop]
  · have all : s.take data = data.length := by
      unfold take at hf ⊢
      omega
    have kept : (s.turn data).pending = s.pending ++ data := by
      rw [turn, dif_neg hf, pending]
      simp only [filled]
      rw [all, List.take_length, ← pending, List.take_left']
      rw [List.length_append, front]
    have same : (s.turn data).h = s.h := by rw [turn, dif_neg hf]
    rw [kept, same, all, List.drop_length, List.append_nil]

/-- The loop takes up the data block by block. -/
theorem updateLoop_absorbs (s : Sha256) (data : Bytes) :
    ((s.updateLoop data).h, (s.updateLoop data).pending) = absorb 64 block s.h (s.pending ++ data) ∧
      (s.updateLoop data).total = s.total := by
  by_cases hn : data.length = 0
  · rw [updateLoop, if_pos hn, List.length_eq_zero_iff.mp hn, List.append_nil,
      absorb_short (by rw [s.length_pending]; exact s.fill_lt)]
    exact ⟨rfl, rfl⟩
  · rw [updateLoop, if_neg hn]
    obtain ⟨state, total⟩ := updateLoop_absorbs (s.turn data) (data.drop (s.take data))
    exact ⟨state.trans (s.absorb_turn data), total.trans (s.total_turn data)⟩
termination_by data.length
decreasing_by
  have := s.fill_lt
  simp only [List.length_drop, take]
  omega

/-- What the object has been given since it was made. -/
structure Holds (s : Sha256) (m : Bytes) : Prop where
  state : (s.h, s.pending) = absorb 64 block ({} : Sha256).h m
  total : s.total = UInt64.ofNat m.length

theorem holds_start : ({} : Sha256).Holds [] :=
  ⟨(absorb_short (by decide)).symm, rfl⟩

theorem Holds.update {s : Sha256} {m : Bytes} (h : s.Holds m) (data : Bytes) :
    (s.update data).Holds (m ++ data) := by
  obtain ⟨state, total⟩ := updateLoop_absorbs
    { s with total := s.total + UInt64.ofNat data.length } data
  refine ⟨?_, ?_⟩
  · rw [absorb_append, ← h.state]
    exact state
  · rw [List.length_append, UInt64.ofNat_add, ← h.total]
    exact total

theorem Holds.fill {s : Sha256} {m : Bytes} (h : s.Holds m) : s.fill = m.length % 64 := by
  rw [← s.length_pending, show s.pending = (absorb 64 block ({} : Sha256).h m).2 from
    congrArg Prod.snd h.state]
  exact length_absorb (by decide) _ _

/-- However the message is cut, the object holds it whole. -/
theorem holds_updates (chunks : List Bytes) : (chunks.foldl Sha256.update {}).Holds chunks.flatten := by
  induction chunks using List.reverseRecOn with
  | nil => exact holds_start
  | append_singleton chunks chunk ih =>
    rw [List.foldl_concat, List.flatten_concat]
    exact ih.update chunk

theorem fill_update (s : Sha256) (data : Bytes) :
    (s.update data).fill = (s.fill + data.length) % 64 := by
  obtain ⟨state, -⟩ := updateLoop_absorbs
    { s with total := s.total + UInt64.ofNat data.length } data
  have rest : (s.update data).pending = (absorb 64 block s.h (s.pending ++ data)).2 :=
    congrArg Prod.snd state
  rw [← length_pending, rest, length_absorb (by decide), List.length_append, s.length_pending]

/-- The zeros end: from every fill the loop reaches 56. -/
theorem padZeros_ends {n : Nat} (s : Sha256) (hn : (120 - s.fill) % 64 = n) {fuel : Nat}
    (enough : n < fuel) : ∃ s', s.padZeros fuel = some s' ∧ s'.fill = 56 ∧
      ∀ m, s.Holds m → s'.Holds (m ++ List.replicate n 0) := by
  have room := s.fill_lt
  obtain ⟨fuel, rfl⟩ := Nat.exists_eq_add_one.mpr (Nat.zero_lt_of_lt enough)
  induction n generalizing s fuel with
  | zero =>
    have full : s.fill = 56 := by omega
    exact ⟨s, if_pos full, full, fun m h => by simpa using h⟩
  | succ n ih =>
    have next := s.fill_update [0]
    rw [List.length_singleton] at next
    obtain ⟨fuel, rfl⟩ := Nat.exists_eq_add_one.mpr (show 0 < fuel by omega)
    obtain ⟨s', ends, full, holds⟩ := ih (s.update [0]) (by omega) (s.update [0]).fill_lt fuel
      (by omega)
    refine ⟨s', ?_, full, fun m h => ?_⟩
    · rw [padZeros, if_neg (by omega), ends]
    · have more := holds _ (h.update [0])
      rw [List.replicate_succ]
      simpa using more

section Words

theorem rotr_toBitVec (x : UInt32) {n : UInt32} (pos : 0 < n.toNat) (small : n.toNat < 32) :
    (rotr x n).toBitVec = x.toBitVec.rotateRight n.toNat := by
  have back : (4294967296 - n.toNat) % 32 = 32 - n.toNat % 32 := by omega
  simp [rotr, BitVec.rotateRight_def, back]

/-- Four bytes shifted into place are the number they spell. -/
theorem shifted_bytes {a b c d : Nat} (hb : b < 256) (hc : c < 256) (hd : d < 256) :
    a <<< 24 ||| b <<< 16 ||| c <<< 8 ||| d = ((a * 256 + b) * 256 + c) * 256 + d := by
  have join : ∀ x y, y < 256 → x <<< 8 ||| y = x * 256 + y := by
    intro x y hy
    rw [← Nat.shiftLeft_add_eq_or_of_lt (show y < 2 ^ 8 from hy), Nat.shiftLeft_eq]
  rw [show a <<< 24 = a <<< 8 <<< 8 <<< 8 by simp only [← Nat.shiftLeft_add],
    show b <<< 16 = b <<< 8 <<< 8 by simp only [← Nat.shiftLeft_add], ← Nat.shiftLeft_or_distrib,
    ← Nat.shiftLeft_or_distrib, ← Nat.shiftLeft_or_distrib, join a b hb, join _ c hc, join _ d hd]

theorem loadWord_toBitVec {p : Bytes} (size : p.length = 64) {i : Nat} (hi : i < 16) :
    (loadWord p i).toBitVec = Sha2.word p i := by
  have four : (p.drop (4 * i)).take 4 =
      [p.getD (i * 4) 0, p.getD (i * 4 + 1) 0, p.getD (i * 4 + 2) 0, p.getD (i * 4 + 3) 0] := by
    rw [mul_comm 4 i, List.drop_eq_getElem_cons (by omega), List.drop_eq_getElem_cons (by omega),
      List.drop_eq_getElem_cons (by omega), List.drop_eq_getElem_cons (by omega)]
    rw [List.getD_eq_getElem _ _ (by omega), List.getD_eq_getElem _ _ (by omega),
      List.getD_eq_getElem _ _ (by omega), List.getD_eq_getElem _ _ (by omega)]
    rfl
  rw [Sha2.word, four, loadWord]
  generalize p.getD (i * 4) 0 = a, p.getD (i * 4 + 1) 0 = b, p.getD (i * 4 + 2) 0 = c,
    p.getD (i * 4 + 3) 0 = d
  have ha := a.toNat_lt
  have hb := b.toNat_lt
  have hc := c.toNat_lt
  have hd := d.toNat_lt
  apply BitVec.eq_of_toNat_eq
  have spelled := shifted_bytes (a := a.toNat) hb hc hd
  have inside : ∀ {x s : Nat}, x < 256 → s ≤ 24 → x <<< s % 4294967296 = x <<< s := by
    intro x s hx hs
    rw [Nat.shiftLeft_eq]
    have : 2 ^ s ≤ 2 ^ 24 := Nat.pow_le_pow_right (by decide) hs
    have bound : x * 2 ^ s ≤ 255 * 2 ^ 24 := Nat.mul_le_mul (by omega) this
    exact Nat.mod_eq_of_lt (by omega)
  simp [Bytes.getBE, inside ha, inside hb, inside hc, spelled]
  omega

theorem k_toBitVec (i : Nat) : (k.getD i 0).toBitVec = Sha2.K.getD i 0 := by
  have table : k.map UInt32.toBitVec = Sha2.K := by decide +kernel
  rw [← table]
  exact (List.getD_map _ 0 UInt32.toBitVec).symm

/-- The words computed so far are those of the standard's schedule. -/
theorem schedule_toBitVec {p : Bytes} (size : p.length = 64) {i : Nat} (hi : i < 64) :
    ((schedule p).getD i 0).toBitVec = Sha2.W p i := by
  have words : ∀ j, ∀ w, (List.range' 16 j).foldl (fun w i => w ++ [extendWord w i])
      ((List.range 16).map (loadWord p)) = w →
      w.length = 16 + j ∧ ∀ t < 16 + j, (w.getD t 0).toBitVec = Sha2.W p t := by
    intro j
    induction j with
    | zero =>
      rintro w rfl
      refine ⟨by simp, fun t ht => ?_⟩
      rw [Sha2.W, if_pos ht, ← loadWord_toBitVec size ht]
      simp [ht]
    | succ j ih =>
      rintro w rfl
      obtain ⟨length, before⟩ := ih _ rfl
      rw [List.range'_1_concat, List.foldl_concat]
      generalize (List.range' 16 j).foldl (fun w i => w ++ [extendWord w i])
        ((List.range 16).map (loadWord p)) = w at length before
      refine ⟨by simp [length]; omega, fun t ht => ?_⟩
      by_cases old : t < 16 + j
      · rw [List.getD_append _ _ _ _ (by omega), before t old]
      · obtain rfl : t = 16 + j := by omega
        rw [List.getD_append_right _ _ _ _ (by omega), length, Nat.sub_self, Sha2.W, if_neg (by omega),
          ← before _ (by omega), ← before _ (by omega), ← before _ (by omega), ← before _ (by omega)]
        -- the standard adds the same four words in another order
        simp [extendWord, Sha2.sigma0, Sha2.sigma1, rotr_toBitVec]
        ac_rfl
  exact (words 48 _ rfl).2 i hi

theorem roundStep_toBitVec {p : Bytes} (size : p.length = 64) (r : Registers UInt32) {i : Nat}
    (hi : i < 64) :
    (roundStep (schedule p) r i).map UInt32.toBitVec = Sha2.round p (r.map UInt32.toBitVec) i := by
  have word := schedule_toBitVec size hi
  have const := k_toBitVec i
  simp [roundStep, Sha2.round, Registers.map, Sha2.Ch, Sha2.Maj, Sha2.bigSigma0, Sha2.bigSigma1,
    rotr_toBitVec, ← word]
  simpa using const

/-- `block` is the compression function of the standard. -/
theorem block_toBitVec {p : Bytes} (size : p.length = 64) (h : Registers UInt32) :
    (block h p).map UInt32.toBitVec = Sha2.compress (h.map UInt32.toBitVec) p := by
  have rounds : ∀ is : List Nat, (∀ i ∈ is, i < 64) → ∀ r : Registers UInt32,
      (is.foldl (roundStep (schedule p)) r).map UInt32.toBitVec =
        is.foldl (Sha2.round p) (r.map UInt32.toBitVec) := by
    intro is
    induction is with
    | nil => exact fun _ _ => rfl
    | cons i is ih =>
      intro small r
      rw [List.foldl_cons, List.foldl_cons, ih fun j hj => small j (List.mem_cons_of_mem _ hj),
        roundStep_toBitVec size r (small i List.mem_cons_self)]
  have all := rounds (List.range 64) (fun i hi => List.mem_range.mp hi) h
  rw [Sha2.compress, ← all, block]
  simp [Registers.map, Registers.zipWith, BitVec.add_comm]

example : (block ({} : Sha256).h (Sha2.pad [0x61, 0x62, 0x63])).toList =
    [0xba7816bf, 0x8f01cfea, 0x414140de, 0x5dae2223, 0xb00361a3, 0x96177a9c, 0xb410ff61,
      0xf20015ad] := by decide +kernel

theorem lenbuf_eq (bits : UInt64) : lenbuf bits = Bytes.putBE 8 bits.toNat := by
  simp [lenbuf, Bytes.putBE, List.range_succ, ← UInt8.toNat_inj, Nat.shiftRight_eq_div_pow,
    Nat.div_div_eq_div_mul]

theorem wordBytes_eq (w : UInt32) :
    [(w >>> 24).toUInt8, (w >>> 16).toUInt8, (w >>> 8).toUInt8, w.toUInt8] =
      Bytes.putBE 4 w.toBitVec.toNat := by
  simp [Bytes.putBE, ← UInt8.toNat_inj, Nat.shiftRight_eq_div_pow, Nat.div_div_eq_div_mul]

end Words

/-- `finish` returns the digest of what the object holds. -/
theorem Holds.finish {s : Sha256} {m : Bytes} (h : s.Holds m) {fuel : Nat} (enough : 64 ≤ fuel) :
    s.finish fuel = some (Sha2.sha256 m) := by
  have marked := h.update [0x80]
  have count : (120 - (s.update [0x80]).fill) % 64 = Sha2.zeros m.length := by
    rw [marked.fill, List.length_append, List.length_singleton, Sha2.zeros]
    omega
  have few : Sha2.zeros m.length < fuel := lt_of_lt_of_le (Nat.mod_lt _ (by decide)) enough
  obtain ⟨s', ends, -, padded⟩ := padZeros_ends _ count few
  have bits : lenbuf (s.total * 8) = Bytes.putBE 8 (8 * m.length) := by
    rw [lenbuf_eq, h.total, ← Bytes.putBE_mod 8 (8 * m.length)]
    congr 1
    simp [mul_comm]
  have whole := (padded _ marked).update (lenbuf (s.total * 8))
  have padding : (m ++ [0x80] ++ List.replicate (Sha2.zeros m.length) 0 ++ lenbuf (s.total * 8)) =
      Sha2.pad m := by rw [bits, Sha2.pad]
  rw [padding] at whole
  have same := absorb_map (Registers.map UInt32.toBitVec)
    (fun h block size => block_toBitVec size h) ({} : Sha256).h (Sha2.pad m)
  rw [← whole.state] at same
  have final : (s'.update (lenbuf (s.total * 8))).h.map UInt32.toBitVec =
      (absorb 64 Sha2.compress Sha2.H0 (Sha2.pad m)).1 := congrArg Prod.fst same
  rw [Sha256.finish, ends]
  simp only [Option.bind_eq_bind, Option.bind_some]
  rw [Sha2.sha256, ← final]
  simp [Registers.toList, Registers.map, wordBytes_eq]

end Sha256

theorem sha256_eq {fuel : Nat} (enough : 64 ≤ fuel) (data : Bytes) :
    sha256 fuel data = some (Sha2.sha256 data) := by
  have held := Sha256.holds_start.update data
  rw [List.nil_append] at held
  exact held.finish enough

/-- The padding ends from every state. However a message is cut into updates, `Sha256` yields its
digest, and `hmac_sha256_hex` the HMAC of every key and message. -/
theorem sha256_hmac_standard {fuel : Nat} (enough : 64 ≤ fuel) :
    (∀ s : Sha256, ∃ s', s.padZeros fuel = some s' ∧ s'.fill = 56) ∧
    (∀ chunks : List Bytes, (chunks.foldl Sha256.update {}).finish fuel =
      some (Sha2.sha256 chunks.flatten)) ∧
    ∀ key msg : Bytes, hmacSha256Hex fuel key msg =
      some (Bytes.toHex (Sha2.hmac Sha2.sha256 64 key msg)) := by
  refine ⟨fun s => ?_, fun chunks => (Sha256.holds_updates chunks).finish enough, fun key msg => ?_⟩
  · obtain ⟨s', ends, full, -⟩ := s.padZeros_ends rfl
      (show (120 - s.fill) % 64 < fuel from lt_of_lt_of_le (Nat.mod_lt _ (by decide)) enough)
    exact ⟨s', ends, full⟩
  have two : ∀ pad data : Bytes, ((({} : Sha256).update pad).update data).finish fuel =
      some (Sha2.sha256 (pad ++ data)) := by
    intro pad data
    exact ((Sha256.holds_start.update pad).update data).finish enough
  have padded : hmacKey fuel key =
      some ((if 64 < key.length then Sha2.sha256 key else key) ++ List.replicate
        (64 - (if 64 < key.length then Sha2.sha256 key else key).length) 0) := by
    rw [hmacKey, sha256_eq enough]
    split_ifs
    · rw [Sha2.length_sha256]
      rfl
    · rfl
  rw [hmacSha256Hex, padded]
  simp only [Option.bind_eq_bind, Option.bind_some, two]
  rfl

theorem sha256_hmac_standard_abc :
    ([[0x61], [], [0x62, 0x63]].foldl Sha256.update {}).finish 64 =
        some (Sha2.sha256 [0x61, 0x62, 0x63]) ∧
      hmacSha256Hex 64 [] [0x61] = some (Bytes.toHex (Sha2.hmac Sha2.sha256 64 [] [0x61])) := by
  obtain ⟨-, digest, mac⟩ := @sha256_hmac_standard 64 le_rfl
  exact ⟨digest [[0x61], [], [0x62, 0x63]], mac [] [0x61]⟩

end Harpia
