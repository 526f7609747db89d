import Harpia.Lib.Crc
import Harpia.QueuedSender

namespace Harpia

section Crc32

/-- The polynomial, its lowest coefficient at the high end. -/
def crcPolynomial : BitVec 32 := 0xEDB88320#32

/-- The static table of `crc32`. -/
def crcTable : List UInt32 := (List.range 256).map fun i => crcEntry (UInt32.ofNat i)

def tableByte (crc : UInt32) (b : UInt8) : UInt32 :=
  crcTable.getD ((crc ^^^ b.toUInt32) &&& 0xFF).toNat 0 ^^^ (crc >>> 8)

/-- `crc32` as it reads its table. -/
def tableCrc32 (bytes : Bytes) : UInt32 := bytes.foldl tableByte 0xFFFFFFFF ^^^ 0xFFFFFFFF

/-- The bits of a byte, the least significant first. -/
def byteBits (b : UInt8) : List Bool := (List.range 8).map fun i => b.toBitVec.getLsbD i

/-- The bits of a payload, bytes in order. -/
def payloadBits (bytes : Bytes) : List Bool := bytes.flatMap byteBits

/-- The reflected CRC-32, bit by bit. -/
def bitwiseCrc32 (bytes : Bytes) : BitVec 32 :=
  Crc.run crcPolynomial 0xFFFFFFFF#32 (payloadBits bytes) ^^^ 0xFFFFFFFF#32

theorem crcPolynomial_top : crcPolynomial.getLsbD (32 - 1) = true := by decide

theorem low_bit_iff (c : UInt32) : c &&& 1 = 1 ↔ c.toBitVec.getLsbD 0 = true := by
  rw [← UInt32.toBitVec_inj, UInt32.toBitVec_and]
  have one : (1 : UInt32).toBitVec = 1#32 := rfl
  rw [one, BitVec.and_one_eq_setWidth_ofBool_getLsbD]
  cases c.toBitVec.getLsbD 0 <;> decide

/-- A round of the loop that fills the table. -/
theorem entryStep_toBitVec (c : UInt32) :
    (if c &&& 1 = 1 then (0xEDB88320 : UInt32) ^^^ (c >>> 1) else c >>> 1).toBitVec =
      Crc.shift crcPolynomial c.toBitVec := by
  have moved : (c >>> 1).toBitVec = c.toBitVec >>> 1 := by
    rw [UInt32.toBitVec_shiftRight]
    rfl
  unfold Crc.shift Crc.step
  by_cases bit : c &&& 1 = 1
  · rw [if_pos bit, (low_bit_iff c).mp bit, UInt32.toBitVec_xor, moved, BitVec.xor_comm]
    rfl
  · have clear : c.toBitVec.getLsbD 0 = false := by
      simpa using fun set => bit ((low_bit_iff c).mpr set)
    rw [if_neg bit, clear, moved]
    rfl

theorem crcEntry_toBitVec (i : UInt32) :
    (crcEntry i).toBitVec = (Crc.shift crcPolynomial)^[8] i.toBitVec := by
  have rounds : ∀ (l : List Nat) (c : UInt32),
      (l.foldl (fun (c : UInt32) _ => if c &&& 1 = 1 then (0xEDB88320 : UInt32) ^^^ (c >>> 1)
        else c >>> 1) c).toBitVec = (Crc.shift crcPolynomial)^[l.length] c.toBitVec := by
    intro l
    induction l with
    | nil => exact fun c => rfl
    | cons k l ih =>
      intro c
      rw [List.foldl_cons, ih, entryStep_toBitVec, List.length_cons, Function.iterate_succ_apply]
  exact rounds (List.range 8) i

/-- A register whose low byte is clear only moves down. -/
theorem iterate_shift_of_clear {r : BitVec 32} {k : Nat} (clear : ∀ i < k, r.getLsbD i = false) :
    (Crc.shift crcPolynomial)^[k] r = r >>> k := by
  induction k with
  | zero => rfl
  | succ k ih =>
    have low : (r >>> k).getLsbD 0 = false := by
      rw [BitVec.getLsbD_ushiftRight]
      exact clear k (Nat.lt_succ_self k)
    rw [Function.iterate_succ_apply', ih fun i hi => clear i (Nat.lt_succ_of_lt hi),
      Crc.shift_of_clear low, BitVec.shiftRight_add]

theorem getLsbD_lowByte (i : Nat) : (0xFF#32).getLsbD i = decide (i < 8) := by
  have mask : (0xFF#32) = BitVec.ofNat 32 (2 ^ 8 - 1) := rfl
  rw [mask, BitVec.getLsbD_ofNat, Nat.testBit_two_pow_sub_one]
  by_cases h : i < 8
  · simp [h]
    omega
  · simp [h]

/-- Eight shifts: those of the low byte, and the rest moved down a byte. -/
theorem eight_shifts (x : BitVec 32) : (Crc.shift crcPolynomial)^[8] x =
    (Crc.shift crcPolynomial)^[8] (x &&& 0xFF#32) ^^^ (x >>> 8) := by
  have parts : x = (x &&& 0xFF#32) ^^^ (x &&& ~~~0xFF#32) := by
    ext i
    simp only [BitVec.getElem_xor, BitVec.getElem_and, BitVec.getElem_not]
    cases x[i] <;> cases (0xFF#32)[i] <;> rfl
  have high : (Crc.shift crcPolynomial)^[8] (x &&& ~~~0xFF#32) = x >>> 8 := by
    rw [iterate_shift_of_clear fun i hi => by
      rw [BitVec.getLsbD_and, BitVec.getLsbD_not, getLsbD_lowByte]; simp [hi]]
    apply BitVec.eq_of_getLsbD_eq
    intro i _
    simp only [BitVec.getLsbD_ushiftRight, BitVec.getLsbD_and, BitVec.getLsbD_not, getLsbD_lowByte]
    by_cases h : 8 + i < 32
    · simp [h]
    · simp [BitVec.getLsbD_of_ge x (8 + i) (by omega)]
  calc (Crc.shift crcPolynomial)^[8] x
      = (Crc.shift crcPolynomial)^[8] ((x &&& 0xFF#32) ^^^ (x &&& ~~~0xFF#32)) := by rw [← parts]
    _ = (Crc.shift crcPolynomial)^[8] (x &&& 0xFF#32) ^^^ (x >>> 8) := by
      rw [Crc.iterate_shift_xor, high]

theorem embed_byteBits (b : UInt8) : (Crc.embed (byteBits b) : BitVec 32) = b.toUInt32.toBitVec := by
  apply BitVec.eq_of_getLsbD_eq
  intro i hi
  rw [Crc.getLsbD_embed hi, byteBits, UInt8.toBitVec_toUInt32, BitVec.getLsbD_setWidth]
  by_cases h : i < 8
  · simp [h, hi, List.getD_eq_getElem?_getD]
  · have out : b.toBitVec.getLsbD i = false := BitVec.getLsbD_of_ge _ i (by omega)
    simp [h, out, List.getD_eq_getElem?_getD]

/-- One look into the table does the eight bits of a byte. -/
theorem crcByte_toBitVec (crc : UInt32) (b : UInt8) :
    (crcByte crc b).toBitVec = Crc.run crcPolynomial crc.toBitVec (byteBits b) := by
  have room : (byteBits b).length ≤ 32 := by simp [byteBits]
  have eight : (byteBits b).length = 8 := by simp [byteBits]
  have gone : b.toUInt32.toBitVec >>> 8 = 0#32 := by
    apply BitVec.eq_of_getLsbD_eq
    intro i _
    rw [BitVec.getLsbD_ushiftRight, UInt8.toBitVec_toUInt32, BitVec.getLsbD_setWidth,
      BitVec.getLsbD_of_ge _ (8 + i) (by omega)]
    simp
  rw [Crc.run_eq_iterate room, eight, embed_byteBits, eight_shifts, BitVec.ushiftRight_xor_distrib,
    gone, BitVec.xor_zero, crcByte, UInt32.toBitVec_xor, crcEntry_toBitVec, UInt32.toBitVec_and,
    UInt32.toBitVec_xor, UInt32.toBitVec_shiftRight]
  rfl

theorem foldl_crcByte_toBitVec (bytes : Bytes) (crc : UInt32) :
    (bytes.foldl crcByte crc).toBitVec =
      Crc.run crcPolynomial crc.toBitVec (payloadBits bytes) := by
  induction bytes generalizing crc with
  | nil => rfl
  | cons b bytes ih =>
    have bits : payloadBits (b :: bytes) = byteBits b ++ payloadBits bytes := List.flatMap_cons
    rw [List.foldl_cons, ih, crcByte_toBitVec, bits, Crc.run_append]

theorem crc32_toBitVec (bytes : Bytes) : (crc32 bytes).toBitVec = bitwiseCrc32 bytes := by
  rw [crc32, UInt32.toBitVec_xor, foldl_crcByte_toBitVec]
  rfl

theorem crcTable_getD {i : UInt32} (h : i.toNat < 256) : crcTable.getD i.toNat 0 = crcEntry i := by
  rw [crcTable, List.getD_eq_getElem?_getD, List.getElem?_map, List.getElem?_range h, Option.map_some,
    Option.getD_some, UInt32.ofNat_toNat]

theorem tableByte_eq (crc : UInt32) (b : UInt8) : tableByte crc b = crcByte crc b := by
  have small : ((crc ^^^ b.toUInt32) &&& 0xFF).toNat < 256 := by
    rw [UInt32.toNat_and]
    exact Nat.lt_succ_of_le Nat.and_le_right
  rw [tableByte, crcTable_getD small, crcByte]

theorem tableCrc32_eq (bytes : Bytes) : tableCrc32 bytes = crc32 bytes := by
  have same : tableByte = crcByte := funext fun crc => funext fun b => tableByte_eq crc b
  rw [tableCrc32, crc32, same]

/-- The table-driven sum is the bit-by-bit one. -/
theorem table_crc32_bitwise (bytes : Bytes) :
    (tableCrc32 bytes).toBitVec = bitwiseCrc32 bytes := by
  rw [tableCrc32_eq, crc32_toBitVec]

end Crc32

section Arrival

inductive Arrival
  | ok
  | crcMismatch
  | seqGap
  | seqRegressed
deriving DecidableEq, Repr

namespace Envelope

def crcOk (e : Envelope) : Bool := tableCrc32 e.payload = e.crc

def checkOnArrival (e : Envelope) (expected : Nat) : Arrival :=
  if !e.crcOk then .crcMismatch
  else if e.seq < expected then .seqRegressed
  else if expected < e.seq then .seqGap
  else .ok

/-- `stamp`, with the timestamp that the caller gives. -/
def stampAt (seq : Nat) (payload : Bytes) (deliveryTimestampMs : Int) : Envelope :=
  ⟨seq, tableCrc32 payload, payload, deliveryTimestampMs⟩

end Envelope

theorem length_payloadBits (bytes : Bytes) : (payloadBits bytes).length = 8 * bytes.length := by
  induction bytes with
  | nil => rfl
  | cons b bytes ih =>
    have bits : payloadBits (b :: bytes) = byteBits b ++ payloadBits bytes := List.flatMap_cons
    have eight : (byteBits b).length = 8 := by simp [byteBits]
    rw [bits, List.length_append, ih, eight, List.length_cons]
    omega

theorem byteBits_injective : Function.Injective byteBits := by
  intro a b h
  rw [← UInt8.toBitVec_inj]
  apply BitVec.eq_of_getLsbD_eq
  intro i hi
  have bit := congrArg (fun l : List Bool => l[i]?) h
  simpa [byteBits, hi] using bit

theorem payloadBits_injective : Function.Injective payloadBits := by
  intro xs
  induction xs with
  | nil =>
    intro ys h
    have len := congrArg List.length h
    rw [length_payloadBits, length_payloadBits] at len
    have none_ : ys.length = 0 := by
      simp only [List.length_nil] at len
      omega
    exact (List.length_eq_zero_iff.mp none_).symm
  | cons x xs ih =>
    intro ys h
    cases ys with
    | nil =>
      have len := congrArg List.length h
      rw [length_payloadBits, length_payloadBits] at len
      simp at len
    | cons y ys =>
      have bits : ∀ (b : UInt8) (bs : Bytes),
          payloadBits (b :: bs) = byteBits b ++ payloadBits bs := fun b bs => List.flatMap_cons
      rw [bits, bits] at h
      obtain ⟨first, rest⟩ := List.append_inj h (by simp [byteBits])
      rw [byteBits_injective first, ih rest]

/-- The payloads are of one length, and the bits in which they differ lie within 32 consecutive
ones. -/
structure Burst (p q : Bytes) : Prop where
  length : p.length = q.length
  differ : p ≠ q
  window : ∃ start, ∀ i, i < start ∨ start + 32 ≤ i → (payloadBits p)[i]? = (payloadBits q)[i]?

theorem Burst.crc32_ne {p q : Bytes} (h : Burst p q) : tableCrc32 p ≠ tableCrc32 q := by
  obtain ⟨start, same⟩ := h.window
  have registers := Crc.run_ne_of_burst crcPolynomial_top
    (by rw [length_payloadBits, length_payloadBits, h.length])
    (fun equal => h.differ (payloadBits_injective equal)) same 0xFFFFFFFF#32
  intro equal
  have sums := congrArg UInt32.toBitVec equal
  rw [tableCrc32_eq, tableCrc32_eq, crc32_toBitVec, crc32_toBitVec, bitwiseCrc32, bitwiseCrc32] at sums
  have cancelled := congrArg (· ^^^ 0xFFFFFFFF#32) sums
  simp only [BitVec.xor_assoc, BitVec.xor_self, BitVec.xor_zero] at cancelled
  exact registers cancelled

/-- A burst of at most 32 bits is found: the sums differ, and an envelope that is stamped with the
one payload and carries the other is refused. -/
theorem burst_is_detected {p q : Bytes} (h : Burst p q) :
    tableCrc32 p ≠ tableCrc32 q ∧
      ∀ (seq expected : Nat) (deliveryTimestampMs : Int),
        let arrived := { Envelope.stampAt seq p deliveryTimestampMs with payload := q }
        arrived.crcOk = false ∧ arrived.checkOnArrival expected = .crcMismatch := by
  have differ := h.crc32_ne
  refine ⟨differ, fun seq expected at_ => ?_⟩
  have refused : ({ Envelope.stampAt seq p at_ with payload := q } : Envelope).crcOk = false := by
    have other : tableCrc32 q ≠ tableCrc32 p := fun same => differ same.symm
    exact decide_eq_false other
  refine ⟨refused, ?_⟩
  rw [Envelope.checkOnArrival, refused]
  rfl

/-- The eight bits of the second byte flipped. -/
theorem burst_is_detected_byte :
    tableCrc32 [1, 2, 3] ≠ tableCrc32 [1, 253, 3] ∧
      ∀ (seq expected : Nat) (deliveryTimestampMs : Int),
        let arrived := { Envelope.stampAt seq [1, 2, 3] deliveryTimestampMs with payload := [1, 253, 3] }
        arrived.crcOk = false ∧ arrived.checkOnArrival expected = .crcMismatch := by
  refine burst_is_detected ⟨rfl, by decide, 8, fun i hi => ?_⟩
  have small : i < 24 ∨ 24 ≤ i := Nat.lt_or_ge i 24
  rcases small with small | small
  · have cases_ : ∀ i < 24, i < 8 ∨ 8 + 32 ≤ i →
        (payloadBits [1, 2, 3])[i]? = (payloadBits [1, 253, 3])[i]? := by decide +kernel
    exact cases_ i small hi
  · rw [List.getElem?_eq_none (by simpa [length_payloadBits] using small),
      List.getElem?_eq_none (by simpa [length_payloadBits] using small)]

end Arrival

end Harpia
