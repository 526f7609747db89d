import Harpia.Session

namespace Harpia

/-- One entry of the table of `crc32`: eight steps of the reflected polynomial. -/
def crcEntry (i : UInt32) : UInt32 :=
  (List.range 8).foldl
    (fun (c : UInt32) _ => if c &&& 1 = 1 then (0xEDB88320 : UInt32) ^^^ (c >>> 1) else c >>> 1) i

def crcByte (crc : UInt32) (b : UInt8) : UInt32 :=
  crcEntry ((crc ^^^ b.toUInt32) &&& 0xFF) ^^^ (crc >>> 8)

def crc32 (bytes : Bytes) : UInt32 := bytes.foldl crcByte 0xFFFFFFFF ^^^ 0xFFFFFFFF

/-- A payload stamped at its origin. -/
structure Envelope where
  seq : Nat
  crc : UInt32
  payload : Bytes
  deliveryTimestampMs : Int
deriving DecidableEq

def Envelope.stamp (seq : Nat) (payload : Bytes) : Envelope := ⟨seq, crc32 payload, payload, 0⟩

inductive PushOutcome
  | accepted
  | rotatedOldest
deriving Repr, DecidableEq

/-- The queue, with what its audit sink was told and the envelopes it rotated out. -/
structure BoundedQueue where
  capacity : Nat
  subject : String
  buf : List Envelope
  rotations : Nat
  lastRotatedSeq : Nat
  audit : List AuditRecord
  rotated : List Envelope
deriving DecidableEq

/-- The argument of the constructor: a `size_t` in C++, any integer in Python. -/
abbrev QueueCapacity : Lang → Type
  | .cpp => Fin (2 ^ 64)
  | .python => Int

/-- What is told of an envelope that is rotated out. -/
def droppedRecord (subject : String) (e : Envelope) : AuditRecord :=
  ⟨"queue_rotated", subject, Bytes.ofText ("dropped_seq=".toList ++ Text.decimal e.seq)⟩

namespace BoundedQueue

def new (subject : String) : (lang : Lang) → QueueCapacity lang → BoundedQueue
  | .cpp, capacity =>
    ⟨if capacity.val = 0 then 1 else capacity.val, subject, [], 0, 0, [], []⟩
  | .python, capacity => ⟨if capacity > 0 then capacity.toNat else 1, subject, [], 0, 0, [], []⟩

/-- The count of rotations is a `size_t` in C++. -/
def countRotation (lang : Lang) (n : Nat) : Nat :=
  match lang with
  | .cpp => (n + 1) % 2 ^ 64
  | .python => n + 1

/-- The oldest envelope makes room. -/
def rotate (lang : Lang) (q : BoundedQueue) : BoundedQueue :=
  match q.buf with
  | [] => q
  | oldest :: rest =>
    { q with
      buf := rest
      rotations := countRotation lang q.rotations
      lastRotatedSeq := oldest.seq
      audit := q.audit ++ [droppedRecord q.subject oldest]
      rotated := q.rotated ++ [oldest] }

def push (lang : Lang) (q : BoundedQueue) (env : Envelope) : BoundedQueue × PushOutcome :=
  if q.buf.length ≥ q.capacity then
    let q' := q.rotate lang
    ({ q' with buf := q'.buf ++ [env] }, .rotatedOldest)
  else ({ q with buf := q.buf ++ [env] }, .accepted)

def peek (q : BoundedQueue) : Option Envelope := q.buf.head?

def pop (q : BoundedQueue) : BoundedQueue × Option Envelope :=
  ({ q with buf := q.buf.tail }, q.buf.head?)

end BoundedQueue

/-- The sender of a `critical` message, with the envelopes it stamped and those on the wire. -/
structure QueuedSender where
  queue : BoundedQueue
  nextSeq : Nat
  stamped : List Envelope
  wire : List Envelope
deriving DecidableEq

namespace QueuedSender

def new (subject : String) (lang : Lang) (capacity : QueueCapacity lang) : QueuedSender :=
  ⟨BoundedQueue.new subject lang capacity, 1, [], []⟩

/-- The sequence counter is a 64-bit number in C++. -/
def bumpSeq (lang : Lang) (n : Nat) : Nat :=
  match lang with
  | .cpp => (n + 1) % 2 ^ 64
  | .python => n + 1

/-- `send` of a message that serializes to `payload`, or does not serialize. -/
def send (lang : Lang) (s : QueuedSender) : Option Bytes → QueuedSender × Option PushOutcome
  | none => (s, none)
  | some payload =>
    let env := Envelope.stamp s.nextSeq payload
    let (queue, outcome) := s.queue.push lang env
    (⟨queue, bumpSeq lang s.nextSeq, s.stamped ++ [env], s.wire⟩, some outcome)

/-- The loop of `flush`, which runs at most as often as there are envelopes: `accepts i` is whether
the socket takes the `i`-th payload offered to it. -/
def flushLoop (accepts : Nat → Bool) : Nat → Nat → QueuedSender → QueuedSender × Nat
  | 0, sent, s => (s, sent)
  | fuel + 1, sent, s =>
    match s.queue.peek with
    | none => (s, sent)
    | some env =>
      if accepts sent then
        flushLoop accepts fuel (sent + 1)
          { s with queue := s.queue.pop.1, wire := s.wire ++ [env] }
      else (s, sent)

def flush (accepts : Nat → Bool) (s : QueuedSender) : QueuedSender × Nat :=
  flushLoop accepts s.queue.buf.length 0 s

end QueuedSender

inductive SenderCall
  | send (payload : Option Bytes)
  | flush (accepts : Nat → Bool)

def SenderCall.run (lang : Lang) (s : QueuedSender) : SenderCall → QueuedSender
  | .send payload => (s.send lang payload).1
  | .flush accepts => (s.flush accepts).1

/-- The sender after a sequence of calls. -/
def senderRun (lang : Lang) (s : QueuedSender) (calls : List SenderCall) : QueuedSender :=
  calls.foldl (SenderCall.run lang) s

/-- The sequence number of the `i`-th envelope stamped. -/
def stampSeq (lang : Lang) (i : Nat) : Nat :=
  match lang with
  | .cpp => (i + 1) % 2 ^ 64
  | .python => i + 1

/-- What every call keeps. The envelopes on the wire and in the queue stand in the order they were
stamped in, and so do those rotated out and in the queue. -/
structure SenderHolds (lang : Lang) (capacity : Nat) (s : QueuedSender) : Prop where
  capacity_eq : s.queue.capacity = capacity
  size_le : s.queue.buf.length ≤ capacity
  placed : (s.wire ++ s.queue.rotated ++ s.queue.buf).Perm s.stamped
  wire_order : (s.wire ++ s.queue.buf).Sublist s.stamped
  rotated_order : (s.queue.rotated ++ s.queue.buf).Sublist s.stamped
  audit_eq : s.queue.audit = s.queue.rotated.map (droppedRecord s.queue.subject)
  rotations_eq : lang = .python ∨ s.queue.rotated.length < 2 ^ 64 →
    s.queue.rotations = s.queue.rotated.length
  nextSeq_eq : s.nextSeq = stampSeq lang s.stamped.length
  seqs : s.stamped.map (·.seq) = (List.range s.stamped.length).map (stampSeq lang)

section Steps

variable {lang : Lang} {capacity : Nat} {s : QueuedSender}

theorem bumpSeq_stampSeq (lang : Lang) (n : Nat) :
    QueuedSender.bumpSeq lang (stampSeq lang n) = stampSeq lang (n + 1) := by
  cases lang with
  | python => rfl
  | cpp =>
    show ((n + 1) % 2 ^ 64 + 1) % 2 ^ 64 = (n + 1 + 1) % 2 ^ 64
    omega

theorem countRotation_eq {n r : Nat} (hr : lang = .python ∨ n < 2 ^ 64 → r = n)
    (hn : lang = .python ∨ n + 1 < 2 ^ 64) : BoundedQueue.countRotation lang r = n + 1 := by
  rw [hr (hn.imp_right fun h => by omega)]
  cases lang with
  | python => rfl
  | cpp => exact Nat.mod_eq_of_lt (hn.resolve_left (by simp))

theorem seqs_append {l : List Envelope} {payload : Bytes}
    (h : l.map (·.seq) = (List.range l.length).map (stampSeq lang)) :
    (l ++ [Envelope.stamp (stampSeq lang l.length) payload]).map (·.seq) =
      (List.range (l.length + 1)).map (stampSeq lang) := by
  simp [List.range_succ, h, Envelope.stamp]

theorem holds_send (hc : 1 ≤ capacity) (hs : SenderHolds lang capacity s) (payload : Option Bytes) :
    SenderHolds lang capacity (s.send lang payload).1 := by
  cases payload with
  | none => exact hs
  | some payload =>
    obtain ⟨⟨cap, subject, buf, rotations, lastSeq, audit, rotated⟩, nextSeq, stamped, wire⟩ := s
    obtain ⟨hcap, hsize, hplaced, hwire, hrot, haudit, hcount, hnext, hseqs⟩ := hs
    simp only at hcap hsize hplaced hwire hrot haudit hcount hnext hseqs
    subst hcap hnext
    let env := Envelope.stamp (stampSeq lang stamped.length) payload
    have hend : [env].Sublist [env] := List.Sublist.refl _
    by_cases hfull : buf.length ≥ cap
    · cases buf with
      | nil =>
        simp only [List.length_nil] at hfull
        omega
      | cons oldest rest =>
        simp only [QueuedSender.send, BoundedQueue.push, if_pos hfull, BoundedQueue.rotate]
        refine ⟨rfl, by simpa using hsize, ?_, ?_, ?_, ?_, ?_, ?_, ?_⟩
        · simpa using hplaced.append_right [env]
        · have hdrop : (wire ++ rest).Sublist (wire ++ oldest :: rest) :=
            (List.Sublist.refl wire).append (List.sublist_cons_self _ _)
          simpa using (hdrop.trans hwire).append hend
        · simpa using hrot.append hend
        · simp [haudit]
        · intro hn
          simp only [List.length_append, List.length_singleton] at hn ⊢
          exact countRotation_eq hcount hn
        · simp [bumpSeq_stampSeq]
        · simpa using seqs_append hseqs
    · simp only [QueuedSender.send, BoundedQueue.push, if_neg hfull]
      refine ⟨rfl, by simp only [List.length_append, List.length_singleton]; omega, ?_, ?_, ?_,
        haudit, hcount, ?_, ?_⟩
      · simpa using hplaced.append_right [env]
      · simpa using hwire.append hend
      · simpa using hrot.append hend
      · simp [bumpSeq_stampSeq]
      · simpa using seqs_append hseqs

/-- `flush` moves the oldest envelopes to the wire, up to the first one the socket does not take. -/
theorem flushLoop_eq (accepts : Nat → Bool) {fuel sent : Nat} (hfuel : s.queue.buf.length = fuel) :
    ∃ k ≤ fuel, QueuedSender.flushLoop accepts fuel sent s =
        ({ s with
            queue := { s.queue with buf := s.queue.buf.drop k }
            wire := s.wire ++ s.queue.buf.take k }, sent + k) ∧
      (∀ i < k, accepts (sent + i) = true) ∧ (k < fuel → accepts (sent + k) = false) := by
  induction fuel generalizing s sent with
  | zero =>
    have hnil : s.queue.buf = [] := List.length_eq_zero_iff.mp hfuel
    exact ⟨0, Nat.le_refl _, by simp [QueuedSender.flushLoop], by simp, by simp⟩
  | succ fuel ih =>
    obtain ⟨⟨cap, subject, buf, rotations, lastSeq, audit, rotated⟩, nextSeq, stamped, wire⟩ := s
    cases buf with
    | nil => simp at hfuel
    | cons env rest =>
      have hrest : rest.length = fuel := by simpa using hfuel
      cases ha : accepts sent with
      | false =>
        refine ⟨0, Nat.zero_le _, ?_, by simp, fun _ => ha⟩
        simp [QueuedSender.flushLoop, BoundedQueue.peek, ha]
      | true =>
        obtain ⟨k, hk, heq, htaken, hstop⟩ := @ih
          ⟨⟨cap, subject, rest, rotations, lastSeq, audit, rotated⟩, nextSeq, stamped,
            wire ++ [env]⟩ (sent + 1) hrest
        refine ⟨k + 1, by omega, ?_, ?_, ?_⟩
        · simp only [QueuedSender.flushLoop, BoundedQueue.peek, BoundedQueue.pop, List.head?_cons,
            List.tail_cons, ha, if_true, heq]
          simp only [List.drop_succ_cons, List.take_succ_cons, List.append_assoc,
            List.singleton_append]
          rw [Nat.add_assoc, Nat.add_comm 1]
        · intro i hi
          cases i with
          | zero => exact ha
          | succ i =>
            have hi' := htaken i (by omega)
            rwa [Nat.add_right_comm] at hi'
        · intro hlt
          have hs := hstop (by omega)
          rwa [Nat.add_right_comm] at hs

theorem holds_flush (hs : SenderHolds lang capacity s) (accepts : Nat → Bool) :
    SenderHolds lang capacity (s.flush accepts).1 := by
  obtain ⟨k, -, heq, -⟩ := @flushLoop_eq s accepts s.queue.buf.length 0 rfl
  obtain ⟨hcap, hsize, hplaced, hwire, hrot, haudit, hcount, hnext, hseqs⟩ := hs
  rw [QueuedSender.flush, heq]
  refine ⟨hcap, ?_, ?_, ?_, ?_, haudit, hcount, hnext, hseqs⟩
  · simp only [List.length_drop]
    omega
  · refine List.Perm.trans ?_ hplaced
    simp only [List.append_assoc]
    refine List.Perm.append_left _ ?_
    have hsplit := List.take_append_drop k s.queue.buf
    refine List.perm_append_comm_assoc _ _ _ |>.trans ?_
    rw [hsplit]
  · simpa using hwire
  · have hdrop : (s.queue.rotated ++ s.queue.buf.drop k).Sublist (s.queue.rotated ++ s.queue.buf) :=
      (List.Sublist.refl _).append (List.drop_sublist _ _)
    exact hdrop.trans hrot

/-- What is promised at every moment. -/
structure SenderSafe (capacity : Int) (s : QueuedSender) : Prop where
  size_le : (s.queue.buf.length : Int) ≤ max capacity 1
  placed : ∀ e, e ∈ s.stamped ↔ e ∈ s.wire ∨ e ∈ s.queue.rotated ∨ e ∈ s.queue.buf
  placed_once : ((s.wire ++ s.queue.rotated ++ s.queue.buf).map (·.seq)).Nodup
  wire_increasing : (s.wire.map (·.seq)).Pairwise (· < ·)
  rotations_eq : s.queue.rotations = s.queue.rotated.length
  audit_eq : s.queue.audit = s.queue.rotated.map (droppedRecord s.queue.subject)
  flush_keeps : ∀ accepts, (s.flush accepts).1.wire ++ (s.flush accepts).1.queue.buf =
      s.wire ++ s.queue.buf ∧
    (s.flush accepts).1.queue.rotated = s.queue.rotated ∧
    (s.flush accepts).1.wire.length = s.wire.length + (s.flush accepts).2 ∧
    ((s.flush accepts).1.queue.buf ≠ [] → accepts (s.flush accepts).2 = false)

theorem flush_keeps (s : QueuedSender) (accepts : Nat → Bool) :
    (s.flush accepts).1.wire ++ (s.flush accepts).1.queue.buf = s.wire ++ s.queue.buf ∧
      (s.flush accepts).1.queue.rotated = s.queue.rotated ∧
      (s.flush accepts).1.wire.length = s.wire.length + (s.flush accepts).2 ∧
      ((s.flush accepts).1.queue.buf ≠ [] → accepts (s.flush accepts).2 = false) := by
  obtain ⟨k, hk, heq, -, hstop⟩ := @flushLoop_eq s accepts s.queue.buf.length 0 rfl
  rw [QueuedSender.flush, heq]
  refine ⟨by simp, rfl, by simp [hk], fun hne => hstop ?_⟩
  by_contra hge
  exact hne (List.drop_eq_nil_of_le (by omega))

theorem stampSeq_increasing {n : Nat} (hn : lang = .python ∨ n < 2 ^ 64) :
    ((List.range n).map (stampSeq lang)).Pairwise (· < ·) := by
  have heq : (List.range n).map (stampSeq lang) = (List.range n).map (· + 1) := by
    refine List.map_congr_left fun i hi => ?_
    have hi := List.mem_range.mp hi
    cases lang with
    | python => rfl
    | cpp => exact Nat.mod_eq_of_lt (by have := hn.resolve_left (by simp); omega)
  rw [heq]
  refine List.pairwise_map.mpr (List.pairwise_lt_range.imp fun h => ?_)
  omega

theorem safe_of_holds {bound : Int} (hs : SenderHolds lang capacity s)
    (hc : (capacity : Int) = max bound 1)
    (hsmall : lang = .python ∨ s.stamped.length < 2 ^ 64) : SenderSafe bound s := by
  have hinc : (s.stamped.map (·.seq)).Pairwise (· < ·) := hs.seqs ▸ stampSeq_increasing hsmall
  have hperm := hs.placed.map (·.seq)
  have hnodup : (s.stamped.map (·.seq)).Nodup := hinc.imp fun h => Nat.ne_of_lt h
  have hsize := hs.size_le
  refine ⟨by omega, ?_, hperm.nodup_iff.mpr hnodup, ?_, hs.rotations_eq ?_, hs.audit_eq,
    flush_keeps s⟩
  · intro e
    rw [← hs.placed.mem_iff]
    simp
  · have hsub : s.wire.Sublist s.stamped := (List.sublist_append_left _ _).trans hs.wire_order
    exact hinc.sublist (hsub.map _)
  · have hle := (List.sublist_append_left _ _).trans hs.rotated_order |>.length_le
    exact hsmall.imp_right fun h => by omega

end Steps

/-- The capacity asked for, as a number. -/
def QueueCapacity.toInt : {lang : Lang} → QueueCapacity lang → Int
  | .cpp, capacity => (capacity : Fin (2 ^ 64)).val
  | .python, capacity => capacity

def SenderCall.stamps : SenderCall → Bool
  | .send (some _) => true
  | _ => false

section Runs

variable {lang : Lang}

theorem new_capacity (subject : String) (capacity : QueueCapacity lang) :
    ((BoundedQueue.new subject lang capacity).capacity : Int) = max capacity.toInt 1 := by
  cases lang with
  | cpp =>
    simp only [BoundedQueue.new, QueueCapacity.toInt]
    split <;> omega
  | python =>
    have hint : ∀ c : Int, ((if c > 0 then c.toNat else 1 : Nat) : Int) = max c 1 := by
      intro c
      split <;> omega
    exact hint capacity

theorem holds_new (subject : String) (capacity : QueueCapacity lang) :
    SenderHolds lang (BoundedQueue.new subject lang capacity).capacity
      (QueuedSender.new subject lang capacity) := by
  cases lang <;> constructor <;> simp [QueuedSender.new, BoundedQueue.new, stampSeq]

theorem holds_run {cap : Nat} (hc : 1 ≤ cap) (calls : List SenderCall) {s : QueuedSender}
    (hs : SenderHolds lang cap s) : SenderHolds lang cap (senderRun lang s calls) := by
  induction calls generalizing s with
  | nil => exact hs
  | cons call calls ih =>
    refine ih ?_
    cases call with
    | send payload => exact holds_send hc hs payload
    | flush accepts => exact holds_flush hs accepts

theorem flush_stamped (s : QueuedSender) (accepts : Nat → Bool) :
    (s.flush accepts).1.stamped = s.stamped := by
  obtain ⟨k, -, heq, -⟩ := @flushLoop_eq s accepts s.queue.buf.length 0 rfl
  rw [QueuedSender.flush, heq]

theorem length_stamped_run (calls : List SenderCall) (s : QueuedSender) :
    (senderRun lang s calls).stamped.length = s.stamped.length + calls.countP (·.stamps) := by
  induction calls generalizing s with
  | nil => rfl
  | cons call calls ih =>
    refine (ih _).trans ?_
    cases call with
    | send payload =>
      cases payload with
      | none => simp [SenderCall.run, QueuedSender.send, SenderCall.stamps]
      | some payload =>
        simp [SenderCall.run, QueuedSender.send, SenderCall.stamps]
        omega
    | flush accepts => simp [SenderCall.run, flush_stamped, SenderCall.stamps]

/-- After every sequence of calls the queue is within its bound, every envelope is in one place, and
those on the wire are in order. A C++ sender stamps with 64-bit numbers, which start over. -/
theorem sender_keeps_order (subject : String) (capacity : QueueCapacity lang)
    (calls : List SenderCall) (hsmall : lang = .python ∨ calls.countP (·.stamps) < 2 ^ 64) :
    SenderSafe capacity.toInt (senderRun lang (QueuedSender.new subject lang capacity) calls) := by
  have hcap := new_capacity subject capacity
  have hs := holds_run (by omega) calls (holds_new subject capacity)
  refine safe_of_holds hs hcap (hsmall.imp_right fun hlt => ?_)
  rw [length_stamped_run]
  simpa [QueuedSender.new] using hlt

/-- A queue of one that rotates, a flush that fails, and one that goes through. -/
theorem sender_keeps_order_one : SenderSafe 1 (senderRun .cpp
    (QueuedSender.new "vitals" .cpp (1 : Fin (2 ^ 64)))
    [.send (some [1]), .send (some [2]), .flush fun _ => false, .send none,
      .flush fun _ => true]) := by
  refine @sender_keeps_order .cpp "vitals" (1 : Fin (2 ^ 64)) _ (Or.inr ?_)
  decide

/-- A message is sent and flushed `n` times. -/
def wrapCalls (n : Nat) : List SenderCall :=
  (List.replicate n [.send (some []), .flush fun _ => true]).flatten

theorem wire_wrapCalls (n : Nat) : ∃ lastSeq,
    senderRun .cpp (QueuedSender.new "" .cpp (1 : Fin (2 ^ 64))) (wrapCalls n) =
      ⟨⟨1, "", [], 0, lastSeq, [], []⟩, stampSeq .cpp n,
        (List.range n).map fun i => Envelope.stamp (stampSeq .cpp i) [],
        (List.range n).map fun i => Envelope.stamp (stampSeq .cpp i) []⟩ := by
  induction n with
  | zero => exact ⟨0, rfl⟩
  | succ n ih =>
    obtain ⟨lastSeq, ih⟩ := ih
    refine ⟨lastSeq, ?_⟩
    rw [wrapCalls, List.replicate_succ', List.flatten_append, senderRun, List.foldl_append]
    rw [senderRun, wrapCalls] at ih
    rw [ih, List.range_succ, List.map_append, ← bumpSeq_stampSeq]
    rfl

/-- The 2^64-th envelope of a C++ sender is stamped 0. -/
theorem not_sender_keeps_order : ¬ SenderSafe 1
    (senderRun .cpp (QueuedSender.new "" .cpp (1 : Fin (2 ^ 64))) (wrapCalls (2 ^ 64))) := by
  intro hsafe
  obtain ⟨lastSeq, heq⟩ := wire_wrapCalls (2 ^ 64)
  have hinc := hsafe.wire_increasing
  rw [heq] at hinc
  have hlt := List.pairwise_iff_getElem.mp hinc 0 (2 ^ 64 - 1) (by simp) (by simp) (by simp)
  simp [Envelope.stamp, stampSeq] at hlt

end Runs

end Harpia
