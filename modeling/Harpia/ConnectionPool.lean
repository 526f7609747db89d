import Harpia.Lib.Threads
import Mathlib.Algebra.Order.Group.Multiset
import Mathlib.Data.Multiset.Range

namespace Harpia

/-- A connection, named by the number of connections the factory had made before it. -/
abbrev Conn := Nat

/-- The pool behind its condition variable, and the connections that were made and given up. -/
structure ConnectionPool where
  size : Int
  idle : List Conn
  out : Int
  made : Int
  opened : Nat
  gone : Multiset Conn

namespace ConnectionPool

def new (size : Int) : Except String ConnectionPool :=
  if size < 1 then .error "pool size must be at least 1" else .ok ⟨size, [], 0, 0, 0, 0⟩

def inUse (p : ConnectionPool) : Int := p.out

/-- The section of `_take` that finds a slot free; `none` while every slot is out. The inner
`none` asks for a connection to be made. -/
def take (p : ConnectionPool) : Option (ConnectionPool × Option Conn) :=
  if p.out ≥ p.size then none
  else match p.idle.getLast? with
    | some conn => some ({ p with out := p.out + 1, idle := p.idle.dropLast }, some conn)
    | none => some ({ p with out := p.out + 1, made := p.made + 1 }, none)

def giveBack (p : ConnectionPool) : Option Conn → ConnectionPool
  | none => { p with out := p.out - 1, made := p.made - 1 }
  | some conn => { p with out := p.out - 1, idle := p.idle ++ [conn] }

/-- The factory opens a connection. -/
def factory (p : ConnectionPool) : ConnectionPool × Conn :=
  ({ p with opened := p.opened + 1 }, p.opened)

/-- The section of `close`. -/
def closeIdle (p : ConnectionPool) : ConnectionPool × List Conn :=
  ({ p with idle := [], made := p.made - p.idle.length }, p.idle)

/-- A connection is closed, or is dropped without being closed. -/
def forget (p : ConnectionPool) (conns : Multiset Conn) : ConnectionPool :=
  { p with gone := p.gone + conns }

end ConnectionPool

inductive PoolCall
  | borrow
  | close
deriving Repr, DecidableEq

/-- Where a call stands: what it does next, with the connection it holds. -/
inductive PoolStage
  | take
  | check (conn : Conn)
  | discard (conn : Conn)
  | make
  | body (conn : Conn)
  | rollback (conn : Conn)
  | drop (conn : Conn)
  | giveBack (conn : Option Conn)
  | closeIdle
  | closing (conns : List Conn)
  | ended
deriving Repr, DecidableEq

/-- A call, with how many slots it took and how many it gave back. -/
structure PoolThread where
  stage : PoolStage
  taken : Nat
  given : Nat
deriving Repr, DecidableEq

/-- How the unlocked work of a call ends. A wait for a slot ends with `no` at its deadline, a
liveness check with `no` for a dead connection. -/
inductive PoolAnswer
  | yes
  | no
  | raises
deriving Repr, DecidableEq

open ConnectionPool in
/-- The sections of `borrow` and `close`. -/
def poolStep (answer : PoolAnswer) (p : ConnectionPool) (t : PoolThread) :
    Option (ConnectionPool × PoolThread) :=
  match t.stage, answer with
  | .take, answer =>
    match p.take, answer with
    | some (p', some conn), _ => some (p', { t with stage := .check conn, taken := t.taken + 1 })
    | some (p', none), _ => some (p', { t with stage := .make, taken := t.taken + 1 })
    | none, .yes => some (p, t)
    | none, _ => some (p, { t with stage := .ended })
  | .check conn, .yes => some (p, { t with stage := .body conn })
  | .check conn, .no => some (p, { t with stage := .discard conn })
  | .check conn, .raises => some (p.forget {conn}, { t with stage := .giveBack none })
  | .discard conn, _ => some (p.forget {conn}, { t with stage := .make })
  | .make, .raises => some (p, { t with stage := .giveBack none })
  | .make, _ => some (p.factory.1, { t with stage := .body p.factory.2 })
  | .body conn, .raises => some (p, { t with stage := .rollback conn })
  | .body conn, _ => some (p, { t with stage := .giveBack (some conn) })
  | .rollback conn, .raises => some (p, { t with stage := .drop conn })
  | .rollback conn, _ => some (p, { t with stage := .giveBack (some conn) })
  | .drop conn, _ => some (p.forget {conn}, { t with stage := .giveBack none })
  | .giveBack conn, _ => some (p.giveBack conn, { t with stage := .ended, given := t.given + 1 })
  | .closeIdle, _ => some (p.closeIdle.1, { t with stage := .closing p.closeIdle.2 })
  | .closing conns, _ => some (p.forget conns, { t with stage := .ended })
  | .ended, _ => none

def poolMachine : Threads.Machine ConnectionPool PoolThread PoolCall PoolAnswer where
  enter
    | .borrow => ⟨.take, 0, 0⟩
    | .close => ⟨.closeIdle, 0, 0⟩
  advance := poolStep

abbrev PoolRun := Threads ConnectionPool PoolThread

namespace PoolStage

/-- The connections in the hands of a borrower. -/
def lent : PoolStage → Multiset Conn
  | .check conn | .discard conn | .body conn | .rollback conn | .drop conn => {conn}
  | .giveBack (some conn) => {conn}
  | _ => 0

/-- The connections `close` took off the pool. -/
def leaving : PoolStage → Multiset Conn
  | .closing conns => conns
  | _ => 0

def making : PoolStage → Nat
  | .make => 1
  | _ => 0

def slots : PoolStage → Nat
  | .check _ | .discard _ | .make | .body _ | .rollback _ | .drop _ | .giveBack _ => 1
  | _ => 0

/-- How many sections of a borrow may still follow once it has a slot. -/
def rank : PoolStage → Nat
  | .check _ => 7
  | .discard _ => 6
  | .make => 5
  | .body _ => 4
  | .rollback _ => 3
  | .drop _ => 2
  | .giveBack _ => 1
  | _ => 0

theorem lent_add_making_le (t : PoolStage) : t.lent.card + t.making ≤ t.slots := by
  cases t with
  | giveBack conn => cases conn <;> simp [lent, making, slots]
  | _ => simp [lent, making, slots]

end PoolStage

namespace PoolRun

/-- The connections lent out. -/
def lent (c : PoolRun) : Multiset Conn := c.total fun t => t.stage.lent

/-- How many connections are being made. -/
def making (c : PoolRun) : Nat := c.total fun t => t.stage.making

end PoolRun

/-- What the two locked sections and the unlocked work between them can do. -/
theorem take_cases {p p' : ConnectionPool} {conn : Option Conn} (h : p.take = some (p', conn)) :
    p.out < p.size ∧
      ((∃ c, conn = some c ∧ p.idle = p'.idle ++ [c] ∧
          p' = { p with out := p.out + 1, idle := p'.idle }) ∨
        (conn = none ∧ p.idle = [] ∧ p' = { p with out := p.out + 1, made := p.made + 1 })) := by
  unfold ConnectionPool.take at h
  split at h
  next => simp at h
  next hlt =>
    refine ⟨by omega, ?_⟩
    split at h
    next c hc =>
      obtain ⟨rfl, rfl⟩ := Prod.mk.inj (Option.some.inj h)
      have happ : p.idle = p.idle.dropLast ++ [c] := by
        obtain ⟨ys, hys⟩ := List.getLast?_eq_some_iff.mp hc
        simp [hys]
      exact Or.inl ⟨c, rfl, happ, rfl⟩
    next hn =>
      obtain ⟨rfl, rfl⟩ := Prod.mk.inj (Option.some.inj h)
      exact Or.inr ⟨rfl, List.getLast?_eq_none_iff.mp hn, rfl⟩

theorem take_eq_none_iff {p : ConnectionPool} : p.take = none ↔ p.size ≤ p.out := by
  unfold ConnectionPool.take
  split
  next h => exact ⟨fun _ => h, fun _ => rfl⟩
  next h =>
    constructor
    · intro hn
      split at hn <;> simp at hn
    · intro hle
      exact absurd hle h

section Steps

variable {answer : PoolAnswer} {p p' : ConnectionPool} {t t' : PoolThread}

/-- Waiting for a slot: one is taken, the thread waits on, or the deadline has passed. -/
theorem poolStep_take (ht : t.stage = .take) (h : poolStep answer p t = some (p', t')) :
    (∃ conn, p.take = some (p', conn) ∧
        t' = ⟨(conn.elim .make .check), t.taken + 1, t.given⟩) ∨
      (p.take = none ∧ p' = p ∧ (t' = t ∨ t' = { t with stage := .ended })) := by
  obtain ⟨stage, taken, given⟩ := t
  subst ht
  simp only [poolStep] at h
  split at h
  next q conn hq => 
    obtain ⟨rfl, rfl⟩ := Prod.mk.inj (Option.some.inj h)
    exact Or.inl ⟨some conn, hq, rfl⟩
  next q hq => 
    obtain ⟨rfl, rfl⟩ := Prod.mk.inj (Option.some.inj h)
    exact Or.inl ⟨none, hq, rfl⟩
  next hq => 
    obtain ⟨rfl, rfl⟩ := Prod.mk.inj (Option.some.inj h)
    exact Or.inr ⟨hq, rfl, Or.inl rfl⟩
  next hq _ => 
    obtain ⟨rfl, rfl⟩ := Prod.mk.inj (Option.some.inj h)
    exact Or.inr ⟨hq, rfl, Or.inr rfl⟩

theorem poolStep_slots (h : poolStep answer p t = some (p', t')) :
    (0 : Int) + t'.stage.slots + p.out = 0 + t.stage.slots + p'.out := by
  obtain ⟨stage, taken, given⟩ := t
  cases stage with
  | take =>
    rcases poolStep_take rfl h with ⟨conn, hp, rfl⟩ | ⟨-, rfl, rfl | rfl⟩
    · obtain ⟨-, ⟨c, rfl, -, hp'⟩ | ⟨rfl, -, hp'⟩⟩ := take_cases hp
      · rw [hp']
        simp [PoolStage.slots]
        omega
      · rw [hp']
        simp [PoolStage.slots]
        omega
    · rfl
    · rfl
  | ended => simp [poolStep] at h
  | giveBack conn =>
    cases conn <;> cases answer <;> obtain ⟨rfl, rfl⟩ := Prod.mk.inj (Option.some.inj h) <;>
      simp [PoolStage.slots, ConnectionPool.giveBack]
  | _ =>
    cases answer <;> obtain ⟨rfl, rfl⟩ := Prod.mk.inj (Option.some.inj h) <;>
      simp [PoolStage.slots, ConnectionPool.forget, ConnectionPool.factory, ConnectionPool.closeIdle]

/-- Every connection that was opened is idle, in a call's hands, or given up. -/
theorem poolStep_conns (h : poolStep answer p t = some (p', t')) :
    ↑p'.idle + p'.gone + (t'.stage.lent + t'.stage.leaving) + Multiset.range p.opened =
      ↑p.idle + p.gone + (t.stage.lent + t.stage.leaving) + Multiset.range p'.opened := by
  obtain ⟨stage, taken, given⟩ := t
  cases stage with
  | take =>
    rcases poolStep_take rfl h with ⟨conn, hp, rfl⟩ | ⟨-, rfl, rfl | rfl⟩
    · obtain ⟨-, ⟨c, rfl, hidle, hp'⟩ | ⟨rfl, hidle, hp'⟩⟩ := take_cases hp
      · have hadd : (↑p.idle : Multiset Conn) = ↑p'.idle + {c} := by
          rw [hidle, ← Multiset.coe_add, Multiset.coe_singleton]
        rw [hadd, hp']
        simp only [Option.elim_some, PoolStage.lent, PoolStage.leaving]
        abel
      · rw [hp']
        rfl
    · rfl
    · rfl
  | ended => simp [poolStep] at h
  | giveBack conn =>
    cases conn <;> cases answer <;> obtain ⟨rfl, rfl⟩ := Prod.mk.inj (Option.some.inj h) <;>
      simp only [PoolStage.lent, PoolStage.leaving, ConnectionPool.giveBack, ← Multiset.coe_add,
        Multiset.coe_singleton] <;> abel
  | make =>
    cases answer <;> obtain ⟨rfl, rfl⟩ := Prod.mk.inj (Option.some.inj h) <;>
      simp only [PoolStage.lent, PoolStage.leaving, ConnectionPool.factory, Multiset.range_succ,
        ← Multiset.singleton_add] <;> abel
  | _ =>
    cases answer <;> obtain ⟨rfl, rfl⟩ := Prod.mk.inj (Option.some.inj h) <;>
      simp only [PoolStage.lent, PoolStage.leaving, ConnectionPool.forget,
        ConnectionPool.closeIdle, Multiset.coe_nil] <;> abel

/-- The counters of the pool. -/
structure PoolCounts (size : Int) (p : ConnectionPool) : Prop where
  size_eq : p.size = size
  made_eq : p.made = p.idle.length + p.out
  made_le : p.made ≤ size

theorem poolStep_counts {size : Int} (hp : PoolCounts size p)
    (h : poolStep answer p t = some (p', t')) : PoolCounts size p' := by
  obtain ⟨hsize, hmade, hle⟩ := hp
  obtain ⟨stage, taken, given⟩ := t
  cases stage with
  | take =>
    rcases poolStep_take rfl h with ⟨conn, hp, -⟩ | ⟨-, rfl, -⟩
    · obtain ⟨hlt, ⟨c, rfl, hidle, hp'⟩ | ⟨rfl, hidle, hp'⟩⟩ := take_cases hp
      · have hlen : p.idle.length = p'.idle.length + 1 := by simp [hidle]
        rw [hp']
        exact ⟨hsize, by simp only; omega, hle⟩
      · have hlen : p.idle.length = 0 := by simp [hidle]
        rw [hp']
        exact ⟨hsize, by simp only; omega, by simp only; omega⟩
    · exact ⟨hsize, hmade, hle⟩
  | ended => simp [poolStep] at h
  | giveBack conn =>
    cases conn <;> cases answer <;> obtain ⟨rfl, rfl⟩ := Prod.mk.inj (Option.some.inj h) <;>
      refine ⟨hsize, ?_, ?_⟩ <;> simp [ConnectionPool.giveBack] <;> omega
  | closeIdle =>
    cases answer <;> obtain ⟨rfl, rfl⟩ := Prod.mk.inj (Option.some.inj h) <;>
      refine ⟨hsize, ?_, ?_⟩ <;> simp [ConnectionPool.closeIdle] <;> omega
  | _ =>
    cases answer <;> obtain ⟨rfl, rfl⟩ := Prod.mk.inj (Option.some.inj h) <;>
      exact ⟨hsize, hmade, hle⟩

/-- A call has one slot between the two locked sections of `borrow`, and none outside them. -/
def PoolThread.Accounted (t : PoolThread) : Prop :=
  t.taken = t.given + t.stage.slots ∧ t.taken ≤ 1 ∧
    (t.stage = .take ∨ t.stage = .closeIdle → t.taken = 0)

theorem poolStep_accounted (ht : t.Accounted) (h : poolStep answer p t = some (p', t')) :
    t'.Accounted := by
  obtain ⟨stage, taken, given⟩ := t
  obtain ⟨hslot, hone, hfirst⟩ := ht
  cases stage with
  | take =>
    have hzero : taken = 0 := hfirst (Or.inl rfl)
    rcases poolStep_take rfl h with ⟨conn, -, rfl⟩ | ⟨-, -, rfl | rfl⟩
    · cases conn <;> simp_all [PoolThread.Accounted, PoolStage.slots]
    · exact ⟨hslot, hone, hfirst⟩
    · simp_all [PoolThread.Accounted, PoolStage.slots]
  | ended => simp [poolStep] at h
  | _ =>
    cases answer <;> obtain ⟨rfl, rfl⟩ := Prod.mk.inj (Option.some.inj h) <;>
      simp_all [PoolThread.Accounted, PoolStage.slots]

/-- A call that has a slot is never stuck, and each of its sections brings its end nearer. -/
theorem poolStep_progress (ht : 0 < t.stage.slots) (answer : PoolAnswer) (p : ConnectionPool) :
    ∃ p' t', poolStep answer p t = some (p', t') ∧ t'.stage.rank < t.stage.rank := by
  obtain ⟨stage, taken, given⟩ := t
  cases stage with
  | take => simp [PoolStage.slots] at ht
  | ended => simp [PoolStage.slots] at ht
  | closeIdle => simp [PoolStage.slots] at ht
  | closing conns => simp [PoolStage.slots] at ht
  | _ => cases answer <;> exact ⟨_, _, rfl, by simp [PoolStage.rank]⟩

end Steps

section Runs

variable {size : Int} {p : ConnectionPool} {es : List (Threads.Event PoolCall PoolAnswer)}
  {c : PoolRun}

theorem new_eq (h : ConnectionPool.new size = .ok p) : p = ⟨size, [], 0, 0, 0, 0⟩ ∧ 1 ≤ size := by
  unfold ConnectionPool.new at h
  split at h
  next => cases h
  next hsize => exact ⟨(Except.ok.inj h).symm, by omega⟩

theorem run_counts (hp : ConnectionPool.new size = .ok p)
    (h : Threads.run poolMachine ⟨p, []⟩ es = some c) : PoolCounts size c.shared := by
  obtain ⟨rfl, hsize⟩ := new_eq hp
  refine Threads.run_keeps (I := fun c => PoolCounts size c.shared) ?_ ?_ ?_ h
  · exact fun c call hc => hc
  · exact fun c i t e s t' _ hc _ hs => poolStep_counts hc hs
  · exact ⟨rfl, rfl, by simp only; omega⟩

theorem run_slots (hp : ConnectionPool.new size = .ok p)
    (h : Threads.run poolMachine ⟨p, []⟩ es = some c) :
    c.total (fun t => (t.stage.slots : Int)) = c.shared.out := by
  obtain ⟨rfl, -⟩ := new_eq hp
  have hbal := Threads.run_balance (w := fun t : PoolThread => (t.stage.slots : Int))
    (m := poolMachine) (fun _ => 0) ConnectionPool.out ?_ ?_ ?_ h
  · simpa using hbal
  · intro call
    cases call <;> rfl
  · exact fun e s t s' t' hs => poolStep_slots hs
  · rfl

theorem run_conns (hp : ConnectionPool.new size = .ok p)
    (h : Threads.run poolMachine ⟨p, []⟩ es = some c) :
    ↑c.shared.idle + c.shared.gone + c.total (fun t => t.stage.lent + t.stage.leaving) =
      Multiset.range c.shared.opened := by
  obtain ⟨rfl, -⟩ := new_eq hp
  refine Threads.run_balance (m := poolMachine)
    (fun p : ConnectionPool => (↑p.idle + p.gone : Multiset Conn))
    (fun p => Multiset.range p.opened) ?_ ?_ ?_ h
  · intro call
    cases call <;> rfl
  · exact fun e s t s' t' hs => poolStep_conns hs
  · rfl

theorem run_accounted (h : Threads.run poolMachine ⟨p, []⟩ es = some c) :
    ∀ t ∈ c.locals, t.Accounted := by
  refine Threads.run_keeps_each (m := poolMachine) ?_ ?_ ?_ h
  · intro call
    cases call <;> simp [PoolThread.Accounted, poolMachine, PoolStage.slots]
  · exact fun i e s t s' t' _ ht hs => poolStep_accounted ht hs
  · exact fun t ht => absurd ht List.not_mem_nil

/-- A connection in a borrower's hands is neither idle nor in another's hands. -/
theorem run_apart (hp : ConnectionPool.new size = .ok p)
    (h : Threads.run poolMachine ⟨p, []⟩ es = some c) : (↑c.shared.idle + c.lent).Nodup := by
  have hconns := run_conns hp h
  have hsplit : c.total (fun t => t.stage.lent + t.stage.leaving) =
      c.lent + c.total (fun t => t.stage.leaving) := List.sum_map_add
  have hle : ↑c.shared.idle + c.lent ≤ Multiset.range c.shared.opened := by
    rw [← hconns, hsplit]
    exact add_le_add (Multiset.le_add_right _ _) (Multiset.le_add_right _ _)
  exact Multiset.nodup_of_le hle (Multiset.nodup_range _)

theorem lent_add_making_le_slots (c : PoolRun) :
    (c.lent.card + c.making : Int) ≤ c.total fun t => (t.stage.slots : Int) := by
  obtain ⟨p, ts⟩ := c
  simp only [PoolRun.lent, PoolRun.making, Threads.total]
  induction ts with
  | nil => simp
  | cons t ts ih =>
    have ht := t.stage.lent_add_making_le
    simp only [List.map_cons, List.sum_cons, Multiset.card_add]
    omega

/-- What holds of the pool and its borrowers at every moment of a run. -/
structure PoolSafe (size : Int) (c : PoolRun) : Prop where
  lent_le : (c.lent.card : Int) ≤ size
  exist_le : (c.shared.idle.length + c.lent.card + c.making : Int) ≤ size
  apart : (↑c.shared.idle + c.lent).Nodup
  given_once : ∀ t ∈ c.locals, t.given ≤ t.taken ∧ t.taken ≤ 1 ∧
    (t.stage = .ended → t.given = t.taken)
  given_next : ∀ t ∈ c.locals, t.given < t.taken → ∀ answer, ∃ p' t',
    poolStep answer c.shared t = some (p', t') ∧ t'.stage.rank < t.stage.rank
  waits : c.shared.take = none → c.total (fun t => (t.stage.slots : Int)) = size

theorem run_safe (hp : ConnectionPool.new size = .ok p)
    (h : Threads.run poolMachine ⟨p, []⟩ es = some c) : PoolSafe size c := by
  have hcounts := run_counts hp h
  have hslots := run_slots hp h
  have hlent := lent_add_making_le_slots c
  have hacc := run_accounted h
  have hmade := hcounts.made_eq
  have hle := hcounts.made_le
  refine ⟨by omega, by omega, run_apart hp h, ?_, ?_, ?_⟩
  · intro t ht
    obtain ⟨hslot, hone, -⟩ := hacc t ht
    refine ⟨by omega, hone, ?_⟩
    intro hend
    simpa [hend, PoolStage.slots] using hslot.symm
  · intro t ht hlt answer
    have hslot := (hacc t ht).1
    exact poolStep_progress (by omega) answer c.shared
  · intro hnone
    have hout := take_eq_none_iff.mp hnone
    rw [hcounts.size_eq] at hout
    omega

/-- `n` further calls of `borrow`, each of which gets as far as its slot. -/
def furtherBorrows (first : Nat) : Nat → List (Threads.Event PoolCall PoolAnswer)
  | 0 => []
  | n + 1 => .start .borrow :: .step first .yes :: furtherBorrows (first + 1) n

theorem run_furtherBorrows {n : Nat} (hn : c.shared.out + n ≤ c.shared.size) :
    ∃ d ts, c.run poolMachine (furtherBorrows c.locals.length n) = some d ∧
      d.locals = c.locals ++ ts ∧ ts.length = n ∧ ∀ t ∈ ts, t.taken = 1 ∧ t.given = 0 := by
  induction n generalizing c with
  | zero => exact ⟨c, [], rfl, by simp⟩
  | succ n ih =>
    have hfree : ¬ c.shared.size ≤ c.shared.out := by omega
    obtain ⟨⟨q, conn⟩, hq⟩ := Option.ne_none_iff_exists'.mp (mt take_eq_none_iff.mp hfree)
    let t : PoolThread := ⟨conn.elim .make .check, 1, 0⟩
    have hstep : poolStep .yes c.shared ⟨.take, 0, 0⟩ = some (q, t) := by
      cases conn <;> simp [poolStep, hq, t]
    have hout : q.out + n ≤ q.size := by
      rcases (take_cases hq).2 with ⟨_, -, -, hq'⟩ | ⟨-, -, hq'⟩
      · rw [hq']
        simp only
        omega
      · rw [hq']
        simp only
        omega
    obtain ⟨d, ts, hd, hlocals, hlen, hts⟩ := ih (c := ⟨q, c.locals ++ [t]⟩) hout
    refine ⟨d, t :: ts, ?_, by simpa using hlocals, by simp [hlen], ?_⟩
    · simpa [furtherBorrows, Threads.run, Threads.next, poolMachine, hstep] using hd
    · exact List.forall_mem_cons.mpr ⟨⟨rfl, rfl⟩, hts⟩

/-- Whatever raises and whenever the pool is closed, the pool lends at most `size` connections, lends
none twice, and has every slot back when the calls have ended. -/
theorem pool_keeps_slots (hp : ConnectionPool.new size = .ok p)
    (h : Threads.run poolMachine ⟨p, []⟩ es = some c) :
    PoolSafe size c ∧ ((∀ t ∈ c.locals, t.stage = .ended) → c.shared.inUse = 0 ∧
      ∃ d ts, c.run poolMachine (furtherBorrows c.locals.length size.toNat) = some d ∧
        d.locals = c.locals ++ ts ∧ ts.length = size ∧ ∀ t ∈ ts, t.taken = 1 ∧ t.given = 0) := by
  refine ⟨run_safe hp h, fun hend => ?_⟩
  have hcounts := run_counts hp h
  have hsize := (new_eq hp).2
  have hout : c.shared.out = 0 := by
    rw [← run_slots hp h]
    refine List.sum_eq_zero fun x hx => ?_
    obtain ⟨t, ht, rfl⟩ := List.mem_map.mp hx
    simp [hend t ht, PoolStage.slots]
  refine ⟨hout, ?_⟩
  obtain ⟨d, ts, hd, hlocals, hlen, hts⟩ := run_furtherBorrows (c := c) (n := size.toNat)
    (by rw [hcounts.size_eq]; omega)
  exact ⟨d, ts, hd, hlocals, by omega, hts⟩

/-- Two threads on a pool of one connection: the second waits while the first rolls back, and the
connection it is then lent turns out dead. -/
def sharedSchedule : List (Threads.Event PoolCall PoolAnswer) :=
  [.start .borrow, .step 0 .yes, .start .borrow, .step 1 .yes, .step 0 .yes, .step 0 .raises,
    .step 0 .yes, .step 0 .yes, .step 1 .yes, .step 1 .no, .start .close, .step 2 .yes,
    .step 1 .yes, .step 1 .yes, .step 1 .yes, .step 1 .yes, .step 2 .yes]

theorem pool_keeps_slots_shared : ∃ p c, ConnectionPool.new 1 = .ok p ∧
    Threads.run poolMachine ⟨p, []⟩ sharedSchedule = some c ∧ PoolSafe 1 c ∧
      c.shared.inUse = 0 := by
  refine ⟨_, _, rfl, rfl, ?_, ?_⟩
  · exact (@pool_keeps_slots 1 ⟨1, [], 0, 0, 0, 0⟩ sharedSchedule _ rfl rfl).1
  · rfl

end Runs

end Harpia
