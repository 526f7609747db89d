import Mathlib.Data.List.Nodup
import Mathlib.Logic.Function.Basic

namespace Harpia

/-- How `commit` or `rollback` of a connection ends. When it raises, the transaction is still open
or is lost. -/
inductive ConnEnd
  | returns
  | raisesOpen
  | raisesLost
deriving Repr, DecidableEq

/-- Where the operations of one context stand: between them, in the `with self._tx()` block of one
(made while the `inside`-th action was running, if any), or in an after-commit action. -/
inductive TxStage
  | idle
  | body (outer : Bool) (conn : Nat) (inside : Option Nat)
  | action (i : Nat)
deriving Repr, DecidableEq

/-- What happens next. An operation begins and opens its cursor; a row write ends, with an action to
queue; the block ends and the connection commits or rolls back; the running action ends. -/
inductive TxEvent
  | enter (conn : Nat) (cursorRaises : Bool)
  | write (queues : Bool)
  | leave (raises : Bool) (answer : ConnEnd)
  | actionEnds (raises : Bool)
deriving Repr, DecidableEq

/-- The context: `_AFTER_COMMIT` holds `pending`. Actions are numbered in the order they are queued
in; `opened` has those of the transaction now open on a connection, `committed` those of each
transaction that committed, `ran` those that were called. -/
structure TxContext where
  pending : Option (List Nat)
  stage : TxStage
  fresh : Nat
  opened : Nat → List Nat
  committed : List (List Nat)
  rolledBack : List Nat
  ran : List Nat

namespace TxContext

def init : TxContext := ⟨none, .idle, 0, fun _ => [], [], [], []⟩

/-- `_after_commit`: the action is called at once when no transaction runs in the context. -/
def afterCommit (s : TxContext) (conn : Nat) : TxContext :=
  let s' := { s with
    fresh := s.fresh + 1
    opened := Function.update s.opened conn (s.opened conn ++ [s.fresh]) }
  match s.pending with
  | none => { s' with ran := s.ran ++ [s.fresh] }
  | some pending => { s' with pending := some (pending ++ [s.fresh]) }

def commit (s : TxContext) (conn : Nat) : TxContext :=
  { s with
    committed := s.committed ++ [s.opened conn]
    opened := Function.update s.opened conn [] }

def rollback (s : TxContext) (conn : Nat) : TxContext :=
  { s with
    rolledBack := s.rolledBack ++ s.opened conn
    opened := Function.update s.opened conn [] }

/-- The block of an operation is left: the `finally` of the outermost one resets the list. -/
def reset (s : TxContext) (outer : Bool) (inside : Option Nat) : TxContext :=
  { s with
    pending := if outer then none else s.pending
    stage := inside.elim .idle .action }

/-- The `for` loop over the pending actions calls the `i`-th one, or ends. -/
def loop (s : TxContext) (i : Nat) : TxContext :=
  match (s.pending.getD [])[i]? with
  | some a => { s with stage := .action i, ran := s.ran ++ [a] }
  | none => s.reset true none

/-- `_tx` sets the list when there is none and only then opens the cursor, before its `try`. -/
def enter (s : TxContext) (conn : Nat) (cursorRaises : Bool) (inside : Option Nat) : TxContext :=
  let outer := s.pending.isNone
  let s' := if outer then { s with pending := some [] } else s
  if cursorRaises then s' else { s' with stage := .body outer conn inside }

/-- The `except` and `else` of `_tx`. A commit that raises is not rolled back. -/
def leave (s : TxContext) (outer : Bool) (conn : Nat) (inside : Option Nat) (raises : Bool)
    (answer : ConnEnd) : TxContext :=
  match raises, answer with
  | true, .returns => (s.rollback conn).reset outer inside
  | false, .returns =>
    if outer then (s.commit conn).loop 0 else (s.commit conn).reset outer inside
  | _, .raisesOpen => s.reset outer inside
  | _, .raisesLost => (s.rollback conn).reset outer inside

end TxContext

open TxContext in
def txStep (s : TxContext) (e : TxEvent) : Option TxContext :=
  match s.stage, e with
  | .idle, .enter conn cursorRaises => some (s.enter conn cursorRaises none)
  | .action i, .enter conn cursorRaises => some (s.enter conn cursorRaises (some i))
  | .body _ conn _, .write queues => some (if queues then s.afterCommit conn else s)
  | .body outer conn inside, .leave raises answer =>
    some (s.leave outer conn inside raises answer)
  | .action i, .actionEnds raises => some (if raises then s.reset true none else s.loop (i + 1))
  | _, _ => none

/-- A run of the operations of one context. -/
def txRun (s : TxContext) : List TxEvent → Option TxContext
  | [] => some s
  | e :: es => (txStep s e).bind fun s' => txRun s' es

/-- An action of a transaction that committed is called once and in its place; while the context is
between operations every one has been. One whose transaction rolled back, or is still open, is not
called. -/
def RunsOnce (s : TxContext) : Prop :=
  (∀ t ∈ s.committed, s.ran.filter (· ∈ t) <+: t ∧ (s.stage = .idle → s.ran.filter (· ∈ t) = t)) ∧
    ∀ a, (a ∈ s.rolledBack ∨ ∃ conn, a ∈ s.opened conn) → a ∉ s.ran

/-- A step on which the list of pending actions stays in order. The cursor of an outermost operation
opens. An operation that fails has queued nothing, or is outermost and its transaction is not left
open. An action that raises is the last one. -/
def CleanStep (s : TxContext) : TxEvent → Prop
  | .enter _ cursorRaises => cursorRaises = true → s.pending ≠ none
  | .write _ => True
  | .leave raises answer =>
    ∀ outer conn inside, s.stage = .body outer conn inside →
      (raises = false ∧ answer = .returns) ∨ s.opened conn = [] ∨
        (outer = true ∧ answer ≠ .raisesOpen)
  | .actionEnds raises =>
    raises = true → ∀ i, s.stage = .action i → (s.pending.getD []).length ≤ i + 1

/-- A run whose steps are all clean. -/
inductive CleanRun : TxContext → List TxEvent → TxContext → Prop
  | nil (s : TxContext) : CleanRun s [] s
  | cons {s s' s'' : TxContext} {e : TxEvent} {es : List TxEvent} (clean : CleanStep s e)
      (step : txStep s e = some s') (rest : CleanRun s' es s'') : CleanRun s (e :: es) s''

/-- The actions queued so far: `now` in the transaction that is open, `left` still to be called. -/
structure TxLedger (s : TxContext) (now left : List Nat) : Prop where
  sorted : (s.committed.flatten ++ now).Pairwise (· < ·)
  below : ∀ a ∈ s.committed.flatten ++ now, a < s.fresh
  rolled : ∀ a ∈ s.rolledBack, a < s.fresh ∧ a ∉ s.committed.flatten ++ now
  ran_eq : s.ran ++ left = s.committed.flatten ++ now

/-- Where a context stands after clean steps. -/
inductive TxPhase (s : TxContext) : Prop
  | idle (hs : s.stage = .idle) (hp : s.pending = none) (ho : s.opened = fun _ => [])
      (hl : TxLedger s [] [])
  | outer {conn : Nat} {now : List Nat} (hs : s.stage = .body true conn none)
      (hp : s.pending = some now) (ho : s.opened = Function.update (fun _ => []) conn now)
      (hl : TxLedger s now now)
  | nested {conn i : Nat} {pending now : List Nat} (hs : s.stage = .body false conn (some i))
      (hp : s.pending = some pending) (hi : i < pending.length)
      (hnow : now <:+ pending.drop (i + 1))
      (ho : s.opened = Function.update (fun _ => []) conn now)
      (hl : TxLedger s now (pending.drop (i + 1)))
  | action {i : Nat} {pending : List Nat} (hs : s.stage = .action i)
      (hp : s.pending = some pending) (hi : i < pending.length) (ho : s.opened = fun _ => [])
      (hl : TxLedger s [] (pending.drop (i + 1)))

section Ledger

variable {s : TxContext} {now left : List Nat}

theorem ledger_queue (hl : TxLedger s now left) {s' : TxContext} (hr : s'.ran = s.ran)
    (hc : s'.committed = s.committed) (hb : s'.rolledBack = s.rolledBack)
    (hf : s'.fresh = s.fresh + 1) : TxLedger s' (now ++ [s.fresh]) (left ++ [s.fresh]) := by
  refine ⟨?_, ?_, ?_, ?_⟩
  · rw [hc, ← List.append_assoc]
    refine List.pairwise_append.mpr ⟨hl.sorted, List.pairwise_singleton _ _, ?_⟩
    intro a ha b hb
    rw [List.mem_singleton.mp hb]
    exact hl.below a ha
  · intro a ha
    rw [hc, ← List.append_assoc] at ha
    rw [hf]
    rcases List.mem_append.mp ha with ha | ha
    · have hlt := hl.below a ha
      omega
    · rw [List.mem_singleton.mp ha]
      omega
  · intro a ha
    rw [hb] at ha
    obtain ⟨hlt, hnot⟩ := hl.rolled a ha
    refine ⟨by omega, ?_⟩
    rw [hc, ← List.append_assoc]
    intro hm
    rcases List.mem_append.mp hm with hm | hm
    · exact hnot hm
    · rw [List.mem_singleton.mp hm] at hlt
      omega
  · rw [hr, hc, ← List.append_assoc, hl.ran_eq, List.append_assoc]

theorem ledger_commit (hl : TxLedger s now left) {s' : TxContext} (hr : s'.ran = s.ran)
    (hc : s'.committed = s.committed ++ [now]) (hb : s'.rolledBack = s.rolledBack)
    (hf : s'.fresh = s.fresh) : TxLedger s' [] left := by
  have hflat : s'.committed.flatten ++ [] = s.committed.flatten ++ now := by simp [hc]
  refine ⟨?_, ?_, ?_, ?_⟩
  · rw [hflat]
    exact hl.sorted
  · rw [hflat, hf]
    exact hl.below
  · rw [hflat, hb, hf]
    exact hl.rolled
  · rw [hflat, hr]
    exact hl.ran_eq

theorem ledger_rollback (hl : TxLedger s now now) {s' : TxContext} (hr : s'.ran = s.ran)
    (hc : s'.committed = s.committed) (hb : s'.rolledBack = s.rolledBack ++ now)
    (hf : s'.fresh = s.fresh) : TxLedger s' [] [] := by
  obtain ⟨hsorted, -, hcross⟩ := List.pairwise_append.mp hl.sorted
  refine ⟨?_, ?_, ?_, ?_⟩
  · rw [hc, List.append_nil]
    exact hsorted
  · intro a ha
    rw [hc, List.append_nil] at ha
    rw [hf]
    exact hl.below a (List.mem_append_left _ ha)
  · intro a ha
    rw [hb] at ha
    rw [hc, hf, List.append_nil]
    rcases List.mem_append.mp ha with ha | ha
    · obtain ⟨hlt, hnot⟩ := hl.rolled a ha
      exact ⟨hlt, fun hm => hnot (List.mem_append_left _ hm)⟩
    · refine ⟨hl.below a (List.mem_append_right _ ha), fun hm => ?_⟩
      exact absurd (hcross a hm a ha) (Nat.lt_irrefl a)
  · rw [hr, hc, List.append_nil, List.append_nil]
    exact List.append_cancel_right hl.ran_eq

/-- The loop goes on with the actions that are left. -/
theorem phase_loop {pending : List Nat} {i : Nat} (hp : s.pending = some pending)
    (ho : s.opened = fun _ => []) (hl : TxLedger s [] (pending.drop i)) : TxPhase (s.loop i) := by
  unfold TxContext.loop
  rw [hp]
  cases ha : pending[i]? with
  | none =>
    have hnil : pending.drop i = [] := List.drop_eq_nil_of_le (List.getElem?_eq_none_iff.mp ha)
    rw [hnil] at hl
    simp only [Option.getD_some, ha]
    exact .idle rfl rfl ho ⟨hl.sorted, hl.below, hl.rolled, hl.ran_eq⟩
  | some a =>
    obtain ⟨hi, hget⟩ := List.getElem?_eq_some_iff.mp ha
    have hdrop : pending.drop i = a :: pending.drop (i + 1) := by
      rw [← hget]
      exact List.drop_eq_getElem_cons hi
    simp only [Option.getD_some, ha]
    refine .action rfl rfl hi ho ⟨hl.sorted, hl.below, hl.rolled, ?_⟩
    rw [← hl.ran_eq, hdrop]
    simp

theorem update_opened (conn : Nat) (now more : List Nat) :
    Function.update (Function.update (fun _ => ([] : List Nat)) conn now) conn more =
      Function.update (fun _ => []) conn more := Function.update_idem _ _ _

theorem update_opened_nil (conn : Nat) (now : List Nat) :
    Function.update (Function.update (fun _ => ([] : List Nat)) conn now) conn [] = fun _ => [] := by
  rw [update_opened]
  exact Function.update_eq_self conn fun _ => []

theorem phase_enter_idle (hp : s.pending = none) (ho : s.opened = fun _ => [])
    (hl : TxLedger s [] []) (conn : Nat) :
    TxPhase (s.enter conn false none) := by
  have hopen : s.opened = Function.update (fun _ => []) conn [] := by
    rw [ho]
    exact (Function.update_eq_self conn fun _ => []).symm
  unfold TxContext.enter
  rw [hp]
  exact .outer rfl rfl hopen ⟨hl.sorted, hl.below, hl.rolled, hl.ran_eq⟩

theorem phase_enter_action {i : Nat} {pending : List Nat} (hs : s.stage = .action i)
    (hp : s.pending = some pending) (hi : i < pending.length) (ho : s.opened = fun _ => [])
    (hl : TxLedger s [] (pending.drop (i + 1))) (conn : Nat) (cursorRaises : Bool) :
    TxPhase (s.enter conn cursorRaises (some i)) := by
  have hopen : s.opened = Function.update (fun _ => []) conn [] := by
    rw [ho]
    exact (Function.update_eq_self conn fun _ => []).symm
  unfold TxContext.enter
  cases cursorRaises with
  | true => simpa [hp] using TxPhase.action hs hp hi ho hl
  | false =>
    simp only [hp, Option.isNone_some, Bool.false_eq_true, if_false]
    exact .nested rfl rfl hi (List.nil_suffix) hopen ⟨hl.sorted, hl.below, hl.rolled, hl.ran_eq⟩

theorem phase_leave_outer {conn : Nat} (hs : s.stage = .body true conn none)
    (hp : s.pending = some now) (ho : s.opened = Function.update (fun _ => []) conn now)
    (hl : TxLedger s now now) {raises : Bool} {answer : ConnEnd}
    (hclean : CleanStep s (.leave raises answer)) :
    TxPhase (s.leave true conn none raises answer) := by
  have hconn : s.opened conn = now := by simp [ho]
  have hback : TxPhase ((s.rollback conn).reset true none) := by
    refine .idle rfl rfl ?_ (ledger_rollback hl rfl rfl ?_ rfl)
    · show Function.update s.opened conn [] = _
      rw [ho]
      exact update_opened_nil conn now
    · show s.rolledBack ++ s.opened conn = _
      rw [hconn]
  have hopen : answer = .raisesOpen → TxPhase (s.reset true none) := by
    intro hanswer
    have hnil : now = [] := by
      rcases hclean true conn none hs with ⟨-, h⟩ | h | ⟨-, h⟩
      · simp [hanswer] at h
      · exact hconn.symm.trans h
      · exact absurd hanswer h
    subst hnil
    refine .idle rfl rfl ?_ ⟨hl.sorted, hl.below, hl.rolled, hl.ran_eq⟩
    show s.opened = _
    rw [ho]
    exact Function.update_eq_self conn fun _ => []
  cases answer with
  | returns =>
    cases raises with
    | true => exact hback
    | false =>
      refine phase_loop (i := 0) hp ?_ (ledger_commit hl rfl ?_ rfl rfl)
      · show Function.update s.opened conn [] = _
        rw [ho]
        exact update_opened_nil conn now
      · show s.committed ++ [s.opened conn] = _
        rw [hconn]
  | raisesOpen => cases raises <;> exact hopen rfl
  | raisesLost => cases raises <;> exact hback

theorem phase_leave_nested {conn i : Nat} {pending : List Nat}
    (hs : s.stage = .body false conn (some i)) (hp : s.pending = some pending)
    (hi : i < pending.length) (ho : s.opened = Function.update (fun _ => []) conn now)
    (hl : TxLedger s now (pending.drop (i + 1))) {raises : Bool} {answer : ConnEnd}
    (hclean : CleanStep s (.leave raises answer)) :
    TxPhase (s.leave false conn (some i) raises answer) := by
  have hconn : s.opened conn = now := by simp [ho]
  have hclear : Function.update s.opened conn [] = fun _ => [] := by
    rw [ho]
    exact update_opened_nil conn now
  by_cases hcommit : raises = false ∧ answer = .returns
  · obtain ⟨rfl, rfl⟩ := hcommit
    refine .action rfl hp hi hclear (ledger_commit hl rfl ?_ rfl rfl)
    show s.committed ++ [s.opened conn] = _
    rw [hconn]
  · -- an operation that fails inside an action has queued nothing, so nothing changes hands
    have hnil : now = [] := by
      rcases hclean false conn (some i) hs with h | h | ⟨h, -⟩
      · exact absurd h hcommit
      · exact hconn.symm.trans h
      · cases h
    subst hnil
    have hstay : s.opened = fun _ => [] := by
      rw [ho]
      exact Function.update_eq_self conn fun _ => []
    have hopen : TxPhase (s.reset false (some i)) :=
      .action rfl hp hi hstay ⟨hl.sorted, hl.below, hl.rolled, hl.ran_eq⟩
    have hback : TxPhase ((s.rollback conn).reset false (some i)) := by
      refine .action rfl hp hi hclear ⟨hl.sorted, hl.below, ?_, hl.ran_eq⟩
      show ∀ a ∈ s.rolledBack ++ s.opened conn, _
      rw [hconn, List.append_nil]
      exact hl.rolled
    cases answer with
    | returns =>
      cases raises with
      | true => exact hback
      | false => exact absurd ⟨rfl, rfl⟩ hcommit
    | raisesOpen => cases raises <;> exact hopen
    | raisesLost => cases raises <;> exact hback

theorem phase_write_outer {conn : Nat} (hs : s.stage = .body true conn none)
    (hp : s.pending = some now) (ho : s.opened = Function.update (fun _ => []) conn now)
    (hl : TxLedger s now now) : TxPhase (s.afterCommit conn) := by
  unfold TxContext.afterCommit
  rw [hp]
  refine .outer hs rfl ?_ (ledger_queue hl rfl rfl rfl rfl)
  show Function.update s.opened conn (s.opened conn ++ [s.fresh]) = _
  rw [ho, update_opened, Function.update_self]

theorem phase_write_nested {conn i : Nat} {pending : List Nat}
    (hs : s.stage = .body false conn (some i)) (hp : s.pending = some pending)
    (hi : i < pending.length) (hnow : now <:+ pending.drop (i + 1))
    (ho : s.opened = Function.update (fun _ => []) conn now)
    (hl : TxLedger s now (pending.drop (i + 1))) : TxPhase (s.afterCommit conn) := by
  have hdrop : (pending ++ [s.fresh]).drop (i + 1) = pending.drop (i + 1) ++ [s.fresh] :=
    List.drop_append_of_le_length (by omega)
  unfold TxContext.afterCommit
  rw [hp]
  refine @TxPhase.nested _ conn i (pending ++ [s.fresh]) (now ++ [s.fresh]) hs rfl ?_ ?_ ?_ ?_
  · simp only [List.length_append]
    omega
  · obtain ⟨before, hbefore⟩ := hnow
    exact ⟨before, by rw [hdrop, ← hbefore, List.append_assoc]⟩
  · show Function.update s.opened conn (s.opened conn ++ [s.fresh]) = _
    rw [ho, update_opened, Function.update_self]
  · rw [hdrop]
    exact ledger_queue hl rfl rfl rfl rfl

/-- A clean step leads from one phase to another. -/
theorem phase_step {e : TxEvent} {s' : TxContext} (hphase : TxPhase s) (hclean : CleanStep s e)
    (hstep : txStep s e = some s') : TxPhase s' := by
  cases hphase with
  | idle hs hp ho hl =>
    cases e with
    | enter conn cursorRaises =>
      cases cursorRaises with
      | true => exact absurd hp (hclean rfl)
      | false =>
        simp only [txStep, hs, Option.some.injEq] at hstep
        exact hstep ▸ phase_enter_idle hp ho hl conn
    | write queues => simp [txStep, hs] at hstep
    | leave raises answer => simp [txStep, hs] at hstep
    | actionEnds raises => simp [txStep, hs] at hstep
  | @outer conn now hs hp ho hl =>
    cases e with
    | enter conn cursorRaises => simp [txStep, hs] at hstep
    | write queues =>
      simp only [txStep, hs, Option.some.injEq] at hstep
      cases queues with
      | true => exact hstep ▸ phase_write_outer hs hp ho hl
      | false => exact hstep ▸ .outer hs hp ho hl
    | leave raises answer =>
      simp only [txStep, hs, Option.some.injEq] at hstep
      exact hstep ▸ phase_leave_outer hs hp ho hl hclean
    | actionEnds raises => simp [txStep, hs] at hstep
  | @nested conn i pending now hs hp hi hnow ho hl =>
    cases e with
    | enter conn cursorRaises => simp [txStep, hs] at hstep
    | write queues =>
      simp only [txStep, hs, Option.some.injEq] at hstep
      cases queues with
      | true => exact hstep ▸ phase_write_nested hs hp hi hnow ho hl
      | false => exact hstep ▸ .nested hs hp hi hnow ho hl
    | leave raises answer =>
      simp only [txStep, hs, Option.some.injEq] at hstep
      exact hstep ▸ phase_leave_nested hs hp hi ho hl hclean
    | actionEnds raises => simp [txStep, hs] at hstep
  | @action i pending hs hp hi ho hl =>
    cases e with
    | enter conn cursorRaises =>
      simp only [txStep, hs, Option.some.injEq] at hstep
      exact hstep ▸ phase_enter_action hs hp hi ho hl conn cursorRaises
    | write queues => simp [txStep, hs] at hstep
    | leave raises answer => simp [txStep, hs] at hstep
    | actionEnds raises =>
      simp only [txStep, hs, Option.some.injEq] at hstep
      subst hstep
      cases raises with
      | false => exact phase_loop hp ho hl
      | true =>
        have hlast := hclean rfl i hs
        rw [hp] at hlast
        have hnil : pending.drop (i + 1) = [] := List.drop_eq_nil_of_le hlast
        rw [hnil] at hl
        exact .idle rfl rfl ho ⟨hl.sorted, hl.below, hl.rolled, hl.ran_eq⟩

end Ledger

/-- A part of a duplicate-free concatenation is read back from it. -/
theorem filter_mem_flatten {ts : List (List Nat)} {t : List Nat} (hn : ts.flatten.Nodup)
    (ht : t ∈ ts) : ts.flatten.filter (· ∈ t) = t := by
  obtain ⟨before, after, rfl⟩ := List.append_of_mem ht
  simp only [List.flatten_append, List.flatten_cons] at hn ⊢
  obtain ⟨-, hrest, hleft⟩ := List.nodup_append.mp hn
  obtain ⟨-, -, hright⟩ := List.nodup_append.mp hrest
  have hb : before.flatten.filter (· ∈ t) = [] := by
    refine List.filter_eq_nil_iff.mpr fun a ha hm => ?_
    exact hleft a ha a (List.mem_append_left _ (of_decide_eq_true hm)) rfl
  have hself : t.filter (· ∈ t) = t := List.filter_eq_self.mpr fun a ha => decide_eq_true ha
  have ha : after.flatten.filter (· ∈ t) = [] := by
    refine List.filter_eq_nil_iff.mpr fun a ha hm => ?_
    exact hright a (of_decide_eq_true hm) a ha rfl
  rw [List.filter_append, List.filter_append, hb, hself, ha]
  simp

theorem runsOnce_of_ledger {s : TxContext} {now left : List Nat} (hl : TxLedger s now left)
    (hleft : now <:+ left) (hopen : ∀ conn, ∀ a ∈ s.opened conn, a ∈ now)
    (hidle : s.stage = .idle → left = []) : RunsOnce s := by
  have hnodup : (s.committed.flatten ++ now).Nodup := hl.sorted.imp fun h => Nat.ne_of_lt h
  obtain ⟨before, hbefore⟩ := hleft
  have hran : s.ran ++ before = s.committed.flatten := by
    have heq := hl.ran_eq
    rw [← hbefore, ← List.append_assoc] at heq
    exact List.append_cancel_right heq
  refine ⟨?_, ?_⟩
  · intro t ht
    have hfilter := filter_mem_flatten (List.nodup_append.mp hnodup).1 ht
    rw [← hran, List.filter_append] at hfilter
    refine ⟨⟨_, hfilter⟩, fun hs => ?_⟩
    have hnil : before = [] := by
      have := hidle hs
      rw [← hbefore] at this
      exact (List.append_eq_nil_iff.mp this).1
    simpa [hnil] using hfilter
  · intro a ha hm
    have hflat : a ∈ s.committed.flatten := hran ▸ List.mem_append_left _ hm
    rcases ha with ha | ⟨conn, ha⟩
    · exact (hl.rolled a ha).2 (List.mem_append_left _ hflat)
    · exact (List.nodup_append.mp hnodup).2.2 a hflat a (hopen conn a ha) rfl

theorem runsOnce_of_phase {s : TxContext} (hphase : TxPhase s) : RunsOnce s := by
  have hupdate : ∀ (conn : Nat) (now : List Nat), s.opened = Function.update (fun _ => []) conn now →
      ∀ c, ∀ a ∈ s.opened c, a ∈ now := by
    intro conn now ho c a ha
    rw [ho, Function.update_apply] at ha
    split at ha
    · exact ha
    · exact absurd ha List.not_mem_nil
  cases hphase with
  | idle hs hp ho hl =>
    exact runsOnce_of_ledger hl (List.nil_suffix) (by simp [ho]) fun _ => rfl
  | outer hs hp ho hl =>
    exact runsOnce_of_ledger hl (List.suffix_refl _) (hupdate _ _ ho) fun h => by simp [hs] at h
  | nested hs hp hi hnow ho hl =>
    exact runsOnce_of_ledger hl hnow (hupdate _ _ ho) fun h => by simp [hs] at h
  | action hs hp hi ho hl =>
    exact runsOnce_of_ledger hl (List.nil_suffix) (by simp [ho]) fun h => by simp [hs] at h

theorem phase_run {es : List TxEvent} {s s' : TxContext} (h : CleanRun s es s')
    (hphase : TxPhase s) : TxPhase s' := by
  induction h with
  | nil s => exact hphase
  | cons clean step _ ih => exact ih (phase_step hphase clean step)

/-- In a run of clean steps every action of a committed transaction is called once and in order, and
no other. -/
theorem after_commit_runs_once {es : List TxEvent} {s : TxContext}
    (h : CleanRun TxContext.init es s) : RunsOnce s := by
  refine runsOnce_of_phase (phase_run h ?_)
  exact .idle rfl rfl rfl ⟨List.Pairwise.nil, by simp [TxContext.init], by simp [TxContext.init], rfl⟩

/-- A write, its action, and a further write made from inside that action. -/
theorem after_commit_runs_once_nested : ∃ s, CleanRun TxContext.init
    [.enter 0 false, .write true, .leave false .returns, .enter 0 false, .write true,
      .leave false .returns, .actionEnds false, .actionEnds true] s ∧ s.ran = [0, 1] ∧
      RunsOnce s := by
  have hrun : ∃ s, CleanRun TxContext.init
      [.enter 0 false, .write true, .leave false .returns, .enter 0 false, .write true,
        .leave false .returns, .actionEnds false, .actionEnds true] s ∧ s.ran = [0, 1] := by
    refine ⟨_, .cons ?_ rfl (.cons ?_ rfl (.cons ?_ rfl (.cons ?_ rfl (.cons ?_ rfl (.cons ?_ rfl
      (.cons ?_ rfl (.cons ?_ rfl (.nil _)))))))), rfl⟩
    all_goals simp [CleanStep, TxContext.init, TxContext.enter, TxContext.afterCommit,
      TxContext.leave, TxContext.loop, TxContext.commit, TxContext.reset]
  obtain ⟨s, hs, hran⟩ := hrun
  exact ⟨s, hs, hran, after_commit_runs_once hs⟩

/-- Four runs that go wrong. A cursor that does not open leaves the list in place, and the next
transaction commits without its action being called. An action that raises keeps the next one of its
transaction from being called. The action of an operation that is rolled back inside an action is
called. A commit that raises leaves the transaction to be committed by the next operation, without
its action. -/
theorem not_after_commit_runs_once :
    (∃ s, txRun .init [.enter 0 true, .enter 1 false, .write true, .leave false .returns] = some s ∧
      ¬ RunsOnce s) ∧
    (∃ s, txRun .init [.enter 0 false, .write true, .write true, .leave false .returns,
      .actionEnds true] = some s ∧ ¬ RunsOnce s) ∧
    (∃ s, txRun .init [.enter 0 false, .write true, .leave false .returns, .enter 0 false,
      .write true, .leave true .returns, .actionEnds false] = some s ∧ ¬ RunsOnce s) ∧
    ∃ s, txRun .init [.enter 0 false, .write true, .leave false .raisesOpen, .enter 0 false,
      .leave false .returns] = some s ∧ ¬ RunsOnce s := by
  refine ⟨⟨_, rfl, ?_⟩, ⟨_, rfl, ?_⟩, ⟨_, rfl, ?_⟩, ⟨_, rfl, ?_⟩⟩
  · intro h
    exact absurd ((h.1 [0] (by decide)).2 rfl) (by decide)
  · intro h
    exact absurd ((h.1 [0, 1] (by decide)).2 rfl) (by decide)
  · intro h
    exact absurd (h.2 1 (Or.inl (by decide))) (by decide)
  · intro h
    exact absurd ((h.1 [0] (by decide)).2 rfl) (by decide)

end Harpia
