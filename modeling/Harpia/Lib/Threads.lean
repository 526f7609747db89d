import Mathlib.Algebra.BigOperators.Group.List.Basic
import Mathlib.Data.List.Induction
import Mathlib.Tactic.Abel

/-- Threads over one shared state. -/
structure Threads (σ τ : Type) where
  shared : σ
  locals : List τ

namespace Threads

/-- A thread makes a call, or runs its next section, given what its environment answers. -/
inductive Event (κ ε : Type)
  | start (call : κ)
  | step (i : Nat) (answer : ε)
deriving Repr, DecidableEq

/-- How a call begins, and the sections of a thread, each of which no other thread interrupts. -/
structure Machine (σ τ κ ε : Type) where
  enter : κ → τ
  advance : ε → σ → τ → Option (σ × τ)

variable {σ τ κ ε M : Type} (m : Machine σ τ κ ε)

def next (c : Threads σ τ) : Event κ ε → Option (Threads σ τ)
  | .start call => some ⟨c.shared, c.locals ++ [m.enter call]⟩
  | .step i answer => do
    let t ← c.locals[i]?
    let (s, t') ← m.advance answer c.shared t
    some ⟨s, c.locals.set i t'⟩

/-- The threads after a schedule; `none` when it steps a thread that cannot move. -/
def run (c : Threads σ τ) : List (Event κ ε) → Option (Threads σ τ)
  | [] => some c
  | e :: es => (c.next m e).bind fun c' => c'.run es

variable {m}

theorem next_step {c c' : Threads σ τ} {i : Nat} {e : ε} (h : c.next m (.step i e) = some c') :
    ∃ t s t', c.locals[i]? = some t ∧ m.advance e c.shared t = some (s, t') ∧
      c' = ⟨s, c.locals.set i t'⟩ := by
  obtain ⟨t, ht, h⟩ := Option.bind_eq_some_iff.mp h
  obtain ⟨⟨s, t'⟩, hs, h⟩ := Option.bind_eq_some_iff.mp h
  exact ⟨t, s, t', ht, hs, (Option.some.inj h).symm⟩

theorem run_append {c : Threads σ τ} {es fs : List (Event κ ε)} :
    c.run m (es ++ fs) = (c.run m es).bind fun c' => c'.run m fs := by
  induction es generalizing c with
  | nil => rfl
  | cons e es ih =>
    show (c.next m e).bind _ = ((c.next m e).bind _).bind _
    rw [Option.bind_assoc]
    exact congrArg _ (funext fun c' => ih)

theorem run_step_last {s s' : σ} (ts : List τ) {t t' : τ} {e : ε}
    (h : m.advance e s t = some (s', t')) :
    Threads.run m ⟨s, ts ++ [t]⟩ [.step ts.length e] = some ⟨s', ts ++ [t']⟩ := by
  simp [run, next, h]

/-- A call is made and its first section runs at once. -/
theorem run_start_step {s s' : σ} (ts : List τ) {t : τ} (call : κ) {e : ε}
    (h : m.advance e s (m.enter call) = some (s', t)) :
    Threads.run m ⟨s, ts⟩ [.start call, .step ts.length e] = some ⟨s', ts ++ [t]⟩ :=
  run_step_last ts h

/-- What starting a call keeps and what every section keeps holds after every schedule. -/
theorem run_keeps {I : Threads σ τ → Prop} {es : List (Event κ ε)} {c c' : Threads σ τ}
    (start : ∀ c call, I c → I ⟨c.shared, c.locals ++ [m.enter call]⟩)
    (step : ∀ (c : Threads σ τ) i t e s t', Event.step i e ∈ es → I c → c.locals[i]? = some t →
      m.advance e c.shared t = some (s, t') → I ⟨s, c.locals.set i t'⟩)
    (hi : I c) (h : c.run m es = some c') : I c' := by
  induction es generalizing c with
  | nil => exact Option.some.inj h ▸ hi
  | cons e es ih =>
    obtain ⟨d, hd, h⟩ := Option.bind_eq_some_iff.mp h
    refine ih (fun c i t e s t' he => step c i t e s t' (List.mem_cons_of_mem _ he)) ?_ h
    cases e with
    | start call => exact Option.some.inj hd ▸ start c call hi
    | step i e =>
      obtain ⟨t, s, t', ht, hs, rfl⟩ := next_step hd
      exact step c i t e s t' List.mem_cons_self hi ht hs

/-- What a call begins with and every section keeps of its own thread holds of every thread. -/
theorem run_keeps_each {P : τ → Prop} {es : List (Event κ ε)} {c c' : Threads σ τ}
    (enter : ∀ call, P (m.enter call))
    (step : ∀ i e s t s' t', Event.step i e ∈ es → P t → m.advance e s t = some (s', t') → P t')
    (hi : ∀ t ∈ c.locals, P t) (h : c.run m es = some c') : ∀ t ∈ c'.locals, P t := by
  refine run_keeps (I := fun c => ∀ t ∈ c.locals, P t) ?_ ?_ hi h
  · intro c call hc t ht
    rcases List.mem_append.mp ht with ht | ht
    · exact hc t ht
    · exact List.mem_singleton.mp ht ▸ enter call
  · intro c i t e s t' he hc ht hs u hu
    rcases List.mem_or_eq_of_mem_set hu with hu | rfl
    · exact hc u hu
    · exact step i e c.shared t s u he (hc t (List.mem_of_getElem? ht)) hs

/-- The events of a schedule, each beside the threads it finds. -/
def trace (m : Machine σ τ κ ε) (c : Threads σ τ) :
    List (Event κ ε) → List (Threads σ τ × Event κ ε)
  | [] => []
  | e :: es => (c, e) :: (c.next m e).elim [] fun c' => c'.trace m es

theorem trace_concat {es : List (Event κ ε)} {c c' : Threads σ τ} (h : c.run m es = some c')
    (e : Event κ ε) : c.trace m (es ++ [e]) = c.trace m es ++ [(c', e)] := by
  induction es generalizing c with
  | nil =>
    obtain rfl : c = c' := Option.some.inj h
    cases hd : c.next m e <;> simp [trace, hd]
  | cons first es ih =>
    obtain ⟨d, hd, h⟩ := Option.bind_eq_some_iff.mp h
    simp [trace, hd, ih h]

/-- Induction over what has happened, from the last event back. -/
theorem run_trace {P : List (Threads σ τ × Event κ ε) → Threads σ τ → Prop}
    {es : List (Event κ ε)} {c c' : Threads σ τ} (start : P [] c)
    (next : ∀ past d e d', P past d → d.next m e = some d' → P (past ++ [(d, e)]) d')
    (h : c.run m es = some c') : P (c.trace m es) c' := by
  induction es using List.reverseRecOn generalizing c' with
  | nil => exact Option.some.inj h ▸ start
  | append_singleton es e ih =>
    rw [run_append] at h
    obtain ⟨d, hd, h⟩ := Option.bind_eq_some_iff.mp h
    obtain ⟨d', hd', h⟩ := Option.bind_eq_some_iff.mp h
    cases Option.some.inj h
    rw [trace_concat hd]
    exact next _ d e _ (ih hd) hd'

section Balance

variable [AddCancelCommMonoid M] {w : τ → M}

/-- What the threads hold together. -/
def total (w : τ → M) (c : Threads σ τ) : M := (c.locals.map w).sum

theorem sum_set {ts : List τ} {i : Nat} {t : τ} (ht : ts[i]? = some t) (t' : τ) :
    ((ts.set i t').map w).sum + w t = (ts.map w).sum + w t' := by
  induction ts generalizing i with
  | nil => simp at ht
  | cons u ts ih =>
    cases i with
    | zero =>
      have hu : u = t := by simpa using ht
      subst hu
      simp only [List.set_cons_zero, List.map_cons, List.sum_cons]
      exact (add_right_comm _ _ _).trans (by rw [add_comm (w t'), add_right_comm])
    | succ i =>
      have h := ih (i := i) (by simpa using ht)
      simp only [List.set_cons_succ, List.map_cons, List.sum_cons, add_assoc, h]

theorem total_start (enter : ∀ call, w (m.enter call) = 0) (c : Threads σ τ) (call : κ) :
    total w ⟨c.shared, c.locals ++ [m.enter call]⟩ = c.total w := by
  simp [total, enter]

variable (held account : σ → M)

/-- A section that moves between the state and its own thread no more than it accounts for keeps the
account right. -/
theorem balance_step {c : Threads σ τ} {i : Nat} {t t' : τ} {s : σ}
    (hc : held c.shared + c.total w = account c.shared) (ht : c.locals[i]? = some t)
    (hs : held s + w t' + account c.shared = held c.shared + w t + account s) :
    held s + total w ⟨s, c.locals.set i t'⟩ = account s := by
  have hset := sum_set (w := w) ht t'
  simp only [total] at hc ⊢
  refine add_right_cancel (b := w t + account c.shared) ?_
  calc held s + ((c.locals.set i t').map w).sum + (w t + account c.shared)
      = held s + account c.shared + (((c.locals.set i t').map w).sum + w t) := by abel
    _ = held s + w t' + account c.shared + (c.locals.map w).sum := by rw [hset]; abel
    _ = held c.shared + (c.locals.map w).sum + w t + account s := by rw [hs]; abel
    _ = account s + (w t + account c.shared) := by rw [hc]; abel

/-- The law of conservation over a whole run. -/
theorem run_balance (enter : ∀ call, w (m.enter call) = 0)
    (step : ∀ e s t s' t', m.advance e s t = some (s', t') →
      held s' + w t' + account s = held s + w t + account s')
    {es : List (Event κ ε)} {c c' : Threads σ τ}
    (hi : held c.shared + c.total w = account c.shared) (h : c.run m es = some c') :
    held c'.shared + c'.total w = account c'.shared := by
  refine run_keeps (I := fun c => held c.shared + c.total w = account c.shared) ?_ ?_ hi h
  · intro c call hc
    rw [total_start enter]
    exact hc
  · intro c i t e s t' _ hc ht hs
    exact balance_step held account hc ht (step e c.shared t s t' hs)

end Balance

end Threads
