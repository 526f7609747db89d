import Mathlib.Tactic.Linarith
import Harpia.Stream

namespace Harpia

variable {F M S : Type}

/-- A call of a run with what is seen of it: `state()` before and after, the answer, and whether a
socket is open after it. -/
structure StreamEntry (F M : Type) where
  before : StreamStatus
  call : StreamCall F
  answer : StreamAnswer M
  after : StreamStatus
  isOpen : Bool

def entryOf (step : S → StreamCall F → S × StreamAnswer M) (state : S → StreamStatus)
    (isOpen : S → Bool) (s : S) (c : StreamCall F) : StreamEntry F M :=
  ⟨state s, c, (step s c).2, state (step s c).1, isOpen (step s c).1⟩

def entries (step : S → StreamCall F → S × StreamAnswer M) (state : S → StreamStatus)
    (isOpen : S → Bool) : S → List (StreamCall F) → List (StreamEntry F M)
  | _, [] => []
  | s, c :: cs => entryOf step state isOpen s c :: entries step state isOpen (step s c).1 cs

/-- The config of the last `setup` that returned `ok`, when the last usable message came, and when
the last frame did; the `setup` counts as both. -/
structure Watch where
  config : StreamConfig
  usable : ℚ
  frame : ℚ

namespace Watch

def reclaimDue (w : Watch) (now : ℚ) : Prop := w.config.reclaimAfterMs ≤ (now - w.frame) * 1000

def stopDue (w : Watch) (now : ℚ) : Prop := w.config.stopDeadlineMs ≤ (now - w.usable) * 1000

instance (w : Watch) (now : ℚ) : Decidable (w.reclaimDue now) := inferInstanceAs (Decidable (_ ≤ _))

instance (w : Watch) (now : ℚ) : Decidable (w.stopDue now) := inferInstanceAs (Decidable (_ ≤ _))

/-- A deadline that `read` looks at, or that `stop` does, has passed when it looks. -/
def due (w : Watch) : StreamCall F → Prop
  | .read _ wire => w.reclaimDue wire.reclaimAt ∨ w.stopDue wire.watchAt
  | .stop now => w.reclaimDue now
  | _ => False

end Watch

namespace StreamEntry

def opens (e : StreamEntry F M) : Prop :=
  (∃ config fails now, e.call = .setup config fails now) ∧ e.answer = .status .ok

/-- A frame that is `invalid` and leaves the stream `ok` is one that did not parse. -/
def note (e : StreamEntry F M) (w : Option Watch) : Option Watch :=
  match e.call, e.answer with
  | .setup config _ now, .status .ok => some ⟨config, now, now⟩
  | .read _ wire, .result ⟨.ok, _⟩ =>
    w.map fun w => { w with usable := wire.parsedAt, frame := wire.receivedAt }
  | .read _ wire, .result ⟨.invalid, _⟩ =>
    if e.after = .ok then w.map fun w => { w with frame := wire.receivedAt } else w
  | _, _ => w

/-- The watchdog or the reclaim fires in this call. -/
def fires (e : StreamEntry F M) (w : Option Watch) : Prop :=
  e.before = .ok ∧ ∃ w' ∈ w, w'.due e.call

def stops (e : StreamEntry F M) (w : Option Watch) : Prop :=
  e.before = .ok ∧ (∃ now, e.call = .stop now) ∧ ¬ e.fires w

def isRead (e : StreamEntry F M) (wire : Wire F) : Prop := ∃ timeoutMs, e.call = .read timeoutMs wire

end StreamEntry

def watch (past : List (StreamEntry F M)) : Option Watch := past.foldl (fun w e => e.note w) none

/-- What is promised of a stream, over the calls of one run. -/
structure KeepsLifecycle (es : List (StreamEntry F M)) : Prop where
  open_iff : ∀ e ∈ es, e.after = .ok ↔ e.isOpen = true
  stopped : ∀ past e mid r wire, past ++ e :: (mid ++ [r]) <+: es → e.stops (watch past) →
    (∀ m ∈ mid, ¬ m.opens) → r.isRead wire → r.answer = .result ⟨.stopped, none⟩
  fired : ∀ past e wire, past ++ [e] <+: es → e.fires (watch past) → e.isRead wire →
    e.answer = .result ⟨.invalid, none⟩
  latched : ∀ past e mid r wire, past ++ e :: (mid ++ [r]) <+: es → e.fires (watch past) →
    (∀ m ∈ mid, ¬ m.opens) → r.isRead wire → r.answer = .result ⟨.invalid, none⟩
  timely : ∀ past r wire msg, past ++ [r] <+: es → r.isRead wire → r.answer = .result ⟨.ok, msg⟩ →
    ∃ w ∈ watch past, ¬ w.reclaimDue wire.start ∧ ¬ w.stopDue wire.start

/-- The lifecycle of a stream: unusable, stopped by its user, or connected. -/
inductive Life
  | invalid
  | stopped
  | live (w : Watch)

namespace Life

def status : Life → StreamStatus
  | invalid => .invalid
  | stopped => .stopped
  | live _ => .ok

def isLive : Life → Bool
  | live _ => true
  | _ => false

def read (parse : F → Option M) (l : Life) (wire : Wire F) : ReadResult M :=
  match l with
  | invalid => ⟨.invalid, none⟩
  | stopped => ⟨.stopped, none⟩
  | live w =>
    if w.reclaimDue wire.reclaimAt ∨ w.stopDue wire.watchAt then ⟨.invalid, none⟩
    else
      match wire.frame with
      | none => ⟨.timeout, none⟩
      | some frame =>
        match parse frame with
        | none => ⟨.invalid, none⟩
        | some msg => ⟨.ok, some msg⟩

def afterRead (parse : F → Option M) (w : Watch) (wire : Wire F) : Life :=
  if w.reclaimDue wire.reclaimAt ∨ w.stopDue wire.watchAt then invalid
  else
    match wire.frame with
    | none => live w
    | some frame =>
      match parse frame with
      | none => live { w with frame := wire.receivedAt }
      | some _ => live { w with usable := wire.parsedAt, frame := wire.receivedAt }

/-- Only a `setup` that returns `ok` makes a connection. -/
def next (parse : F → Option M) (l : Life) (c : StreamCall F) (a : StreamAnswer M) : Life :=
  match c, l with
  | .setup config _ now, l =>
    match a with
    | .status .ok => live ⟨config, now, now⟩
    | _ => l
  | .read _ wire, live w => afterRead parse w wire
  | .stop now, live w => if w.reclaimDue now then invalid else stopped
  | _, l => l

def after (parse : F → Option M) (l : Life) (es : List (StreamEntry F M)) : Life :=
  es.foldl (fun l e => l.next parse e.call e.answer) l

end Life

/-- A call of a run is one of the lifecycle, which is in `l` before it. -/
structure Explains (parse : F → Option M) (l : Life) (e : StreamEntry F M) : Prop where
  before : e.before = l.status
  after : e.after = (l.next parse e.call e.answer).status
  isOpen : e.isOpen = (l.next parse e.call e.answer).isLive
  read : ∀ timeoutMs wire, e.call = .read timeoutMs wire → e.answer = .result (l.read parse wire)
  clock : e.call.clock.Pairwise (· ≤ ·)

def Traces (parse : F → Option M) : Life → List (StreamEntry F M) → Prop
  | _, [] => True
  | l, e :: es => Explains parse l e ∧ Traces parse (l.next parse e.call e.answer) es

variable {parse : F → Option M} {l : Life} {es : List (StreamEntry F M)}

theorem Traces.append {xs ys : List (StreamEntry F M)} (h : Traces parse l (xs ++ ys)) :
    Traces parse l xs ∧ Traces parse (l.after parse xs) ys := by
  induction xs generalizing l with
  | nil => exact ⟨trivial, h⟩
  | cons e xs ih =>
    obtain ⟨first, rest⟩ := ih h.2
    exact ⟨⟨h.1, first⟩, rest⟩

theorem Traces.at_call {past rest : List (StreamEntry F M)} {e : StreamEntry F M}
    (h : Traces parse l es) (split : past ++ e :: rest <+: es) :
    Explains parse (l.after parse past) e ∧
      Traces parse ((l.after parse past).next parse e.call e.answer) rest := by
  obtain ⟨later, rfl⟩ := split
  exact (Traces.append (Traces.append h).1).2

theorem Traces.last {past mid : List (StreamEntry F M)} {e r : StreamEntry F M}
    (h : Traces parse l es) (split : past ++ e :: (mid ++ [r]) <+: es) :
    Explains parse (((l.after parse past).next parse e.call e.answer).after parse mid) r :=
  (Traces.append (h.at_call split).2).2.1

theorem Explains.after_iff {e : StreamEntry F M} (h : Explains parse l e) :
    e.after = .ok ↔ e.isOpen = true := by
  rw [h.after, h.isOpen]
  cases l.next parse e.call e.answer <;> simp [Life.status, Life.isLive]

theorem Life.next_refused {config : StreamConfig} {fails : SetupOp → Bool} {now : ℚ}
    {a : StreamAnswer M} (refused : a ≠ .status .ok) :
    l.next parse (.setup config fails now) a = l := by
  cases a with
  | raised | result r => cases l <;> rfl
  | status s =>
    cases s with
    | ok => exact absurd rfl refused
    | invalid | timeout | stopped => cases l <;> rfl

theorem StreamEntry.note_refused {before after : StreamStatus} {isOpen : Bool}
    {config : StreamConfig} {fails : SetupOp → Bool} {now : ℚ} {a : StreamAnswer M}
    (refused : a ≠ .status .ok) (w : Option Watch) :
    (StreamEntry.mk (F := F) before (.setup config fails now) a after isOpen).note w = w := by
  cases a with
  | raised | result r => rfl
  | status s =>
    cases s with
    | ok => exact absurd rfl refused
    | invalid | timeout | stopped => rfl

/-- Apart from a `setup` that returns `ok`, no call leaves `invalid` or `stopped`. -/
theorem Life.next_idle {e : StreamEntry F M} (idle : l.isLive = false) (quiet : ¬ e.opens) :
    l.next parse e.call e.answer = l := by
  obtain ⟨before, call, answer, after, isOpen⟩ := e
  cases l with
  | live w => simp [isLive] at idle
  | invalid | stopped =>
    cases call with
    | read | stop | state => rfl
    | setup config fails now =>
      exact next_refused fun ok => quiet ⟨⟨config, fails, now, rfl⟩, ok⟩

theorem Life.after_idle {mid : List (StreamEntry F M)} (idle : l.isLive = false)
    (quiet : ∀ m ∈ mid, ¬ m.opens) : l.after parse mid = l := by
  induction mid with
  | nil => rfl
  | cons m mid ih =>
    have first : l.next parse m.call m.answer = l := next_idle idle (quiet m List.mem_cons_self)
    show (l.next parse m.call m.answer).after parse mid = l
    rw [first]
    exact ih fun x hx => quiet x (List.mem_cons_of_mem m hx)

/-- While a stream is connected, what has been seen of it tells its timers. -/
def Life.Noted (l : Life) (w : Option Watch) : Prop := ∀ w', l = .live w' → w = some w'

theorem Explains.noted {e : StreamEntry F M} {w : Option Watch} (h : Explains parse l e)
    (known : l.Noted w) : (l.next parse e.call e.answer).Noted (e.note w) := by
  obtain ⟨before, call, answer, after, isOpen⟩ := e
  intro w' reached
  cases call with
  | state => exact known w' reached
  | stop now =>
    cases l with
    | invalid | stopped => cases reached
    | live v =>
      simp only [Life.next] at reached
      split at reached <;> cases reached
  | setup config fails now =>
    by_cases ok : answer = .status .ok
    · subst ok
      cases l <;> cases reached <;> rfl
    · rw [Life.next_refused ok] at reached
      rw [StreamEntry.note_refused ok]
      exact known w' reached
  | read timeoutMs wire =>
    cases l with
    | invalid | stopped => cases reached
    | live v =>
      have told : w = some v := known v rfl
      have answered := h.read timeoutMs wire rfl
      have left := h.after
      simp only [Life.next, Life.read, Life.afterRead] at reached answered left
      split at reached
      · cases reached
      · rename_i early
        simp only [if_neg early] at answered left
        cases arrived : wire.frame with
        | none => simp_all [StreamEntry.note]
        | some frame =>
          simp only [arrived] at reached answered left
          cases decoded : parse frame <;> simp_all [StreamEntry.note, Life.status]

/-- The deadlines at the start of a read are those it looks at, or earlier. -/
theorem Watch.due_of_start {v : Watch} {timeoutMs : Option Int} {wire : Wire F}
    (clock : (StreamCall.read timeoutMs wire).clock.Pairwise (· ≤ ·))
    (late : v.reclaimDue wire.start ∨ v.stopDue wire.start) :
    v.reclaimDue wire.reclaimAt ∨ v.stopDue wire.watchAt := by
  have first := (List.pairwise_cons.mp clock).1
  have toReclaim : wire.start ≤ wire.reclaimAt := first _ (by simp)
  have toWatch : wire.start ≤ wire.watchAt := first _ (by simp)
  unfold reclaimDue stopDue at *
  refine late.imp (fun h => ?_) fun h => ?_
  · linarith
  · linarith

theorem Traces.noted {past : List (StreamEntry F M)} {w : Option Watch}
    (h : Traces parse l past) (known : l.Noted w) :
    (l.after parse past).Noted (past.foldl (fun w e => e.note w) w) := by
  induction past generalizing l w with
  | nil => exact known
  | cons e past ih => exact ih h.2 (h.1.noted known)

theorem Life.read_ok {wire : Wire F} {msg : Option M} (h : l.read parse wire = ⟨.ok, msg⟩) :
    ∃ w, l = .live w ∧ ¬ (w.reclaimDue wire.reclaimAt ∨ w.stopDue wire.watchAt) := by
  cases l with
  | invalid | stopped => cases h
  | live w =>
    refine ⟨w, rfl, fun late => ?_⟩
    simp only [read, if_pos late] at h
    cases h

theorem Life.status_ok (h : l.status = .ok) : ∃ w, l = .live w := by
  cases l with
  | invalid | stopped => cases h
  | live w => exact ⟨w, rfl⟩

/-- A run that follows the lifecycle keeps what is promised of a stream. -/
theorem Traces.keeps (h : Traces parse .invalid es) : KeepsLifecycle es := by
  have known : ∀ {past rest : List (StreamEntry F M)} {e : StreamEntry F M} {w : Watch},
      past ++ e :: rest <+: es → Life.after parse .invalid past = .live w → watch past = some w := by
    intro past rest e w split reached
    obtain ⟨later, rfl⟩ := split
    have start : Life.invalid.Noted none := fun w' h => by cases h
    exact Traces.noted (Traces.append (Traces.append h).1).1 start w reached
  -- A call that fires or stops is made on a connected stream.
  have connected : ∀ {past rest : List (StreamEntry F M)} {e : StreamEntry F M},
      past ++ e :: rest <+: es → e.before = .ok →
        ∃ w, Life.after parse .invalid past = .live w ∧ watch past = some w := by
    intro past rest e split ok
    obtain ⟨w, reached⟩ := Life.status_ok ((h.at_call split).1.before.symm.trans ok)
    exact ⟨w, reached, known split reached⟩
  have dead : ∀ {past rest : List (StreamEntry F M)} {e : StreamEntry F M},
      past ++ e :: rest <+: es → e.fires (watch past) →
        (Life.after parse .invalid past).next parse e.call e.answer = .invalid := by
    intro past rest e split fires
    obtain ⟨w, reached, told⟩ := connected split fires.1
    obtain ⟨w', same, due⟩ := fires.2
    cases told.symm.trans same
    rw [reached]
    cases call : e.call with
    | setup | state => simp [call, Watch.due] at due
    | read timeoutMs wire => exact if_pos (by simpa [call, Watch.due] using due)
    | stop now => exact if_pos (by simpa [call, Watch.due] using due)
  refine ⟨?_, ?_, ?_, ?_, ?_⟩
  · intro e he
    obtain ⟨past, rest, rfl⟩ := List.append_of_mem he
    exact (h.at_call (List.prefix_refl _)).1.after_iff
  · intro past e mid r wire split stops quiet ⟨timeoutMs, isRead⟩
    obtain ⟨w, reached, told⟩ := connected split stops.1
    obtain ⟨now, call⟩ := stops.2.1
    have alive : ¬ w.reclaimDue now := fun late =>
      stops.2.2 ⟨stops.1, w, told, by simpa [call, Watch.due] using late⟩
    have stopped : (Life.after parse .invalid past).next parse e.call e.answer = .stopped := by
      rw [reached, call]
      exact if_neg alive
    have last := h.last split
    rw [stopped, Life.after_idle rfl quiet] at last
    exact last.read timeoutMs wire isRead
  · intro past e wire split fires ⟨timeoutMs, isRead⟩
    obtain ⟨w, reached, told⟩ := connected split fires.1
    obtain ⟨w', same, due⟩ := fires.2
    cases told.symm.trans same
    rw [(h.at_call split).1.read timeoutMs wire isRead, reached]
    rw [isRead] at due
    simp only [Life.read, if_pos (show w.reclaimDue wire.reclaimAt ∨ w.stopDue wire.watchAt from due)]
  · intro past e mid r wire split fires quiet ⟨timeoutMs, isRead⟩
    have last := h.last split
    rw [dead split fires, Life.after_idle rfl quiet] at last
    exact last.read timeoutMs wire isRead
  · intro past r wire msg split ⟨timeoutMs, isRead⟩ answered
    have explained := (h.at_call split).1
    have same := explained.read timeoutMs wire isRead
    rw [answered] at same
    obtain ⟨w, reached, early⟩ := Life.read_ok (StreamAnswer.result.inj same).symm
    have clock := explained.clock
    rw [isRead] at clock
    have inTime := fun late => early (Watch.due_of_start clock late)
    exact ⟨w, known split reached, fun late => inTime (.inl late), fun late => inTime (.inr late)⟩

end Harpia
