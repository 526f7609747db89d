import Harpia.StreamLifecycle

namespace Harpia

variable {F M S : Type} {parse : F → Option M} {l : Life}

/-- The timers of a connected stream are not ahead of the clock. -/
def Life.Before (l : Life) (now : ℚ) : Prop := ∀ w, l = .live w → w.usable ≤ now ∧ w.frame ≤ now

theorem Life.next_before {c : StreamCall F} {a : StreamAnswer M} {now : ℚ} (h : l.Before now)
    (read : ∀ t ∈ c.clock, t ≤ now) : (l.next parse c a).Before now := by
  intro w reached
  cases c with
  | state => exact h w reached
  | stop t =>
    cases l with
    | invalid | stopped => cases reached
    | live v =>
      simp only [next] at reached
      split at reached <;> cases reached
  | setup config fails t =>
    by_cases ok : a = .status .ok
    · subst ok
      have same : Life.live ⟨config, t, t⟩ = .live w := by cases l <;> exact reached
      cases same
      exact ⟨read t (by simp [StreamCall.clock]), read t (by simp [StreamCall.clock])⟩
    · rw [next_refused ok] at reached
      exact h w reached
  | read timeoutMs wire =>
    cases l with
    | invalid | stopped => cases reached
    | live v =>
      obtain ⟨usable, frame⟩ := h v rfl
      have received : wire.receivedAt ≤ now := read _ (by simp [StreamCall.clock])
      have parsed : wire.parsedAt ≤ now := read _ (by simp [StreamCall.clock])
      simp only [next, afterRead] at reached
      split at reached
      · cases reached
      · split at reached
        · cases reached; exact ⟨usable, frame⟩
        · split at reached
          · cases reached; exact ⟨usable, received⟩
          · cases reached; exact ⟨parsed, received⟩

theorem Life.next_opened {config : StreamConfig} {fails : SetupOp → Bool} {now : ℚ} :
    l.next parse (.setup config fails now) (.status .ok) = .live ⟨config, now, now⟩ := by
  cases l <;> rfl

section

variable {step : S → StreamCall F → S × StreamAnswer M} {state : S → StreamStatus}
  {isOpen : S → Bool} {R : S → Life → Prop} {spared : StreamStatus → StreamCall F → Prop}

theorem mem_entries {e : StreamEntry F M} {calls : List (StreamCall F)} {s : S}
    (h : e ∈ entries step state isOpen s calls) : ∃ s c, e = entryOf step state isOpen s c := by
  induction calls generalizing s with
  | nil => simp [entries] at h
  | cons c calls ih =>
    rcases List.mem_cons.mp h with rfl | later
    · exact ⟨s, c, rfl⟩
    · exact ih later

/-- What an implementation must do in each call, so that its runs follow the lifecycle. -/
structure Simulates (parse : F → Option M) (step : S → StreamCall F → S × StreamAnswer M)
    (state : S → StreamStatus) (isOpen : S → Bool) (R : S → Life → Prop)
    (spared : StreamStatus → StreamCall F → Prop) : Prop where
  status_eq : ∀ {s l}, R s l → state s = l.status
  isOpen_eq : ∀ {s l}, R s l → isOpen s = l.isLive
  step_rel : ∀ {s l c}, R s l → c.clock.Pairwise (· ≤ ·) → (∀ t ∈ c.clock, l.Before t) →
    spared l.status c → R (step s c).1 (l.next parse c (step s c).2)
  read_eq : ∀ {s l timeoutMs wire}, R s l → (∀ t ∈ (StreamCall.read timeoutMs wire).clock, l.Before t) →
    (step s (.read timeoutMs wire)).2 = .result (l.read parse wire)

theorem Simulates.traces (sim : Simulates parse step state isOpen R spared)
    {calls : List (StreamCall F)} {s : S} (h : R s l) (clock : MonotoneClock calls)
    (past : ∀ t ∈ calls.flatMap StreamCall.clock, l.Before t)
    (all : ∀ e ∈ entries step state isOpen s calls, spared e.before e.call) :
    Traces parse l (entries step state isOpen s calls) := by
  induction calls generalizing s l with
  | nil => trivial
  | cons c calls ih =>
    obtain ⟨own, later, ordered⟩ := List.pairwise_append.mp clock
    have now : ∀ t ∈ c.clock, l.Before t := fun t ht => past t (List.mem_append_left _ ht)
    have permitted : spared l.status c := sim.status_eq h ▸ all _ List.mem_cons_self
    have after := sim.step_rel h own now permitted
    refine ⟨⟨sim.status_eq h, sim.status_eq after, sim.isOpen_eq after, ?_, own⟩, ih after later ?_ ?_⟩
    · intro timeoutMs wire same
      change c = _ at same
      subst same
      exact sim.read_eq h now
    · intro t ht
      exact Life.next_before (past t (List.mem_append_right _ ht)) fun u hu => ordered u hu t ht
    · exact fun e he => all e (List.mem_cons_of_mem _ he)

end

/-- A `setup` on an `ok` stream that raises after the old connection is closed. -/
def StreamCall.breaks (before : StreamStatus) : StreamCall F → Prop
  | .setup config fails _ => before = .ok ∧ streamConfigValid config = true ∧
      fails .close = false ∧ (fails .socket = true ∨ ∃ op ∈ configuring, fails op = true)
  | _ => False

/-- A `setup` that throws on an `ok` stream, or on another one after a socket is made. -/
def StreamCall.breaksNamed (before : StreamStatus) : StreamCall F → Prop
  | .setup config fails _ => streamConfigValid config = true ∧
      ((before = .ok ∧ fails .socket = true) ∨
        (fails .socket = false ∧ ∃ op ∈ configuring, fails op = true))
  | _ => False

theorem StreamSocket.configure_ok {config : StreamConfig} {fails : SetupOp → Bool}
    {sock : StreamSocket} {ops : List SetupOp} :
    (configure config fails sock ops).2 = true ↔ ¬ ∃ op ∈ ops, fails op = true := by
  induction ops generalizing sock with
  | nil => simp [configure]
  | cons op ops ih =>
    by_cases bad : fails op = true
    · simp [configure, bad]
    · simp [configure, bad, ih]

namespace Stream

/-- The stream is where its lifecycle says. -/
structure Refines (s : Stream) (l : Life) : Prop where
  state : s.state = l.status
  socket : s.socket.isSome = l.isLive
  timers : ∀ w, l = .live w → w = ⟨s.config, s.lastReadOk, s.lastActivity⟩

variable {s : Stream}

theorem Refines.idle {t : Stream} (h : s.Refines l) (idle : l.isLive = false)
    (state : t.state = s.state) (socket : t.socket = none) : t.Refines l := by
  refine ⟨state.trans h.state, by rw [socket, idle]; rfl, fun w live => ?_⟩
  rw [live] at idle
  cases idle

theorem Refines.setup (h : s.Refines l) {config : StreamConfig} {fails : SetupOp → Bool} {now : ℚ}
    (spared : ¬ (StreamCall.setup (F := F) config fails now).breaks l.status) :
    (s.setup config fails now).1.Refines
      (l.next parse (.setup config fails now) (.ofSetup (s.setup config fails now).2)) := by
  by_cases valid : streamConfigValid config = true
  case neg =>
    simp only [Stream.setup, valid, Bool.not_false, if_true]
    rw [Life.next_refused (by simp [StreamAnswer.ofSetup])]
    exact h
  by_cases stuck : (s.socket.isSome && fails .close) = true
  · simp only [Stream.setup, valid, Bool.not_true, Bool.false_eq_true, if_false, stuck, if_true]
    rw [Life.next_refused (by simp [StreamAnswer.ofSetup])]
    exact h
  have fresh : l.isLive = false → ({ s.kill with config := config } : Stream).Refines l :=
    fun idle => h.idle idle rfl rfl
  -- A stream that was connected is one whose `setup` does not fail any more.
  have through : (fails .socket = true ∨ ∃ op ∈ configuring, fails op = true) → l.isLive = false := by
    intro failed
    cases l with
    | invalid | stopped => rfl
    | live w =>
      have open' : s.socket.isSome = true := h.socket
      have closed : fails .close = false := by simpa [open'] using stuck
      exact absurd ⟨rfl, valid, closed, failed⟩ spared
  by_cases made : fails .socket = true
  · simp only [Stream.setup, valid, Bool.not_true, Bool.false_eq_true, if_false, stuck, made, if_true]
    rw [Life.next_refused (by simp [StreamAnswer.ofSetup])]
    exact fresh (through (.inl made))
  by_cases done : (StreamSocket.configure config fails {} configuring).2 = true
  · simp only [Stream.setup, valid, Bool.not_true, Bool.false_eq_true, if_false, stuck, made, done,
      if_true]
    rw [StreamAnswer.ofSetup, Life.next_opened]
    exact ⟨rfl, rfl, fun w same => by cases same; rfl⟩
  · simp only [Stream.setup, valid, Bool.not_true, Bool.false_eq_true, if_false, stuck, made, done]
    have failed : ∃ op ∈ configuring, fails op = true := by
      by_contra none
      exact done (StreamSocket.configure_ok.mpr none)
    rw [Life.next_refused (by simp [StreamAnswer.ofSetup])]
    exact fresh (through (.inr failed))

theorem Refines.killed {t : Stream} (socket : t.socket = none) (state : t.state = .invalid) :
    t.Refines .invalid :=
  ⟨state, by rw [socket]; rfl, fun w live => by cases live⟩

/-- On a connected stream the reclaim is the lifecycle's. -/
theorem Refines.reclaimIfDead {w : Watch} (h : s.Refines (.live w)) (now : ℚ) :
    s.reclaimIfDead now =
      if w.reclaimDue now then ({ s.kill with state := .invalid }, true) else (s, false) := by
  cases h.timers w rfl
  have ok : s.state = .ok := h.state
  have connected : s.socket.isSome = true := h.socket
  unfold Stream.reclaimIfDead
  refine if_congr ?_ rfl rfl
  rw [ok, connected]
  exact decide_eq_true_iff

theorem Refines.not_open (h : s.Refines l) (idle : l.isLive = false) : s.socket = none :=
  Option.not_isSome_iff_eq_none.mp (by rw [h.socket, idle]; simp)

theorem Refines.read (parse : F → Option M) (h : s.Refines l) (timeoutMs : Option Int) (wire : Wire F) :
    (s.read parse timeoutMs wire).2 = l.read parse wire ∧
      (s.read parse timeoutMs wire).1.Refines
        (l.next parse (.read timeoutMs wire) (.result (s.read parse timeoutMs wire).2)) := by
  cases l with
  | invalid =>
    have same : s.read parse timeoutMs wire = (s, ⟨.invalid, none⟩) := by
      simp [Stream.read, h.state, Life.status]
    rw [same]
    exact ⟨rfl, h⟩
  | stopped =>
    have same : s.read parse timeoutMs wire = (s, ⟨.stopped, none⟩) := by
      simp [Stream.read, h.state, Life.status]
    rw [same]
    exact ⟨rfl, h⟩
  | live w =>
    have ok : s.state = .ok := h.state
    have connected : s.socket ≠ none := fun none => by
      have lost := h.socket
      rw [none] at lost
      cases lost
    have timers := h.timers w rfl
    by_cases gone : w.reclaimDue wire.reclaimAt
    · have same : s.read parse timeoutMs wire = ({ s.kill with state := .invalid }, ⟨.invalid, none⟩) := by
        simp [Stream.read, ok, connected, h.reclaimIfDead, gone]
      rw [same]
      have due : w.reclaimDue wire.reclaimAt ∨ w.stopDue wire.watchAt := .inl gone
      simp only [Life.next, Life.read, Life.afterRead, if_pos due]
      exact ⟨trivial, .killed rfl rfl⟩
    by_cases late : w.stopDue wire.watchAt
    · have same : s.read parse timeoutMs wire = ({ s.kill with state := .invalid }, ⟨.invalid, none⟩) := by
        have passed : s.config.stopDeadlineMs ≤ elapsedMs s.lastReadOk wire.watchAt := by
          cases timers; exact late
        simp [Stream.read, ok, connected, h.reclaimIfDead, gone, passed]
      rw [same]
      have due : w.reclaimDue wire.reclaimAt ∨ w.stopDue wire.watchAt := .inr late
      simp only [Life.next, Life.read, Life.afterRead, if_pos due]
      exact ⟨trivial, .killed rfl rfl⟩
    have early : ¬ (w.reclaimDue wire.reclaimAt ∨ w.stopDue wire.watchAt) := not_or.mpr ⟨gone, late⟩
    have waiting : ¬ s.config.stopDeadlineMs ≤ elapsedMs s.lastReadOk wire.watchAt := by
      cases timers; exact late
    have still : (s.socket.map fun sock =>
        { sock with rcvtimeo := max (timeoutMs.getD s.config.readTimeoutMs) 1 }).isSome = true :=
      Option.isSome_map.trans h.socket
    simp only [Life.next, Life.read, Life.afterRead, if_neg early]
    cases arrived : wire.frame with
    | none =>
      simp only [Stream.read, ok, connected, h.reclaimIfDead, gone, waiting, arrived, reduceCtorEq,
        if_false, ne_eq, not_true, or_self]
      exact ⟨trivial, ok, still, fun v same => by cases same; exact timers⟩
    | some frame =>
      cases decoded : parse frame with
      | none =>
        simp only [Stream.read, ok, connected, h.reclaimIfDead, gone, waiting, arrived, decoded,
          reduceCtorEq, if_false, ne_eq, not_true, or_self]
        exact ⟨trivial, ok, still, fun v same => by cases same; cases timers; rfl⟩
      | some msg =>
        simp only [Stream.read, ok, connected, h.reclaimIfDead, gone, waiting, arrived, decoded,
          reduceCtorEq, if_false, ne_eq, not_true, or_self]
        exact ⟨trivial, ok, still, fun v same => by cases same; cases timers; rfl⟩

theorem Refines.stop (parse : F → Option M) (h : s.Refines l) (now : ℚ) (a : StreamAnswer M) :
    (s.stop now).1.Refines (l.next parse (.stop now : StreamCall F) a) := by
  cases l with
  | invalid | stopped =>
    have closed : s.socket = none := h.not_open rfl
    have kept : (s.reclaimIfDead now).1 = s := by simp [Stream.reclaimIfDead, closed]
    have same : (s.stop now).1 = s.kill := by
      simp [Stream.stop, kept, Stream.kill, h.state, Life.status]
    rw [same]
    exact h.idle rfl rfl rfl
  | live w =>
    by_cases gone : w.reclaimDue now
    · have same : (s.stop now).1 = { s.kill with state := .invalid } := by
        simp [Stream.stop, h.reclaimIfDead, gone, Stream.kill]
      rw [same]
      simp only [Life.next, if_pos gone]
      exact .killed rfl rfl
    · have same : (s.stop now).1 = { s.kill with state := .stopped } := by
        simp [Stream.stop, h.reclaimIfDead, gone, Stream.kill, h.state, Life.status]
      rw [same]
      simp only [Life.next, if_neg gone]
      exact ⟨rfl, rfl, fun v live => by cases live⟩

theorem simulates : Simulates parse (Stream.step parse) Stream.state (·.socket.isSome) Refines
    fun before (c : StreamCall F) => ¬ c.breaks before where
  status_eq := Refines.state
  isOpen_eq := Refines.socket
  step_rel := by
    intro s l c h clock past spared
    cases c with
    | setup config fails now => exact h.setup spared
    | read timeoutMs wire => exact (h.read parse timeoutMs wire).2
    | stop now => exact h.stop parse now _
    | state => exact h
  read_eq := by
    intro s l timeoutMs wire h past
    exact congrArg StreamAnswer.result (h.read parse timeoutMs wire).1

/-- A `setup` that raises once the old connection is closed leaves the state as it was. -/
theorem loses_socket (parse : F → Option M) {c : StreamCall F} (h : c.breaks s.state) :
    (s.step parse c).1.state = .ok ∧ (s.step parse c).1.socket.isSome = false := by
  cases c with
  | read | stop | state => exact h.elim
  | setup config fails now =>
    obtain ⟨ok, valid, closed, failed⟩ := h
    by_cases made : fails .socket = true
    · simp [Stream.step, Stream.setup, valid, closed, made, ok, kill]
    · have undone : ¬ (StreamSocket.configure config fails {} configuring).2 = true :=
        fun done => StreamSocket.configure_ok.mp done (failed.resolve_left made)
      simp [Stream.step, Stream.setup, valid, closed, made, undone, ok, kill]

def entries (parse : F → Option M) (s : Stream) (calls : List (StreamCall F)) :
    List (StreamEntry F M) :=
  Harpia.entries (Stream.step parse) Stream.state (·.socket.isSome) s calls

end Stream

end Harpia
