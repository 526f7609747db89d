import Harpia.StreamRuns

namespace Harpia

variable {F M : Type} {parse : F → Option M} {l : Life}

namespace NamedStream

/-- What the Python stream keeps of it. -/
def toStream (s : NamedStream) : Stream := ⟨s.socket, s.config, s.state, s.lastReadOk, s.lastActivity⟩

/-- The stream is where its lifecycle says, and knows whether its handle is live. -/
structure Refines (s : NamedStream) (l : Life) : Prop where
  base : s.toStream.Refines l
  open_ : s.open_ = s.socket.isSome

variable {s : NamedStream}

/-- Whole milliseconds reach a whole deadline when the exact time does. -/
theorem le_elapsedMs {since now : ℚ} (past : since ≤ now) (ms : Int) :
    ms ≤ elapsedMs since now ↔ (ms : ℚ) ≤ Stream.elapsedMs since now := by
  have ahead : 0 ≤ (now - since) * 1000 := by linarith
  unfold elapsedMs Stream.elapsedMs
  rw [if_pos ahead]
  exact Int.le_floor

theorem kill_toStream (h : s.open_ = s.socket.isSome) :
    s.kill.toStream = s.toStream.kill ∧ s.kill.open_ = s.kill.socket.isSome := by
  unfold NamedStream.kill
  by_cases connected : s.open_ = true
  · rw [if_pos connected]
    exact ⟨rfl, rfl⟩
  · rw [if_neg connected]
    have none : s.socket = none := by
      rw [h] at connected
      exact Option.not_isSome_iff_eq_none.mp connected
    exact ⟨by simp [toStream, Stream.kill, none], h⟩

/-- The timers of a stream that is `ok` are those of its lifecycle. -/
theorem Refines.past (h : s.Refines l) {now : ℚ} (before : l.Before now) (ok : s.state = .ok) :
    s.lastReadOk ≤ now ∧ s.lastActivity ≤ now := by
  obtain ⟨w, rfl⟩ := Life.status_ok (h.base.state.symm.trans ok)
  cases h.base.timers w rfl
  exact before _ rfl

theorem Refines.reclaimIfDead (h : s.Refines l) {now : ℚ} (before : l.Before now) :
    (s.reclaimIfDead now).1.toStream = (s.toStream.reclaimIfDead now).1 ∧
      (s.reclaimIfDead now).2 = (s.toStream.reclaimIfDead now).2 ∧
      (s.reclaimIfDead now).1.open_ = (s.reclaimIfDead now).1.socket.isSome := by
  obtain ⟨killed, closed⟩ := kill_toStream h.open_
  by_cases ok : s.state = .ok
  · have same := le_elapsedMs (h.past before ok).2 s.config.reclaimAfterMs
    by_cases due : s.config.reclaimAfterMs ≤ elapsedMs s.lastActivity now
    · have due' := same.mp due
      by_cases connected : s.socket.isSome = true
      · simp only [NamedStream.reclaimIfDead, Stream.reclaimIfDead, h.open_, connected, ok, due, due',
          toStream, decide_true, Bool.and_self, if_true]
        exact ⟨congrArg (fun t : Stream => { t with state := .invalid }) killed, trivial, closed⟩
      · simp [NamedStream.reclaimIfDead, Stream.reclaimIfDead, h.open_, connected, toStream]
    · have due' : ¬ (s.config.reclaimAfterMs : ℚ) ≤ Stream.elapsedMs s.lastActivity now :=
        fun late => due (same.mpr late)
      simp [NamedStream.reclaimIfDead, Stream.reclaimIfDead, h.open_, ok, due, due', toStream]
  · simp [NamedStream.reclaimIfDead, Stream.reclaimIfDead, h.open_, ok, toStream]

theorem Refines.read (parse : F → Option M) (h : s.Refines l) (timeoutMs : Option Int) (wire : Wire F)
    (atReclaim : l.Before wire.reclaimAt) (atWatch : l.Before wire.watchAt) :
    (s.read parse timeoutMs wire).1.toStream = (s.toStream.read parse timeoutMs wire).1 ∧
      (s.read parse timeoutMs wire).2 = (s.toStream.read parse timeoutMs wire).2 ∧
      (s.read parse timeoutMs wire).1.open_ = (s.read parse timeoutMs wire).1.socket.isSome := by
  obtain ⟨killed, closed⟩ := kill_toStream h.open_
  obtain ⟨swept, found, tidy⟩ := h.reclaimIfDead atReclaim
  by_cases ended : s.state = .stopped
  · simp [NamedStream.read, Stream.read, ended, toStream, h.open_]
  by_cases ok : s.state = .ok
  case neg => simp [NamedStream.read, Stream.read, ended, ok, toStream, h.open_]
  have connected : s.toStream.socket ≠ none := by
    obtain ⟨w, rfl⟩ := Life.status_ok (h.base.state.symm.trans ok)
    exact Option.isSome_iff_ne_none.mp h.base.socket
  have reads : ¬ (s.toStream.state ≠ .ok ∨ s.toStream.socket = none) := by
    rintro (closed | none)
    · exact closed ok
    · exact connected none
  unfold NamedStream.read Stream.read
  rw [if_neg ended, if_neg (show ¬ s.toStream.state = .stopped from ended), if_neg (not_not.mpr ok),
    if_neg reads]
  by_cases gone : (s.reclaimIfDead wire.reclaimAt).2 = true
  · have gone' : (s.toStream.reclaimIfDead wire.reclaimAt).2 = true := found ▸ gone
    simp only [if_pos gone, if_pos gone']
    exact ⟨swept, trivial, tidy⟩
  have gone' : ¬ (s.toStream.reclaimIfDead wire.reclaimAt).2 = true := found ▸ gone
  simp only [if_neg gone, if_neg gone']
  have same : s.config.stopDeadlineMs ≤ elapsedMs s.lastReadOk wire.watchAt ↔
      (s.toStream.config.stopDeadlineMs : ℚ) ≤ Stream.elapsedMs s.toStream.lastReadOk wire.watchAt :=
    le_elapsedMs (h.past atWatch ok).1 s.config.stopDeadlineMs
  by_cases late : s.config.stopDeadlineMs ≤ elapsedMs s.lastReadOk wire.watchAt
  · rw [if_pos late, if_pos (same.mp late)]
    exact ⟨congrArg (fun t : Stream => { t with state := .invalid }) killed, rfl, closed⟩
  rw [if_neg late, if_neg fun late' => late (same.mpr late')]
  have wait : ∀ ms : Int, (if ms ≤ 0 then 1 else ms) = max ms 1 := fun ms => by omega
  have still : s.open_ = (s.setRcvtimeo (max (timeoutMs.getD s.config.readTimeoutMs) 1)).socket.isSome :=
    h.open_.trans Option.isSome_map.symm
  rw [wait]
  cases wire.frame with
  | none => exact ⟨rfl, rfl, still⟩
  | some frame =>
    cases decoded : parse frame with
    | none => simp only [decoded]; exact ⟨rfl, trivial, still⟩
    | some msg => simp only [decoded]; exact ⟨rfl, trivial, still⟩

theorem Refines.stop (h : s.Refines l) {now : ℚ} (before : l.Before now) :
    (s.stop now).1.toStream = (s.toStream.stop now).1 ∧
      (s.stop now).1.open_ = (s.stop now).1.socket.isSome := by
  obtain ⟨swept, found, tidy⟩ := h.reclaimIfDead before
  obtain ⟨killed, closed⟩ := kill_toStream tidy
  rw [swept] at killed
  have state : (s.reclaimIfDead now).1.kill.state = (s.toStream.reclaimIfDead now).1.kill.state :=
    congrArg Stream.state killed
  unfold NamedStream.stop Stream.stop
  by_cases latched : (s.reclaimIfDead now).1.kill.state = .invalid
  · simp only [latched, ← state, ne_eq, not_true, if_false]
    exact ⟨killed, closed⟩
  · simp only [latched, ← state, ne_eq, not_false_eq_true, if_true]
    exact ⟨congrArg (fun t : Stream => { t with state := .stopped }) killed, closed⟩

theorem Refines.setup (h : s.Refines l) {config : StreamConfig} {fails : SetupOp → Bool} {now : ℚ}
    (spared : ¬ (StreamCall.setup (F := F) config fails now).breaksNamed l.status) :
    (s.setup config fails now).1.Refines
      (l.next parse (.setup config fails now) (.ofSetup (s.setup config fails now).2)) := by
  by_cases valid : streamConfigValid config = true
  case neg =>
    simp only [NamedStream.setup, valid, Bool.not_false, if_true]
    rw [Life.next_refused (by simp [StreamAnswer.ofSetup])]
    exact h
  by_cases made : fails .socket = true
  · simp only [NamedStream.setup, valid, Bool.not_true, Bool.false_eq_true, if_false, made, if_true]
    have idle : l.isLive = false := by
      cases l with
      | invalid | stopped => rfl
      | live w => exact absurd ⟨valid, .inl ⟨rfl, made⟩⟩ spared
    rw [Life.next_refused (by simp [StreamAnswer.ofSetup])]
    exact ⟨h.base.idle idle rfl (h.base.not_open idle), h.open_⟩
  have done : (StreamSocket.configure config fails {} configuring).2 = true := by
    refine StreamSocket.configure_ok.mpr fun failed => spared ⟨valid, .inr ⟨?_, failed⟩⟩
    simpa using made
  simp only [NamedStream.setup, valid, Bool.not_true, Bool.false_eq_true, if_false, made, done, if_true]
  rw [StreamAnswer.ofSetup, Life.next_opened]
  exact ⟨⟨rfl, rfl, fun w same => by cases same; rfl⟩, rfl⟩

theorem simulates : Simulates parse (NamedStream.step parse) NamedStream.state (·.socket.isSome)
    Refines fun before (c : StreamCall F) => ¬ c.breaksNamed before where
  status_eq h := h.base.state
  isOpen_eq h := h.base.socket
  step_rel := by
    intro s l c h clock past spared
    cases c with
    | setup config fails now => exact h.setup spared
    | read timeoutMs wire =>
      obtain ⟨same, answer, tidy⟩ := h.read parse timeoutMs wire
        (past _ (by simp [StreamCall.clock])) (past _ (by simp [StreamCall.clock]))
      have step := (h.base.read parse timeoutMs wire).2
      rw [← same, ← answer] at step
      exact ⟨step, tidy⟩
    | stop now =>
      obtain ⟨same, tidy⟩ := h.stop (past now (by simp [StreamCall.clock]))
      have step := h.base.stop parse now (.status (s.stop now).2)
      rw [← same] at step
      exact ⟨step, tidy⟩
    | state => exact h
  read_eq := by
    intro s l timeoutMs wire h past
    obtain ⟨same, answer, tidy⟩ := h.read parse timeoutMs wire
      (past _ (by simp [StreamCall.clock])) (past _ (by simp [StreamCall.clock]))
    exact congrArg StreamAnswer.result (answer.trans (h.base.read parse timeoutMs wire).1)

def entries (parse : F → Option M) (s : NamedStream) (calls : List (StreamCall F)) :
    List (StreamEntry F M) :=
  Harpia.entries (NamedStream.step parse) NamedStream.state (·.socket.isSome) s calls

/-- A `setup` that throws once a socket is made leaves that socket open. -/
theorem leaves_open (parse : F → Option M) {c : StreamCall F} (idle : s.state ≠ .ok) (h : c.breaksNamed s.state) :
    (s.step parse c).1.state ≠ .ok ∧ (s.step parse c).1.socket.isSome = true := by
  cases c with
  | read | stop | state => exact h.elim
  | setup config fails now =>
    obtain ⟨valid, ⟨ok, -⟩ | ⟨made, failed⟩⟩ := h
    · exact absurd ok idle
    · have undone : ¬ (StreamSocket.configure config fails {} configuring).2 = true :=
        fun done => StreamSocket.configure_ok.mp done failed
      simp [NamedStream.step, NamedStream.setup, valid, made, undone, idle]

end NamedStream

/-- A stream in Python keeps its lifecycle exactly in the runs in which no `setup` on an `ok` stream
raises after it closed the old connection. One in C++ keeps it in those in which no `setup` throws
on an `ok` stream, or on another one after a socket is made; and none that does the latter. -/
theorem streams_keep_lifecycle (parse : F → Option M) (calls : List (StreamCall F))
    (clock : MonotoneClock calls) :
    (KeepsLifecycle (Stream.entries parse {} calls) ↔
      ∀ e ∈ Stream.entries parse {} calls, ¬ e.call.breaks e.before) ∧
    ((∀ e ∈ NamedStream.entries parse {} calls, ¬ e.call.breaksNamed e.before) →
      KeepsLifecycle (NamedStream.entries parse {} calls)) ∧
    (KeepsLifecycle (NamedStream.entries parse {} calls) →
      ∀ e ∈ NamedStream.entries parse {} calls, e.before ≠ .ok → ¬ e.call.breaksNamed e.before) := by
  have fresh : ∀ t ∈ calls.flatMap StreamCall.clock, Life.invalid.Before t :=
    fun t _ w live => by cases live
  have new : ({} : Stream).Refines .invalid := .killed rfl rfl
  refine ⟨⟨fun keeps e he broken => ?_, fun spared => ?_⟩, fun spared => ?_, fun keeps e he idle leak => ?_⟩
  · obtain ⟨s, c, rfl⟩ := mem_entries he
    obtain ⟨ok, closed⟩ := Stream.loses_socket parse broken
    have opened := (keeps.open_iff _ he).mp ok
    rw [show (entryOf (Stream.step parse) Stream.state (·.socket.isSome) s c).isOpen = false from closed]
      at opened
    cases opened
  · exact (Stream.simulates.traces new clock fresh spared).keeps
  · have new : ({} : NamedStream).Refines .invalid := ⟨.killed rfl rfl, rfl⟩
    exact (NamedStream.simulates.traces new clock fresh spared).keeps
  · obtain ⟨s, c, rfl⟩ := mem_entries he
    obtain ⟨bad, opened⟩ := NamedStream.leaves_open parse idle leak
    exact bad ((keeps.open_iff _ he).mpr opened)

theorem streams_keep_lifecycle_stop :
    KeepsLifecycle (Stream.entries (fun _ : Unit => some true) {}
      [.setup { endpoint := "ipc://a" } (fun _ => false) 1, .read none ⟨2, 2, 2, some (), 3, 3⟩,
        .stop 4, .setup { endpoint := "ipc://b" } (· == .connect) 5]) := by
  refine ((streams_keep_lifecycle _ _ ?_).1).mpr ?_
  · norm_num [MonotoneClock, StreamCall.clock]
  · intro e he broken
    simp only [Stream.entries, entries, List.mem_cons, List.not_mem_nil, or_false] at he
    rcases he with rfl | rfl | rfl | rfl
    · exact absurd broken.1 (by decide)
    · exact broken
    · exact broken
    · exact absurd broken.1 (by decide +kernel)

/-- The second `setup` cannot connect: the stream is `ok` and has no socket. -/
theorem not_streams_keep_lifecycle :
    ¬ ∀ (parse : Unit → Option Bool) (calls : List (StreamCall Unit)), MonotoneClock calls →
      KeepsLifecycle (Stream.entries parse {} calls) ∧
        KeepsLifecycle (NamedStream.entries parse {} calls) := by
  intro h
  let calls : List (StreamCall Unit) :=
    [.setup { endpoint := "ipc://a" } (fun _ => false) 1,
      .setup { endpoint := "ipc://b" } (· == .connect) 2]
  have clock : MonotoneClock calls := by simp [calls, MonotoneClock, StreamCall.clock]
  have keeps := (h (fun _ => some true) calls clock).1
  have second := keeps.open_iff _ (List.mem_cons_of_mem _ List.mem_cons_self)
  have opened := second.mp (by decide)
  exact absurd opened (by decide)

end Harpia
