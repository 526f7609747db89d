import Harpia.ConnectionPool

namespace Harpia

/-- An event of a schedule, beside the pool and the calls it finds. -/
abbrev PoolMoment := PoolRun × Threads.Event PoolCall PoolAnswer

namespace PoolMoment

/-- The call that moves, and how its unlocked work ends. -/
def moving : PoolMoment → Option (PoolThread × PoolAnswer)
  | (_, .start _) => none
  | (c, .step i answer) => c.locals[i]?.map fun t => (t, answer)

/-- The connections that are closed: a dead one, one that does not roll back, those `close` took. -/
def closes (x : PoolMoment) : Multiset Conn :=
  match x.moving with
  | some (⟨.discard conn, _, _⟩, _) | some (⟨.drop conn, _, _⟩, _) => {conn}
  | some (⟨.closing conns, _, _⟩, _) => conns
  | _ => 0

/-- The connection that a liveness check loses by raising: it is not closed. -/
def loses (x : PoolMoment) : Multiset Conn :=
  match x.moving with
  | some (⟨.check conn, _, _⟩, .raises) => {conn}
  | _ => 0

/-- A borrow puts its connection back. -/
def GivesBack (x : PoolMoment) (conn : Conn) : Prop :=
  ∃ t answer, x.moving = some (t, answer) ∧ t.stage = .giveBack (some conn)

/-- A borrow is lent the connection, or `close` takes all that are idle. -/
def TakesOff (x : PoolMoment) (conn : Conn) : Prop :=
  ∃ t answer, x.moving = some (t, answer) ∧
    (t.stage = .closeIdle ∨ t.stage = .take ∧ ∃ p, x.1.shared.take = some (p, some conn))

end PoolMoment

/-- The connections closed so far. -/
def closedIn (past : List PoolMoment) : Multiset Conn := (past.map PoolMoment.closes).sum

def lostIn (past : List PoolMoment) : Multiset Conn := (past.map PoolMoment.loses).sum

/-- A connection given back that nothing has taken off the pool since. -/
def LeftIn (past : List PoolMoment) (conn : Conn) : Prop :=
  ∃ before x after, past = before ++ x :: after ∧ x.GivesBack conn ∧
    ∀ y ∈ after, ¬ y.TakesOff conn

theorem leftIn_concat {past : List PoolMoment} {x : PoolMoment} {conn : Conn} :
    LeftIn (past ++ [x]) conn ↔ x.GivesBack conn ∨ (LeftIn past conn ∧ ¬ x.TakesOff conn) := by
  constructor
  · rintro ⟨before, y, after, parts, given, kept⟩
    rcases List.eq_nil_or_concat' after with rfl | ⟨after, last, rfl⟩
    · obtain ⟨rfl, one⟩ := List.append_inj' parts rfl
      cases one
      exact .inl given
    · have parts' : past ++ [x] = (before ++ y :: after) ++ [last] := by simpa using parts
      obtain ⟨rfl, one⟩ := List.append_inj' parts' rfl
      cases one
      exact .inr ⟨⟨before, y, after, rfl, given, fun z hz => kept z (by simp [hz])⟩,
        kept x (by simp)⟩
  · rintro (given | ⟨⟨before, y, after, rfl, given, kept⟩, still⟩)
    · exact ⟨past, x, [], rfl, given, by simp⟩
    · refine ⟨before, y, after ++ [x], by simp, given, fun z hz => ?_⟩
      rcases List.mem_append.mp hz with hz | hz
      · exact kept z hz
      · exact List.mem_singleton.mp hz ▸ still

section Moments

variable {c c' : PoolRun} {e : Threads.Event PoolCall PoolAnswer}

theorem moving_step {i : Nat} {answer : PoolAnswer} {t : PoolThread} (ht : c.locals[i]? = some t) :
    PoolMoment.moving (c, .step i answer) = some (t, answer) := by
  simp [PoolMoment.moving, ht]

theorem next_gone (h : c.next poolMachine e = some c') :
    c'.shared.gone =
      c.shared.gone + (PoolMoment.closes (c, e) + PoolMoment.loses (c, e)) := by
  cases e with
  | start call =>
    cases Option.some.inj h
    exact (add_zero _).symm
  | step i answer =>
    obtain ⟨⟨stage, taken, given⟩, p', t', ht, hs, rfl⟩ := Threads.next_step h
    have hs : poolStep answer c.shared ⟨stage, taken, given⟩ = some (p', t') := hs
    rw [PoolMoment.closes, PoolMoment.loses, moving_step ht]
    cases stage with
    | take =>
      rcases poolStep_take rfl hs with ⟨conn, hp, -⟩ | ⟨-, rfl, -⟩
      · have same : p'.gone = c.shared.gone := by
          obtain ⟨-, ⟨_, -, -, hp'⟩ | ⟨-, -, hp'⟩⟩ := take_cases hp <;> rw [hp']
        simp [same]
      · simp
    | ended => simp [poolStep] at hs
    | giveBack conn =>
      cases conn <;> cases answer <;> obtain ⟨rfl, -⟩ := Prod.mk.inj (Option.some.inj hs) <;>
        simp [ConnectionPool.giveBack]
    | _ =>
      cases answer <;> obtain ⟨rfl, -⟩ := Prod.mk.inj (Option.some.inj hs) <;>
        simp [ConnectionPool.forget, ConnectionPool.factory, ConnectionPool.closeIdle]

/-- What one event does to the idle connections. -/
theorem next_idle (apart : c.shared.idle.Nodup) (h : c.next poolMachine e = some c') (conn : Conn) :
    conn ∈ c'.shared.idle ↔ PoolMoment.GivesBack (c, e) conn ∨
      (conn ∈ c.shared.idle ∧ ¬ PoolMoment.TakesOff (c, e) conn) := by
  cases e with
  | start call =>
    cases Option.some.inj h
    simp [PoolMoment.GivesBack, PoolMoment.TakesOff, PoolMoment.moving]
  | step i answer =>
    obtain ⟨⟨stage, taken, given⟩, p', t', ht, hs, rfl⟩ := Threads.next_step h
    have hs : poolStep answer c.shared ⟨stage, taken, given⟩ = some (p', t') := hs
    simp only [PoolMoment.GivesBack, PoolMoment.TakesOff, moving_step ht, Option.some.injEq,
      Prod.mk.injEq]
    cases stage with
    | take =>
      rcases poolStep_take rfl hs with ⟨lent, hp, -⟩ | ⟨hp, rfl, -⟩
      · obtain ⟨-, ⟨first, rfl, hidle, hp'⟩ | ⟨rfl, hidle, hp'⟩⟩ := take_cases hp
        · have new : first ∉ p'.idle := by
            rw [hidle, List.nodup_append] at apart
            exact fun mem => apart.2.2 first mem first List.mem_cons_self rfl
          have lent : ∀ q, some (p', some first) = some (q, some conn) ↔ conn = first ∧ p' = q := by
            intro q
            simp [eq_comm, and_comm]
          rw [hp, hidle]
          have apart' : conn ∈ p'.idle → conn ≠ first := fun mem => ne_of_mem_of_not_mem mem new
          simp [lent]
          tauto
        · simp [hp, hp', hidle]
      · simp [hp]
    | ended => simp [poolStep] at hs
    | giveBack given =>
      cases given <;> cases answer <;> obtain ⟨rfl, -⟩ := Prod.mk.inj (Option.some.inj hs) <;>
        simp [ConnectionPool.giveBack, eq_comm, or_comm]
    | _ =>
      cases answer <;> obtain ⟨rfl, -⟩ := Prod.mk.inj (Option.some.inj hs) <;>
        simp [ConnectionPool.forget, ConnectionPool.factory, ConnectionPool.closeIdle]

end Moments

section Runs

variable {size : Int} {p : ConnectionPool} {es : List (Threads.Event PoolCall PoolAnswer)}
  {c : PoolRun}

/-- What was given up is what was closed and what was lost. -/
theorem run_gone (hp : ConnectionPool.new size = .ok p)
    (h : Threads.run poolMachine ⟨p, []⟩ es = some c) :
    c.shared.gone = closedIn (Threads.trace poolMachine ⟨p, []⟩ es) +
      lostIn (Threads.trace poolMachine ⟨p, []⟩ es) := by
  obtain ⟨rfl, -⟩ := new_eq hp
  refine Threads.run_trace (P := fun past c => c.shared.gone = closedIn past + lostIn past) rfl ?_ h
  intro past c e c' hc hs
  rw [next_gone hs, hc]
  simp only [closedIn, lostIn, List.map_append, List.map_cons, List.map_nil, List.sum_append,
    List.sum_singleton]
  abel

/-- The idle connections are those given back and not taken off since. -/
theorem run_idle (hp : ConnectionPool.new size = .ok p)
    (h : Threads.run poolMachine ⟨p, []⟩ es = some c) (conn : Conn) :
    conn ∈ c.shared.idle ↔ LeftIn (Threads.trace poolMachine ⟨p, []⟩ es) conn := by
  induction es using List.reverseRecOn generalizing c with
  | nil =>
    obtain ⟨rfl, -⟩ := new_eq hp
    cases Option.some.inj h
    simp [Threads.trace, LeftIn]
  | append_singleton es e ih =>
    rw [Threads.run_append] at h
    obtain ⟨d, hd, h⟩ := Option.bind_eq_some_iff.mp h
    obtain ⟨d', hd', h⟩ := Option.bind_eq_some_iff.mp h
    cases Option.some.inj h
    have apart : d.shared.idle.Nodup :=
      Multiset.coe_nodup.mp (Multiset.nodup_of_le (Multiset.le_add_right _ _) (run_apart hp hd))
    rw [Threads.trace_concat hd, leftIn_concat, next_idle apart hd', ih hd]

/-- When all calls have ended, every connection made is idle, closed or lost. -/
theorem run_ended (hp : ConnectionPool.new size = .ok p)
    (h : Threads.run poolMachine ⟨p, []⟩ es = some c) (ended : ∀ t ∈ c.locals, t.stage = .ended) :
    ↑c.shared.idle + (closedIn (Threads.trace poolMachine ⟨p, []⟩ es) +
      lostIn (Threads.trace poolMachine ⟨p, []⟩ es)) = Multiset.range c.shared.opened := by
  have none : c.total (fun t => t.stage.lent + t.stage.leaving) = 0 := by
    refine List.sum_eq_zero fun x hx => ?_
    obtain ⟨t, ht, rfl⟩ := List.mem_map.mp hx
    rw [ended t ht]
    rfl
  rw [← run_gone hp h, ← run_conns hp h, none, add_zero]

/-- Every connection the factory made has been closed. -/
def AllClosed (p : ConnectionPool) (es : List (Threads.Event PoolCall PoolAnswer)) (c : PoolRun) :
    Prop :=
  ∀ conn < c.shared.opened, conn ∈ closedIn (Threads.trace poolMachine ⟨p, []⟩ es)

/-- No liveness check raises, and what a borrow gives back is taken off the pool again. -/
def ReturnsTaken (past : List PoolMoment) : Prop :=
  (∀ x ∈ past, x.loses = 0) ∧ ∀ before x after conn, past = before ++ x :: after →
    x.GivesBack conn → ∃ y ∈ after, y.TakesOff conn

theorem returnsTaken_iff {past : List PoolMoment} :
    ReturnsTaken past ↔ lostIn past = 0 ∧ ∀ conn, ¬ LeftIn past conn := by
  have lost : lostIn past = 0 ↔ ∀ x ∈ past, x.loses = 0 := by
    induction past with
    | nil => simp [lostIn]
    | cons x past ih =>
      rw [lostIn, List.map_cons, List.sum_cons, ← Multiset.card_eq_zero, Multiset.card_add,
        Nat.add_eq_zero_iff, Multiset.card_eq_zero, Multiset.card_eq_zero, List.forall_mem_cons]
      exact and_congr_right fun _ => ih
  refine and_congr lost.symm ⟨fun taken conn => ?_, fun none before x after conn parts given => ?_⟩
  · rintro ⟨before, x, after, parts, given, kept⟩
    obtain ⟨y, hy, off⟩ := taken before x after conn parts given
    exact kept y hy off
  · by_contra still
    push Not at still
    exact none conn ⟨before, x, after, parts, given, still⟩

/-- The call that the thread of a number makes. -/
def callOf (es : List (Threads.Event PoolCall PoolAnswer)) (i : Nat) : Option PoolCall :=
  (es.filterMap fun | .start call => some call | .step _ _ => none)[i]?

/-- No borrow starts after a `close` has returned. -/
def NoBorrowAfterClose (p : ConnectionPool) (es : List (Threads.Event PoolCall PoolAnswer)) : Prop :=
  ∀ before after c, es = before ++ .start .borrow :: after →
    Threads.run poolMachine ⟨p, []⟩ before = some c →
    ∀ i t, callOf before i = some .close → c.locals[i]? = some t → t.stage ≠ .ended

/-- When all calls have ended, every connection is closed exactly if no check lost one and none was
left in a pool that no `close` emptied again. -/
theorem pool_closes_iff (hp : ConnectionPool.new size = .ok p)
    (h : Threads.run poolMachine ⟨p, []⟩ es = some c) (ended : ∀ t ∈ c.locals, t.stage = .ended) :
    AllClosed p es c ↔ ReturnsTaken (Threads.trace poolMachine ⟨p, []⟩ es) := by
  have all := run_ended hp h ended
  have unique := Multiset.nodup_range c.shared.opened
  rw [← all] at unique
  obtain ⟨-, rest, apart⟩ := Multiset.nodup_add.mp unique
  obtain ⟨-, -, apart'⟩ := Multiset.nodup_add.mp rest
  have made : ∀ conn, conn < c.shared.opened ↔ conn ∈ c.shared.idle ∨
      conn ∈ closedIn (Threads.trace poolMachine ⟨p, []⟩ es) ∨
      conn ∈ lostIn (Threads.trace poolMachine ⟨p, []⟩ es) := by
    intro conn
    rw [← Multiset.mem_range, ← all, Multiset.mem_add, Multiset.mem_add, Multiset.mem_coe]
  rw [returnsTaken_iff]
  simp only [← run_idle hp h]
  constructor
  · intro closed
    refine ⟨Multiset.eq_zero_of_forall_notMem fun conn lost => ?_, fun conn idle => ?_⟩
    · exact Multiset.disjoint_left.mp apart' (closed conn ((made conn).mpr (.inr (.inr lost)))) lost
    · exact Multiset.disjoint_left.mp apart (Multiset.mem_coe.mpr idle)
        (Multiset.mem_add.mpr (.inl (closed conn ((made conn).mpr (.inl idle)))))
  · rintro ⟨lost, idle⟩ conn hc
    rcases (made conn).mp hc with mem | mem | mem
    · exact absurd mem (idle conn)
    · exact mem
    · simp [lost] at mem

end Runs

/-- A borrow ends, and `close` takes its connection off the pool. -/
def closedLast : List (Threads.Event PoolCall PoolAnswer) :=
  [.start .borrow, .step 0 .yes, .step 0 .yes, .step 0 .yes, .step 0 .yes, .start .close,
    .step 1 .yes, .step 1 .yes]

theorem pool_closes_closedLast : ∃ p c, ConnectionPool.new 1 = .ok p ∧
    Threads.run poolMachine ⟨p, []⟩ closedLast = some c ∧
    (AllClosed p closedLast c ↔ ReturnsTaken (Threads.trace poolMachine ⟨p, []⟩ closedLast)) := by
  refine ⟨⟨1, [], 0, 0, 0, 0⟩, _, rfl, rfl, ?_⟩
  exact @pool_closes_iff 1 ⟨1, [], 0, 0, 0, 0⟩ closedLast _ rfl rfl (by decide)

/-- A borrow whose body goes on while `close` runs. -/
def closedFirst : List (Threads.Event PoolCall PoolAnswer) :=
  [.start .borrow, .step 0 .yes, .step 0 .yes, .start .close, .step 1 .yes, .step 1 .yes,
    .step 0 .yes, .step 0 .yes]

/-- The connection goes back to the idle ones, where no `close` finds it. -/
theorem not_pool_closes :
    ¬ ∀ (size : Int) (p : ConnectionPool) (es : List (Threads.Event PoolCall PoolAnswer))
      (c : PoolRun), ConnectionPool.new size = .ok p →
      Threads.run poolMachine ⟨p, []⟩ es = some c → (.start .close) ∈ es → NoBorrowAfterClose p es →
      (∀ t ∈ c.locals, t.stage = .ended) → AllClosed p es c := by
  intro all
  have quiet : NoBorrowAfterClose ⟨1, [], 0, 0, 0, 0⟩ closedFirst := by
    intro before after c parts _ i t hi _
    cases before with
    | nil => cases hi
    | cons first before =>
      have later : .start .borrow ∈ closedFirst.tail := by
        rw [parts]
        simp
      exact absurd later (by decide)
  have closed := all 1 ⟨1, [], 0, 0, 0, 0⟩ closedFirst _ rfl rfl (by decide) quiet (by decide) 0
    (by decide)
  revert closed
  decide

end Harpia
