import Mathlib.Algebra.Order.Group.Multiset
import Harpia.Lib.Threads
import Harpia.Session

namespace Harpia

inductive CacheMode
  | cached
  | notCached
deriving Repr, DecidableEq

variable {α β : Type}

/-- The locked section of a call: a subscription with the id it got, an id given up, a value. -/
inductive ChannelEntry (α β : Type)
  | subscribed (id : Nat) (callback : β)
  | unsubscribed (id : Nat)
  | published (value : α)

/-- A callback is run with a value, on account of the call whose section was the `origin`-th. -/
structure Invocation (α β : Type) where
  origin : Nat
  callback : β
  value : α
deriving DecidableEq

/-- A channel, with the locked sections run so far and the callbacks invoked so far. `last` holds a
value from the first publish on, when the channel is cached. -/
structure EventChannel (α β : Type) where
  mode : CacheMode
  auditSubject : String
  auditPhiFields : Bytes
  subs : List (Nat × β)
  lastId : Nat
  last : Option α
  audit : List AuditRecord
  history : List (ChannelEntry α β)
  log : Multiset (Invocation α β)

namespace EventChannel

def new (mode : CacheMode) (auditSubject : String) (auditPhiFields : Bytes) : EventChannel α β :=
  ⟨mode, auditSubject, auditPhiFields, [], 0, none, [], [], 0⟩

def cached (ch : EventChannel α β) : Bool := ch.mode = .cached

/-- The id is a 64-bit number in C++ and unbounded in Python. -/
def nextId (lang : Lang) (ch : EventChannel α β) : Nat :=
  match lang with
  | .cpp => (ch.lastId + 1) % 2 ^ 64
  | .python => ch.lastId + 1

/-- The locked section of `subscribe`, and the value to be replayed. -/
def subscribe (lang : Lang) (ch : EventChannel α β) (callback : β) :
    EventChannel α β × Option α :=
  let id := ch.nextId lang
  ({ ch with
      lastId := id
      subs := ch.subs ++ [(id, callback)]
      history := ch.history ++ [.subscribed id callback] },
    if ch.cached then ch.last else none)

/-- C++ erases the first entry with the id, Python every one. -/
def unsubscribe (lang : Lang) (ch : EventChannel α β) (id : Nat) : EventChannel α β :=
  { ch with
    subs := match lang with
      | .cpp => ch.subs.eraseP fun s => s.1 == id
      | .python => ch.subs.filter fun s => s.1 != id
    history := ch.history ++ [.unsubscribed id] }

/-- The locked section of `publish`, and the snapshot it takes. -/
def publish (ch : EventChannel α β) (value : α) : EventChannel α β × List (Nat × β) :=
  ({ ch with
      last := if ch.cached then some value else ch.last
      history := ch.history ++ [.published value] },
    ch.subs)

def record (ch : EventChannel α β) (operation subject : String) (detail : Bytes) :
    EventChannel α β :=
  { ch with audit := ch.audit ++ [⟨operation, subject, detail⟩] }

/-- `publish` audits on the calling thread, with or without subscribers. -/
def recordPhi (ch : EventChannel α β) : EventChannel α β :=
  if ch.auditPhiFields.isEmpty then ch
  else ch.record "phi_event_dispatch" ch.auditSubject ch.auditPhiFields

def recordException (ch : EventChannel α β) : EventChannel α β :=
  ch.record "event_callback_exception"
    (if ch.auditSubject.isEmpty then "<event>" else ch.auditSubject) []

def invoke (ch : EventChannel α β) (i : Invocation α β) : EventChannel α β :=
  { ch with log := ch.log + {i} }

end EventChannel

/-- How a callback ends. `exits` is an exception outside Python's `Exception`, such as
`SystemExit`. -/
inductive CallbackEnd
  | returns
  | throws
  | exits
deriving Repr, DecidableEq

/-- How a callback ends and what it leaves in the message, when it changes it. -/
structure Reaction (α : Type) where
  ending : CallbackEnd
  left : Option α

inductive ChannelCall (α β : Type)
  | subscribe (callback : β)
  | unsubscribe (id : Nat)
  | publish (value : α)

/-- Where a call stands: before its locked section, between it and the dispatch, or as the dispatch
thread it starts, with the callbacks still to run. -/
inductive ChannelStage (α β : Type)
  | call (call : ChannelCall α β)
  | publishing (origin : Nat) (snapshot : List (Nat × β)) (value : α)
  | dispatch (origin : Nat) (snapshot : List (Nat × β)) (value : α)
  | ended

/-- `dispatch` runs the first callback of the snapshot. Every callback of a C++ snapshot is handed
the value as a constant, and whatever it throws is caught; those of a Python snapshot share one
message, and only an `Exception` is caught. -/
def dispatchNext (lang : Lang) (ch : EventChannel α β) (origin : Nat) (callback : β)
    (rest : List (Nat × β)) (value : α) (r : Reaction α) : EventChannel α β × ChannelStage α β :=
  let ch := ch.invoke ⟨origin, callback, value⟩
  let value' := match lang with
    | .cpp => value
    | .python => r.left.getD value
  match r.ending, lang with
  | .returns, _ => (ch, .dispatch origin rest value')
  | .throws, _ => (ch.recordException, .dispatch origin rest value')
  | .exits, .cpp => (ch.recordException, .dispatch origin rest value')
  | .exits, .python => (ch, .ended)

def channelStep (lang : Lang) (r : Reaction α) (ch : EventChannel α β) :
    ChannelStage α β → Option (EventChannel α β × ChannelStage α β)
  | .call (.subscribe callback) =>
    match ch.subscribe lang callback with
    | (ch', some value) => some (ch', .dispatch ch.history.length [(0, callback)] value)
    | (ch', none) => some (ch', .ended)
  | .call (.unsubscribe id) => some (ch.unsubscribe lang id, .ended)
  | .call (.publish value) =>
    some ((ch.publish value).1, .publishing ch.history.length (ch.publish value).2 value)
  | .publishing origin snapshot value =>
    some (ch.recordPhi, if snapshot.isEmpty then .ended else .dispatch origin snapshot value)
  | .dispatch _ [] _ => some (ch, .ended)
  | .dispatch origin ((_, callback) :: rest) value =>
    some (dispatchNext lang ch origin callback rest value r)
  | .ended => none

def channelMachine (lang : Lang) :
    Threads.Machine (EventChannel α β) (ChannelStage α β) (ChannelCall α β) (Reaction α) where
  enter := .call
  advance := channelStep lang

/-- A run of calls on a new channel. -/
abbrev ChannelRun (α β : Type) := Threads (EventChannel α β) (ChannelStage α β)

namespace ChannelEntry

def unsubscribes (id : Nat) : ChannelEntry α β → Bool
  | .unsubscribed id' => id' == id
  | _ => false

@[simp] theorem unsubscribes_subscribed (id id' : Nat) (callback : β) :
    (.subscribed id' callback : ChannelEntry α β).unsubscribes id = false := rfl

@[simp] theorem unsubscribes_unsubscribed (id id' : Nat) :
    (.unsubscribed id' : ChannelEntry α β).unsubscribes id = (id' == id) := rfl

@[simp] theorem unsubscribes_published (id : Nat) (value : α) :
    (.published value : ChannelEntry α β).unsubscribes id = false := rfl

def subscribes : ChannelEntry α β → Bool
  | .subscribed .. => true
  | _ => false

def value? : ChannelEntry α β → Option α
  | .published value => some value
  | _ => none

end ChannelEntry

/-- The subscriptions of a history that no later section gives up. -/
def live : List (ChannelEntry α β) → List (Nat × β)
  | [] => []
  | .subscribed id callback :: rest =>
    if rest.any (·.unsubscribes id) then live rest else (id, callback) :: live rest
  | _ :: rest => live rest

/-- The value of the last publish of a history. -/
def lastPublished (h : List (ChannelEntry α β)) : Option α := (h.filterMap (·.value?)).getLast?

/-- The invocations the last section of a history is to lead to: a publish those of the callbacks
then subscribed, a subscription on a cached channel that of its own callback with the last value. -/
def due (mode : CacheMode) (past : List (ChannelEntry α β)) :
    ChannelEntry α β → Multiset (Invocation α β)
  | .published value => ↑((live past).map fun s => (⟨past.length, s.2, value⟩ : Invocation α β))
  | .subscribed _ callback =>
    match mode, lastPublished past with
    | .cached, some value => {⟨past.length, callback, value⟩}
    | _, _ => 0
  | .unsubscribed _ => 0

section Spec

variable {mode : CacheMode} {past rest h : List (ChannelEntry α β)} {e : ChannelEntry α β}

theorem live_append_subscribed (h : List (ChannelEntry α β)) (id : Nat) (callback : β) :
    live (h ++ [.subscribed id callback]) = live h ++ [(id, callback)] := by
  induction h with
  | nil => simp [live]
  | cons e h ih =>
    cases e with
    | subscribed id' callback' =>
      by_cases hany : h.any (·.unsubscribes id') = true
      · simp [live, hany, ih]
      · simp [live, hany, ih]
    | unsubscribed id' => exact ih
    | published value => exact ih

theorem live_append_unsubscribed (h : List (ChannelEntry α β)) (id : Nat) :
    live (h ++ [.unsubscribed id]) = (live h).filter fun s => s.1 != id := by
  induction h with
  | nil => simp [live]
  | cons e h ih =>
    cases e with
    | subscribed id' callback =>
      by_cases hany : h.any (·.unsubscribes id') = true
      · simp [live, hany, ih]
      · by_cases hid : id = id'
        · subst hid
          simp [live, hany, ih]
        · have hne : (id' != id) = true := by simpa using fun h => hid h.symm
          simp [live, hany, ih, hid, hne]
    | unsubscribed id' => exact ih
    | published value => exact ih

theorem live_append_published (h : List (ChannelEntry α β)) (value : α) :
    live (h ++ [.published value]) = live h := by
  induction h with
  | nil => simp [live]
  | cons e h ih =>
    cases e with
    | subscribed id' callback =>
      by_cases hany : h.any (·.unsubscribes id') = true
      · simp [live, hany, ih]
      · simp [live, hany, ih]
    | unsubscribed id' => exact ih
    | published value => exact ih

/-- The invocations a stretch of a history is to lead to. -/
def expected (mode : CacheMode) (past : List (ChannelEntry α β)) :
    List (ChannelEntry α β) → Multiset (Invocation α β)
  | [] => 0
  | e :: rest => due mode past e + expected mode (past ++ [e]) rest

theorem expected_append (past rest : List (ChannelEntry α β)) (e : ChannelEntry α β) :
    expected mode past (rest ++ [e]) = expected mode past rest + due mode (past ++ rest) e := by
  induction rest generalizing past with
  | nil => simp [expected]
  | cons d rest ih =>
    simp only [List.cons_append, expected, ih, List.append_assoc, List.nil_append, add_assoc]

theorem origin_of_mem_due {i : Invocation α β} (hi : i ∈ due mode past e) :
    i.origin = past.length := by
  cases e with
  | published value =>
    obtain ⟨s, -, rfl⟩ := List.mem_map.mp (Multiset.mem_coe.mp hi)
    rfl
  | subscribed id callback =>
    simp only [due] at hi
    split at hi
    · rw [Multiset.mem_singleton.mp hi]
    · exact absurd hi (Multiset.notMem_zero _)
  | unsubscribed id => exact absurd hi (Multiset.notMem_zero _)

theorem origin_of_mem_expected {i : Invocation α β} (hi : i ∈ expected mode past rest) :
    past.length ≤ i.origin ∧ i.origin < past.length + rest.length := by
  induction rest generalizing past with
  | nil => exact absurd hi (Multiset.notMem_zero _)
  | cons e rest ih =>
    rcases Multiset.mem_add.mp hi with hi | hi
    · have ho := origin_of_mem_due hi
      simp only [List.length_cons]
      omega
    · have ho := ih hi
      simp only [List.length_append, List.length_cons, List.length_nil] at ho ⊢
      omega

/-- Each section has its own invocations, told apart by their origin. -/
theorem expected_at {k : Nat} (hk : rest[k]? = some e) :
    (expected mode past rest).filter (fun i => i.origin = past.length + k) =
      due mode (past ++ rest.take k) e := by
  induction rest generalizing past k with
  | nil => simp at hk
  | cons d rest ih =>
    simp only [expected, Multiset.filter_add]
    cases k with
    | zero =>
      have hd : d = e := by simpa using hk
      subst hd
      have hrest : (expected mode (past ++ [d]) rest).filter
          (fun i => i.origin = past.length + 0) = 0 := by
        refine Multiset.filter_eq_nil.mpr fun i hi => ?_
        have ho := (origin_of_mem_expected hi).1
        simp only [List.length_append, List.length_cons, List.length_nil] at ho
        omega
      have hdue : (due mode past d).filter (fun i => i.origin = past.length + 0) =
          due mode past d := Multiset.filter_eq_self.mpr fun i hi => origin_of_mem_due hi
      rw [hrest, hdue]
      simp
    | succ k =>
      have hd : (due mode past d).filter (fun i => i.origin = past.length + (k + 1)) = 0 := by
        refine Multiset.filter_eq_nil.mpr fun i hi => ?_
        have ho := origin_of_mem_due hi
        omega
      have hlen : past.length + (k + 1) = (past ++ [d]).length + k := by
        simp only [List.length_append, List.length_cons, List.length_nil]
        omega
      rw [hd, zero_add, hlen, ih (by simpa using hk)]
      simp

end Spec

/-- The number of subscriptions of a history. -/
def subscriptions (h : List (ChannelEntry α β)) : Nat := h.countP (·.subscribes)

/-- The ids of a C++ channel do not repeat before 2^64 subscriptions. -/
def IdsFresh (lang : Lang) (h : List (ChannelEntry α β)) : Prop :=
  lang = .python ∨ subscriptions h < 2 ^ 64

/-- The callbacks neither leave `dispatch` by an exception it does not catch nor change the message
it hands on. -/
def Reaction.Mild (lang : Lang) (r : Reaction α) : Prop :=
  lang = .python → r.ending ≠ .exits ∧ r.left = none

namespace ChannelStage

/-- The invocations a call is still to make. -/
def pending : ChannelStage α β → Multiset (Invocation α β)
  | .publishing origin snapshot value | .dispatch origin snapshot value =>
    ↑(snapshot.map fun s => (⟨origin, s.2, value⟩ : Invocation α β))
  | _ => 0

/-- How many sections of a call may still follow its locked one. -/
def rank : ChannelStage α β → Nat
  | .publishing _ snapshot _ => snapshot.length + 2
  | .dispatch _ snapshot _ => snapshot.length + 1
  | _ => 0

end ChannelStage

/-- What a channel holds, in terms of the sections run so far. -/
structure ChannelHolds (mode : CacheMode) (ch : EventChannel α β) : Prop where
  mode_eq : ch.mode = mode
  subs_eq : ch.subs = live ch.history
  last_eq : ch.last = if mode = .cached then lastPublished ch.history else none
  lastId_eq : ch.lastId = subscriptions ch.history
  ids_le : ∀ s ∈ ch.subs, s.1 ≤ ch.lastId
  ids_nodup : (ch.subs.map (·.1)).Nodup

section Steps

variable {lang : Lang} {mode : CacheMode} {ch ch' : EventChannel α β}

theorem nextId_eq (hch : ChannelHolds mode ch) {callback : β}
    (hf : IdsFresh lang (ch.history ++ [.subscribed (ch.nextId lang) callback])) :
    ch.nextId lang = ch.lastId + 1 := by
  cases lang with
  | python => rfl
  | cpp =>
    have hlt := hf.resolve_left (by simp)
    have hid := hch.lastId_eq
    simp only [subscriptions, List.countP_append, List.countP_singleton,
      ChannelEntry.subscribes, if_true] at hlt hid
    exact Nat.mod_eq_of_lt (by omega)

theorem holds_subscribe (hch : ChannelHolds mode ch) (callback : β)
    (hf : IdsFresh lang (ch.subscribe lang callback).1.history) :
    ChannelHolds mode (ch.subscribe lang callback).1 := by
  have hid : ch.nextId lang = ch.lastId + 1 := nextId_eq hch hf
  refine ⟨hch.mode_eq, ?_, ?_, ?_, ?_, ?_⟩
  · simp only [EventChannel.subscribe, live_append_subscribed, hch.subs_eq]
  · simp [EventChannel.subscribe, hch.last_eq, lastPublished, ChannelEntry.value?]
  · simp [EventChannel.subscribe, hid, hch.lastId_eq, subscriptions, ChannelEntry.subscribes]
  · intro s hs
    rcases List.mem_append.mp hs with hs | hs
    · have hle := hch.ids_le s hs
      show s.1 ≤ ch.nextId lang
      omega
    · rw [List.mem_singleton.mp hs]
      exact le_refl _
  · have hnew : ch.nextId lang ∉ ch.subs.map (·.1) := by
      intro hm
      obtain ⟨s, hs, he⟩ := List.mem_map.mp hm
      have hle := hch.ids_le s hs
      omega
    simp only [EventChannel.subscribe, List.map_append, List.map_cons, List.map_nil]
    refine List.nodup_append.mpr ⟨hch.ids_nodup, List.nodup_singleton _, ?_⟩
    intro a ha b hb hab
    rw [List.mem_singleton.mp hb] at hab
    exact hnew (hab ▸ ha)

/-- With ids that do not repeat, erasing the first entry of an id erases every one. -/
theorem unsubscribe_subs (hch : ChannelHolds mode ch) (id : Nat) :
    (ch.unsubscribe lang id).subs = ch.subs.filter fun s => s.1 != id := by
  cases lang with
  | python => rfl
  | cpp =>
    show ch.subs.eraseP _ = _
    have hn := hch.ids_nodup
    generalize ch.subs = subs at hn
    induction subs with
    | nil => rfl
    | cons s subs ih =>
      obtain ⟨hs, hn⟩ := List.nodup_cons.mp hn
      by_cases he : s.1 = id
      · have hrest : subs.filter (fun s => s.1 != id) = subs := by
          refine List.filter_eq_self.mpr fun u hu => ?_
          have hne : u.1 ≠ id := fun h => hs (List.mem_map.mpr ⟨u, hu, h.trans he.symm⟩)
          simpa using hne
        simp [he, hrest]
      · simp [he, ih hn]

theorem holds_unsubscribe (hch : ChannelHolds mode ch) (id : Nat) :
    ChannelHolds mode (ch.unsubscribe lang id) := by
  have hsubs : (ch.unsubscribe lang id).subs = _ := unsubscribe_subs hch id
  refine ⟨hch.mode_eq, ?_, ?_, ?_, ?_, ?_⟩
  · rw [hsubs, hch.subs_eq]
    exact (live_append_unsubscribed _ _).symm
  · simp [EventChannel.unsubscribe, hch.last_eq, lastPublished, ChannelEntry.value?]
  · simp [EventChannel.unsubscribe, hch.lastId_eq, subscriptions, ChannelEntry.subscribes]
  · intro s hs
    rw [hsubs] at hs
    exact hch.ids_le s (List.mem_of_mem_filter hs)
  · rw [hsubs]
    exact hch.ids_nodup.sublist (List.filter_sublist.map _)

theorem holds_publish (hch : ChannelHolds mode ch) (value : α) :
    ChannelHolds mode (ch.publish value).1 := by
  refine ⟨hch.mode_eq, ?_, ?_, ?_, hch.ids_le, hch.ids_nodup⟩
  · exact hch.subs_eq.trans (live_append_published _ _).symm
  · simp only [EventChannel.publish, EventChannel.cached, hch.mode_eq, hch.last_eq]
    cases mode <;> simp [lastPublished, ChannelEntry.value?]
  · simp [EventChannel.publish, hch.lastId_eq, subscriptions, ChannelEntry.subscribes]

theorem fresh_of_append {h : List (ChannelEntry α β)} {e : ChannelEntry α β}
    (hf : IdsFresh lang (h ++ [e])) : IdsFresh lang h := by
  refine hf.imp_right fun hlt => ?_
  simp only [subscriptions, List.countP_append] at hlt ⊢
  omega

/-- An audit record touches neither what the channel holds nor its invocations. -/
theorem holds_record (hch : ChannelHolds mode ch) (operation subject : String) (detail : Bytes) :
    ChannelHolds mode (ch.record operation subject detail) :=
  ⟨hch.mode_eq, hch.subs_eq, hch.last_eq, hch.lastId_eq, hch.ids_le, hch.ids_nodup⟩

theorem holds_invoke (hch : ChannelHolds mode ch) (i : Invocation α β) :
    ChannelHolds mode (ch.invoke i) :=
  ⟨hch.mode_eq, hch.subs_eq, hch.last_eq, hch.lastId_eq, hch.ids_le, hch.ids_nodup⟩

/-- What a section must keep: the channel in step with its history, and every invocation either made
or still to be made. -/
def Keeps (mode : CacheMode) (ch : EventChannel α β) (t : ChannelStage α β)
    (ch' : EventChannel α β) (t' : ChannelStage α β) : Prop :=
  ChannelHolds mode ch' ∧ ch'.log + t'.pending + expected mode [] ch.history =
    ch.log + t.pending + expected mode [] ch'.history

theorem keeps_subscribe (hch : ChannelHolds mode ch) {callback : β} {r : Reaction α}
    {t' : ChannelStage α β}
    (h : channelStep lang r ch (.call (.subscribe callback)) = some (ch', t'))
    (hf : IdsFresh lang ch'.history) :
    Keeps mode ch (.call (.subscribe callback)) ch' t' := by
  have hch' : ch' = (ch.subscribe lang callback).1 := by
    simp only [channelStep] at h
    split at h
    next q v hq => rw [hq]; exact (Prod.mk.inj (Option.some.inj h)).1.symm
    next q hq => rw [hq]; exact (Prod.mk.inj (Option.some.inj h)).1.symm
  subst hch'
  refine ⟨holds_subscribe hch callback hf, ?_⟩
  have hreplay : t'.pending = due mode ch.history (.subscribed (ch.nextId lang) callback) := by
    have hl := hch.last_eq
    simp only [channelStep, EventChannel.subscribe, EventChannel.cached, hch.mode_eq, hl] at h
    cases mode with
    | notCached =>
      obtain ⟨-, rfl⟩ := Prod.mk.inj (Option.some.inj h)
      rfl
    | cached =>
      cases hp : lastPublished ch.history with
      | none =>
        simp only [hp] at h
        obtain ⟨-, rfl⟩ := Prod.mk.inj (Option.some.inj h)
        simp [due, hp, ChannelStage.pending]
      | some v =>
        simp only [hp] at h
        obtain ⟨-, rfl⟩ := Prod.mk.inj (Option.some.inj h)
        simp [due, hp, ChannelStage.pending]
  rw [hreplay]
  show ch.log + _ + _ = ch.log + 0 + expected mode [] (ch.history ++ [_])
  rw [expected_append, List.nil_append]
  abel

theorem keeps_dispatch (hch : ChannelHolds mode ch) {r : Reaction α} (hr : r.Mild lang)
    {origin id : Nat} {callback : β} {rest : List (Nat × β)} {value : α} :
    Keeps mode ch (.dispatch origin ((id, callback) :: rest) value)
      (dispatchNext lang ch origin callback rest value r).1
      (dispatchNext lang ch origin callback rest value r).2 := by
  have hinv := holds_invoke hch ⟨origin, callback, value⟩
  obtain ⟨ending, left⟩ := r
  have hlog : ch.log + {⟨origin, callback, value⟩} +
      ↑(rest.map fun s => (⟨origin, s.2, value⟩ : Invocation α β)) +
      expected mode [] ch.history =
      ch.log + ↑(((id, callback) :: rest).map fun s => (⟨origin, s.2, value⟩ : Invocation α β)) +
        expected mode [] ch.history := by
    rw [List.map_cons, ← Multiset.cons_coe, ← Multiset.singleton_add, ← add_assoc]
  cases lang with
  | cpp =>
    cases ending with
    | returns => exact ⟨hinv, hlog⟩
    | throws => exact ⟨holds_record hinv _ _ _, hlog⟩
    | exits => exact ⟨holds_record hinv _ _ _, hlog⟩
  | python =>
    obtain ⟨hexit, hleft⟩ := hr rfl
    simp only at hexit hleft
    subst hleft
    cases ending with
    | returns => exact ⟨hinv, hlog⟩
    | throws => exact ⟨holds_record hinv _ _ _, hlog⟩
    | exits => exact absurd rfl hexit

theorem channelStep_keeps {r : Reaction α} (hr : r.Mild lang) {t t' : ChannelStage α β}
    (h : channelStep lang r ch t = some (ch', t')) (hf : IdsFresh lang ch'.history)
    (hch : ChannelHolds mode ch) : Keeps mode ch t ch' t' := by
  cases t with
  | call call =>
    cases call with
    | subscribe callback => exact keeps_subscribe hch h hf
    | unsubscribe id =>
      obtain ⟨rfl, rfl⟩ := Prod.mk.inj (Option.some.inj h)
      refine ⟨holds_unsubscribe hch id, ?_⟩
      show ch.log + 0 + _ = ch.log + 0 + expected mode [] (ch.history ++ [_])
      rw [expected_append]
      simp only [due, add_zero]
    | publish value =>
      obtain ⟨rfl, rfl⟩ := Prod.mk.inj (Option.some.inj h)
      refine ⟨holds_publish hch value, ?_⟩
      show ch.log + _ + _ = ch.log + 0 + expected mode [] (ch.history ++ [_])
      rw [expected_append, List.nil_append]
      simp only [due, ChannelStage.pending, EventChannel.publish, hch.subs_eq]
      abel
  | publishing origin snapshot value =>
    obtain ⟨rfl, rfl⟩ := Prod.mk.inj (Option.some.inj h)
    have hpend : (if snapshot.isEmpty then .ended else .dispatch origin snapshot value :
        ChannelStage α β).pending = (ChannelStage.publishing origin snapshot value).pending := by
      cases snapshot <;> rfl
    unfold Keeps
    rw [hpend]
    unfold EventChannel.recordPhi
    split
    · exact ⟨hch, rfl⟩
    · exact ⟨holds_record hch _ _ _, rfl⟩
  | dispatch origin snapshot value =>
    cases snapshot with
    | nil =>
      obtain ⟨rfl, rfl⟩ := Prod.mk.inj (Option.some.inj h)
      exact ⟨hch, rfl⟩
    | cons s rest =>
      obtain ⟨rfl, rfl⟩ := Prod.mk.inj (Option.some.inj h)
      exact keeps_dispatch hch hr
  | ended => simp [channelStep] at h

/-- A section either leaves the history alone or ends it with its own entry. -/
theorem channelStep_history {r : Reaction α} {t t' : ChannelStage α β}
    (h : channelStep lang r ch t = some (ch', t')) :
    ch'.history = ch.history ∨ ∃ e, ch'.history = ch.history ++ [e] := by
  cases t with
  | call call =>
    refine Or.inr ?_
    cases call with
    | subscribe callback =>
      simp only [channelStep] at h
      split at h
      next q v hq =>
        obtain ⟨rfl, -⟩ := Prod.mk.inj (Option.some.inj h)
        exact ⟨_, congrArg (·.1.history) hq.symm⟩
      next q hq =>
        obtain ⟨rfl, -⟩ := Prod.mk.inj (Option.some.inj h)
        exact ⟨_, congrArg (·.1.history) hq.symm⟩
    | unsubscribe id =>
      obtain ⟨rfl, -⟩ := Prod.mk.inj (Option.some.inj h)
      exact ⟨_, rfl⟩
    | publish value =>
      obtain ⟨rfl, -⟩ := Prod.mk.inj (Option.some.inj h)
      exact ⟨_, rfl⟩
  | publishing origin snapshot value =>
    obtain ⟨rfl, -⟩ := Prod.mk.inj (Option.some.inj h)
    refine Or.inl ?_
    unfold EventChannel.recordPhi
    split <;> rfl
  | dispatch origin snapshot value =>
    refine Or.inl ?_
    cases snapshot with
    | nil => rw [(Prod.mk.inj (Option.some.inj h)).1]
    | cons s rest =>
      obtain ⟨rfl, -⟩ := Prod.mk.inj (Option.some.inj h)
      obtain ⟨ending, left⟩ := r
      cases lang <;> cases ending <;> rfl
  | ended => simp [channelStep] at h

end Steps

section Runs

variable {lang : Lang} {mode : CacheMode} {subject : String} {fields : Bytes}
  {es : List (Threads.Event (ChannelCall α β) (Reaction α))} {c : ChannelRun α β}

/-- Every section of the history has led to the invocations due for it, and there is no other. -/
def Delivered (mode : CacheMode) (h : List (ChannelEntry α β))
    (log : Multiset (Invocation α β)) : Prop :=
  (∀ k e, h[k]? = some e → log.filter (fun i => i.origin = k) = due mode (h.take k) e) ∧
    ∀ i ∈ log, i.origin < h.length

theorem delivered_expected (mode : CacheMode) (h : List (ChannelEntry α β)) :
    Delivered mode h (expected mode [] h) := by
  constructor
  · intro k e hk
    simpa using @expected_at _ _ mode [] h e k hk
  · intro i hi
    simpa using (origin_of_mem_expected hi).2

/-- The invocations made and those still to be made are the ones expected. -/
theorem run_expected (hmild : ∀ i r, Threads.Event.step i r ∈ es → r.Mild lang)
    (h : Threads.run (channelMachine lang) ⟨EventChannel.new mode subject fields, []⟩ es = some c)
    (hf : IdsFresh lang c.shared.history) :
    ChannelHolds mode c.shared ∧
      c.shared.log + c.total ChannelStage.pending = expected mode [] c.shared.history := by
  refine Threads.run_keeps (I := fun c => IdsFresh lang c.shared.history →
    ChannelHolds mode c.shared ∧
      c.shared.log + c.total ChannelStage.pending = expected mode [] c.shared.history)
    ?_ ?_ ?_ h hf
  · intro c call hc hf
    rw [Threads.total_start fun _ => rfl]
    exact hc hf
  · intro c i t r s t' hi hc ht hs hf
    have hfresh : IdsFresh lang c.shared.history := by
      rcases channelStep_history hs with he | ⟨e, he⟩
      · exact he ▸ hf
      · exact fresh_of_append (he ▸ hf)
    obtain ⟨hholds, hbal⟩ := hc hfresh
    obtain ⟨hholds', hstep⟩ := channelStep_keeps (hmild i r hi) hs hf hholds
    exact ⟨hholds', Threads.balance_step EventChannel.log
      (fun ch => expected mode [] ch.history) hbal ht hstep⟩
  · intro _
    refine ⟨⟨rfl, rfl, ?_, rfl, by simp [EventChannel.new], by simp [EventChannel.new]⟩, rfl⟩
    cases mode <;> rfl

theorem channelStep_progress {ch : EventChannel α β} {t : ChannelStage α β} (ht : t ≠ .ended)
    (r : Reaction α) : ∃ ch' t', channelStep lang r ch t = some (ch', t') ∧
      ((∃ call, t = .call call) ∨ t'.rank < t.rank) := by
  cases t with
  | call call =>
    cases call with
    | subscribe callback =>
      simp only [channelStep]
      split
      · exact ⟨_, _, rfl, Or.inl ⟨_, rfl⟩⟩
      · exact ⟨_, _, rfl, Or.inl ⟨_, rfl⟩⟩
    | unsubscribe id => exact ⟨_, _, rfl, Or.inl ⟨_, rfl⟩⟩
    | publish value => exact ⟨_, _, rfl, Or.inl ⟨_, rfl⟩⟩
  | publishing origin snapshot value =>
    refine ⟨_, _, rfl, Or.inr ?_⟩
    cases snapshot <;> simp [ChannelStage.rank]
  | dispatch origin snapshot value =>
    cases snapshot with
    | nil => exact ⟨_, _, rfl, Or.inr (by simp [ChannelStage.rank])⟩
    | cons s rest =>
      refine ⟨_, _, rfl, Or.inr ?_⟩
      obtain ⟨ending, left⟩ := r
      cases lang <;> cases ending <;> simp [ChannelStage.rank]
  | ended => exact absurd rfl ht

/-- At every moment of a run each section has led, or is still to lead, to exactly the invocations
due for it; no call is stuck; and when the calls and their dispatch threads have ended, exactly the
invocations due have been made. -/
theorem channel_delivers (hmild : ∀ i r, Threads.Event.step i r ∈ es → r.Mild lang)
    (h : Threads.run (channelMachine lang) ⟨EventChannel.new mode subject fields, []⟩ es = some c)
    (hf : IdsFresh lang c.shared.history) :
    Delivered mode c.shared.history (c.shared.log + c.total ChannelStage.pending) ∧
      (∀ t ∈ c.locals, t ≠ .ended → ∀ r, ∃ ch' t', channelStep lang r c.shared t = some (ch', t') ∧
        ((∃ call, t = .call call) ∨ t'.rank < t.rank)) ∧
      ((∀ t ∈ c.locals, t = .ended) → Delivered mode c.shared.history c.shared.log) := by
  have hexp := (run_expected hmild h hf).2
  have hdel : Delivered mode c.shared.history (c.shared.log + c.total ChannelStage.pending) := by
    rw [hexp]
    exact delivered_expected mode _
  refine ⟨hdel, fun t _ ht r => channelStep_progress ht r, fun hend => ?_⟩
  have hnone : c.total ChannelStage.pending = 0 := by
    refine List.sum_eq_zero fun x hx => ?_
    obtain ⟨t, ht, rfl⟩ := List.mem_map.mp hx
    rw [hend t ht]
    rfl
  rwa [hnone, add_zero] at hdel

def quiet : Reaction Nat := ⟨.returns, none⟩

/-- Two subscribers around a publish on a cached channel: the first throws, the second is replayed
the value. -/
def replaySchedule : List (Threads.Event (ChannelCall Nat Nat) (Reaction Nat)) :=
  [.start (.subscribe 10), .step 0 quiet, .start (.publish 7), .step 1 quiet,
    .start (.subscribe 20), .step 2 quiet, .step 2 quiet, .step 2 quiet, .step 1 quiet,
    .step 1 ⟨.throws, none⟩, .step 1 quiet]

theorem channel_delivers_replay : ∃ c : ChannelRun Nat Nat,
    Threads.run (channelMachine .python) ⟨EventChannel.new .cached "" [], []⟩ replaySchedule =
      some c ∧ Delivered .cached c.shared.history c.shared.log := by
  have hrun : ∃ c : ChannelRun Nat Nat, Threads.run (channelMachine .python)
      ⟨EventChannel.new .cached "" [], []⟩ replaySchedule = some c ∧ ∀ t ∈ c.locals, t = .ended :=
    ⟨_, rfl, by simp⟩
  obtain ⟨c, hc, hend⟩ := hrun
  refine ⟨c, hc, (channel_delivers ?_ hc (Or.inl rfl)).2.2 hend⟩
  intro i r hr _
  simp only [replaySchedule, List.mem_cons, Threads.Event.step.injEq, reduceCtorEq, false_or,
    List.not_mem_nil, or_false] at hr
  rcases hr with ⟨-, rfl⟩ | ⟨-, rfl⟩ | ⟨-, rfl⟩ | ⟨-, rfl⟩ | ⟨-, rfl⟩ | ⟨-, rfl⟩ | ⟨-, rfl⟩ |
    ⟨-, rfl⟩ <;> simp [quiet]

/-- Two subscribers and a publish; the first callback reacts with `r`. -/
def pairSchedule (r : Reaction Nat) : List (Threads.Event (ChannelCall Nat Nat) (Reaction Nat)) :=
  [.start (.subscribe 10), .step 0 quiet, .start (.subscribe 20), .step 1 quiet,
    .start (.publish 7), .step 2 quiet, .step 2 quiet, .step 2 r]

/-- A call that runs its locked section at once and needs no dispatch. -/
def atOnce (index : Nat) (call : ChannelCall Nat Nat) :
    List (Threads.Event (ChannelCall Nat Nat) (Reaction Nat)) :=
  [.start call, .step index quiet]

/-- A call runs its next section. -/
def again (index : Nat) : List (Threads.Event (ChannelCall Nat Nat) (Reaction Nat)) :=
  [.step index quiet]

/-- The id of the `n`-th subscriber after the first. -/
def wrapId (n : Nat) : Nat := (n + 2) % 2 ^ 64

theorem wrapId_ne {n : Nat} (hn : n + 2 ≤ 2 ^ 64) : wrapId n ≠ 1 := by
  unfold wrapId
  omega

/-- One subscriber stays while `n` others come and go. -/
def wrapSchedule : Nat → List (Threads.Event (ChannelCall Nat Nat) (Reaction Nat))
  | 0 => atOnce 0 (.subscribe 10)
  | n + 1 => wrapSchedule n ++ atOnce (2 * n + 1) (.subscribe 0) ++
      atOnce (2 * n + 2) (.unsubscribe (wrapId n))

def wrapHistory : Nat → List (ChannelEntry Nat Nat)
  | 0 => [.subscribed 1 10]
  | n + 1 => wrapHistory n ++ [.subscribed (wrapId n) 0] ++ [.unsubscribed (wrapId n)]

/-- The channel after `wrapSchedule n`. -/
def wrapChannel (n : Nat) : EventChannel Nat Nat :=
  ⟨.notCached, "", [], [(1, 10)], (n + 1) % 2 ^ 64, none, [], wrapHistory n, 0⟩

theorem live_wrapHistory {n : Nat} (hn : n + 1 ≤ 2 ^ 64) : live (wrapHistory n) = [(1, 10)] := by
  induction n with
  | zero => rfl
  | succ n ih =>
    have hne := (wrapId_ne (n := n) (by omega)).symm
    rw [wrapHistory, live_append_unsubscribed, live_append_subscribed, ih (by omega)]
    simp [hne]

theorem nextId_wrapChannel (n : Nat) : (wrapChannel n).nextId .cpp = wrapId n := by
  show ((n + 1) % 2 ^ 64 + 1) % 2 ^ 64 = (n + 2) % 2 ^ 64
  omega

theorem run_wrapSchedule {n : Nat} (hn : n + 1 ≤ 2 ^ 64) :
    Threads.run (channelMachine .cpp) ⟨EventChannel.new .notCached "" [], []⟩ (wrapSchedule n) =
      some ⟨wrapChannel n, List.replicate (2 * n + 1) .ended⟩ := by
  induction n with
  | zero => rfl
  | succ n ih =>
    have hne := (wrapId_ne (n := n) (by omega)).symm
    let mid : EventChannel Nat Nat :=
      { wrapChannel n with
        lastId := wrapId n
        subs := [(1, 10), (wrapId n, 0)]
        history := wrapHistory n ++ [.subscribed (wrapId n) 0] }
    have hsub : (channelMachine .cpp).advance quiet (wrapChannel n)
        ((channelMachine .cpp).enter (.subscribe 0)) = some (mid, .ended) := by
      show channelStep .cpp quiet (wrapChannel n) (.call (.subscribe 0)) = _
      simp only [channelStep, EventChannel.subscribe, nextId_wrapChannel]
      rfl
    have hunsub : (channelMachine .cpp).advance quiet mid
        ((channelMachine .cpp).enter (.unsubscribe (wrapId n))) =
          some (wrapChannel (n + 1), .ended) := by
      show channelStep .cpp quiet mid (.call (.unsubscribe (wrapId n))) = _
      have herase : [(1, 10), (wrapId n, 0)].eraseP (fun s : Nat × Nat => s.1 == wrapId n) =
          [(1, 10)] := by
        simp [hne]
      simp only [channelStep, EventChannel.unsubscribe, mid, herase]
      rfl
    have hfirst := Threads.run_start_step (List.replicate (2 * n + 1) .ended) _ hsub
    have hsecond := Threads.run_start_step (List.replicate (2 * n + 1) .ended ++ [.ended]) _ hunsub
    have hlen : List.replicate (2 * n + 1) (.ended : ChannelStage Nat Nat) ++ [.ended] ++ [.ended] =
        List.replicate (2 * (n + 1) + 1) .ended := by
      rw [← List.replicate_succ', ← List.replicate_succ']
      rfl
    simp only [List.length_append, List.length_replicate, List.length_singleton] at hfirst hsecond
    rw [wrapSchedule, Threads.run_append, Threads.run_append, ih (by omega)]
    simp only [Option.bind_some, atOnce]
    rw [hfirst]
    simp only [Option.bind_some]
    rw [hsecond, hlen]

/-- After `2^64 - 1` others a second subscriber gets the id of the first. That id is given up, and a
value published. -/
def wrapEnd (index : Nat) : List (Threads.Event (ChannelCall Nat Nat) (Reaction Nat)) :=
  atOnce index (.subscribe 20) ++ (atOnce (index + 1) (.unsubscribe 1) ++
    (atOnce (index + 1 + 1) (.publish 7) ++ (again (index + 1 + 1) ++ (again (index + 1 + 1) ++
      again (index + 1 + 1)))))

/-- A channel that keeps no value and audits nothing. -/
def plainChannel (subs : List (Nat × Nat)) (lastId : Nat) (h : List (ChannelEntry Nat Nat))
    (log : Multiset (Invocation Nat Nat)) : EventChannel Nat Nat :=
  ⟨.notCached, "", [], subs, lastId, none, [], h, log⟩

/-- The history of `wrapEnd` after `h`. -/
def reusedHistory (h : List (ChannelEntry Nat Nat)) : List (ChannelEntry Nat Nat) :=
  h ++ [.subscribed 1 20] ++ [.unsubscribed 1]

theorem run_wrapEnd (h : List (ChannelEntry Nat Nat)) (ts : List (ChannelStage Nat Nat)) :
    Threads.run (channelMachine .cpp) ⟨plainChannel [(1, 10)] 0 h 0, ts⟩ (wrapEnd ts.length) =
      some ⟨plainChannel [(1, 20)] 1 (reusedHistory h ++ [.published 7])
        (0 + {⟨(reusedHistory h).length, 20, 7⟩}), ts ++ [.ended] ++ [.ended] ++ [.ended]⟩ := by
  let m : Threads.Machine _ _ _ _ := channelMachine (α := Nat) (β := Nat) .cpp
  let k := (reusedHistory h).length
  let before := plainChannel [(1, 20)] 1 (reusedHistory h ++ [.published 7]) 0
  let after := before.invoke ⟨k, 20, 7⟩
  have hid : (plainChannel [(1, 10)] 0 h 0).nextId .cpp = 1 := by
    simp [EventChannel.nextId, plainChannel]
  have hsub : m.advance quiet (plainChannel [(1, 10)] 0 h 0) (m.enter (.subscribe 20)) =
      some (plainChannel [(1, 10), (1, 20)] 1 (h ++ [.subscribed 1 20]) 0, .ended) := by
    show channelStep .cpp quiet (plainChannel [(1, 10)] 0 h 0) (.call (.subscribe 20)) = _
    simp only [channelStep, EventChannel.subscribe, hid]
    rfl
  have hunsub : m.advance quiet (plainChannel [(1, 10), (1, 20)] 1 (h ++ [.subscribed 1 20]) 0)
      (m.enter (.unsubscribe 1)) = some (plainChannel [(1, 20)] 1 (reusedHistory h) 0, .ended) := rfl
  have hpub : m.advance quiet (plainChannel [(1, 20)] 1 (reusedHistory h) 0)
      (m.enter (.publish 7)) = some (before, .publishing k [(1, 20)] 7) := rfl
  have hphi : m.advance quiet before (.publishing k [(1, 20)] 7) =
      some (before, .dispatch k [(1, 20)] 7) := rfl
  have hcall : m.advance quiet before (.dispatch k [(1, 20)] 7) =
      some (after, .dispatch k [] 7) := rfl
  have hend : m.advance quiet after (.dispatch k [] 7) = some (after, .ended) := rfl
  have h₁ := Threads.run_start_step ts _ hsub
  have h₂ := Threads.run_start_step (ts ++ [.ended]) _ hunsub
  have h₃ := Threads.run_start_step (ts ++ [.ended] ++ [.ended]) _ hpub
  have h₄ := Threads.run_step_last (ts ++ [.ended] ++ [.ended]) hphi
  have h₅ := Threads.run_step_last (ts ++ [.ended] ++ [.ended]) hcall
  have h₆ := Threads.run_step_last (ts ++ [.ended] ++ [.ended]) hend
  simp only [List.length_append, List.length_singleton] at h₂ h₃ h₄ h₅ h₆
  simp only [wrapEnd, atOnce, again]
  rw [Threads.run_append, h₁, Option.bind_some, Threads.run_append, h₂, Option.bind_some,
    Threads.run_append, h₃, Option.bind_some, Threads.run_append, h₄, Option.bind_some,
    Threads.run_append, h₅, Option.bind_some, h₆]
  rfl

/-- The value published last was due to nobody: both subscribers had an id that was given up. -/
theorem not_delivered_reused {h : List (ChannelEntry Nat Nat)} (hlive : live h = [(1, 10)]) :
    ¬ Delivered .notCached (reusedHistory h ++ [.published 7])
      (0 + {⟨(reusedHistory h).length, 20, 7⟩}) := by
  intro hdel
  have hk := hdel.1 (reusedHistory h).length (.published 7) (by simp)
  have hnone : live (reusedHistory h) = [] := by
    rw [reusedHistory, live_append_unsubscribed, live_append_subscribed, hlive]
    rfl
  rw [List.take_left, due, hnone] at hk
  have hcard := congrArg Multiset.card hk
  simp at hcard

theorem wrap_undelivered {n : Nat} (hn : n + 1 = 2 ^ 64) :
    ∃ c : ChannelRun Nat Nat, Threads.run (channelMachine .cpp)
        ⟨EventChannel.new .notCached "" [], []⟩ (wrapSchedule n ++ wrapEnd (2 * n + 1)) = some c ∧
      (∀ t ∈ c.locals, t = .ended) ∧ ¬ Delivered .notCached c.shared.history c.shared.log := by
  have hid : (n + 1) % 2 ^ 64 = 0 := by
    rw [hn]
    exact Nat.mod_self _
  have hch : wrapChannel n = plainChannel [(1, 10)] 0 (wrapHistory n) 0 := by
    unfold wrapChannel plainChannel
    rw [hid]
  have hrun := run_wrapEnd (wrapHistory n) (List.replicate (2 * n + 1) .ended)
  rw [List.length_replicate] at hrun
  have hall := (congrArg (Option.bind · fun c => c.run (channelMachine .cpp)
    (wrapEnd (2 * n + 1))) (run_wrapSchedule hn.le)).trans (hch ▸ hrun)
  rw [← Threads.run_append] at hall
  refine ⟨_, hall, ?_, not_delivered_reused (live_wrapHistory hn.le)⟩
  intro t ht
  simp only [List.mem_append, List.mem_replicate, List.mem_singleton] at ht
  tauto

/-- A Python callback that exits stops its siblings, one that changes the message changes what they
are given, and a C++ channel that has given out every id gives them out again. -/
theorem not_channel_delivers :
    (∃ c : ChannelRun Nat Nat, Threads.run (channelMachine .python)
        ⟨EventChannel.new .notCached "" [], []⟩ (pairSchedule ⟨.exits, none⟩) = some c ∧
      (∀ t ∈ c.locals, t = .ended) ∧ ¬ Delivered .notCached c.shared.history c.shared.log) ∧
    (∃ c : ChannelRun Nat Nat, Threads.run (channelMachine .python)
        ⟨EventChannel.new .notCached "" [], []⟩
        (pairSchedule ⟨.returns, some 8⟩ ++ [.step 2 quiet, .step 2 quiet]) = some c ∧
      (∀ t ∈ c.locals, t = .ended) ∧ ¬ Delivered .notCached c.shared.history c.shared.log) ∧
    ∃ c : ChannelRun Nat Nat, Threads.run (channelMachine .cpp)
        ⟨EventChannel.new .notCached "" [], []⟩
        (wrapSchedule (2 ^ 64 - 1) ++ wrapEnd (2 * (2 ^ 64 - 1) + 1)) = some c ∧
      (∀ t ∈ c.locals, t = .ended) ∧ ¬ Delivered .notCached c.shared.history c.shared.log := by
  refine ⟨⟨_, rfl, by simp, ?_⟩, ⟨_, rfl, by simp, ?_⟩, wrap_undelivered (n := 2 ^ 64 - 1) (by decide)⟩
  · intro hdel
    have hk := hdel.1 2 (.published 7) rfl
    exact absurd hk (by decide)
  · intro hdel
    have hk := hdel.1 2 (.published 7) rfl
    exact absurd hk (by decide)

end Runs

end Harpia
