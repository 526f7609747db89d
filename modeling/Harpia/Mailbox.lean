import Mathlib.Data.List.Induction
import Harpia.QueuedSender

namespace Harpia

inductive PutOutcome
  | stored
  | overwrote
deriving Repr, DecidableEq

/-- One slot for the latest value, with what its audit sink was told. -/
structure Mailbox where
  subject : String
  pending : Option Envelope
  overwrites : Nat
  lastOverwrittenSeq : Nat
  audit : List AuditRecord
deriving DecidableEq

/-- What is told of an envelope that another one takes the place of. -/
def supersededRecord (subject : String) (e : Envelope) : AuditRecord :=
  ⟨"mailbox_overwritten", subject, Bytes.ofText ("superseded_seq=".toList ++ Text.decimal e.seq)⟩

namespace Mailbox

def new (subject : String) : Mailbox := ⟨subject, none, 0, 0, []⟩

/-- The count is a `size_t` in C++. -/
def countOverwrite (lang : Lang) (n : Nat) : Nat :=
  match lang with
  | .cpp => (n + 1) % 2 ^ 64
  | .python => n + 1

def put (lang : Lang) (m : Mailbox) (env : Envelope) : Mailbox × PutOutcome :=
  match m.pending with
  | none => ({ m with pending := some env }, .stored)
  | some old =>
    ({ m with
       pending := some env
       overwrites := countOverwrite lang m.overwrites
       lastOverwrittenSeq := old.seq
       audit := m.audit ++ [supersededRecord m.subject old] }, .overwrote)

def take (m : Mailbox) : Mailbox × Option Envelope := ({ m with pending := none }, m.pending)

end Mailbox

inductive MailboxCall
  | put (env : Envelope)
  | take

def MailboxCall.envelope? : MailboxCall → Option Envelope
  | .put env => some env
  | .take => none

/-- A mailbox, what its calls to `put` have answered and what its calls to `take` have returned. -/
structure MailboxRun where
  mailbox : Mailbox
  outcomes : List PutOutcome
  taken : List Envelope

namespace MailboxRun

def step (lang : Lang) (r : MailboxRun) : MailboxCall → MailboxRun
  | .put env =>
    let (mailbox, outcome) := r.mailbox.put lang env
    ⟨mailbox, r.outcomes ++ [outcome], r.taken⟩
  | .take =>
    let (mailbox, env) := r.mailbox.take
    ⟨mailbox, r.outcomes, r.taken ++ env.toList⟩

/-- A new mailbox after a sequence of calls. -/
def run (lang : Lang) (subject : String) (calls : List MailboxCall) : MailboxRun :=
  calls.foldl (step lang) ⟨.new subject, [], []⟩

/-- What `overwrites` shows after so many. -/
def shown (lang : Lang) (n : Nat) : Nat :=
  match lang with
  | .cpp => n % 2 ^ 64
  | .python => n

theorem shown_succ (lang : Lang) (n : Nat) :
    Mailbox.countOverwrite lang (shown lang n) = shown lang (n + 1) := by
  cases lang with
  | cpp => exact Nat.mod_add_mod n (2 ^ 64) 1
  | python => rfl

/-- Every envelope that was put is taken, superseded or pending, and only one of these; each of the
three keeps the order, and the mailbox and its audit sink tell of those superseded. -/
structure Accounts (lang : Lang) (subject : String) (puts superseded : List Envelope) (r : MailboxRun) :
    Prop where
  placed : (r.taken ++ superseded ++ r.mailbox.pending.toList).Perm puts
  taken_order : (r.taken ++ r.mailbox.pending.toList).Sublist puts
  superseded_order : (superseded ++ r.mailbox.pending.toList).Sublist puts
  latest : ∀ env, r.mailbox.pending = some env → puts.getLast? = some env
  told : r.mailbox.audit = superseded.map (supersededRecord subject)
  subject_eq : r.mailbox.subject = subject
  count : r.mailbox.overwrites = shown lang superseded.length
  last : r.mailbox.lastOverwrittenSeq = (superseded.getLast?.map Envelope.seq).getD 0
  answered : r.outcomes.count .overwrote = superseded.length

section Steps

variable {lang : Lang} {subject : String} {puts superseded : List Envelope} {r : MailboxRun}

theorem Accounts.put (h : Accounts lang subject puts superseded r) (env : Envelope) :
    Accounts lang subject (puts ++ [env]) (superseded ++ r.mailbox.pending.toList)
      (r.step lang (.put env)) := by
  have placed := h.placed
  have taken_order := h.taken_order
  have superseded_order := h.superseded_order
  cases pending : r.mailbox.pending with
  | none =>
    simp only [pending, Option.toList_none, List.append_nil] at placed taken_order superseded_order ⊢
    simp only [step, Mailbox.put, pending]
    constructor
    · exact placed.append_right [env]
    · exact taken_order.append_right [env]
    · exact superseded_order.append_right [env]
    · intro last same
      rw [← same, List.getLast?_append, List.getLast?_singleton, Option.some_or]
    · exact h.told
    · exact h.subject_eq
    · exact h.count
    · exact h.last
    · rw [List.count_append, h.answered]
      rfl
  | some old =>
    simp only [pending, Option.toList_some] at placed taken_order superseded_order ⊢
    simp only [step, Mailbox.put, pending]
    constructor
    · rw [← List.append_assoc]
      exact placed.append_right [env]
    · exact ((List.sublist_append_left _ _).trans taken_order).append_right [env]
    · exact superseded_order.append_right [env]
    · intro last same
      rw [← same, List.getLast?_append, List.getLast?_singleton, Option.some_or]
    · rw [h.told, h.subject_eq, List.map_append, List.map_singleton]
    · exact h.subject_eq
    · rw [h.count, shown_succ, List.length_append, List.length_singleton]
    · rw [List.getLast?_append, List.getLast?_singleton, Option.some_or]
      rfl
    · rw [List.count_append, h.answered, List.length_append, List.length_singleton]
      rfl

theorem Accounts.take (h : Accounts lang subject puts superseded r) :
    Accounts lang subject puts superseded (r.step lang .take) := by
  simp only [step, Mailbox.take]
  constructor
  · rw [Option.toList_none, List.append_nil, List.append_assoc]
    apply List.Perm.trans _ h.placed
    rw [List.append_assoc]
    exact List.perm_append_comm.append_left r.taken
  · rw [Option.toList_none, List.append_nil]
    exact h.taken_order
  · rw [Option.toList_none, List.append_nil]
    exact (List.sublist_append_left _ _).trans h.superseded_order
  · intro env none_
    cases none_
  · exact h.told
  · exact h.subject_eq
  · exact h.count
  · exact h.last
  · exact h.answered

end Steps

/-- Over any calls to `put` and `take`, no value is lost in silence, taken twice or out of order: one
that is never taken is the one pending or has been superseded, counted and told to the audit sink. -/
theorem mailbox_accounts (lang : Lang) (subject : String) (calls : List MailboxCall) :
    ∃ superseded, Accounts lang subject (calls.filterMap MailboxCall.envelope?) superseded
      (run lang subject calls) := by
  induction calls using List.reverseRecOn with
  | nil =>
    refine ⟨[], .refl _, .refl _, .refl _, ?_, rfl, rfl, ?_, rfl, rfl⟩
    · intro env none_
      cases none_
    · cases lang <;> rfl
  | append_singleton calls call ih =>
    obtain ⟨superseded, accounts⟩ := ih
    rw [run, List.foldl_append, List.filterMap_append]
    cases call with
    | put env => exact ⟨_, accounts.put env⟩
    | take =>
      rw [show [MailboxCall.take].filterMap MailboxCall.envelope? = [] from rfl, List.append_nil]
      exact ⟨superseded, accounts.take⟩

end MailboxRun

end Harpia
