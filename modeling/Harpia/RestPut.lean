import Harpia.CppCreate
import Harpia.DaoReplace

namespace Harpia

open Sqlite Proto Attempt

structure Reply where
  status : Nat
  body : String := ""
deriving DecidableEq, Repr

def Reply.success (r : Reply) : Bool := r.status < 300

/-- What a gate answers in a handler's place. -/
structure Refusal where
  reply : Reply
  denied : 400 ≤ reply.status

/-- What comes of borrowing a connection; `failed` is any other exception. -/
inductive Lease
  | session
  | exhausted
  | reconnectFailed
  | failed
deriving DecidableEq, Repr

/-- What comes of reading a body into a fresh message. -/
inductive ParsedBody
  | message (m : Msg)
  | unparsable
  | raised

/-- What the routes of a table are registered with. -/
structure CrudRoute (ρ : Type) where
  gate : ρ → Option Refusal
  parse : ρ → ParsedBody

def Lease.unavailable : Lease → Option Reply
  | .session => none
  | .exhausted => some ⟨503, "db pool exhausted"⟩
  | .reconnectFailed => some ⟨503, "db reconnect failed"⟩
  | .failed => some { status := 500 }

section Handlers

variable {ρ : Type} (E : DaoEnv) (fuel : Nat) (p : KeyProvider) (dao : Dao) (route : CrudRoute ρ)

/-- `guarded`: the gate, the connection, and then the body of the request. -/
def guarded (lease : Lease) (req : ρ) (run : Msg → DbSession → Reply × DbSession) (s : DbSession) :
    Reply × DbSession :=
  match route.gate req with
  | some refusal => (refusal.reply, s)
  | none =>
    match lease.unavailable with
    | some reply => (reply, s)
    | none =>
      match route.parse req with
      | .message msg => run msg s
      | .unparsable => ({ status := 400 }, s)
      | .raised => ({ status := 500 }, s)

/-- The PUT handler of rest.py. Like the one of C++, it does not look at the key in the path. -/
def restPut (lease : Lease) (_id : Int) (req : ρ) : DbSession → Reply × DbSession :=
  guarded route lease req fun msg s =>
    match daoUpdate E fuel p dao msg s with
    | (some _, s') => ({ status := 204 }, s')
    | (none, s') => ({ status := 500 }, s')

/-- The PUT handler of `register_<name>_with`. -/
def cppRestPut (lease : Lease) (_id : Int) (req : ρ) : DbSession → Reply × DbSession :=
  guarded route lease req fun msg s =>
    match cppUpdateIn Request.exec E fuel p dao msg s with
    | (some _, s') => ({ status := 204 }, s')
    | (none, s') => ({ status := 500 }, s')

end Handlers

section Frame

variable {ρ : Type}

/-- No row of another key has changed, and a success means that `stored` holds of the database. -/
structure PutKeeps (dao : Dao) (id : Int) (stored : Db → Prop) (s : DbSession)
    (out : Reply × DbSession) : Prop where
  frame : OthersKept dao (.int id) s.db out.2.db
  success : out.1.success → stored out.2.db

/-- The body of the request is what is stored under the key, if a row with the key is there. -/
def BodyHeld (E : DaoEnv) (value : Message → Msg → DaoColumn → Option Value) (p : KeyProvider)
    (dao : Dao) (route : CrudRoute ρ) (id : Int) (req : ρ) (db : Db) : Prop :=
  ∃ msg, route.parse req = .message msg ∧ Held E value p dao (.int id) msg db

theorem OthersKept.refl (dao : Dao) (key : Value) (db : Db) : OthersKept dao key db db := fun _ _ => rfl

/-- What the handlers answer themselves before they have a message is no success. -/
theorem guarded_keeps {dao : Dao} {id : Int} {stored : Db → Prop} {route : CrudRoute ρ} {req : ρ}
    {run : Msg → DbSession → Reply × DbSession} {s : DbSession} (lease : Lease)
    (h : ∀ msg, route.parse req = .message msg → PutKeeps dao id stored s (run msg s)) :
    PutKeeps dao id stored s (guarded route lease req run s) := by
  have answered : ∀ reply : Reply, 300 ≤ reply.status → PutKeeps dao id stored s (reply, s) := by
    refine fun reply no => ⟨.refl _ _ _, fun yes => ?_⟩
    have below : reply.status < 300 := by simpa [Reply.success] using yes
    omega
  unfold guarded
  split
  next refusal _ => exact answered _ (by have := refusal.denied; omega)
  next =>
    split
    next reply hr =>
      refine answered _ ?_
      cases lease <;> cases hr <;> decide
    next =>
      split
      next msg hm => exact h msg hm
      next => exact answered _ (by decide)
      next => exact answered _ (by decide)

/-- Where the body carries the key of the path, PUT changes no row of another key, and answers
success only if what the table and its child tables hold under the key is the body. -/
theorem rest_put_keeps (E : DaoEnv) (fuel : Nat) (p : KeyProvider) (dao : Dao)
    (names : dao.DistinctNames) (apart : dao.Apart E.schema) (route : CrudRoute ρ) (lease : Lease)
    (id : Int) (req : ρ)
    (own : ∀ msg, route.parse req = .message msg → pkValue E dao msg = some (.int id))
    (s : DbSession) :
    PutKeeps dao id (BodyHeld E (columnValue E.schema.types) p dao route id req) s
        (restPut E fuel p dao route lease id req s) ∧
      PutKeeps dao id (BodyHeld E (cppElementValue E.schema.types) p dao route id req) s
        (cppRestPut E fuel p dao route lease id req s) := by
  constructor
  · refine guarded_keeps lease fun msg hm => ?_
    have replaced : Triple (Spared _ _ s.db) _ _ _ :=
      updateIn_replaces names apart (own msg hm) (by simp) fuel p
    unfold daoUpdate
    cases done : (updateIn E fuel p dao msg).attempt Request.exec s with
    | mk result s' =>
      cases result with
      | none => exact ⟨.refl _ _ _, fun yes => by simp [Reply.success] at yes⟩
      | some found =>
        have ended := replaced.ends (.refl _ _ _) (congrArg Prod.fst done)
        rw [done] at ended
        exact ⟨ended.1, fun _ => ⟨msg, hm, ended.2⟩⟩
  · refine guarded_keeps lease fun msg hm => ?_
    have replaced : Triple (Spared _ _ s.db) _ _ _ :=
      cppUpdateIn_replaces names apart (own msg hm) (by simp) fuel p
    cases done : cppUpdateIn Request.exec E fuel p dao msg s with
    | mk result s' =>
      cases result with
      | none =>
        have failed := replaced.fails (.refl _ _ _) (congrArg Prod.fst done)
        rw [done] at failed
        exact ⟨failed, fun yes => by simp [Reply.success] at yes⟩
      | some u =>
        have ended := replaced.ends (.refl _ _ _) (congrArg Prod.fst done)
        rw [done] at ended
        exact ⟨ended.1, fun _ => ⟨msg, hm, ended.2⟩⟩

end Frame

section Notes

variable {ρ : Type}

/-- Without foreign keys, nothing else is written. -/
theorem apart_of_plain {S : Schema} {dao : Dao} (columns : ∀ col ∈ dao.columns, col.fk = none)
    (children : ∀ child ∈ dao.children, ∀ target, child.kind ≠ .repeated (some target)) :
    dao.Apart S := by
  rintro t _ t' ⟨d, through, _⟩
  obtain ⟨d', first, _⟩ := Relation.TransGen.head'_iff.mp through
  cases first with
  | column mem fk _ => simp [columns _ mem] at fk
  | element mem kind _ => exact absurd kind (children _ mem _)

/-- The notes 1 and 2, without tags. -/
def notesSession : DbSession where
  db := (Db.empty.put "note" { noteRow with
      rows := [Row.ofPairs [("HARPIA_ID", .int 1), ("HARPIA_STATUS", .int 0)],
        Row.ofPairs [("HARPIA_ID", .int 2), ("HARPIA_STATUS", .int 0)]]
      valid := by decide +kernel }).put "note__tags"
    { strayTag with rows := [], valid := .nil _ _ }
  random _ := [3]

/-- The routes of the notes, for requests that are their message. -/
def noteRoute : CrudRoute Msg where
  gate _ := none
  parse := .message

def noteUpdate (key : Int) : Msg :=
  .mk [("HARPIA_ID", .scalar (.int key)), ("HARPIA_STATUS", .scalar (.int 5)), ("tags", .list [.text "new"])]

theorem rest_put_keeps_note :
    PutKeeps taggedNoteDao 1 (BodyHeld taggedNoteEnv (columnValue taggedNoteSchema.types)
        (.fresh [7]) taggedNoteDao noteRoute 1 (noteUpdate 1)) notesSession
        (restPut taggedNoteEnv 1 (.fresh [7]) taggedNoteDao noteRoute .session 1 (noteUpdate 1)
          notesSession) ∧
      PutKeeps taggedNoteDao 1 (BodyHeld taggedNoteEnv (cppElementValue taggedNoteSchema.types)
        (.fresh [7]) taggedNoteDao noteRoute 1 (noteUpdate 1)) notesSession
        (cppRestPut taggedNoteEnv 1 (.fresh [7]) taggedNoteDao noteRoute .session 1 (noteUpdate 1)
          notesSession) := by
  refine rest_put_keeps taggedNoteEnv 1 (.fresh [7]) taggedNoteDao ⟨?_, ?_, ?_⟩
    (apart_of_plain ?_ ?_) noteRoute .session 1 (noteUpdate 1) ?_ notesSession
  · decide +kernel
  · decide +kernel
  · intro child hc columns kind
    cases List.mem_singleton.mp hc
    cases kind
  · decide +kernel
  · intro child hc target kind
    cases List.mem_singleton.mp hc
    cases kind
  · intro msg hm
    cases hm
    decide +kernel

/-- What a PUT is to mean: a success has the row of the key, holding the body. -/
def PutMeets (E : DaoEnv) (fuel : Nat) (p : KeyProvider) (dao : Dao) (route : CrudRoute ρ)
    (lease : Lease) (id : Int) (req : ρ) (s : DbSession) : Prop :=
  let row := fun db : Db => db.chosen dao.table pk (.int id) ≠ []
  PutKeeps dao id (fun db => row db ∧
      BodyHeld E (columnValue E.schema.types) p dao route id req db) s
      (restPut E fuel p dao route lease id req s) ∧
    PutKeeps dao id (fun db => row db ∧
      BodyHeld E (cppElementValue E.schema.types) p dao route id req db) s
      (cppRestPut E fuel p dao route lease id req s)

/-- A PUT to a key that no row has is a success all the same; a PUT to the key of the first note
whose body carries the key of the second changes the second. -/
theorem not_rest_put_meets :
    (¬ ∀ (id : Int) (req : Msg) (s : DbSession), pkValue taggedNoteEnv taggedNoteDao req =
        some (.int id) →
      PutMeets taggedNoteEnv 1 (.fresh [7]) taggedNoteDao noteRoute .session id req s) ∧
    ¬ ∀ (id : Int) (req : Msg) (s : DbSession),
      PutMeets taggedNoteEnv 1 (.fresh [7]) taggedNoteDao noteRoute .session id req s := by
  constructor
  · intro h
    have missing := (h 7 (noteUpdate 7) notesSession (by decide +kernel)).1.success
      (by decide +kernel)
    have none_ : ((restPut taggedNoteEnv 1 (.fresh [7]) taggedNoteDao noteRoute .session 7
        (noteUpdate 7) notesSession).2.db.chosen "note" pk (.int 7)).length = 0 := by decide +kernel
    exact missing.1 (List.length_eq_zero_iff.mp none_)
  · intro h
    have frame := (h 1 (noteUpdate 2) notesSession).1.frame ("note", pk) (by decide +kernel)
    have status := congrArg (List.map fun r => Row.get r "HARPIA_STATUS") frame
    exact absurd status (by decide +kernel)

end Notes

end Harpia
