import Harpia.CppDao
import Harpia.DaoSession

namespace Harpia

open Sqlite Proto

/-- A request that adds a row, or none that changes the database. -/
def Request.adds : Request → Prop
  | .insert .. => True
  | .tokenBytes => True
  | .update .. => False
  | .delete .. => False

section Inserts

variable {α β γ : Type}

/-- Whatever the answers are, the program only inserts. -/
def OnlyInserts (program : Cursor α) : Prop := program.Ensures Request.adds fun _ => True

theorem OnlyInserts.bind {program : Cursor α} {next : α → Cursor β} (h : OnlyInserts program)
    (then_ : ∀ a, OnlyInserts (next a)) : OnlyInserts (program >>= next) :=
  Calls.ensures_bind (Calls.ensures_mono h fun a _ => then_ a)

theorem OnlyInserts.ofOption (o : Option α) : OnlyInserts (Calls.ofOption o : Cursor α) :=
  Calls.ensures_ofOption fun _ _ => trivial

theorem OnlyInserts.collect {f : γ → Cursor β} {xs : List γ} (each : ∀ x ∈ xs, OnlyInserts (f x)) :
    OnlyInserts (Calls.collect f xs) :=
  Calls.ensures_mono (Calls.ensures_collect each) fun _ _ => trivial

theorem OnlyInserts.ret (a : α) : OnlyInserts (pure a : Cursor α) := trivial

theorem OnlyInserts.raise : OnlyInserts (Calls.raise : Cursor α) := trivial

theorem OnlyInserts.insert (table : String) (cells : List Cell) :
    OnlyInserts (Cursor.insert table cells) := ⟨trivial, fun _ => trivial⟩

variable {E : DaoEnv} {p : KeyProvider} {dao : Dao}

theorem bindColumn_inserts (msg : Msg) (col : DaoColumn) :
    OnlyInserts (bindColumn E p dao msg col) := by
  unfold bindColumn
  split
  · refine .bind (.ofOption _) fun owner => .bind (.ofOption _) fun field => ?_
    split
    · exact .ret _
    · refine .bind ⟨trivial, fun _ => trivial⟩ fun dek => ?_
      exact .bind (.ofOption _) fun stored => .ret _
  · exact .bind (.ofOption _) fun v => .ret _

theorem insertRow_inserts (assign : Int → Option Int) (msg : Msg) :
    OnlyInserts (insertRow E p dao assign msg) := by
  unfold insertRow
  refine .bind (.ofOption _) fun key => ?_
  have cells : ∀ columns : List DaoColumn,
      OnlyInserts (Calls.collect (bindColumn E p dao msg) columns) :=
    fun columns => .collect fun col _ => bindColumn_inserts msg col
  split
  · refine .bind (cells _) fun cells => .bind (.insert _ _) fun row => ?_
    split
    · exact .bind (.ofOption _) fun _ => .ret _
    · exact .raise
  · exact .bind (cells _) fun cells => .bind (.insert _ _) fun row => .ret _

theorem cppStoreChild_inserts {recur : String → Msg → Cursor Unit}
    (inner : ∀ target m, OnlyInserts (recur target m)) (msg : Msg) (col : DaoColumn) :
    OnlyInserts (cppStoreChild E dao recur msg col) := by
  unfold cppStoreChild
  split
  · exact .ret _
  · refine .bind (.ofOption _) fun owner => .bind (.ofOption _) fun set => ?_
    split
    · exact inner _ _
    · exact .ret _

theorem cppWriteChild_inserts {recur : String → Msg → Cursor Unit}
    (inner : ∀ target m, OnlyInserts (recur target m)) (owner : Value) (msg : Msg)
    (child : DaoChild) : OnlyInserts (cppWriteChild E dao recur owner msg child) := by
  unfold cppWriteChild
  refine .bind (.ofOption _) fun base => .bind (.ofOption _) fun field => ?_
  split
  · unfold writeMap
    split
    · exact .raise
    · exact .bind (.collect fun e _ => .insert _ _) fun _ => .ret _
  · refine .bind (.ofOption _) fun items => ?_
    exact .bind (.collect fun e _ => .insert _ _) fun _ => .ret _
  · refine .bind (.ofOption _) fun elem => .bind (.collect fun e _ => ?_) fun _ => .ret _
    exact .bind (inner _ _) fun _ => .bind (.ofOption _) fun key => .bind (.insert _ _) fun _ => .ret _
  · refine .bind (.ofOption _) fun elem => .bind (.collect fun e _ => ?_) fun _ => .ret _
    refine .bind (.collect fun col _ => ?_) fun cells => .insert _ _
    exact .bind (.ofOption _) fun v => .ret _

theorem cppCreateIn_inserts (fuel : Nat) (p : KeyProvider) (dao : Dao) (msg : Msg) :
    OnlyInserts (cppCreateIn E fuel p dao msg) := by
  induction fuel generalizing p dao msg with
  | zero => exact .raise
  | succ fuel ih =>
    have inner : ∀ target m, OnlyInserts (do
        let d ← Calls.ofOption (daoClass E.schema target)
        let _ ← cppCreateIn E fuel E.defaultProvider d m
        return ()) :=
      fun target m => .bind (.ofOption _) fun d => .bind (ih _ _ _) fun _ => .ret _
    refine .bind (.collect fun col _ => cppStoreChild_inserts inner msg col) fun _ => ?_
    refine .bind (insertRow_inserts castKey msg) fun msg => .bind (.ofOption _) fun owner => ?_
    exact .bind (.collect fun child _ => cppWriteChild_inserts inner owner msg child) fun _ => .ret _

end Inserts

section Undone

variable {σ κ α : Type} (X : Engine σ κ)

/-- The first statement that a program has for the database is refused, or there is none. -/
def FirstRefused : Cursor α → σ → Prop
  | .ret _, _ => True
  | .raise, _ => True
  | .call .tokenBytes next, s =>
    match X.exec .tokenBytes s with
    | some r => FirstRefused (next r.1) r.2
    | none => True
  | .call r _, s => X.exec r s = none

variable {X}

theorem rowCount_keeps {program : Cursor α} (only : OnlyInserts program) (s : σ) (n : String) :
    X.rowCount (X.content s) n ≤ X.rowCount (X.content (program.attempt X.exec s).2) n := by
  refine Calls.attempt_keeps (R := fun s s' => X.rowCount (X.content s) n ≤
    X.rowCount (X.content s') n) (fun _ => le_refl _) (fun h h' => le_trans h h') ?_ only s
  intro r s answer s' adds answered
  cases r with
  | insert table cells => exact (X.insert_adds answered).1 n
  | tokenBytes => rw [X.bytes_keep answered]
  | update | delete => exact adds.elim

/-- A program that only inserts, and fails, has left nothing behind exactly if its first statement
is refused. -/
theorem content_eq_iff {program : Cursor α} (only : OnlyInserts program) {s : σ}
    (failed : (program.attempt X.exec s).1 = none) :
    X.content (program.attempt X.exec s).2 = X.content s ↔ FirstRefused X program s := by
  induction program generalizing s with
  | ret a => simp [Calls.attempt] at failed
  | raise => simp [Calls.attempt, FirstRefused]
  | call r next ih =>
    cases answered : X.exec r s with
    | none => cases r <;> simp [Calls.attempt, FirstRefused, answered]
    | some a =>
      have rest : ((Calls.call r next).attempt X.exec s) = (next a.1).attempt X.exec a.2 := by
        simp only [Calls.attempt, answered]
      rw [rest] at failed ⊢
      cases r with
      | tokenBytes =>
        have later : FirstRefused X (Calls.call .tokenBytes next) s =
            FirstRefused X (next a.1) a.2 := by
          simp only [FirstRefused, answered]
        rw [later, ← ih a.1 (only.2 a.1) failed, X.bytes_keep answered]
      | insert table cells =>
        have grown := (X.insert_adds answered).2
        have kept := rowCount_keeps (X := X) (only.2 a.1) a.2 table
        refine iff_of_false (fun same => ?_) fun refused => ?_
        · rw [same] at kept
          omega
        · simp only [FirstRefused, answered] at refused
          cases refused
      | update | delete => exact only.1.elim

end Undone

section First

variable {σ κ α β : Type} {X : Engine σ κ}

/-- The program does not end well before it has issued a statement. -/
def Issues : Cursor α → Prop
  | .ret _ => False
  | .raise => True
  | .call .tokenBytes next => ∀ b, Issues (next b)
  | .call _ _ => True

theorem Issues.bind {program : Cursor α} {next : α → Cursor β} (h : ∀ a, Issues (next a)) :
    Issues (program >>= next) := by
  induction program with
  | ret a => exact h a
  | raise => trivial
  | call r continue_ ih =>
    cases r with
    | tokenBytes => exact fun b => ih b
    | insert | update | delete => trivial

theorem Issues.left {program : Cursor α} {next : α → Cursor β} (h : Issues program) :
    Issues (program >>= next) := by
  induction program with
  | ret a => exact h.elim
  | raise => trivial
  | call r continue_ ih =>
    cases r with
    | tokenBytes => exact fun b => ih b (h b)
    | insert | update | delete => trivial

theorem firstRefused_bind {program : Cursor α} {next : α → Cursor β} (h : Issues program) (s : σ) :
    FirstRefused X (program >>= next) s ↔ FirstRefused X program s := by
  induction program generalizing s with
  | ret a => exact h.elim
  | raise => exact Iff.rfl
  | call r continue_ ih =>
    cases r with
    | insert | update | delete => exact Iff.rfl
    | tokenBytes =>
      have pushed : (Calls.call .tokenBytes continue_ >>= next : Cursor β) =
          .call .tokenBytes fun b => continue_ b >>= next := rfl
      rw [pushed]
      simp only [FirstRefused]
      cases X.exec .tokenBytes s with
      | none => exact Iff.rfl
      | some b => exact ih b.1 (h b.1) b.2

theorem insertRow_issues (E : DaoEnv) (p : KeyProvider) (dao : Dao) (assign : Int → Option Int)
    (msg : Msg) : Issues (insertRow E p dao assign msg) := by
  unfold insertRow
  refine Issues.bind fun key => ?_
  split
  · exact Issues.bind fun cells => Issues.left trivial
  · exact Issues.bind fun cells => Issues.left trivial

theorem collect_ret {γ : Type} {f : γ → Cursor Unit} {xs : List γ} (h : ∀ x ∈ xs, f x = pure ()) :
    ∃ out, Calls.collect f xs = .ret out := by
  induction xs with
  | nil => exact ⟨[], rfl⟩
  | cons x xs ih =>
    obtain ⟨out, ho⟩ := ih fun y hy => h y (List.mem_cons_of_mem x hy)
    refine ⟨() :: out, ?_⟩
    rw [Calls.collect, h x List.mem_cons_self, ho]
    rfl

/-- Without foreign keys the first statement is the `INSERT` of the row. -/
theorem firstRefused_row {E : DaoEnv} {fuel : Nat} {p : KeyProvider} {dao : Dao}
    (plain : ∀ col ∈ dao.columns, col.fk = none) (msg : Msg) (s : σ) :
    FirstRefused X (cppCreateIn E (fuel + 1) p dao msg) s ↔
      FirstRefused X (insertRow E p dao castKey msg) s := by
  have absent : ∀ recur : String → Msg → Cursor Unit, ∃ out,
      Calls.collect (cppStoreChild E dao recur msg) dao.columns = .ret out :=
    fun recur => collect_ret fun col hc => by rw [cppStoreChild, plain col hc]
  unfold cppCreateIn
  extract_lets recur
  obtain ⟨out, stored⟩ := absent recur
  rw [stored]
  exact firstRefused_bind (insertRow_issues E p dao castKey msg) s

end First

/-- A `create` that returns false has left the database as it was exactly if the first statement it
issued was refused. -/
theorem cpp_create_undone_iff {σ κ : Type} (E : DaoEnv) (X : Engine σ κ) (fuel : Nat)
    (p : KeyProvider) (dao : Dao) (msg : Msg) (s : σ)
    (failed : (cppCreate E X fuel p dao msg s).1 = none) :
    X.content (cppCreate E X fuel p dao msg s).2 = X.content s ↔
      FirstRefused X (cppCreateIn E fuel p dao msg) s :=
  content_eq_iff (cppCreateIn_inserts fuel p dao msg) failed

/-- A SQLite database, behind a session. -/
def sqliteEngine : Engine DbSession Db where
  exec := Request.exec
  content := DbSession.db
  rowCount db n := (db.rows n).length
  insert_adds := by
    intro table cells s row s' h
    obtain ⟨r, inserted, same⟩ := Option.map_eq_some_iff.mp h
    obtain ⟨rfl, rfl⟩ := Prod.mk.inj same
    obtain ⟨t, ht, -, -, -, w⟩ := Db.insert_rewritten inserted
    have before : s.db.rows table = t.rows := Db.rows_of_get? ht
    have after : (s.withDb r.1).db.rows table = t.rows ++ [r.2] := w.rows_eq
    refine ⟨fun n => ?_, ?_⟩
    · by_cases hn : Sqlite.fold n = Sqlite.fold table
      · rw [Db.rows_congr _ hn, Db.rows_congr _ hn, before, after, List.length_append]
        omega
      · exact le_of_eq (congrArg List.length (w.rows_other hn)).symm
    · rw [before, after, List.length_append]
      exact Nat.lt_succ_self _
  bytes_keep := by
    intro s b s' h
    cases Option.some.inj h
    rfl

def taggedNote : Message :=
  { name := "note", tableName := "note"
    user := [{ name := "tags", type := .STRING, modifiers := [.REPETEABLE] }] }

def taggedNoteSchema : Schema where
  messages := [taggedNote]
  names_nodup := by decide
  names_allowed := by decide +kernel
  tables_identifier := by decide +kernel
  rank _ := 0
  rank_lt := by decide
  declared_before := by decide +kernel

def taggedNoteEnv : DaoEnv where
  schema := taggedNoteSchema
  defaultProvider := .fresh [7]
  fixed _ := "0.000000"

def taggedNoteDao : Dao where
  message := taggedNote
  columns := [{ name := "HARPIA_ID", path := ⟨[], "HARPIA_ID"⟩ },
    { name := "HARPIA_STATUS", path := ⟨[], "HARPIA_STATUS"⟩ },
    { name := "HARPIA_ERROR", path := ⟨[], "HARPIA_ERROR"⟩ },
    { name := "HARPIA_ORIGINATOR", path := ⟨[], "HARPIA_ORIGINATOR"⟩ }]
  children := [{ table := "note__tags", path := ⟨[], "tags"⟩, kind := .repeated none }]

theorem daoClass_taggedNote : daoClass taggedNoteSchema "note" = some taggedNoteDao := by
  decide +kernel

def noteRow : Table where
  columns := [⟨"HARPIA_ID", .INTEGER, false, false, true⟩, ⟨"HARPIA_STATUS", .INTEGER, false, false, false⟩,
    ⟨"HARPIA_ERROR", .TEXT, false, false, false⟩, ⟨"HARPIA_ORIGINATOR", .TEXT, false, false, false⟩]
  key := []
  rows := []
  names_nodup := by decide +kernel
  key_mem := by decide
  valid := .nil _ _

/-- One tag without a note. -/
def strayTag : Table where
  columns := [⟨"owner", .INTEGER, false, false, false⟩, ⟨"ordinal", .INTEGER, false, false, false⟩,
    ⟨"value", .TEXT, false, false, false⟩]
  key := ["owner", "ordinal"]
  rows := [Row.ofPairs [("owner", .int 1), ("ordinal", .int 0), ("value", .text "old")]]
  names_nodup := by decide +kernel
  key_mem := by decide +kernel
  valid := by decide +kernel

def strayTagSession : DbSession where
  db := (Db.empty.put "note" noteRow).put "note__tags" strayTag
  random _ := [3]

def taggedNoteMsg : Msg :=
  .mk [("HARPIA_ID", .scalar (.int 1)), ("tags", .list [.text "new"])]

theorem cpp_create_undone_iff_strayTag :
    ((cppCreate taggedNoteEnv sqliteEngine 1 (.fresh [7]) taggedNoteDao taggedNoteMsg
        strayTagSession).2.db = strayTagSession.db ↔
      FirstRefused sqliteEngine (cppCreateIn taggedNoteEnv 1 (.fresh [7]) taggedNoteDao taggedNoteMsg)
        strayTagSession) :=
  cpp_create_undone_iff taggedNoteEnv sqliteEngine 1 (.fresh [7]) taggedNoteDao taggedNoteMsg
    strayTagSession (by decide +kernel)

/-- The note is written, and its tag is refused: the note stays. -/
theorem not_cpp_create_undone :
    ¬ ∀ (E : DaoEnv) (fuel : Nat) (p : KeyProvider) (name : String) (dao : Dao) (msg : Msg)
        (s : DbSession), daoClass E.schema name = some dao →
      (cppCreate E sqliteEngine fuel p dao msg s).1 = none →
        (cppCreate E sqliteEngine fuel p dao msg s).2.db = s.db := by
  intro h
  have same := h taggedNoteEnv 1 (.fresh [7]) "note" taggedNoteDao taggedNoteMsg strayTagSession
    daoClass_taggedNote (by decide +kernel)
  have count := congrArg (fun db => (Db.rows db "note").length) same
  exact absurd count (by decide +kernel)

end Harpia
