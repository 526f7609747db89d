import Harpia.DaoCreateRead
import Harpia.DaoReadable
import Harpia.DaoReturns
import Harpia.DaoSpares
import Harpia.DaoTransaction

namespace Harpia

open Text Sqlite Proto Attempt

/-- `create`; it returns the message with its keys. -/
def daoCreate (exec : (r : Request) → DbSession → Option (Answer r × DbSession)) (commits : Bool)
    (E : DaoEnv) (fuel : Nat) (p : KeyProvider) (dao : Dao) (msg : Msg) : Attempt Connection Msg :=
  transaction exec commits (createIn E fuel p dao msg)

/-- A call that writes for none of the keys. -/
def SparingCall (E : DaoEnv) (keys : Dao → Value → Prop) (dao : Dao) : DaoCall → Prop
  | .create _ => True
  | .update msg => ∀ d m, Updates E dao msg d m → ∀ key, pkValue E d m = some key → ¬ keys d key
  | .remove key => ¬ keys dao key

section Runs

variable (E : DaoEnv) (root : Dao) (providers : Set KeyProvider) (keys : Dao → Value → Prop)

/-- Calls one after the other that write for none of the keys, each on `root` or on a DAO that it
stores through; any statement may raise, and so may `COMMIT`. A call that only reads ends in a
`COMMIT` or in a rollback too. -/
inductive SparingRun (c : Connection) : Connection → Prop
  | start : SparingRun c c
  | call {c' : Connection} {d : Dao} {exec : (r : Request) → DbSession → Option (Answer r × DbSession)}
      (run : SparingRun c c') (hd : StoredThrough E.schema root d) (raises : MayRaise exec)
      (commits : Bool) (fuel : Nat) {p : KeyProvider} (provided : p ∈ providers) (call : DaoCall)
      (rooted : RootedCall E c'.session.db d call) (sparing : SparingCall E keys d call) :
      SparingRun c (transaction exec commits (call.program E fuel p d) c').2
  | commit {c' : Connection} (run : SparingRun c c') : SparingRun c c'.commit
  | rollback {c' : Connection} (run : SparingRun c c') : SparingRun c c'.rollback

end Runs

section Session

/-- Whatever a request does, the tables keep their columns, and random bytes are taken in order. -/
theorem exec_session {r : Request} {s : DbSession} {out : Answer r × DbSession}
    (done : Request.exec r s = some out) : (∀ n, out.2.db.columns n = s.db.columns n) ∧
      ∀ p, DeksOpen p s.random → DeksOpen p out.2.random := by
  cases r with
  | insert table cells =>
    obtain ⟨_, inserted, rfl⟩ := Option.map_eq_some_iff.mp done
    exact ⟨Db.columns_insert inserted, fun _ opens => opens⟩
  | update table cells key =>
    obtain ⟨_, updated, rfl⟩ := Option.map_eq_some_iff.mp done
    obtain ⟨_, _, _, _, written⟩ := Db.update_rewritten updated
    exact ⟨written.columns_all, fun _ opens => opens⟩
  | delete table column v =>
    obtain ⟨_, deleted, rfl⟩ := Option.map_eq_some_iff.mp done
    obtain ⟨_, _, _, written⟩ := Db.delete_rewritten deleted
    exact ⟨written.columns_all, fun _ opens => opens⟩
  | tokenBytes =>
    cases Option.some.inj done
    exact ⟨fun _ => rfl, fun _ opens n => opens (n + 1)⟩

variable {exec : (r : Request) → DbSession → Option (Answer r × DbSession)} (raises : MayRaise exec)

include raises

theorem attempt_session {α : Type} (program : Cursor α) (s : DbSession) :
    (∀ n, (program.attempt exec s).2.db.columns n = s.db.columns n) ∧
      ∀ p, DeksOpen p s.random → DeksOpen p (program.attempt exec s).2.random := by
  apply Calls.attempt_keeps (R := fun s s' : DbSession => (∀ n, s'.db.columns n = s.db.columns n) ∧
    ∀ p, DeksOpen p s.random → DeksOpen p s'.random)
  · exact fun s => ⟨fun _ => rfl, fun _ opens => opens⟩
  · intro a b c h h'
    exact ⟨fun n => (h'.1 n).trans (h.1 n), fun p opens => h'.2 p (h.2 p opens)⟩
  · intro i s r s' _ answered
    exact exec_session (raises i s _ answered)
  · exact Calls.Only.any program

end Session

/-- What was the row of no message before, and is now. -/
def newRows (before after : Db) (d : Dao) (k : Value) : Prop :=
  k ∉ before.values d.table pk ∧ k ∈ after.values d.table pk

section Runs

variable {R : ReadEnv} {root : Dao} {providers : Set KeyProvider}
  (separate : SeparateTables R.schema root)
  (readable : ∀ d, StoredThrough R.schema root d → d.Readable R.schema)
  (storable : ∀ d, StoredThrough R.schema root d → d.Storable R.toDaoEnv)
  (keyed : ∀ d, StoredThrough R.schema root d → Keyed d) (default_ : R.defaultProvider ∈ providers)
  {exec : (r : Request) → DbSession → Option (Answer r × DbSession)}

include separate readable storable keyed default_

/-- `_create`, where statements may raise. -/
theorem attempt_records (raises : MayRaise exec) {fuel : Nat} {p : KeyProvider} (hp : p ∈ providers)
    {d : Dao} (hd : StoredThrough R.schema root d) {msg msg' : Msg} {s s' : DbSession}
    (ready : StoreReady R.schema root providers s)
    (done : (createIn R.toDaoEnv fuel p d msg).attempt exec s = (some msg', s')) :
    Undisturbed R.schema root anyKey s.db s'.db ∧ Recorded R s'.db (newRows s.db s'.db) fuel p d msg' ∧
      StoreReady R.schema root providers s' := by
  have same := Calls.attempt_of_ended raises (p := createIn R.toDaoEnv fuel p d msg) (s := s)
    (by rw [done]; rfl)
  rw [done] at same
  have records := createIn_records separate readable storable keyed default_ fuel hp hd msg s.db
  have ended := records.ends ⟨ready, rfl⟩ (congrArg Prod.fst same)
  rw [same] at ended
  obtain ⟨⟨since, there⟩, ready'⟩ := ended
  exact ⟨since, there.present.mono hd fun _ _ _ both => both, ready'⟩

/-- A call that spares the keys leaves what is stored under them alone. -/
theorem program_undisturbed (raises : MayRaise exec) {fuel : Nat} {p : KeyProvider}
    (hp : p ∈ providers) {d : Dao} (hd : StoredThrough R.schema root d) {keys : Dao → Value → Prop}
    {call : DaoCall} (sparing : SparingCall R.toDaoEnv keys d call) {start : Db} :
    Triple (fun s => StoreReady R.schema root providers s ∧ Undisturbed R.schema root keys start s.db)
      ((call.program R.toDaoEnv fuel p d).attempt exec)
      (fun _ s => Undisturbed R.schema root keys start s.db) fun _ => True := by
  have links : ∀ d, StoredThrough R.schema root d → LinksMessages R.toDaoEnv d :=
    fun d hd => (storable d hd).links
  cases call with
  | create msg =>
    refine Calls.triple_bind (Q := fun _ s => Undisturbed R.schema root keys start s.db)
      ⟨fun {s msg'} hs ended => ?_, fun _ _ => trivial⟩ fun _ => triple_ret fun _ hs => hs
    have made : (createIn R.toDaoEnv fuel p d msg).attempt exec s = (some msg', _) := Prod.ext ended rfl
    obtain ⟨since, _⟩ := attempt_records separate readable storable keyed default_ raises hp hd hs.1 made
    exact hs.2.trans (since.mono fun _ _ _ => trivial)
  | update msg =>
    exact triple_mono (updateIn_spares separate keyed links raises fuel p hd msg sparing)
      (fun _ hs => hs.2) fun _ _ hs => hs
  | remove key =>
    exact triple_mono (removeIn_spares separate raises hd sparing) (fun _ hs => hs.2) fun _ _ hs => hs

/-- Over a run, messages can still be stored, and what is stored under the keys stays, also where
what is pending is rolled back. -/
theorem sparingRun_keeps {keys : Dao → Value → Prop} {start : Db} {c c' : Connection}
    (before : c.Each fun s => StoreReady R.schema root providers s ∧
      Undisturbed R.schema root keys start s.db)
    (run : SparingRun R.toDaoEnv root providers keys c c') :
    c'.Each fun s => StoreReady R.schema root providers s ∧
      Undisturbed R.schema root keys start s.db := by
  have links : ∀ d, StoredThrough R.schema root d → LinksMessages R.toDaoEnv d :=
    fun d hd => (storable d hd).links
  induction run with
  | start => exact before
  | commit _ ih => exact ih.commit
  | rollback _ ih => exact ih.rollback
  | @call c' d exec run hd raises commits fuel p provided call rooted sparing ih =>
    obtain ⟨⟨ready, since⟩, ready', since'⟩ := ih
    obtain ⟨columns, opens⟩ := attempt_session raises (call.program R.toDaoEnv fuel p d) c'.session
    have owners : Triple (fun s => s.db = c'.session.db)
        ((call.program R.toDaoEnv fuel p d).attempt exec)
        (fun _ s => OwnersExist R.schema root s.db) fun _ => True :=
      program_owners separate keyed links raises hd rooted ready.owners
    have spares : Triple (fun s => StoreReady R.schema root providers s ∧
        Undisturbed R.schema root keys start s.db) ((call.program R.toDaoEnv fuel p d).attempt exec)
        (fun _ s => Undisturbed R.schema root keys start s.db) fun _ => True :=
      program_undisturbed separate readable storable keyed default_ raises provided hd sparing
    refine transaction_each ⟨fun {s a} here ended => ?_, fun _ _ => trivial⟩ ?_
    · cases here
      refine ⟨⟨owners.ends rfl ended, ready.tables.congr columns, fun q hq => ?_⟩, ?_⟩
      · exact opens q (ready.opens q hq)
      · exact spares.ends ⟨ready, since⟩ ended
    · exact ⟨⟨ready'.owners, ready'.tables, fun q hq => opens q (ready.opens q hq)⟩, since'⟩

/-- What is stored in full is read back after calls that spare it. -/
theorem recorded_reads {keys : Dao → Value → Prop} {s : DbSession} {c : Connection}
    (ready : StoreReady R.schema root providers s)
    (run : SparingRun R.toDaoEnv root providers keys (.opened s) c) {d : Dao}
    (hd : StoredThrough R.schema root d) {fuel : Nat} {p : KeyProvider} {msg : Msg} {key : Value}
    (recorded : Recorded R s.db keys fuel p d msg) (hkey : pkValue R.toDaoEnv d msg = some key)
    (typed : WellTyped R.schema.types d.message msg) (linked : LinksKeyed R.toDaoEnv d msg) :
    ∃ out, readInto R c.session.db fuel p d key .empty = some (true, out) ∧ out.Within msg ∧
      ∀ path field, StoredAt R.schema d path field → msg.KeptAt out path field := by
  obtain ⟨⟨_, since⟩, _⟩ := sparingRun_keeps separate readable storable keyed default_
    (Connection.each_opened ⟨ready, .refl _ _ _ s.db⟩) run
  have kept_ := recorded.survives hd since
  obtain ⟨out, read, restores⟩ := readInto_fills readable keyed hd kept_ typed linked
    (Msg.within_empty msg) Msg.listless_empty hkey
  exact ⟨out, read, restores.fills.within, restores.kept⟩

end Runs

section Created

variable {R : ReadEnv} {name : String} {root : Dao} {providers : Set KeyProvider}

/-- What `create` has stored is read back in full, whatever calls come before it, and after it where
they update or remove none of its rows. -/
theorem created_is_read_back (class_ : daoClass R.schema name = some root)
    (clear : AllAccessClear R.schema) (names : SeparateNames R.schema root)
    (default_ : R.defaultProvider ∈ providers) {s₀ : DbSession} {c c' c₁ : Connection}
    (ready : StoreReady R.schema root providers s₀)
    (before : SparingRun R.toDaoEnv root providers (fun _ _ => False) (.opened s₀) c)
    {d : Dao} (hd : StoredThrough R.schema root d)
    {exec : (r : Request) → DbSession → Option (Answer r × DbSession)} (raises : MayRaise exec)
    {commits : Bool} {fuel : Nat} {p : KeyProvider} (hp : p ∈ providers) {msg msg' : Msg}
    (made : daoCreate exec commits R.toDaoEnv fuel p d msg c = (some msg', c'))
    (after : SparingRun R.toDaoEnv root providers (newRows c.session.db c'.session.db) c' c₁)
    (typed : WellTyped R.schema.types d.message msg') (linked : LinksKeyed R.toDaoEnv d msg') :
    msg.Rekeyed pk msg' ∧ ∃ key out, pkValue R.toDaoEnv d msg' = some key ∧
      readInto R c₁.session.db fuel p d key .empty = some (true, out) ∧ out.Within msg' ∧
        ∀ path field, StoredAt R.schema d path field → msg'.KeptAt out path field := by
  have keyed : ∀ d, StoredThrough R.schema root d → Keyed d := fun d hd =>
    keyed_of_daoClass (storedThrough_class class_ hd).choose_spec
  have separate := names.toSeparateTables
  have readable := readable_through class_ clear names
  have storable := storable_through (E := R.toDaoEnv) class_ clear rfl names
  have links : ∀ d, StoredThrough R.schema root d → LinksMessages R.toDaoEnv d :=
    fun d hd => (storable d hd).links
  obtain ⟨s', done, rfl⟩ := transaction_committed made
  obtain ⟨⟨ready, _⟩, _⟩ := sparingRun_keeps separate readable storable keyed default_
    (Connection.each_opened ⟨ready, .refl _ _ _ s₀.db⟩) before
  obtain ⟨_, recorded, ready'⟩ := attempt_records separate readable storable keyed default_ raises hp hd
    ready done
  have returned := Calls.attempt_ensures (createIn_rekeys links fuel p hd msg) (congrArg Prod.fst done)
  refine ⟨returned, ?_⟩
  obtain ⟨key, hkey⟩ := recorded.keyed
  obtain ⟨out, read⟩ := recorded_reads separate readable storable keyed default_ ready' after hd recorded
    hkey typed linked
  exact ⟨key, out, hkey, read⟩

end Created

section Notes

/-- Integers by size, before other values. -/
def noteOrder : Sqlite.Value → Sqlite.Value → Bool
  | .int m, .int n => decide (m ≤ n)
  | .int _, _ => true
  | _, .int _ => false
  | _, _ => true

theorem noteOrder_total (a b : Sqlite.Value) : noteOrder a b || noteOrder b a := by
  cases a <;> cases b <;> simp [noteOrder, Int.le_total]

theorem noteOrder_trans (a b c : Sqlite.Value) (h : noteOrder a b) (h' : noteOrder b c) :
    noteOrder a c := by
  cases a <;> cases b <;> cases c <;> simp_all [noteOrder]
  omega

theorem noteOrder_int (m n : Int) : noteOrder (.int m) (.int n) = decide (m ≤ n) := rfl

theorem digit_note (c : Char) (h : c.isDigit) :
    (if c.isDigit then some (c.toNat - '0'.toNat) else none) = some (c.toNat - '0'.toNat) := if_pos h

/-- Reading on SQLite; the notes hold no floats. -/
def noteReads : ReadEnv where
  toDaoEnv := taggedNoteEnv
  coerce _ _ := none
  narrow bits := bits
  narrow_zero := rfl
  order := noteOrder
  order_total := noteOrder_total
  order_trans := noteOrder_trans
  order_int := noteOrder_int
  scan rows := rows
  scan_perm := .refl
  digit c := if c.isDigit then some (c.toNat - '0'.toNat) else none
  digit_ascii := digit_note
  strtod _ := 0
  strtod_zero := rfl
  repr _ := ""

/-- The notes 1 and 2, with random bytes for new keys. -/
def noteStore : DbSession := { notesSession with random := fun _ => List.replicate 32 3 }

def textNote (key : Int) (status : String) : Msg :=
  .mk [("HARPIA_ID", .scalar (.int key)), ("HARPIA_STATUS", .scalar (.text status)),
    ("tags", .list [.text "new", .text "old"])]

def newNote : Msg := textNote 3 "ready"

theorem accessClear_taggedNote : AllAccessClear taggedNoteSchema := by
  intro m hm table
  obtain rfl := List.mem_singleton.mp hm
  apply accessClear_of_flat
  · decide +kernel
  · unfold Alone
    decide +kernel

theorem separateNames_taggedNote : SeparateNames taggedNoteSchema taggedNoteDao := by
  refine ⟨⟨fun d hd => ?_, fun d hd => ?_, fun d d' hd hd' _ _ _ _ _ => ?_⟩, fun d hd child hc cs kind => ?_⟩
  · cases storedThrough_note hd
    decide +kernel
  · cases storedThrough_note hd
    decide +kernel
  · rw [storedThrough_note hd, storedThrough_note hd']
  · cases storedThrough_note hd
    cases List.mem_singleton.mp hc
    cases kind

theorem storeReady_noteStore :
    StoreReady taggedNoteSchema taggedNoteDao {KeyProvider.fresh [7]} noteStore := by
  have row : noteStore.db.columns "note" = some noteRow.columns := by decide +kernel
  have tags : noteStore.db.columns "note__tags" = some strayTag.columns := by decide +kernel
  refine ⟨owners_notesSession, ⟨fun d hd cs hcs => ?_, fun d hd cs hcs => ?_, fun d hd child hc => ?_⟩,
    fun p hp n => ⟨rfl, fun w hw => ?_⟩⟩
  · cases storedThrough_note hd
    cases row.symm.trans hcs
    decide +kernel
  · cases storedThrough_note hd
    cases row.symm.trans hcs
    decide +kernel
  · cases storedThrough_note hd
    cases List.mem_singleton.mp hc
    exact ⟨_, tags, by decide +kernel⟩
  · cases hp
    cases hw
    exact KeyProvider.unwrapDek_wrapped rfl (Finset.notMem_empty _)

theorem wellTyped_newNote : WellTyped taggedNoteSchema.types taggedNote newNote := by
  constructor
  · intro name v c field held
    obtain ⟨l, r, split, -⟩ := List.lookup_eq_some_iff.mp held
    have mem : (name, c) ∈ newNote.fields := split ▸ List.mem_append_right l List.mem_cons_self
    simp only [newNote, textNote, Msg.fields, List.mem_cons, List.not_mem_nil, or_false, Prod.mk.injEq] at mem
    rcases mem with ⟨rfl, rfl⟩ | ⟨rfl, rfl⟩ | ⟨rfl, rfl⟩
    · cases Option.some.inj field
      exact ⟨by decide +kernel, by decide +kernel, by decide +kernel⟩
    · cases Option.some.inj field
      exact ⟨by decide +kernel, by decide +kernel, by decide +kernel⟩
    · cases Option.some.inj field
      exact ⟨rfl, by decide +kernel, by decide +kernel, by decide +kernel⟩
  · intro name v d' o field type _
    have none_ : ∀ v ∈ taggedNote.vars, messageType taggedNoteSchema.types v = none := by
      decide +kernel
    rw [none_ v (List.mem_of_find?_eq_some field)] at type
    cases type

theorem linksKeyed_note (msg : Msg) : LinksKeyed taggedNoteEnv taggedNoteDao msg := by
  intro d m updates col hcol target c d' fk
  obtain ⟨rfl, rfl⟩ := updates_note updates
  have plain : ∀ col ∈ taggedNoteDao.columns, col.fk = none := by decide +kernel
  simp [plain col hcol] at fk

/-- A note is stored, another one updated and a third removed; then the first is read back. -/
theorem created_is_read_back_note :
    let made := daoCreate Request.exec true taggedNoteEnv 1 (.fresh [7]) taggedNoteDao newNote
      (.opened noteStore)
    let updated := transaction Request.exec true
      ((DaoCall.update (textNote 1 "done")).program taggedNoteEnv 1 (.fresh [7]) taggedNoteDao) made.2
    let removed := transaction Request.exec true
      ((DaoCall.remove (.int 2)).program taggedNoteEnv 1 (.fresh [7]) taggedNoteDao) updated.2
    newNote.Rekeyed pk newNote ∧ ∃ key out, pkValue taggedNoteEnv taggedNoteDao newNote = some key ∧
      readInto noteReads removed.2.session.db 1 (.fresh [7]) taggedNoteDao key .empty =
        some (true, out) ∧ out.Within newNote ∧
          ∀ path field, StoredAt taggedNoteSchema taggedNoteDao path field →
            newNote.KeptAt out path field := by
  intro made updated removed
  have returned : made.1 = some newNote := rfl
  have made_ : daoCreate Request.exec true taggedNoteEnv 1 (.fresh [7]) taggedNoteDao newNote
      (.opened noteStore) = (some newNote, made.2) := Prod.ext returned rfl
  have provided : KeyProvider.fresh [7] ∈ ({KeyProvider.fresh [7]} : Set KeyProvider) := rfl
  have stored : Stored taggedNoteEnv made.2.session.db taggedNoteDao (textNote 1 "done") :=
    ⟨.int 1, by decide +kernel, by decide +kernel⟩
  have rooted : RootedCall taggedNoteEnv made.2.session.db taggedNoteDao (.update (textNote 1 "done")) := by
    intro d m updates
    obtain ⟨rfl, rfl⟩ := updates_note updates
    exact .inl stored
  have old : ∀ n : Int, n = 1 ∨ n = 2 →
      ¬ newRows noteStore.db made.2.session.db taggedNoteDao (.int n) := by
    rintro n (rfl | rfl) ⟨missing, -⟩
    · exact missing (by decide +kernel)
    · exact missing (by decide +kernel)
  have updates : SparingRun taggedNoteEnv taggedNoteDao {KeyProvider.fresh [7]}
      (newRows noteStore.db made.2.session.db) made.2 updated.2 := by
    apply SparingRun.call .start .refl (fun _ _ _ h => h) true 1 provided (.update (textNote 1 "done"))
      rooted
    intro d m updates key hkey
    obtain ⟨rfl, rfl⟩ := updates_note updates
    cases Option.some.inj ((by decide +kernel : pkValue taggedNoteEnv taggedNoteDao (textNote 1 "done") =
      some (.int 1)).symm.trans hkey)
    exact old 1 (.inl rfl)
  have removes : SparingRun taggedNoteEnv taggedNoteDao {KeyProvider.fresh [7]}
      (newRows noteStore.db made.2.session.db) made.2 removed.2 :=
    .call updates .refl (fun _ _ _ h => h) true 1 provided _ trivial (old 2 (.inr rfl))
  exact created_is_read_back (R := noteReads) daoClass_taggedNote accessClear_taggedNote
    separateNames_taggedNote provided storeReady_noteStore .start .refl (fun _ _ _ h => h) provided made_
    removes wellTyped_newNote (linksKeyed_note newNote)

end Notes

end Harpia
