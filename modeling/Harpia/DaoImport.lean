import Harpia.DaoList
import Harpia.Lib.Zip

namespace Harpia

open Text Sqlite Proto Attempt

/-- The statements of `_create_all`: those of `_create` for each message. -/
def createAllIn (E : DaoEnv) (fuel : Nat) (p : KeyProvider) (dao : Dao) (rows : List Msg) :
    Cursor (List Msg) :=
  Calls.collect (createIn E fuel p dao) rows

/-- `_create_all`. It returns how many messages there are; they are returned too, as `_create` has
left them. -/
def createAll (exec : (r : Request) → DbSession → Option (Answer r × DbSession)) (commits : Bool)
    (E : DaoEnv) (fuel : Nat) (p : KeyProvider) (dao : Dao) (rows : List Msg) :
    Attempt Connection (Nat × List Msg) := do
  let rows' ← transaction exec commits (createAllIn E fuel p dao rows)
  return (rows.length, rows')

/-- The lines of the text that are not empty. -/
def jsonLines (text : List Char) : List (List Char) :=
  (text.splitOn '\n').filter (· ≠ [])

/-- `import_json`, with `fromJson` for what `from_json` makes of a line. A line that it refuses is a
`ValueError`, raised before anything is written. -/
def importJson (exec : (r : Request) → DbSession → Option (Answer r × DbSession)) (commits : Bool)
    (E : DaoEnv) (fuel : Nat) (p : KeyProvider) (fromJson : List Char → Option Msg) (dao : Dao)
    (text : List Char) : Attempt Connection (Nat × List Msg) := fun c =>
  match (jsonLines text).mapM fromJson with
  | some rows => createAll exec commits E fuel p dao rows c
  | none => (none, c)

/-- `export_json`, with `toJson` for `to_json`: what `list` gives, a line each. -/
def exportJson (R : ReadEnv) (db : Db) (fuel : Nat) (p : KeyProvider) (toJson : Msg → List Char)
    (dao : Dao) : Option (List Char) :=
  (daoList R db fuel p dao none none).map fun rows => rows.flatMap fun m => toJson m ++ ['\n']

section Lines

variable {toJson : Msg → List Char} {fromJson : List Char → Option Msg} {rows : List Msg}

/-- Messages that are exported a line each are imported from these lines. -/
theorem jsonLines_exported (line : ∀ m, toJson m ≠ [] ∧ '\n' ∉ toJson m) :
    jsonLines (rows.flatMap fun m => toJson m ++ ['\n']) = rows.map toJson := by
  have inside : ∀ l ∈ rows.map toJson, ∀ c ∈ l, (c == '\n') = false := by
    intro l hl c hc
    obtain ⟨m, _, rfl⟩ := List.mem_map.mp hl
    exact beq_false_of_ne fun same => (line m).2 (same ▸ hc)
  have split := splitOnP_lines (p := fun c => c == '\n') rfl (rows.map toJson) [] inside (by simp)
  rw [List.append_nil, List.flatMap_map, ← List.splitOn_eq_splitOnP] at split
  rw [jsonLines, split, List.filter_append]
  have kept_ : ((rows.map toJson).filter fun l => decide (l ≠ [])) = rows.map toJson := by
    apply List.filter_eq_self.mpr
    intro l hl
    obtain ⟨m, _, rfl⟩ := List.mem_map.mp hl
    exact decide_eq_true (line m).1
  rw [kept_]
  exact List.append_nil _

theorem parsed_exported
    (parses : ∀ m ∈ rows, ∃ m', fromJson (toJson m) = some m' ∧ m.Rekeyed pk m') :
    ∃ parsed, (rows.map toJson).mapM fromJson = some parsed ∧
      List.Forall₂ (Msg.Rekeyed pk) rows parsed := by
  induction rows with
  | nil => exact ⟨[], rfl, .nil⟩
  | cons m rows ih =>
    obtain ⟨m', hm', same⟩ := parses m List.mem_cons_self
    obtain ⟨parsed, all, alike⟩ := ih fun m hm => parses m (List.mem_cons_of_mem _ hm)
    exact ⟨m' :: parsed, by simp [hm', all], .cons same alike⟩

end Lines

theorem Recorded.placed {R : ReadEnv} {db : Db} {keys : Dao → Value → Prop} {fuel : Nat}
    {p : KeyProvider} {d : Dao} {msg : Msg} (h : Recorded R db keys fuel p d msg) :
    ∃ key, pkValue R.toDaoEnv d msg = some key ∧ keys d key := by
  cases fuel with
  | zero => exact h.elim
  | succ fuel =>
    obtain ⟨_, key, _, h⟩ := h
    exact ⟨key, h.keyed, h.place⟩

/-- Some of the messages are stored in full, under keys that were not there, and each under its own;
nothing that was there is disturbed. -/
structure Imported (R : ReadEnv) (root : Dao) (fuel : Nat) (p : KeyProvider) (d : Dao) (start : Db)
    (done out : List Msg) (db : Db) : Prop where
  since : Undisturbed R.schema root anyKey start db
  rekeyed : List.Forall₂ (Msg.Rekeyed pk) done out
  recorded : ∀ m ∈ out, Recorded R db (newRows start db) fuel p d m
  apart : (out.map (pkValue R.toDaoEnv d)).Nodup

/-- Nothing has been committed. Where `COMMIT` raised, all the messages are pending; else none is. -/
structure Uncommitted (R : ReadEnv) (root : Dao) (fuel : Nat) (p : KeyProvider) (d : Dao)
    (commits : Bool) (rows : Option (List Msg)) (c c' : Connection) : Prop where
  committed : c'.committed = c.committed
  pending : c' = c ∨ c'.session.db = c.committed ∨ commits = false ∧ ∃ done out, rows = some done ∧
    Imported R root fuel p d c.session.db done out c'.session.db

section Imports

variable {R : ReadEnv} {root : Dao} {providers : Set KeyProvider} {fuel : Nat} {p : KeyProvider}
  {d : Dao} {start db db' : Db} {done out : List Msg} {msg msg' : Msg}

theorem Imported.snoc (hd : StoredThrough R.schema root d)
    (h : Imported R root fuel p d start done out db) (since : Undisturbed R.schema root anyKey db db')
    (rekeyed : msg.Rekeyed pk msg') (recorded : Recorded R db' (newRows db db') fuel p d msg') :
    Imported R root fuel p d start (done ++ [msg]) (out ++ [msg']) db' where
  since := h.since.trans since
  rekeyed := List.rel_append h.rekeyed (.cons rekeyed .nil)
  recorded m hm := by
    rcases List.mem_append.mp hm with hm | hm
    · have kept := (h.recorded m hm).survives hd (since.mono fun _ _ _ => trivial)
      apply kept.mono hd
      intro d' hd' k stored
      exact ⟨stored.1, since.values d' hd' k stored.2 trivial⟩
    · rw [List.mem_singleton.mp hm]
      apply recorded.mono hd
      intro d' hd' k stored
      exact ⟨fun old => stored.1 (h.since.values d' hd' k old trivial), stored.2⟩
  apart := by
    rw [List.map_append, List.map_singleton, List.nodup_append]
    refine ⟨h.apart, List.nodup_singleton _, fun key hkey key' hkey' same => ?_⟩
    obtain ⟨m, hm, rfl⟩ := List.mem_map.mp hkey
    obtain ⟨k, hk, -, there⟩ := (h.recorded m hm).placed
    obtain ⟨k', hk', missing, -⟩ := recorded.placed
    rw [List.mem_singleton.mp hkey', hk, hk'] at same
    -- the key of an earlier message has a row by now, that of the new one has none
    cases Option.some.inj same
    exact missing there

variable (separate : SeparateTables R.schema root)
  (readable : ∀ d, StoredThrough R.schema root d → d.Readable R.schema)
  (storable : ∀ d, StoredThrough R.schema root d → d.Storable R.toDaoEnv)
  (keyed : ∀ d, StoredThrough R.schema root d → Keyed d) (default_ : R.defaultProvider ∈ providers)
  {exec : (r : Request) → DbSession → Option (Answer r × DbSession)}

include separate readable storable keyed default_

theorem createAllIn_imports (raises : MayRaise exec) (fuel : Nat) {p : KeyProvider} (hp : p ∈ providers)
    {d : Dao} (hd : StoredThrough R.schema root d) (rows : List Msg) (start : Db) :
    Triple (fun s => StoreReady R.schema root providers s ∧ s.db = start)
      ((createAllIn R.toDaoEnv fuel p d rows).attempt exec)
      (fun rows' s => StoreReady R.schema root providers s ∧
        Imported R root fuel p d start rows rows' s.db) fun _ => True := by
  have links : ∀ d, StoredThrough R.schema root d → LinksMessages R.toDaoEnv d :=
    fun d hd => (storable d hd).links
  unfold createAllIn
  refine triple_mono (Calls.triple_collect (fun done out s => StoreReady R.schema root providers s ∧
    Imported R root fuel p d start done out s.db) ?_) ?_ fun _ _ hs => hs
  · intro done out msg rest _
    refine ⟨fun {s msg'} hs ended => ?_, fun _ _ => trivial⟩
    have made : (createIn R.toDaoEnv fuel p d msg).attempt exec s = (some msg', _) := Prod.ext ended rfl
    obtain ⟨since, recorded, ready⟩ := attempt_records separate readable storable keyed default_ raises
      hp hd hs.1 made
    have rekeyed := Calls.attempt_ensures (createIn_rekeys links fuel p hd msg) ended
    exact ⟨ready, hs.2.snoc hd since rekeyed recorded⟩
  · intro s hs
    refine ⟨hs.1, ?_, .nil, ?_, List.nodup_nil⟩
    · rw [hs.2]
      exact .refl _ _ _ _
    · exact fun m hm => by cases hm

/-- `_create_all` commits nothing, or each of the messages. -/
theorem createAll_imports (raises : MayRaise exec) {commits : Bool} (fuel : Nat) {p : KeyProvider}
    (hp : p ∈ providers) {d : Dao} (hd : StoredThrough R.schema root d) {rows : List Msg}
    {c c' : Connection} (ready : StoreReady R.schema root providers c.session)
    {result : Option (Nat × List Msg)}
    (created : createAll exec commits R.toDaoEnv fuel p d rows c = (result, c')) :
    (result = none → Uncommitted R root fuel p d commits (some rows) c c') ∧
      ∀ count rows', result = some (count, rows') → count = rows.length ∧ c' = .opened c'.session ∧
        StoreReady R.schema root providers c'.session ∧
        Imported R root fuel p d c.session.db rows rows' c'.session.db := by
  have stores := createAllIn_imports separate readable storable keyed default_ raises fuel hp hd rows
    c.session.db
  have imports : ∀ out s', (createAllIn R.toDaoEnv fuel p d rows).attempt exec c.session = (some out, s') →
      StoreReady R.schema root providers s' ∧ Imported R root fuel p d c.session.db rows out s'.db := by
    intro out s' done
    have ended := stores.ends ⟨ready, rfl⟩ (congrArg Prod.fst done)
    rwa [done] at ended
  have begins : createAll exec commits R.toDaoEnv fuel p d rows c = Attempt.bind
      (transaction exec commits (createAllIn R.toDaoEnv fuel p d rows))
      (fun rows' => ret (rows.length, rows')) c := rfl
  rw [begins, Attempt.bind] at created
  cases ended : transaction exec commits (createAllIn R.toDaoEnv fuel p d rows) c with
  | mk answer c₂ =>
    rw [ended] at created
    cases answer with
    | none =>
      cases created
      obtain ⟨committed, rolled | ⟨failed, out, done⟩⟩ := transaction_raised ended
      · exact ⟨fun _ => ⟨committed, .inr (.inl rolled)⟩, fun _ _ there => by cases there⟩
      · obtain ⟨_, all⟩ := imports out _ done
        exact ⟨fun _ => ⟨committed, .inr (.inr ⟨failed, rows, out, rfl, all⟩)⟩,
          fun _ _ there => by cases there⟩
    | some out =>
      cases created
      obtain ⟨s', done, rfl⟩ := transaction_committed ended
      refine ⟨fun missing => (by cases missing), fun count rows' there => ?_⟩
      cases there
      exact ⟨rfl, rfl, imports out s' done⟩

end Imports

section Import

variable {R : ReadEnv} {name : String} {root : Dao} {providers : Set KeyProvider}

end Import

section Notes

def newNoteLine : List Char :=
  "\x7b\"HARPIAID\":3,\"HARPIASTATUS\":\"ready\",\"tags\":[\"new\",\"old\"]\x7d".toList

def doneNoteLine : List Char :=
  "\x7b\"HARPIAID\":4,\"HARPIASTATUS\":\"done\",\"tags\":[\"new\",\"old\"]\x7d".toList

/-- The messages of two lines. -/
def noteOfJson (line : List Char) : Option Msg :=
  [(newNoteLine, newNote), (doneNoteLine, textNote 4 "done")].lookup line

/-- The two lines, with an empty one between them. -/
def noteFile : List Char :=
  newNoteLine ++ '\n' :: '\n' :: doneNoteLine ++ ['\n']

/-- A note as it is read. -/
def storedNote (key : Int) (status : String) : Msg :=
  .mk [("tags", .list [.text "new", .text "old"]), ("HARPIA_STATUS", .scalar (.text status)),
    ("HARPIA_ID", .scalar (.int key))]

def noteToJson (m : Msg) : List Char :=
  if m.scalar? pk = some (.int 3) then newNoteLine else doneNoteLine

def noteFromJson (line : List Char) : Option Msg :=
  [(newNoteLine, storedNote 3 "ready"), (doneNoteLine, storedNote 4 "done")].lookup line

/-- A note's row, and the row of one of its tags. -/
def rowOfNote (key : Int) (status : String) : Row :=
  Row.ofPairs [("HARPIA_ID", .int key), ("HARPIA_STATUS", .text status)]

def rowOfTag (key ordinal : Int) (tag : String) : Row :=
  Row.ofPairs [("owner", .int key), ("ordinal", .int ordinal), ("value", .text tag)]

theorem valid_fullRows :
    Valid noteRow.columns noteRow.key [rowOfNote 3 "ready", rowOfNote 4 "done"] := by
  decide +kernel

theorem valid_fullTags : Valid strayTag.columns strayTag.key [rowOfTag 3 0 "new", rowOfTag 3 1 "old",
    rowOfTag 4 0 "new", rowOfTag 4 1 "old"] := by
  decide +kernel

def fullRows : Table :=
  { noteRow with rows := [rowOfNote 3 "ready", rowOfNote 4 "done"], valid := valid_fullRows }

def fullTags : Table :=
  { strayTag with
    rows := [rowOfTag 3 0 "new", rowOfTag 3 1 "old", rowOfTag 4 0 "new", rowOfTag 4 1 "old"]
    valid := valid_fullTags }

/-- The notes 3 and 4 with two tags each. -/
def fullNotes : Db := (Db.empty.put "note" fullRows).put "note__tags" fullTags

theorem get?_fullNotes : fullNotes.get? taggedNoteDao.table = some fullRows ∧
    fullNotes.get? "note__tags" = some fullTags := ⟨rfl, rfl⟩

/-- The note is removed. -/
def withoutNote (key : Int) (c : Connection) : Connection :=
  (transaction Request.exec true
    ((DaoCall.remove (.int key)).program taggedNoteEnv 1 (.fresh [7]) taggedNoteDao) c).2

/-- The store without its notes. -/
def emptyNotes : Connection := withoutNote 2 (withoutNote 1 (.opened noteStore))

theorem keyOrder_fullRows : keyOrder noteReads fullRows = fullRows.rows :=
  List.mergeSort_of_pairwise (by decide +kernel)

def tagsChild : DaoChild := { table := "note__tags", path := ⟨[], "tags"⟩, kind := .repeated none }

/-- The tags stand in their order already. -/
theorem childRows_fullTags : ∀ key ∈ [Value.int 3, .int 4],
    childRows noteReads tagsChild fullTags key = fullTags.select "owner" key := by
  intro key hk
  have sorted : ∀ key ∈ [Value.int 3, .int 4], (fullTags.select "owner" key).Pairwise fun r r' =>
      noteReads.order (fullTags.lookup r "ordinal") (fullTags.lookup r' "ordinal") := by decide +kernel
  exact List.mergeSort_of_pairwise (sorted key hk)

/-- A note is read where its columns and its tags are. -/
theorem loadRow_fullRows {recur : String → Value → Msg → Option Msg} (key : Value)
    (hk : key ∈ [Value.int 3, .int 4]) {r : Row} {m : Msg} (m' : Msg)
    (columns : (taggedNoteDao.columns.map fun col => (col, fullRows.lookup r col.name)).foldlM
      (loadCell noteReads (.fresh [7]) taggedNoteDao recur (absentEmbeds
        (taggedNoteDao.columns.map fun col => (col, fullRows.lookup r col.name)))) .empty = some m)
    (keyed : pkValue noteReads.toDaoEnv taggedNoteDao m = some key)
    (tags : ((taggedNote.field? "tags").bind fun field =>
      if fullTags.select "owner" key = [] then some m
      else m.modify (readRepeated noteReads fullTags (fullTags.select "owner" key) field) []) = some m') :
    loadRow noteReads fullNotes (.fresh [7]) taggedNoteDao recur fullRows r .empty = some m' := by
  have child : readChild noteReads fullNotes taggedNoteDao recur key m tagsChild = some m' := by
    unfold readChild
    rw [show fullNotes.get? tagsChild.table = some fullTags from get?_fullNotes.2]
    simp only [Option.bind_some, childRows_fullTags key hk]
    exact tags
  unfold loadRow
  simp only [columns, Option.bind_eq_bind, Option.bind_some]
  rw [if_neg (by decide), keyed, Option.bind_some]
  show (readChild noteReads fullNotes taggedNoteDao recur key m tagsChild).bind some = some m'
  rw [child]
  rfl

theorem listed_fullNotes : daoList noteReads fullNotes 1 (.fresh [7]) taggedNoteDao none none =
    some [storedNote 3 "ready", storedNote 4 "done"] := by
  rw [daoList, get?_fullNotes.1, Option.bind_eq_bind, Option.bind_some, keyOrder_fullRows, listed,
    if_pos ⟨rfl, rfl⟩]
  extract_lets recur
  rw [Option.bind_eq_bind, Option.bind_some]
  show [rowOfNote 3 "ready", rowOfNote 4 "done"].mapM _ = _
  simp only [List.mapM_cons, List.mapM_nil]
  rw [loadRow_fullRows (.int 3) (by simp) (storedNote 3 "ready") rfl rfl rfl,
    loadRow_fullRows (.int 4) (by simp) (storedNote 4 "done") rfl rfl rfl]
  rfl

def noteExport : List Char :=
  newNoteLine ++ '\n' :: doneNoteLine ++ ['\n']

end Notes

end Harpia
