import Harpia.LocalKeyRuns

namespace Harpia

/-- The two operations that write a file. -/
inductive WritingCall
  | rotate (kek : KeyBytes)
  | shredDek (w : WrappedDek)

namespace LocalKeyProvider

/-- An operation whose file write ends as `o` says. -/
def attempt (p : LocalKeyProvider) (o : WriteOutcome) : WritingCall → LocalKeyProvider
  | .rotate kek => p.rotate o kek
  | .shredDek w => p.shredDek o w

/-- Whether the call comes back without an error: the C++ write reports none to its caller. -/
def returns (p : LocalKeyProvider) (o : WriteOutcome) : Bool :=
  !o.died && (p.lang = .cpp || (o.opened && o.written.isNone))

end LocalKeyProvider

/-- After a restart in `lang` on the files that an operation has left behind, every key handed out
    before still unwraps to its value (the one the operation shreds apart), and every shred whose call
    had returned is honoured. -/
def Outlives (s : LocalRun) (call : WritingCall) (o : WriteOutcome) (lang : Lang) : Prop :=
  ∀ cfg kek, (cfg.phiAtScale && !cfg.acknowledged) = false →
    ∃ q, LocalKeyProvider.init lang cfg kek (s.provider.attempt o call).files = some q ∧
      (∀ w ∈ s.wrapped, call ≠ .shredDek w → ∀ dek, s.provider.keys.unwrapDek w = some dek →
        q.keys.unwrapDek w = some dek) ∧
      (∀ w, shredKey w ∈ s.provider.keys.shredded → q.keys.unwrapDek w = none) ∧
      ∀ w, call = .shredDek w → s.provider.returns o → q.keys.unwrapDek w = none

/-- How many characters of `data` reach the file. -/
def WriteOutcome.reached (o : WriteOutcome) (data : List Char) : Nat :=
  if o.opened then o.written.getD data.length else 0

/-- The shred line in the log: how many of its hexadecimal digits were written. -/
def shredDigits (o : WriteOutcome) (w : WrappedDek) : Nat :=
  hexWritten w.kekVersion w.bytes (o.reached (keyLine w.kekVersion w.bytes ++ ['\n']))

/-- A rotation is safe when the version counter has room for it and the store either was not
    opened or received the whole old text again (its last line end apart); a shred of a new key when
    its version is a 64-bit number, a call that returned has written its whole key, and a shorter
    key does not stand for another one. Python refuses an odd number of digits. -/
def WriteSafe (s : LocalRun) (o : WriteOutcome) (lang : Lang) : WritingCall → Prop
  | .rotate kek =>
    s.provider.keys.active + 1 < 2 ^ 64 ∧
      (o.opened → ∀ k ∈ o.written,
        let old := (recordsText (LocalKeyProvider.storeRecords s.provider.keys.keks)).length
        old ≤ k + 1 ∧ (lang = .python →
          hexWritten (s.provider.keys.active + 1) kek.val (k - old) % 2 = 0))
  | .shredDek w =>
    shredKey w ∈ s.provider.keys.shredded ∨
      w.kekVersion < 2 ^ 64 ∧
      (s.provider.returns o → w.bytes ≠ [] ∧ shredDigits o w = 2 * w.bytes.length) ∧
      (lang = .python → shredDigits o w % 2 = 0) ∧
      (shredDigits o w ≠ 0 → ∀ w' ∈ s.wrapped, w' ≠ w → shredKey w' ∉ s.provider.keys.shredded →
        w' ≠ ⟨w.kekVersion, w.bytes.take (shredDigits o w / 2)⟩)

/-- A file of records whose last line was cut after `j` characters. -/
theorem parseText_cut {lang : Lang} {records : List (Nat × Bytes)} (h : Readable records) (v : Nat)
    (bs : Bytes) (j : Nat) :
    parseText lang (recordsText records ++ (keyLine v bs ++ ['\n']).take j)
      = (parseLine lang ((keyLine v bs).take j)).map fun record => records ++ record.toList := by
  rcases Nat.lt_or_ge (keyLine v bs).length j with hj | hj
  · have all : (keyLine v bs ++ ['\n']).take j = recordsText [(v, bs)] := by
      rw [List.take_of_length_le (by simp; omega)]
      simp [recordsText]
    have whole := fileLines_recordsText lang (records ++ [(v, bs)]) [] (by simp)
    have blank : parseLine lang [] = some none := by cases lang <;> rfl
    rw [List.append_nil] at whole
    rw [all, ← recordsText_append, parseText, whole, List.take_of_length_le hj.le, List.map_append,
      List.append_assoc, parseLines_append, parseLines_keyLines h, Option.bind_some]
    cases hl : parseLine lang (keyLine v bs) <;> simp [parseLines, hl, blank]
  · rw [List.take_append_of_le_length hj]
    exact parseText_tail lang h _ fun c hc => keyLine_no_newline (List.mem_of_mem_take hc)

namespace InSync

open LocalKeyProvider

variable {p : LocalKeyProvider} {shreds : List WrappedDek}

theorem rotate_text (h : InSync p shreds) (room : p.keys.active + 1 < 2 ^ 64) (kek : KeyBytes) :
    recordsText (storeRecords (p.keys.rotate p.lang kek.val).keks)
      = recordsText p.keys.keks.entries ++ (keyLine (p.keys.active + 1) kek.val ++ ['\n']) := by
  have full := (h.rotate room kek).ascending
  have entries := h.rotate_entries room kek.val
  have sorted : storeRecords (p.keys.rotate p.lang kek.val).keks
      = (p.keys.rotate p.lang kek.val).keks.entries := storeRecords_of_ascending full
  rw [sorted, entries, recordsText_append]
  simp [recordsText]

/-- A store rewritten up to some point behind its old text still has all its old keys, and at most
    one newer one. -/
theorem parse_rotated (h : InSync p shreds) (room : p.keys.active + 1 < 2 ^ 64) (kek : KeyBytes)
    {lang : Lang} {k : Nat} (hk : (recordsText p.keys.keks.entries).length ≤ k + 1)
    (even : lang = .python →
      hexWritten (p.keys.active + 1) kek.val (k - (recordsText p.keys.keks.entries).length) % 2 = 0) :
    ∃ new, (∀ r ∈ new, r.1 = p.keys.active + 1) ∧
      parseText lang ((recordsText (storeRecords (p.keys.rotate p.lang kek.val).keks)).take k)
        = some (p.keys.keks.entries ++ new) := by
  rw [h.rotate_text room]
  generalize hT : recordsText p.keys.keks.entries = text at *
  rcases Nat.lt_or_ge k text.length with short | long
  · -- Only the line end of the last old line is missing.
    obtain ⟨rest, r, hr⟩ : ∃ rest r, p.keys.keks.entries = rest ++ [r] :=
      ⟨_, _, (List.dropLast_append_getLast h.entries_ne_nil).symm⟩
    have split : text = (recordsText rest ++ keyLine r.1 r.2) ++ ['\n'] := by
      rw [← hT, hr, recordsText_append]
      simp [recordsText]
    have len : k = (recordsText rest ++ keyLine r.1 r.2).length := by
      have total := congrArg List.length split
      rw [List.length_append, List.length_singleton] at total
      omega
    have readable : Readable rest := fun r' hr' => h.readable r' (hr ▸ List.mem_append_left _ hr')
    obtain ⟨hv, hb⟩ := h.readable r (hr ▸ List.mem_append_right _ (List.mem_singleton_self r))
    refine ⟨[], by simp, ?_⟩
    rw [split, List.append_assoc _ ['\n'], len, List.take_left,
      parseText_tail _ readable _ fun c hc => keyLine_no_newline hc, parseLine_keyLine hv hb, hr]
    simp
  · rw [List.take_append, List.take_of_length_le long, ← hT, parseText_cut h.readable,
      parseLine_take _ room, hT]
    generalize hexWritten (p.keys.active + 1) kek.val (k - text.length) = digits at *
    by_cases zero : digits = 0
    · exact ⟨[], by simp, by simp [zero]⟩
    · refine ⟨[(p.keys.active + 1, kek.val.take (digits / 2))], by simp, ?_⟩
      have accepted : ¬ (lang = .python ∧ digits % 2 = 1) := by
        rintro ⟨hl, odd⟩
        have := even hl
        omega
      simp [zero, accepted]

theorem load_rotated (h : InSync p shreds) {lang : Lang} {text : List Char} {new : List (Nat × Bytes)}
    (hn : ∀ r ∈ new, r.1 = p.keys.active + 1)
    (hp : parseText lang text = some (p.keys.keks.entries ++ new)) :
    ∃ keks active, LocalKeyProvider.load lang (some ⟨text, true⟩) = some (some (keks, active)) ∧
      ∀ v kek, p.keys.keks.get? v = some kek → keks.get? v = some kek := by
  have ne : p.keys.keks.entries ++ new ≠ [] := by simp [h.entries_ne_nil]
  refine ⟨_, _, load_of_parse true hp ne, ?_⟩
  intro v kek hget
  have hm : (v, kek) ∈ p.keys.keks.entries := (p.keys.keks.get?_eq_some_iff).mp hget
  have old : v ≤ p.keys.active := h.newest_le hm
  have absent : new.reverse.lookup v = none := by
    refine Dict.lookup_eq_none_of_not_mem fun hv => ?_
    obtain ⟨r, hr, hrv⟩ := List.mem_map.mp hv
    have version := hn r (List.mem_reverse.mp hr)
    omega
  rw [Dict.get?_ofPairs, List.reverse_append, List.lookup_append, absent, Option.none_or,
    ← Dict.get?_ofPairs, Dict.ofPairs_entries, hget]

theorem loadShreds_cut (h : InSync p shreds) {lang : Lang} {w : WrappedDek} (hv : w.kekVersion < 2 ^ 64)
    {o : WriteOutcome} (ho : o.opened) (even : lang = .python → shredDigits o w % 2 = 0) :
    loadShreds lang (writePrivate o true (keyLine w.kekVersion w.bytes ++ ['\n']) p.files.shredLog)
      = some (if shredDigits o w = 0 then p.keys.shredded
        else insert (shredKey ⟨w.kekVersion, w.bytes.take (shredDigits o w / 2)⟩) p.keys.shredded) := by
  have old : p.files.shredLog.elim [] LocalFile.text = recordsText (shreds.map WrappedDek.record) := by
    rcases h.log with hl | ⟨hl, rfl⟩
    · rw [hl]
      rfl
    · rw [hl]
      rfl
  have keys : ((shreds.map WrappedDek.record).map fun r => shredKey ⟨r.1, r.2⟩).toFinset
      = p.keys.shredded := by
    rw [h.shredded, List.map_map]
    rfl
  have reached : o.written.getD (keyLine w.kekVersion w.bytes ++ ['\n']).length
      = o.reached (keyLine w.kekVersion w.bytes ++ ['\n']) := by rw [WriteOutcome.reached, if_pos ho]
  have accepted : ¬ (lang = .python ∧ shredDigits o w % 2 = 1) := by
    rintro ⟨hl, odd⟩
    have := even hl
    omega
  simp only [writePrivate, ho, if_true, old, loadShreds, reached]
  rw [parseText_cut h.shreds_readable, parseLine_take _ hv]
  simp only [← shredDigits.eq_def, if_neg accepted]
  by_cases zero : shredDigits o w = 0
  · simp only [zero, if_true, Option.map_some, Option.toList_none, List.append_nil, keys]
  · simp only [zero, if_false, Option.map_some, Option.toList_some, ← keys]
    refine congrArg some ?_
    ext k
    simp only [Finset.mem_insert, List.mem_toFinset, List.mem_map, List.mem_append, List.mem_cons,
      List.not_mem_nil, or_false, or_and_right, exists_or, exists_eq_left]
    rw [or_comm, eq_comm]

end InSync

theorem unwrapDek_eq_some {p : KeyProvider} {w : WrappedDek} {dek : Bytes} :
    p.unwrapDek w = some dek ↔ shredKey w ∉ p.shredded ∧
      ∃ kek, p.keks.get? w.kekVersion = some kek ∧ Bytes.xorWith w.bytes kek = dek := by
  rw [KeyProvider.unwrapDek]
  split
  next shredded => simp [shredded]
  next live => simp [live]

/-- Keys outlive an operation when the files it leaves behind are read without trouble, with every
    KEK that the provider had and with its shreds. -/
theorem outlives_of_init {s : LocalRun} {call : WritingCall} {o : WriteOutcome} {lang : Lang}
    {keks : Dict Nat Bytes} {active : Nat} {shredded : Finset Bytes}
    (tight : LocalKeyProvider.loose (s.provider.attempt o call).files = false)
    (hl : LocalKeyProvider.load lang (s.provider.attempt o call).files.store = some (some (keks, active)))
    (hs : LocalKeyProvider.loadShreds lang (s.provider.attempt o call).files.shredLog = some shredded)
    (old : ∀ v kek, s.provider.keys.keks.get? v = some kek → keks.get? v = some kek)
    (more : s.provider.keys.shredded ⊆ shredded)
    (live : ∀ w ∈ s.wrapped, call ≠ .shredDek w → shredKey w ∉ s.provider.keys.shredded →
      shredKey w ∉ shredded)
    (done : ∀ w, call = .shredDek w → s.provider.returns o → shredKey w ∈ shredded) :
    Outlives s call o lang := by
  intro cfg kek hc
  refine ⟨_, LocalKeyProvider.init_of_load kek hc tight hl hs, ?_, ?_, ?_⟩
  · intro w hw other dek hd
    obtain ⟨unshredded, kek', hk, hx⟩ := unwrapDek_eq_some.mp hd
    exact unwrapDek_eq_some.mpr ⟨live w hw other unshredded, kek', old _ _ hk, hx⟩
  · intro w hw
    exact KeyProvider.unwrapDek_of_shredded (more hw)
  · intro w hcall hr
    exact KeyProvider.unwrapDek_of_shredded (done w hcall hr)

theorem outlives_rotate {s : LocalRun} {shreds : List WrappedDek} (h : InSync s.provider shreds)
    {o : WriteOutcome} {lang : Lang} {kek : KeyBytes} (safe : WriteSafe s o lang (.rotate kek)) :
    Outlives s (.rotate kek) o lang := by
  obtain ⟨room, cut⟩ := safe
  have log : (s.provider.attempt o (.rotate kek)).files.shredLog = s.provider.files.shredLog := rfl
  have shredsRead : LocalKeyProvider.loadShreds lang (s.provider.attempt o (.rotate kek)).files.shredLog
      = some s.provider.keys.shredded := by
    rw [log]
    exact h.loadShreds_log lang
  have others : ∀ w, WritingCall.rotate kek = .shredDek w → s.provider.returns o →
      shredKey w ∈ s.provider.keys.shredded := by
    intro w hw
    cases hw
  cases ho : o.opened with
  | false =>
    have files : (s.provider.attempt o (.rotate kek)).files = s.provider.files := by
      simp [LocalKeyProvider.attempt, LocalKeyProvider.rotate, LocalKeyProvider.persist, writePrivate, ho]
    refine outlives_of_init (by rw [files]; exact h.tight) (by rw [files]; exact h.load_store lang)
      shredsRead (fun _ _ hk => hk) (Finset.Subset.refl _) (fun _ _ _ hn => hn) others
  | true =>
    have old : LocalKeyProvider.storeRecords s.provider.keys.keks = s.provider.keys.keks.entries :=
      LocalKeyProvider.storeRecords_of_ascending h.ascending
    have text := h.rotate_text room kek
    generalize hd : recordsText (LocalKeyProvider.storeRecords
      (s.provider.keys.rotate s.provider.lang kek.val).keks) = data at text
    have store : (s.provider.attempt o (.rotate kek)).files.store
        = some ⟨data.take (o.written.getD data.length), true⟩ := by
      simp [LocalKeyProvider.attempt, LocalKeyProvider.rotate, LocalKeyProvider.persist, writePrivate, ho, hd]
    have reached : (recordsText s.provider.keys.keks.entries).length ≤ o.written.getD data.length + 1 ∧
        (lang = .python → hexWritten (s.provider.keys.active + 1) kek.val
          (o.written.getD data.length - (recordsText s.provider.keys.keks.entries).length) % 2 = 0) := by
      cases hw : o.written with
      | some k =>
        have bound := cut ho k hw
        rw [old] at bound
        exact bound
      | none =>
        have len := congrArg List.length text
        rw [List.length_append] at len
        refine ⟨by rw [Option.getD_none]; omega, fun _ => ?_⟩
        have line : (keyLine (s.provider.keys.active + 1) kek.val ++ ['\n']).length
            = (Text.decimal (s.provider.keys.active + 1)).length + 1 + 2 * kek.val.length + 1 := by
          simp only [keyLine, List.length_append, List.length_cons, Bytes.length_toHex, List.length_nil]
          omega
        rw [Option.getD_none, hexWritten, len, line]
        omega
    obtain ⟨new, hn, hp⟩ := h.parse_rotated room kek reached.1 reached.2
    rw [hd] at hp
    obtain ⟨keks, active, hl, kept⟩ := h.load_rotated hn hp
    refine outlives_of_init ?_ (store ▸ hl) shredsRead kept (Finset.Subset.refl _) (fun _ _ _ hn => hn) others
    rcases h.log with hlog | ⟨hlog, -⟩ <;> simp [LocalKeyProvider.loose, store, log, hlog]

theorem outlives_shredDek_again {s : LocalRun} {shreds : List WrappedDek} (h : InSync s.provider shreds)
    {o : WriteOutcome} {lang : Lang} {w : WrappedDek} (again : shredKey w ∈ s.provider.keys.shredded) :
    Outlives s (.shredDek w) o lang := by
  have same : s.provider.attempt o (.shredDek w) = s.provider := by
    simp only [LocalKeyProvider.attempt, LocalKeyProvider.shredDek, if_pos again]
  refine outlives_of_init (by rw [same]; exact h.tight) (by rw [same]; exact h.load_store lang)
    (by rw [same]; exact h.loadShreds_log lang) (fun _ _ hk => hk) (Finset.Subset.refl _)
    (fun _ _ _ hn => hn) ?_
  rintro w' hw' -
  cases hw'
  exact again

theorem outlives_shredDek {s : LocalRun} {shreds : List WrappedDek} (h : InSync s.provider shreds)
    {o : WriteOutcome} {lang : Lang} {w : WrappedDek} (safe : WriteSafe s o lang (.shredDek w)) :
    Outlives s (.shredDek w) o lang := by
  by_cases again : shredKey w ∈ s.provider.keys.shredded
  · exact outlives_shredDek_again h again
  obtain ⟨hv, written, even, apart⟩ := safe.resolve_left again
  have files : (s.provider.attempt o (.shredDek w)).files
      = { s.provider.files with
          shredLog := writePrivate o true (keyLine w.kekVersion w.bytes ++ ['\n'])
            s.provider.files.shredLog } := by
    simp only [LocalKeyProvider.attempt, LocalKeyProvider.shredDek, if_neg again]
  have store : LocalKeyProvider.load lang (s.provider.attempt o (.shredDek w)).files.store
      = some (some (s.provider.keys.keks, s.provider.keys.active)) := by
    rw [files]
    exact h.load_store lang
  cases ho : o.opened with
  | false =>
    have log : (s.provider.attempt o (.shredDek w)).files.shredLog = s.provider.files.shredLog := by
      simp [files, writePrivate, ho]
    have same : (s.provider.attempt o (.shredDek w)).files = s.provider.files := by
      simp [files, writePrivate, ho]
    refine outlives_of_init (by rw [same]; exact h.tight) store (by rw [log]; exact h.loadShreds_log lang)
      (fun _ _ hk => hk) (Finset.Subset.refl _) (fun _ _ _ hn => hn) ?_
    intro w' _ hr
    obtain ⟨hb, all⟩ := written hr
    have none : shredDigits o w = 0 := by simp [shredDigits, hexWritten, WriteOutcome.reached, ho]
    have empty : w.bytes = [] := List.length_eq_zero_iff.mp (by omega)
    exact absurd empty hb
  | true =>
    have log : LocalKeyProvider.loadShreds lang (s.provider.attempt o (.shredDek w)).files.shredLog
        = some (if shredDigits o w = 0 then s.provider.keys.shredded
          else insert (shredKey ⟨w.kekVersion, w.bytes.take (shredDigits o w / 2)⟩)
            s.provider.keys.shredded) := by
      rw [files]
      exact h.loadShreds_cut hv ho even
    refine outlives_of_init ?_ store log (fun _ _ hk => hk) ?_ ?_ ?_
    · simp [LocalKeyProvider.loose, files, h.store, writePrivate, ho]
    · split
      · exact Finset.Subset.refl _
      · exact Finset.subset_insert _ _
    · intro w' hw' other live
      split
      · exact live
      next some =>
        have ne : w' ≠ w := fun he => other (he ▸ rfl)
        have key := apart some w' hw' ne live
        rw [Finset.mem_insert]
        rintro (he | hm)
        · exact key (shredKey_injective he)
        · exact live hm
    · intro w' hw' hr
      cases hw'
      obtain ⟨hb, all⟩ := written hr
      have pos : w.bytes.length ≠ 0 := fun hz => hb (List.length_eq_zero_iff.mp hz)
      rw [if_neg (by omega), all, Nat.mul_div_cancel_left _ (by decide), List.take_length]
      exact Finset.mem_insert_self _ _

end Harpia
