import Harpia.LocalKeyProvider

namespace Harpia

/-- One call on a local provider, with the random bytes it draws, or a restart on its files. A
    shred names one of the wrapped keys the run has handed out. -/
inductive LocalCall
  | wrapDek (dek : Bytes)
  | unwrapDek (w : WrappedDek)
  | rotate (kek : KeyBytes)
  | shredDek (i : Nat)
  | restart (lang : Lang) (cfg : LocalKeyProviderConfig) (kek : KeyBytes)

/-- A provider and the wrapped keys it has handed out, in order. -/
structure LocalRun where
  provider : LocalKeyProvider
  wrapped : List WrappedDek

namespace LocalRun

/-- One call whose file writes succeed; a restart that is refused leaves the old provider. -/
def step (s : LocalRun) : LocalCall → LocalRun
  | .wrapDek dek => { s with wrapped := s.wrapped ++ (s.provider.keys.wrapDek dek).toList }
  | .unwrapDek _ => s
  | .rotate kek => { s with provider := s.provider.rotate WriteOutcome.success kek }
  | .shredDek i =>
    (s.wrapped[i]?).elim s fun w => { s with provider := s.provider.shredDek WriteOutcome.success w }
  | .restart lang cfg kek =>
    (LocalKeyProvider.init lang cfg kek s.provider.files).elim s fun p => { s with provider := p }

def run (s : LocalRun) (calls : List LocalCall) : LocalRun := calls.foldl step s

/-- The version counter has room for a rotation, and a shredded key is not empty. -/
def Storable (s : LocalRun) : LocalCall → Prop
  | .rotate _ => s.provider.keys.active + 1 < 2 ^ 64
  | .shredDek i => ∀ w ∈ s.wrapped[i]?, w.bytes ≠ []
  | _ => True

/-- Every call of the run is storable where it is made. -/
def AllStorable (s : LocalRun) : List LocalCall → Prop
  | [] => True
  | c :: calls => s.Storable c ∧ (s.step c).AllStorable calls

instance (s : LocalRun) : (c : LocalCall) → Decidable (s.Storable c)
  | .rotate _ => inferInstanceAs (Decidable (s.provider.keys.active + 1 < 2 ^ 64))
  | .shredDek i => inferInstanceAs (Decidable (∀ w ∈ s.wrapped[i]?, w.bytes ≠ []))
  | .wrapDek _ | .unwrapDek _ | .restart .. => inferInstanceAs (Decidable True)

def decAllStorable (s : LocalRun) : (calls : List LocalCall) → Decidable (s.AllStorable calls)
  | [] => inferInstanceAs (Decidable True)
  | c :: calls =>
    have := decAllStorable (s.step c) calls
    inferInstanceAs (Decidable (s.Storable c ∧ (s.step c).AllStorable calls))

instance (s : LocalRun) (calls : List LocalCall) : Decidable (s.AllStorable calls) :=
  decAllStorable s calls

end LocalRun

/-- Two providers with the same KEK for every version, the same active version and the same
    shredded set, and so the same unwrap results. -/
def SameKeys (p q : KeyProvider) : Prop :=
  (∀ version, p.keks.get? version = q.keks.get? version) ∧ p.active = q.active ∧
    p.shredded = q.shredded ∧ ∀ w, p.unwrapDek w = q.unwrapDek w

/-- A restart on the files, in either language, that the configuration does not refuse comes up
    with the same keys. -/
def Survives (p : LocalKeyProvider) : Prop :=
  ∀ lang cfg kek, (cfg.phiAtScale && !cfg.acknowledged) = false →
    ∃ q, LocalKeyProvider.init lang cfg kek p.files = some q ∧ SameKeys p.keys q.keys

def WrappedDek.record (w : WrappedDek) : Nat × Bytes := (w.kekVersion, w.bytes)

/-- The files hold what the provider holds: the store its KEKs by ascending version, the log one
    line for each of the shredded keys `shreds`. -/
structure InSync (p : LocalKeyProvider) (shreds : List WrappedDek) : Prop where
  ascending : p.keys.keks.entries.Pairwise fun a b => a.1 < b.1
  readable : Readable p.keys.keks.entries
  newest : (p.keys.keks.entries.map Prod.fst).getLast? = some p.keys.active
  store : p.files.store = some ⟨recordsText p.keys.keks.entries, true⟩
  shredded : p.keys.shredded = (shreds.map shredKey).toFinset
  shreds_readable : Readable (shreds.map WrappedDek.record)
  log : p.files.shredLog = some ⟨recordsText (shreds.map WrappedDek.record), true⟩ ∨
    (p.files.shredLog = none ∧ shreds = [])

namespace LocalKeyProvider

theorem storeRecords_of_ascending {keks : Dict Nat Bytes}
    (h : keks.entries.Pairwise fun a b => a.1 < b.1) : storeRecords keks = keks.entries :=
  List.Pairwise.insertionSort_eq (h.imp fun hlt => hlt.le)

theorem writePrivate_success_store (data : List Char) (file : Option LocalFile) :
    writePrivate WriteOutcome.success false data file = some ⟨data, true⟩ := by
  simp [writePrivate, WriteOutcome.success]

theorem foldl_max_le {vs : List Nat} {a v : Nat} (ha : a ≤ v) (h : ∀ u ∈ vs, u ≤ v) : vs.foldl max a ≤ v := by
  induction vs generalizing a with
  | nil => exact ha
  | cons u vs ih =>
    exact ih (Nat.max_le.mpr ⟨ha, h u List.mem_cons_self⟩) fun u' hu => h u' (List.mem_cons_of_mem _ hu)

theorem foldl_max_of_last {vs : List Nat} (h : vs.Pairwise (· < ·)) {v : Nat} (hl : vs.getLast? = some v) :
    vs.foldl max 0 = v := by
  obtain ⟨rest, rfl⟩ := List.getLast?_eq_some_iff.mp hl
  have below : ∀ u ∈ rest, u ≤ v := fun u hu =>
    ((List.pairwise_append.mp h).2.2 u hu v (by simp)).le
  rw [List.foldl_append, List.foldl_cons, List.foldl_nil,
    Nat.max_eq_right (foldl_max_le (Nat.zero_le v) below)]

theorem load_of_parse {lang : Lang} {text : List Char} {records : List (Nat × Bytes)} (b : Bool)
    (h : parseText lang text = some records) (ne : records ≠ []) :
    load lang (some ⟨text, b⟩)
      = some (some (Dict.ofPairs records, (records.map Prod.fst).foldl max 0)) := by
  simp only [load, h, Option.map_some, if_neg ne]

/-- The constructor on files that are read without trouble and hold a key. -/
theorem init_of_load {lang : Lang} {cfg : LocalKeyProviderConfig} (kek : KeyBytes) {files : LocalFiles}
    {keks : Dict Nat Bytes} {active : Nat} {shredded : Finset Bytes}
    (hc : (cfg.phiAtScale && !cfg.acknowledged) = false) (tight : loose files = false)
    (hl : load lang files.store = some (some (keks, active)))
    (hs : loadShreds lang files.shredLog = some shredded) :
    init lang cfg kek files = some ⟨lang, ⟨active, keks, shredded⟩, files⟩ := by
  simp only [init, hc, tight, hl, hs, Option.bind_eq_bind, Option.bind_some, Option.pure_def,
    Bool.false_eq_true, if_false]

end LocalKeyProvider

namespace InSync

open LocalKeyProvider

variable {p : LocalKeyProvider} {shreds : List WrappedDek}

theorem newest_le (h : InSync p shreds) {r : Nat × Bytes} (hr : r ∈ p.keys.keks.entries) :
    r.1 ≤ p.keys.active := by
  obtain ⟨rest, hrest⟩ := List.getLast?_eq_some_iff.mp h.newest
  have sorted : (p.keys.keks.entries.map Prod.fst).Pairwise (· < ·) := List.pairwise_map.mpr h.ascending
  have hm : r.1 ∈ p.keys.keks.entries.map Prod.fst := List.mem_map_of_mem hr
  rw [hrest] at sorted hm
  rcases List.mem_append.mp hm with hm | hm
  · exact ((List.pairwise_append.mp sorted).2.2 r.1 hm _ (by simp)).le
  · exact (List.mem_singleton.mp hm).le

theorem active_mem (h : InSync p shreds) :
    ∃ kek, (p.keys.active, kek) ∈ p.keys.keks.entries := by
  have hm : p.keys.active ∈ p.keys.keks.entries.map Prod.fst := List.mem_of_getLast? h.newest
  obtain ⟨r, hr, he⟩ := List.mem_map.mp hm
  exact ⟨r.2, he ▸ hr⟩

theorem active_lt (h : InSync p shreds) : p.keys.active < 2 ^ 64 := by
  obtain ⟨kek, hm⟩ := h.active_mem
  exact (h.readable _ hm).1

theorem entries_ne_nil (h : InSync p shreds) : p.keys.keks.entries ≠ [] := by
  obtain ⟨kek, hm⟩ := h.active_mem
  exact List.ne_nil_of_mem hm

theorem tight (h : InSync p shreds) : loose p.files = false := by
  rcases h.log with hl | ⟨hl, -⟩ <;> simp [loose, h.store, hl]

theorem load_store (h : InSync p shreds) (lang : Lang) :
    LocalKeyProvider.load lang p.files.store = some (some (p.keys.keks, p.keys.active)) := by
  have sorted : (p.keys.keks.entries.map Prod.fst).Pairwise (· < ·) := List.pairwise_map.mpr h.ascending
  rw [h.store, load_of_parse _ (parseText_recordsText h.readable) h.entries_ne_nil,
    Dict.ofPairs_entries, foldl_max_of_last sorted h.newest]

theorem loadShreds_log (h : InSync p shreds) (lang : Lang) :
    loadShreds lang p.files.shredLog = some p.keys.shredded := by
  rcases h.log with hl | ⟨hl, rfl⟩
  · rw [hl, h.shredded, loadShreds, parseText_recordsText h.shreds_readable, Option.map_some,
      List.map_map]
    rfl
  · rw [hl, h.shredded]
    rfl

/-- A restart reads back exactly what the provider holds. -/
theorem init_eq (h : InSync p shreds) (lang : Lang) {cfg : LocalKeyProviderConfig} (kek : KeyBytes)
    (hc : (cfg.phiAtScale && !cfg.acknowledged) = false) :
    init lang cfg kek p.files = some ⟨lang, p.keys, p.files⟩ :=
  init_of_load kek hc h.tight (h.load_store lang) (h.loadShreds_log lang)

theorem survives (h : InSync p shreds) : Survives p := by
  intro lang cfg kek hc
  exact ⟨_, h.init_eq lang kek hc, fun _ => rfl, rfl, rfl, fun _ => rfl⟩

theorem other_lang (h : InSync p shreds) (lang : Lang) : InSync ⟨lang, p.keys, p.files⟩ shreds :=
  ⟨h.ascending, h.readable, h.newest, h.store, h.shredded, h.shreds_readable, h.log⟩

theorem nextVersion_eq {lang : Lang} {v : Nat} (h : v + 1 < 2 ^ 64) :
    KeyProvider.nextVersion lang v = v + 1 := by
  cases lang
  · exact Nat.mod_eq_of_lt h
  · rfl

/-- A rotation puts its key behind all the others. -/
theorem rotate_entries (h : InSync p shreds) (room : p.keys.active + 1 < 2 ^ 64) (kek : Bytes) :
    (p.keys.rotate p.lang kek).keks.entries = p.keys.keks.entries ++ [(p.keys.active + 1, kek)] := by
  have new : p.keys.active + 1 ∉ p.keys.keks.keys := by
    intro hm
    obtain ⟨r, hr, he⟩ := List.mem_map.mp hm
    have old := h.newest_le hr
    omega
  simp only [KeyProvider.rotate, nextVersion_eq room]
  exact Dict.entries_set_of_notMem kek new

theorem rotate (h : InSync p shreds) (room : p.keys.active + 1 < 2 ^ 64) (kek : KeyBytes) :
    InSync (p.rotate WriteOutcome.success kek) shreds := by
  have entries : (p.rotate WriteOutcome.success kek).keys.keks.entries
      = p.keys.keks.entries ++ [(p.keys.active + 1, kek.val)] := h.rotate_entries room kek.val
  have ascending : (p.rotate WriteOutcome.success kek).keys.keks.entries.Pairwise fun a b => a.1 < b.1 := by
    rw [entries, List.pairwise_append]
    refine ⟨h.ascending, List.pairwise_singleton _ _, ?_⟩
    intro r hr r' hr'
    have old := h.newest_le hr
    rw [List.mem_singleton.mp hr']
    exact Nat.lt_succ_of_le old
  refine ⟨ascending, ?_, ?_, ?_, h.shredded, h.shreds_readable, h.log⟩
  · rw [entries]
    intro r hr
    rcases List.mem_append.mp hr with hr | hr
    · exact h.readable r hr
    · rw [List.mem_singleton.mp hr]
      exact ⟨room, keyBytes_ne_nil kek⟩
  · have active : (p.rotate WriteOutcome.success kek).keys.active = p.keys.active + 1 := nextVersion_eq room
    rw [entries, active, List.map_append]
    simp
  · have written : (p.rotate WriteOutcome.success kek).files.store
        = writePrivate WriteOutcome.success false
          (recordsText (storeRecords (p.rotate WriteOutcome.success kek).keys.keks)) p.files.store := rfl
    rw [written, writePrivate_success_store, storeRecords_of_ascending ascending]

theorem shredDek (h : InSync p shreds) {w : WrappedDek} (hv : w.kekVersion < 2 ^ 64) (hb : w.bytes ≠ []) :
    ∃ shreds', InSync (p.shredDek WriteOutcome.success w) shreds' := by
  by_cases old : shredKey w ∈ p.keys.shredded
  · refine ⟨shreds, ?_⟩
    rw [LocalKeyProvider.shredDek, if_pos old]
    exact h
  · refine ⟨shreds ++ [w], ?_⟩
    rw [LocalKeyProvider.shredDek, if_neg old]
    refine ⟨h.ascending, h.readable, h.newest, h.store, ?_, ?_, Or.inl ?_⟩
    · simp only [KeyProvider.shredDek, h.shredded, List.map_append, List.map_cons, List.map_nil]
      ext k
      simp only [Finset.mem_insert, List.mem_toFinset, List.mem_map, List.mem_append, List.mem_cons,
        List.not_mem_nil, or_false]
      exact or_comm
    · intro r hr
      rw [List.map_append] at hr
      rcases List.mem_append.mp hr with hr | hr
      · exact h.shreds_readable r hr
      · rw [List.map_singleton, List.mem_singleton] at hr
        rw [hr]
        exact ⟨hv, hb⟩
    · have line : keyLine w.kekVersion w.bytes ++ ['\n'] = recordsText [w.record] := by
        simp [recordsText, WrappedDek.record]
      rcases h.log with hl | ⟨hl, rfl⟩
      · simp [writePrivate, WriteOutcome.success, hl, line, recordsText_append]
      · simp [writePrivate, WriteOutcome.success, hl, line]

end InSync

/-- The first start: there is no file yet. -/
theorem inSync_first {lang : Lang} {cfg : LocalKeyProviderConfig} {kek : KeyBytes} {p : LocalKeyProvider}
    (h : LocalKeyProvider.init lang cfg kek ⟨none, none⟩ = some p) : InSync p [] := by
  simp only [LocalKeyProvider.init, LocalKeyProvider.loose, LocalKeyProvider.load,
    LocalKeyProvider.loadShreds, Option.any_none, Bool.or_self, Bool.false_eq_true, if_false,
    Option.bind_eq_bind, Option.bind_some, Option.pure_def] at h
  split at h
  next => cases h
  next =>
    cases h
    have entries : (Dict.empty.set 1 kek.val : Dict Nat Bytes).entries = [(1, kek.val)] := rfl
    refine ⟨?_, ?_, ?_, ?_, rfl, ?_, Or.inr ⟨rfl, rfl⟩⟩
    · exact List.pairwise_singleton _ _
    · intro r hr
      rw [entries, List.mem_singleton] at hr
      rw [hr]
      have small : 1 < 2 ^ 64 := by decide
      exact ⟨small, keyBytes_ne_nil kek⟩
    · rfl
    · have one : LocalKeyProvider.storeRecords (Dict.empty.set 1 kek.val) = [(1, kek.val)] := rfl
      simp only [LocalKeyProvider.persist, LocalKeyProvider.writePrivate_success_store, one, entries]
    · simp [Readable]

/-- The files stay in step with the provider, and every key handed out has a 64-bit version. -/
def LocalRun.Good (s : LocalRun) : Prop :=
  (∃ shreds, InSync s.provider shreds) ∧ ∀ w ∈ s.wrapped, w.kekVersion < 2 ^ 64

theorem good_step {s : LocalRun} {c : LocalCall} (h : s.Good) (hc : s.Storable c) : (s.step c).Good := by
  obtain ⟨⟨shreds, sync⟩, versions⟩ := h
  cases c with
  | wrapDek dek =>
    refine ⟨⟨shreds, sync⟩, ?_⟩
    intro w hw
    rcases List.mem_append.mp hw with hw | hw
    · exact versions w hw
    · obtain ⟨kek, -, rfl⟩ := KeyProvider.wrapDek_eq_some.mp (Option.mem_toList.mp hw)
      exact sync.active_lt
  | unwrapDek w => exact ⟨⟨shreds, sync⟩, versions⟩
  | rotate kek => exact ⟨⟨shreds, sync.rotate hc kek⟩, versions⟩
  | shredDek i =>
    cases hi : s.wrapped[i]? with
    | none =>
      have same : s.step (.shredDek i) = s := by simp only [LocalRun.step, hi, Option.elim_none]
      rw [same]
      exact ⟨⟨shreds, sync⟩, versions⟩
    | some w =>
      have next : s.step (.shredDek i)
          = { s with provider := s.provider.shredDek WriteOutcome.success w } := by
        simp only [LocalRun.step, hi, Option.elim_some]
      rw [next]
      exact ⟨sync.shredDek (versions w (List.mem_of_getElem? hi)) (hc w hi), versions⟩
  | restart lang cfg kek =>
    cases refused : cfg.phiAtScale && !cfg.acknowledged with
    | true =>
      have same : s.step (.restart lang cfg kek) = s := by
        simp only [LocalRun.step, LocalKeyProvider.init, refused, if_true, Option.elim_none]
      rw [same]
      exact ⟨⟨shreds, sync⟩, versions⟩
    | false =>
      have next : s.step (.restart lang cfg kek)
          = { s with provider := ⟨lang, s.provider.keys, s.provider.files⟩ } := by
        simp only [LocalRun.step, sync.init_eq lang kek refused, Option.elim_some]
      rw [next]
      exact ⟨⟨shreds, sync.other_lang lang⟩, versions⟩

theorem good_run {s : LocalRun} {calls : List LocalCall} (h : s.Good) (hc : s.AllStorable calls) :
    (s.run calls).Good := by
  induction calls generalizing s with
  | nil => exact h
  | cons c calls ih => exact ih (good_step h hc.1) hc.2

/-- A run of storable calls from the first start can be taken up again from its files at any point,
    in either language. -/
theorem survives_of_allStorable {lang : Lang} {cfg : LocalKeyProviderConfig} {kek : KeyBytes}
    {p : LocalKeyProvider} (h : LocalKeyProvider.init lang cfg kek ⟨none, none⟩ = some p)
    (calls : List LocalCall) (hc : (⟨p, []⟩ : LocalRun).AllStorable calls) :
    Survives ((⟨p, []⟩ : LocalRun).run calls).provider := by
  have first : (⟨p, []⟩ : LocalRun).Good := ⟨⟨[], inSync_first h⟩, by simp⟩
  obtain ⟨⟨shreds, sync⟩, -⟩ := good_run first hc
  exact sync.survives

/-- The provider of a first start with a KEK of equal bytes. -/
def sampleKek (b : UInt8) : KeyBytes := ⟨List.replicate 32 b, rfl⟩

def firstProvider (lang : Lang) : LocalKeyProvider :=
  { lang := lang
    keys := KeyProvider.fresh (sampleKek 7).val
    files := ⟨some ⟨recordsText [(1, (sampleKek 7).val)], true⟩, none⟩ }

/-- A key wrapped, a rotation, a restart in the other language, and the key shredded there. -/
def sampleCalls : List LocalCall :=
  [.wrapDek [1, 2, 3], .rotate (sampleKek 9), .restart .python ⟨true, true⟩ (sampleKek 5), .shredDek 0]

theorem survives_sampleCalls :
    Survives ((⟨firstProvider .cpp, []⟩ : LocalRun).run sampleCalls).provider :=
  @survives_of_allStorable .cpp ⟨false, false⟩ (sampleKek 7) _ rfl sampleCalls (by decide +kernel)

/-- An empty key is wrapped to an empty key, whose line in the log the readers skip. -/
def emptyKeyCalls : List LocalCall := [.wrapDek [], .shredDek 0]

theorem not_survives_emptyKeyCalls :
    LocalKeyProvider.init .cpp ⟨false, false⟩ (sampleKek 7) ⟨none, none⟩ = some (firstProvider .cpp) ∧
      ¬ Survives ((⟨firstProvider .cpp, []⟩ : LocalRun).run emptyKeyCalls).provider := by
  refine ⟨rfl, fun h => ?_⟩
  obtain ⟨q, hq, -, -, shredded, -⟩ := h .python ⟨false, false⟩ (sampleKek 5) rfl
  have lost : (LocalKeyProvider.init .python ⟨false, false⟩ (sampleKek 5)
      ((⟨firstProvider .cpp, []⟩ : LocalRun).run emptyKeyCalls).provider.files).map
        (fun q => q.keys.shredded) = some ∅ := by decide +kernel
  rw [hq, Option.map_some, Option.some.injEq, ← shredded] at lost
  have kept : ((⟨firstProvider .cpp, []⟩ : LocalRun).run emptyKeyCalls).provider.keys.shredded ≠ ∅ := by
    decide +kernel
  exact kept lost

end Harpia
