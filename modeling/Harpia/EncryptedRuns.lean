import Mathlib.Data.List.Induction
import Harpia.EncryptedColumn

namespace Harpia

/-- One call on an in-memory provider, with the random bytes it draws. A shred names the stored
    value whose wrapped DEK it discards. -/
inductive KeyCall (lang : Lang)
  | encryptField (dek : Bytes) (x : Plain lang)
  | rotate (kek : Bytes)
  | shredDek (i : Nat)
  | forgetKekVersion (version : Nat)

/-- The provider and the values that encryptions have returned, in order. -/
structure ColumnState where
  provider : KeyProvider
  stored : List (List Char)

namespace ColumnState

def init (kek : Bytes) : ColumnState := ⟨KeyProvider.fresh kek, []⟩

/-- A call that raises leaves the provider as it was. -/
def step {lang : Lang} (s : ColumnState) : KeyCall lang → ColumnState
  | .encryptField dek x =>
    match Harpia.encryptField lang s.provider dek x with
    | none => s
    | some stored => { s with stored := s.stored ++ [stored] }
  | .rotate kek => { s with provider := s.provider.rotate lang kek }
  | .shredDek i =>
    match s.stored[i]?.bind (wrappedOf lang) with
    | none => s
    | some w => { s with provider := s.provider.shredDek w }
  | .forgetKekVersion version => { s with provider := s.provider.forgetKekVersion version }

def run {lang : Lang} (kek : Bytes) (calls : List (KeyCall lang)) : ColumnState :=
  calls.foldl step (init kek)

@[simp] theorem run_nil {lang : Lang} (kek : Bytes) : run kek ([] : List (KeyCall lang)) = init kek := rfl

@[simp] theorem run_concat {lang : Lang} (kek : Bytes) (calls : List (KeyCall lang)) (c : KeyCall lang) :
    run kek (calls ++ [c]) = (run kek calls).step c := by
  simp only [run, List.foldl_append, List.foldl_cons, List.foldl_nil]

end ColumnState

namespace KeyCall

variable {lang : Lang}

def dek? : KeyCall lang → Option Bytes
  | .encryptField dek _ => some dek
  | _ => none

def isRotate : KeyCall lang → Bool
  | .rotate _ => true
  | _ => false

/-- The DEKs generated in a run. -/
def deks (calls : List (KeyCall lang)) : List Bytes := calls.filterMap dek?

def rotations (calls : List (KeyCall lang)) : Nat := calls.countP isRotate

/-- The generated DEKs are 32 bytes long and pairwise distinct. -/
def WellKeyed (calls : List (KeyCall lang)) : Prop :=
  (∀ dek ∈ deks calls, dek.length = 32) ∧ (deks calls).Nodup

/-- No rotation of the run mints a version again. -/
def NeverWraps (calls : List (KeyCall lang)) : Prop := lang = .cpp → rotations calls < 2 ^ 64

@[simp] theorem deks_append (a b : List (KeyCall lang)) : deks (a ++ b) = deks a ++ deks b :=
  List.filterMap_append

@[simp] theorem rotations_append (a b : List (KeyCall lang)) :
    rotations (a ++ b) = rotations a + rotations b := List.countP_append

theorem WellKeyed.left {a b : List (KeyCall lang)} (h : WellKeyed (a ++ b)) : WellKeyed a := by
  obtain ⟨len, nodup⟩ := h
  rw [deks_append] at len nodup
  exact ⟨fun dek hd => len dek (List.mem_append_left _ hd), (List.nodup_append.mp nodup).1⟩

theorem NeverWraps.left {a b : List (KeyCall lang)} (h : NeverWraps (a ++ b)) : NeverWraps a := by
  intro hl
  have bound := h hl
  rw [rotations_append] at bound
  omega

end KeyCall

/-- The version that is active after `n` rotations. -/
def versionAt : Lang → Nat → Nat
  | .cpp, n => (1 + n) % 2 ^ 64
  | .python, n => 1 + n

theorem nextVersion_versionAt (lang : Lang) (n : Nat) :
    KeyProvider.nextVersion lang (versionAt lang n) = versionAt lang (n + 1) := by
  cases lang
  · simp only [KeyProvider.nextVersion, versionAt]
    omega
  · simp only [KeyProvider.nextVersion, versionAt]
    omega

theorem versionAt_lt (n : Nat) : versionAt .cpp n < 2 ^ 64 := Nat.mod_lt _ (by decide)

/-- Versions stay apart until the counter has come round. -/
theorem versionAt_ne {lang : Lang} {m n : Nat} (h : m < n) (bound : lang = .cpp → n < 2 ^ 64) :
    versionAt lang m ≠ versionAt lang n := by
  cases lang with
  | cpp =>
    have small := bound rfl
    simp only [versionAt]
    omega
  | python =>
    simp only [versionAt]
    omega

/-- What a stored value was sealed with. -/
structure SealedWith where
  version : Nat
  kek : Bytes
  dek : Bytes

def SealedWith.wrapped (e : SealedWith) : WrappedDek := ⟨e.version, Bytes.xorWith e.dek e.kek⟩

/-- The account a run can give of its stored values after `n` rotations, `used` being the DEKs it
    has drawn: the KEK of a sealed value's version is never replaced, and only wrapped DEKs of
    stored values are shredded. -/
structure Ledger (lang : Lang) (s : ColumnState) (n : Nat) (used : List Bytes)
    (es : List SealedWith) : Prop where
  active : s.provider.active = versionAt lang n
  stored : s.stored.map (wrappedOf lang) = es.map fun e => some e.wrapped
  minted : ∀ e ∈ es, ∃ m ≤ n, e.version = versionAt lang m
  kept : ∀ e ∈ es, ∀ kek, s.provider.keks.get? e.version = some kek → kek = e.kek
  agree : ∀ e ∈ es, ∀ e' ∈ es, e.version = e'.version → e.kek = e'.kek
  deks : (es.map SealedWith.dek).Sublist used
  shredded : ∀ k ∈ s.provider.shredded, ∃ e ∈ es, k = shredKey e.wrapped

namespace Ledger

variable {lang : Lang} {s : ColumnState} {n : Nat} {used : List Bytes} {es : List SealedWith}

theorem init (lang : Lang) (kek : Bytes) : Ledger lang (ColumnState.init kek) 0 [] [] where
  active := by cases lang <;> rfl
  stored := rfl
  minted := by simp
  kept := by simp
  agree := by simp
  deks := List.Sublist.refl _
  shredded := by simp [ColumnState.init, KeyProvider.fresh]

theorem active_lt (h : Ledger lang s n used es) (hl : lang = .cpp) : s.provider.active < 2 ^ 64 := by
  subst hl
  rw [h.active]
  exact versionAt_lt n

/-- An encryption that returned: its value, the KEK that wrapped its DEK, and the longer ledger. -/
theorem encrypted (h : Ledger lang s n used es) {dek : Bytes} {x : Plain lang} {stored : List Char}
    (hd : dek.length = 32) (he : encryptField lang s.provider dek x = some stored) :
    ∃ kek, s.provider.keks.get? s.provider.active = some kek ∧
      Ledger lang { s with stored := s.stored ++ [stored] } n (used ++ [dek])
        (es ++ [⟨s.provider.active, kek, dek⟩]) := by
  obtain ⟨kek, hk, -, hp⟩ := encryptField_eq_some he hd h.active_lt
  have old : ∀ e ∈ es, e.version = s.provider.active → e.kek = kek := by
    intro e hm hv
    exact (h.kept e hm kek (hv ▸ hk)).symm
  refine ⟨kek, hk, ⟨h.active, ?_, ?_, ?_, ?_, ?_, ?_⟩⟩
  · have last : wrappedOf lang stored = some ⟨s.provider.active, Bytes.xorWith dek kek⟩ := by
      rw [wrappedOf, hp, Option.map_some]
    simp only [List.map_append, List.map_cons, List.map_nil, h.stored, last, SealedWith.wrapped]
  · intro e hm
    rcases List.mem_append.mp hm with hm | hm
    · exact h.minted e hm
    · rw [List.mem_singleton.mp hm]
      exact ⟨n, le_refl n, h.active⟩
  · intro e hm kek' hk'
    rcases List.mem_append.mp hm with hm | hm
    · exact h.kept e hm kek' hk'
    · rw [List.mem_singleton.mp hm] at hk' ⊢
      exact Option.some.inj (hk'.symm.trans hk)
  · intro e hm e' hm' hv
    rcases List.mem_append.mp hm with hm | hm <;> rcases List.mem_append.mp hm' with hm' | hm'
    · exact h.agree e hm e' hm' hv
    · rw [List.mem_singleton.mp hm'] at hv ⊢
      exact old e hm hv
    · rw [List.mem_singleton.mp hm] at hv ⊢
      exact (old e' hm' hv.symm).symm
    · rw [List.mem_singleton.mp hm, List.mem_singleton.mp hm']
  · rw [List.map_append]
    exact h.deks.append (List.Sublist.refl _)
  · intro k hk'
    obtain ⟨e, hm, rfl⟩ := h.shredded k hk'
    exact ⟨e, List.mem_append_left _ hm, rfl⟩

theorem step_encryptField (h : Ledger lang s n used es) {dek : Bytes} (x : Plain lang)
    (hd : dek.length = 32) :
    ∃ es', Ledger lang (s.step (.encryptField dek x)) n (used ++ [dek]) es' := by
  cases he : encryptField lang s.provider dek x with
  | none =>
    have same : s.step (.encryptField dek x) = s := by simp only [ColumnState.step, he]
    rw [same]
    exact ⟨es, { h with deks := h.deks.trans (List.sublist_append_left _ _) }⟩
  | some stored =>
    have next : s.step (.encryptField dek x) = { s with stored := s.stored ++ [stored] } := by
      simp only [ColumnState.step, he]
    obtain ⟨kek, -, longer⟩ := h.encrypted hd he
    rw [next]
    exact ⟨_, longer⟩

theorem step_rotate (h : Ledger lang s n used es) (kek : Bytes) (bound : lang = .cpp → n + 1 < 2 ^ 64) :
    Ledger lang (s.step (.rotate kek : KeyCall lang)) (n + 1) used es := by
  have next : KeyProvider.nextVersion lang s.provider.active = versionAt lang (n + 1) := by
    rw [h.active, nextVersion_versionAt]
  refine { h with active := next, minted := ?_, kept := ?_ }
  · intro e hm
    obtain ⟨m, hle, hv⟩ := h.minted e hm
    exact ⟨m, by omega, hv⟩
  · intro e hm kek' hk'
    obtain ⟨m, hle, hv⟩ := h.minted e hm
    have other : e.version ≠ versionAt lang (n + 1) := hv ▸ versionAt_ne (by omega) bound
    have get : (s.step (.rotate kek : KeyCall lang)).provider.keks.get? e.version
        = s.provider.keks.get? e.version := by
      simp only [ColumnState.step, KeyProvider.rotate, next, Dict.get?_set, if_neg other]
    exact h.kept e hm kek' (get ▸ hk')

theorem wrapped_stored (h : Ledger lang s n used es) (i : Nat) :
    s.stored[i]?.bind (wrappedOf lang) = es[i]?.map SealedWith.wrapped := by
  have at_i := congrArg (fun l : List (Option WrappedDek) => l[i]?) h.stored
  simp only [List.getElem?_map] at at_i
  cases hs : s.stored[i]? with
  | none =>
    cases he : es[i]? with
    | none => rfl
    | some e => simp [hs, he] at at_i
  | some t =>
    cases he : es[i]? with
    | none => simp [hs, he] at at_i
    | some e => simpa [hs, he] using at_i

/-- A shred of a stored value discards what the value was sealed with. -/
theorem step_shredDek_eq (h : Ledger lang s n used es) {i : Nat} {e : SealedWith}
    (he : es[i]? = some e) :
    s.step (.shredDek i : KeyCall lang) = { s with provider := s.provider.shredDek e.wrapped } := by
  simp only [ColumnState.step, h.wrapped_stored i, he, Option.map_some]

theorem step_shredDek (h : Ledger lang s n used es) (i : Nat) :
    Ledger lang (s.step (.shredDek i : KeyCall lang)) n used es := by
  cases he : es[i]? with
  | none =>
    have same : s.step (.shredDek i : KeyCall lang) = s := by
      simp only [ColumnState.step, h.wrapped_stored i, he, Option.map_none]
    rw [same]
    exact h
  | some e =>
    rw [h.step_shredDek_eq he]
    refine { h with shredded := ?_ }
    intro k hk
    rcases Finset.mem_insert.mp hk with rfl | hk
    · exact ⟨e, List.mem_of_getElem? he, rfl⟩
    · exact h.shredded k hk

theorem step_forgetKekVersion (h : Ledger lang s n used es) (version : Nat) :
    Ledger lang (s.step (.forgetKekVersion version : KeyCall lang)) n used es := by
  refine { h with kept := ?_ }
  intro e hm kek hk
  have get : (s.provider.keks.erase version).get? e.version = some kek := hk
  rw [Dict.get?_erase] at get
  split at get
  · cases get
  · exact h.kept e hm kek get

/-- Two stored values never carry the same wrapped DEK. -/
theorem wrapped_inj (h : Ledger lang s n used es) (nodup : used.Nodup) {i j : Nat} {e e' : SealedWith}
    (hi : es[i]? = some e) (hj : es[j]? = some e') (hw : e.wrapped = e'.wrapped) : i = j := by
  have version : e.version = e'.version := congrArg WrappedDek.kekVersion hw
  have kek : e.kek = e'.kek :=
    h.agree e (List.mem_of_getElem? hi) e' (List.mem_of_getElem? hj) version
  have bytes : Bytes.xorWith e.dek e.kek = Bytes.xorWith e'.dek e.kek := by
    have equal : Bytes.xorWith e.dek e.kek = Bytes.xorWith e'.dek e'.kek := congrArg WrappedDek.bytes hw
    rwa [← kek] at equal
  have dek : e.dek = e'.dek := Bytes.xorWith_injective e.kek bytes
  have apart : (es.map SealedWith.dek).Nodup := h.deks.nodup nodup
  have lt : i < (es.map SealedWith.dek).length := by
    simpa using (List.getElem?_eq_some_iff.mp hi).1
  refine (List.getElem?_inj lt apart).mp ?_
  rw [List.getElem?_map, List.getElem?_map, hi, hj, Option.map_some, Option.map_some, dek]

end Ledger

/-- Every run keeps a ledger: by induction on the calls, one step lemma for each kind. -/
theorem ledger_run {lang : Lang} (kek : Bytes) (calls : List (KeyCall lang))
    (keyed : KeyCall.WellKeyed calls) (wraps : KeyCall.NeverWraps calls) :
    ∃ es, Ledger lang (ColumnState.run kek calls) (KeyCall.rotations calls) (KeyCall.deks calls) es := by
  induction calls using List.reverseRecOn with
  | nil => exact ⟨[], Ledger.init lang kek⟩
  | append_singleton calls c ih =>
    obtain ⟨es, h⟩ := ih keyed.left wraps.left
    rw [ColumnState.run_concat, KeyCall.rotations_append, KeyCall.deks_append]
    cases c with
    | encryptField dek x =>
      have drawn : dek ∈ KeyCall.deks (calls ++ [.encryptField dek x]) := by
        simp [KeyCall.deks, KeyCall.dek?]
      exact h.step_encryptField x (keyed.1 dek drawn)
    | rotate kek' =>
      have bound : lang = .cpp → KeyCall.rotations calls + 1 < 2 ^ 64 := by
        intro hl
        have total := wraps hl
        simpa [KeyCall.rotations, KeyCall.isRotate] using total
      have noDek : KeyCall.deks [(.rotate kek' : KeyCall lang)] = [] := rfl
      rw [noDek, List.append_nil]
      exact ⟨es, h.step_rotate kek' bound⟩
    | shredDek i =>
      have noDek : KeyCall.deks [(.shredDek i : KeyCall lang)] = [] := rfl
      rw [noDek, List.append_nil]
      exact ⟨es, h.step_shredDek i⟩
    | forgetKekVersion version =>
      have noDek : KeyCall.deks [(.forgetKekVersion version : KeyCall lang)] = [] := rfl
      rw [noDek, List.append_nil]
      exact ⟨es, h.step_forgetKekVersion version⟩

/-- What has become of the stored value `i` after the calls `after` that followed its encryption. -/
structure Tracked {lang : Lang} (s : ColumnState) (i : Nat) (stored : List Char) (w : WrappedDek)
    (kek : Bytes) (after : List (KeyCall lang)) : Prop where
  place : s.stored[i]? = some stored
  kept : .forgetKekVersion w.kekVersion ∉ after → s.provider.keks.get? w.kekVersion = some kek
  dropped : .forgetKekVersion w.kekVersion ∈ after → s.provider.keks.get? w.kekVersion = none
  shredded : shredKey w ∈ s.provider.shredded ↔ .shredDek i ∈ after

namespace Tracked

variable {lang : Lang} {s : ColumnState} {n i : Nat} {used : List Bytes} {es : List SealedWith}
variable {stored : List Char} {w : WrappedDek} {kek : Bytes} {after : List (KeyCall lang)}

theorem entry (h : Tracked s i stored w kek after) (ledger : Ledger lang s n used es)
    (hw : wrappedOf lang stored = some w) : ∃ e, es[i]? = some e ∧ e.wrapped = w := by
  have at_i := ledger.wrapped_stored i
  rw [h.place, Option.bind_some, hw] at at_i
  obtain ⟨e, he, hew⟩ := Option.map_eq_some_iff.mp at_i.symm
  exact ⟨e, he, hew⟩

theorem step_encryptField (h : Tracked s i stored w kek after) (dek : Bytes) (x : Plain lang) :
    Tracked (s.step (.encryptField dek x)) i stored w kek (after ++ [.encryptField dek x]) := by
  have provider : (s.step (.encryptField dek x)).provider = s.provider := by
    simp only [ColumnState.step]
    split <;> rfl
  have place : (s.step (.encryptField dek x)).stored[i]? = some stored := by
    simp only [ColumnState.step]
    split
    · exact h.place
    · exact List.getElem?_append_left (List.getElem?_eq_some_iff.mp h.place).1 ▸ h.place
  exact ⟨place, by simpa [provider] using h.kept, by simpa [provider] using h.dropped,
    by simpa [provider] using h.shredded⟩

theorem step_rotate (h : Tracked s i stored w kek after) (ledger : Ledger lang s n used es)
    (hw : wrappedOf lang stored = some w) (kek' : Bytes) (bound : lang = .cpp → n + 1 < 2 ^ 64) :
    Tracked (s.step (.rotate kek' : KeyCall lang)) i stored w kek (after ++ [.rotate kek']) := by
  obtain ⟨e, he, rfl⟩ := h.entry ledger hw
  obtain ⟨m, hle, hv⟩ := ledger.minted e (List.mem_of_getElem? he)
  have next : KeyProvider.nextVersion lang s.provider.active = versionAt lang (n + 1) := by
    rw [ledger.active, nextVersion_versionAt]
  have version : e.wrapped.kekVersion = versionAt lang m := hv
  have other : e.wrapped.kekVersion ≠ versionAt lang (n + 1) := by
    rw [version]
    exact versionAt_ne (by omega) bound
  have get : (s.step (.rotate kek' : KeyCall lang)).provider.keks.get? e.wrapped.kekVersion
      = s.provider.keks.get? e.wrapped.kekVersion := by
    simp only [ColumnState.step, KeyProvider.rotate, next, Dict.get?_set, if_neg other]
  exact ⟨h.place, by simpa [get] using h.kept, by simpa [get] using h.dropped,
    by simpa [ColumnState.step] using h.shredded⟩

theorem step_shredDek (h : Tracked s i stored w kek after) (ledger : Ledger lang s n used es)
    (nodup : used.Nodup) (hw : wrappedOf lang stored = some w) (j : Nat) :
    Tracked (s.step (.shredDek j : KeyCall lang)) i stored w kek (after ++ [.shredDek j]) := by
  obtain ⟨e, he, rfl⟩ := h.entry ledger hw
  cases hj : es[j]? with
  | none =>
    have other : i ≠ j := by
      rintro rfl
      simp [he] at hj
    have same : s.step (.shredDek j : KeyCall lang) = s := by
      simp only [ColumnState.step, ledger.wrapped_stored j, hj, Option.map_none]
    rw [same]
    exact ⟨h.place, by simpa using h.kept, by simpa using h.dropped, by simpa [other] using h.shredded⟩
  | some e' =>
    rw [ledger.step_shredDek_eq hj]
    have hits : shredKey e.wrapped = shredKey e'.wrapped ↔ i = j := by
      constructor
      · intro hk
        exact ledger.wrapped_inj nodup he hj (shredKey_injective hk)
      · rintro rfl
        rw [he] at hj
        rw [Option.some.inj hj]
    refine ⟨h.place, by simpa using h.kept, by simpa using h.dropped, ?_⟩
    simp only [KeyProvider.shredDek, Finset.mem_insert, hits, h.shredded, List.mem_append,
      List.mem_singleton, KeyCall.shredDek.injEq, or_comm]

theorem step_forgetKekVersion (h : Tracked s i stored w kek after) (version : Nat) :
    Tracked (s.step (.forgetKekVersion version : KeyCall lang)) i stored w kek
      (after ++ [.forgetKekVersion version]) := by
  have get : (s.step (.forgetKekVersion version : KeyCall lang)).provider.keks.get? w.kekVersion
      = if w.kekVersion = version then none else s.provider.keks.get? w.kekVersion := by
    simp only [ColumnState.step, KeyProvider.forgetKekVersion, Dict.get?_erase]
  refine ⟨h.place, ?_, ?_, by simpa [ColumnState.step] using h.shredded⟩
  · intro hn
    simp only [List.mem_append, List.mem_singleton, KeyCall.forgetKekVersion.injEq, not_or] at hn
    rw [get, if_neg hn.2]
    exact h.kept hn.1
  · intro hm
    rw [get]
    split
    · rfl
    next other =>
      refine h.dropped ?_
      simpa [other] using hm

end Tracked

/-- A value right after its encryption: its DEK is new, so its wrapped DEK was never shredded. -/
theorem tracked_encrypted {lang : Lang} {s : ColumnState} {n : Nat} {used : List Bytes}
    {es : List SealedWith} (ledger : Ledger lang s n used es) {dek : Bytes} {x : Plain lang}
    {stored : List Char} (new : dek ∉ used)
    (he : encryptField lang s.provider dek x = some stored) {kek : Bytes}
    (hk : s.provider.keks.get? s.provider.active = some kek) :
    Tracked (s.step (.encryptField dek x)) s.stored.length stored
      ⟨s.provider.active, Bytes.xorWith dek kek⟩ kek ([] : List (KeyCall lang)) := by
  have next : s.step (.encryptField dek x) = { s with stored := s.stored ++ [stored] } := by
    simp only [ColumnState.step, he]
  rw [next]
  refine ⟨by simp, fun _ => hk, by simp, ?_⟩
  have unshredded : shredKey ⟨s.provider.active, Bytes.xorWith dek kek⟩ ∉ s.provider.shredded := by
    intro hm
    obtain ⟨e, hes, hkey⟩ := ledger.shredded _ hm
    have wrapped := shredKey_injective hkey
    have version : s.provider.active = e.version := congrArg WrappedDek.kekVersion wrapped
    have sameKek : kek = e.kek := ledger.kept e hes kek (version ▸ hk)
    have bytes : Bytes.xorWith dek kek = Bytes.xorWith e.dek e.kek := congrArg WrappedDek.bytes wrapped
    rw [← sameKek] at bytes
    have sameDek : dek = e.dek := Bytes.xorWith_injective kek bytes
    exact new (ledger.deks.subset (sameDek ▸ List.mem_map_of_mem hes))
  simpa using unshredded

/-- Follows one value through the rest of its run, by induction on the calls after its encryption. -/
theorem tracked_run {lang : Lang} {kek₁ kek dek : Bytes} {x : Plain lang} {stored : List Char}
    {before after : List (KeyCall lang)}
    (keyed : KeyCall.WellKeyed (before ++ .encryptField dek x :: after))
    (wraps : KeyCall.NeverWraps (before ++ .encryptField dek x :: after))
    (he : encryptField lang (ColumnState.run kek₁ before).provider dek x = some stored)
    (hk : (ColumnState.run kek₁ before).provider.keks.get? (ColumnState.run kek₁ before).provider.active
      = some kek)
    (hw : wrappedOf lang stored
      = some ⟨(ColumnState.run kek₁ before).provider.active, Bytes.xorWith dek kek⟩) :
    Tracked (ColumnState.run kek₁ (before ++ .encryptField dek x :: after))
      (ColumnState.run kek₁ before).stored.length stored
      ⟨(ColumnState.run kek₁ before).provider.active, Bytes.xorWith dek kek⟩ kek after := by
  induction after using List.reverseRecOn with
  | nil =>
    obtain ⟨es, ledger⟩ := ledger_run kek₁ before keyed.left wraps.left
    have drawn : KeyCall.deks (before ++ [.encryptField dek x]) = KeyCall.deks before ++ [dek] :=
      KeyCall.deks_append _ _
    have new : dek ∉ KeyCall.deks before := by
      have nodup := keyed.2
      rw [drawn] at nodup
      exact fun hm => (List.nodup_append.mp nodup).2.2 dek hm dek (List.mem_singleton_self dek) rfl
    rw [ColumnState.run_concat]
    exact tracked_encrypted ledger new he hk
  | append_singleton after c ih =>
    have whole : before ++ .encryptField dek x :: (after ++ [c])
        = (before ++ .encryptField dek x :: after) ++ [c] := by simp
    rw [whole] at keyed wraps ⊢
    have h := ih keyed.left wraps.left
    obtain ⟨es, ledger⟩ := ledger_run kek₁ _ keyed.left wraps.left
    rw [ColumnState.run_concat]
    cases c with
    | encryptField dek' x' => exact h.step_encryptField dek' x'
    | rotate kek' =>
      refine h.step_rotate ledger hw kek' fun hl => ?_
      have total := wraps hl
      rwa [KeyCall.rotations_append] at total
    | shredDek j => exact h.step_shredDek ledger keyed.left.2 hw j
    | forgetKekVersion version => exact h.step_forgetKekVersion version

/-- Every value whose encryption returned decrypts to itself until its wrapped DEK is shredded or
    the KEK version that wrapped it is forgotten, and to the empty string from then on; shredding
    another value changes nothing for it. -/
def Recovers {lang : Lang} (kek₁ : Bytes) (calls : List (KeyCall lang)) : Prop :=
  ∀ before after dek x stored, calls = before ++ .encryptField dek x :: after →
    encryptField lang (ColumnState.run kek₁ before).provider dek x = some stored →
    let i := (ColumnState.run kek₁ before).stored.length
    let version := (ColumnState.run kek₁ before).provider.active
    (.shredDek i ∉ after → .forgetKekVersion version ∉ after →
      decryptField lang (ColumnState.run kek₁ calls).provider stored = x) ∧
    (.shredDek i ∈ after ∨ .forgetKekVersion version ∈ after →
      decryptField lang (ColumnState.run kek₁ calls).provider stored = Plain.blank lang) ∧
    ∀ j ≠ i, decryptField lang ((ColumnState.run kek₁ calls).step (.shredDek j : KeyCall lang)).provider
      stored = decryptField lang (ColumnState.run kek₁ calls).provider stored

/-- While no version is minted twice, every run recovers what it should and nothing else. -/
theorem recovers_of_neverWraps {lang : Lang} (kek₁ : Bytes) (calls : List (KeyCall lang))
    (keyed : KeyCall.WellKeyed calls) (wraps : KeyCall.NeverWraps calls) : Recovers kek₁ calls := by
  intro before after dek x stored hc he
  subst hc
  obtain ⟨es₀, ledger₀⟩ := ledger_run kek₁ before keyed.left wraps.left
  have len : dek.length = 32 := keyed.1 dek (by simp [KeyCall.deks, KeyCall.dek?])
  obtain ⟨kek, hk, marker, hp⟩ := encryptField_eq_some he len ledger₀.active_lt
  have hw : wrappedOf lang stored
      = some ⟨(ColumnState.run kek₁ before).provider.active, Bytes.xorWith dek kek⟩ := by
    rw [wrappedOf, hp, Option.map_some]
  have h := tracked_run keyed wraps he hk hw
  obtain ⟨es, ledger⟩ := ledger_run kek₁ _ keyed wraps
  refine ⟨fun unshredded remembered => ?_, fun gone => ?_, fun j hj => ?_⟩
  · rw [decryptField_of_parse marker hp,
      KeyProvider.unwrapDek_wrapped (h.kept remembered) (fun hm => unshredded (h.shredded.mp hm)),
      Option.elim_some, Bytes.xorWith_xorWith, Plain.decode_encode, Option.getD_some]
  · have none : (ColumnState.run kek₁ (before ++ .encryptField dek x :: after)).provider.unwrapDek
        ⟨(ColumnState.run kek₁ before).provider.active, Bytes.xorWith dek kek⟩ = none := by
      rcases gone with shredded | forgotten
      · exact KeyProvider.unwrapDek_of_shredded (h.shredded.mpr shredded)
      · exact KeyProvider.unwrapDek_of_forgotten (h.dropped forgotten)
    rw [decryptField_of_parse marker hp, none, Option.elim_none]
  · obtain ⟨e, hes, hew⟩ := h.entry ledger hw
    cases hej : es[j]? with
    | none =>
      have same : (ColumnState.run kek₁ (before ++ .encryptField dek x :: after)).step
          (.shredDek j : KeyCall lang) = ColumnState.run kek₁ (before ++ .encryptField dek x :: after) := by
        simp only [ColumnState.step, ledger.wrapped_stored j, hej, Option.map_none]
      rw [same]
    | some e' =>
      have other : e.wrapped ≠ e'.wrapped := fun hw' => hj (ledger.wrapped_inj keyed.2 hes hej hw').symm
      rw [ledger.step_shredDek_eq hej, decryptField_of_parse marker hp, decryptField_of_parse marker hp,
        ← hew, KeyProvider.unwrapDek_shredDek_of_ne other]

/-- A key of 32 equal bytes. -/
def keyOf (b : UInt8) : Bytes := List.replicate 32 b

/-- A value that outlives a rotation, then a shred of it and the loss of the newer KEK. -/
def rotatedRun : List (KeyCall .python) :=
  [.encryptField (keyOf 7) "ana", .rotate (keyOf 9),
    .encryptField (keyOf 8) "rui", .shredDek 0, .forgetKekVersion 2]

theorem recovers_rotatedRun : Recovers (keyOf 1) rotatedRun :=
  recovers_of_neverWraps _ _ ⟨by decide, by decide⟩ (by intro h; cases h)

theorem active_run {lang : Lang} (kek₁ : Bytes) (calls : List (KeyCall lang)) :
    (ColumnState.run kek₁ calls).provider.active = versionAt lang (KeyCall.rotations calls) := by
  induction calls using List.reverseRecOn with
  | nil => cases lang <;> rfl
  | append_singleton calls c ih =>
    rw [ColumnState.run_concat, KeyCall.rotations_append]
    cases c with
    | encryptField dek x =>
      refine Eq.trans ?_ ih
      simp only [ColumnState.step]
      split <;> rfl
    | rotate kek => exact (congrArg _ ih).trans (nextVersion_versionAt lang _)
    | shredDek i =>
      refine Eq.trans ?_ ih
      simp only [ColumnState.step]
      split <;> rfl
    | forgetKekVersion version => exact ih

/-- One value, then `n` rotations to the same key. -/
def wrapRun (n : Nat) : List (KeyCall .cpp) :=
  .encryptField (keyOf 0) ([65] : Bytes) :: List.replicate n (.rotate (keyOf 1))

theorem wrapRun_succ (n : Nat) : wrapRun (n + 1) = wrapRun n ++ [.rotate (keyOf 1)] := by
  have last := List.replicate_succ' (n := n) (a := (.rotate (keyOf 1) : KeyCall .cpp))
  exact congrArg ((.encryptField (keyOf 0) ([65] : Bytes) : KeyCall .cpp) :: ·) last

theorem rotations_wrapRun (n : Nat) : KeyCall.rotations (wrapRun n) = n := by
  simp [wrapRun, KeyCall.rotations, KeyCall.isRotate, List.countP_replicate]

theorem shredded_wrapRun (n : Nat) :
    (ColumnState.run (keyOf 0) (wrapRun n)).provider.shredded = ∅ := by
  induction n with
  | zero => decide +kernel
  | succ n ih =>
    rw [wrapRun_succ, ColumnState.run_concat]
    exact ih

/-- The last rotation of a full turn of the counter replaces KEK 1. -/
theorem keks_wrapRun {n : Nat} (h : n + 1 = 2 ^ 64) :
    (ColumnState.run (keyOf 0) (wrapRun (n + 1))).provider.keks.get? 1
      = some (keyOf 1) := by
  have next : KeyProvider.nextVersion .cpp
      (ColumnState.run (keyOf 0) (wrapRun n)).provider.active = 1 := by
    have turn : (1 + 2 ^ 64) % 2 ^ 64 = 1 := by omega
    rw [active_run, rotations_wrapRun, nextVersion_versionAt, versionAt, h, turn]
  rw [wrapRun_succ, ColumnState.run_concat]
  simp only [ColumnState.step, KeyProvider.rotate, next, Dict.get?_set, if_true]

/-- The value `A`, sealed under KEK 1 with keys of zero bytes. -/
def wrapStored : List Char :=
  encMarker ++ Bytes.toHex (Bytes.putBE 8 1 ++ Bytes.putBE 4 32 ++ keyOf 0 ++ [65])

/-- After a full turn of the version counter the first value no longer decrypts to itself. -/
theorem not_recovers_wrapRun :
    KeyCall.WellKeyed (wrapRun (2 ^ 64)) ∧ ¬ Recovers (keyOf 0) (wrapRun (2 ^ 64)) := by
  obtain ⟨n, hn⟩ : ∃ n, n + 1 = 2 ^ 64 := ⟨2 ^ 64 - 1, by decide⟩
  rw [← hn]
  have deks : KeyCall.deks (wrapRun (n + 1)) = [keyOf 0] := by
    simp [wrapRun, KeyCall.deks, KeyCall.dek?]
  refine ⟨⟨by rw [deks]; decide, by rw [deks]; decide⟩, fun h => ?_⟩
  have stored : encryptField .cpp (ColumnState.init (keyOf 0)).provider (keyOf 0) ([65] : Bytes)
      = some wrapStored := by decide +kernel
  obtain ⟨recovered, -, -⟩ := h [] _ (keyOf 0) ([65] : Bytes) wrapStored rfl stored
  have noShred : (.shredDek 0 : KeyCall .cpp) ∉ List.replicate (n + 1) (.rotate (keyOf 1)) := by
    simp [List.mem_replicate]
  have noForget : (.forgetKekVersion 1 : KeyCall .cpp) ∉ List.replicate (n + 1) (.rotate (keyOf 1)) := by
    simp [List.mem_replicate]
  have parsed : parseFrame .cpp (wrapStored.drop encMarker.length) = some (⟨1, keyOf 0⟩, [65]) := by
    decide +kernel
  have plain := recovered noShred noForget
  rw [decryptField_of_parse (by decide +kernel) parsed, KeyProvider.unwrapDek, shredded_wrapRun,
    if_neg (Finset.notMem_empty _), keks_wrapRun hn] at plain
  have wrong : Bytes.xorWith [65] (Bytes.xorWith (keyOf 0) (keyOf 1)) ≠ [65] := by decide +kernel
  exact wrong plain

end Harpia
