import Harpia.LocalKeyStore

namespace Harpia

structure LocalFile where
  text : List Char
  /-- No group or other bit is set. -/
  ownerOnly : Bool
  deriving DecidableEq

/-- The KEK store and its `.shred` sidecar. -/
structure LocalFiles where
  store : Option LocalFile
  shredLog : Option LocalFile
  deriving DecidableEq

structure LocalKeyProviderConfig where
  phiAtScale : Bool
  acknowledged : Bool

/-- Key material as it is generated. -/
abbrev KeyBytes := { bs : Bytes // bs.length = 32 }

theorem keyBytes_ne_nil (kek : KeyBytes) : kek.val ≠ [] := by
  intro he
  have len := kek.property
  rw [he] at len
  cases len

/-- What becomes of one file write: whether the file was opened, how many characters reached it
    (all of them where nothing is said), and whether the process died in the write. A failed
    `fchmod` is an opened file with nothing written. -/
structure WriteOutcome where
  opened : Bool
  written : Option Nat
  died : Bool
  deriving DecidableEq

def WriteOutcome.success : WriteOutcome := { opened := true, written := none, died := false }

/-- Owner-only write; without `append` the file is truncated first. -/
def writePrivate (o : WriteOutcome) (append : Bool) (data : List Char) (file : Option LocalFile) :
    Option LocalFile :=
  if o.opened then
    some
      { text := (if append then file.elim [] LocalFile.text else [])
          ++ data.take (o.written.getD data.length)
        ownerOnly := true }
  else file

structure LocalKeyProvider where
  lang : Lang
  keys : KeyProvider
  files : LocalFiles
  deriving DecidableEq

namespace LocalKeyProvider

/-- The records of the store, by ascending version. -/
def storeRecords (keks : Dict Nat Bytes) : List (Nat × Bytes) :=
  keks.entries.insertionSort fun a b => a.1 ≤ b.1

def persist (o : WriteOutcome) (keks : Dict Nat Bytes) (files : LocalFiles) : LocalFiles :=
  { files with store := writePrivate o false (recordsText (storeRecords keks)) files.store }

/-- The KEKs and the active version of a store; nothing where there is no key in it. -/
def load (lang : Lang) : Option LocalFile → Option (Option (Dict Nat Bytes × Nat))
  | none => some none
  | some file => (parseText lang file.text).map fun records =>
    if records = [] then none
    else some (Dict.ofPairs records, (records.map Prod.fst).foldl max 0)

def loadShreds (lang : Lang) : Option LocalFile → Option (Finset Bytes)
  | none => some ∅
  | some file => (parseText lang file.text).map fun records =>
    (records.map fun r => shredKey ⟨r.1, r.2⟩).toFinset

def loose (files : LocalFiles) : Bool :=
  files.store.any (fun f => !f.ownerOnly) || files.shredLog.any fun f => !f.ownerOnly

/-- The constructor, with the random bytes drawn for KEK 1; no provider where it throws. -/
def init (lang : Lang) (cfg : LocalKeyProviderConfig) (kek : KeyBytes) (files : LocalFiles) :
    Option LocalKeyProvider :=
  if cfg.phiAtScale && !cfg.acknowledged then none
  else if loose files then none
  else do
    let loaded ← load lang files.store
    let shredded ← loadShreds lang files.shredLog
    match loaded with
    | some (keks, active) => return ⟨lang, ⟨active, keks, shredded⟩, files⟩
    | none =>
      let keks := Dict.empty.set 1 kek.val
      return ⟨lang, ⟨1, keks, shredded⟩, persist WriteOutcome.success keks files⟩

def rotate (p : LocalKeyProvider) (o : WriteOutcome) (kek : KeyBytes) : LocalKeyProvider :=
  let keys := p.keys.rotate p.lang kek.val
  { p with keys := keys, files := persist o keys.keks p.files }

/-- Only a shred that is new is written. -/
def shredDek (p : LocalKeyProvider) (o : WriteOutcome) (w : WrappedDek) : LocalKeyProvider :=
  if shredKey w ∈ p.keys.shredded then p
  else
    { p with
      keys := p.keys.shredDek w
      files :=
        { p.files with
          shredLog := writePrivate o true (keyLine w.kekVersion w.bytes ++ ['\n']) p.files.shredLog } }

end LocalKeyProvider

end Harpia
