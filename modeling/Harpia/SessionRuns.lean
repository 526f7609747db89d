import Harpia.RbacGates

namespace Harpia

/-- The revoked identifiers of the file as it was last read, and the digest of its content then. -/
structure RevocationList where
  stamp : Bytes
  revoked : List Bytes
  deriving DecidableEq

/-- C++ stamps a content with its MAC under a fixed key, Python with its SHA-256. -/
def fileStamp (lang : Lang) (env : GateEnv) (sha256 : Bytes → Bytes) (body : Bytes) : Bytes :=
  match lang with
  | .cpp => Bytes.ofText (env.hmacSha256Hex (Bytes.ofText ['r', 'e', 'v', 'l', 'i', 's', 't']) body)
  | .python => sha256 body

namespace RevocationList

def empty : RevocationList := ⟨[], []⟩

/-- `reload_if_changed`: a missing file clears the list and its stamp. -/
def reloadIfChanged (lang : Lang) (env : GateEnv) (sha256 : Bytes → Bytes) (r : RevocationList) :
    RevocationList :=
  match env.revocations with
  | none => empty
  | some body =>
    let stamp := fileStamp lang env sha256 body
    if stamp = r.stamp then r else ⟨stamp, revokedIds body⟩

def contains (lang : Lang) (env : GateEnv) (sha256 : Bytes → Bytes) (r : RevocationList)
    (jti : Bytes) : Bool × RevocationList :=
  if jti = [] then (false, r)
  else
    let r := r.reloadIfChanged lang env sha256
    (r.revoked.contains jti, r)

end RevocationList

/-- What a call of `verify` gives: the verdict and the claims, none where it raises, and the records
    written. -/
abbrev VerifyResult := Option (Verdict × Option Claims) × List AuditRecord

/-- `verify` with the list it keeps between calls. -/
def verifyCached (lang : Lang) (env : GateEnv) (sha256 : Bytes → Bytes) (r : RevocationList)
    (token : List Char) : VerifyResult × RevocationList :=
  let deny (v : Verdict) (c : Claims) : VerifyResult := (some (v, none), [sessionDenied v c])
  if env.key = [] then (deny .noKey Claims.blank, r)
  else
    match decode lang token with
    | none => ((none, []), r)
    | some none => (deny .malformed Claims.blank, r)
    | some (some c) =>
      match splitToken token with
      | none => (deny .malformed Claims.blank, r)
      | some (b64, mac) =>
        if mac ≠ env.hmacSha256Hex env.key (tokenContext ++ Bytes.ofText b64) then
          (deny .badSignature c, r)
        else if c.expiresAt ≤ env.now then (deny .expired c, r)
        else
          let (revoked, r) := r.contains lang env sha256 c.jti
          (if revoked then deny .revoked c else (some (.ok, some c), []), r)

/-- One call of `verify`: the file's content at that moment, the token, the time asked for and the
    clock. -/
structure SessionCall where
  content : Option Bytes
  token : List Char
  now : Int
  clock : Int

def SessionCall.env (env : GateEnv) (c : SessionCall) : GateEnv :=
  { env with revocations := c.content, now := if c.now ≤ 0 then c.clock else c.now }

/-- A call of a run, with the list before it and its result. -/
structure SessionStep where
  before : RevocationList
  call : SessionCall
  result : VerifyResult

def sessionRun (lang : Lang) (env : GateEnv) (sha256 : Bytes → Bytes) (r : RevocationList) :
    List SessionCall → List SessionStep
  | [] => []
  | c :: cs =>
    let (result, r') := verifyCached lang (c.env env) sha256 r c.token
    ⟨r, c, result⟩ :: sessionRun lang env sha256 r' cs

/-- The digests of the contents a run reads tell them apart, and none is empty. -/
def StampsDiffer (env : GateEnv) (sha256 : Bytes → Bytes) (calls : List SessionCall) : Prop :=
  ∀ lang, (∀ body, fileStamp lang env sha256 body ≠ []) ∧
    ∀ c ∈ calls, ∀ c' ∈ calls, ∀ body body', c.content = some body → c'.content = some body' →
      fileStamp lang env sha256 body = fileStamp lang env sha256 body' → body = body'

/-- Python cannot read a number of a sound token. -/
def Overlong (token : List Char) : Prop :=
  ∃ cn role iat exp jti, tokenLines .python token = some (cn, role, iat, exp, jti) ∧
    (maxStrDigits < (leadingDigits iat).length ∨ maxStrDigits < (leadingDigits exp).length)

/-- The two languages give the same results in a run, and both treat as revoked, at each call, what
    the file lists then. -/
def SessionsAgree (env : GateEnv) (sha256 : Bytes → Bytes) (calls : List SessionCall) : Prop :=
  (sessionRun .cpp env sha256 .empty calls).map (·.result) =
      (sessionRun .python env sha256 .empty calls).map (·.result) ∧
    ∀ lang, ∀ s ∈ sessionRun lang env sha256 .empty calls, ∀ jti,
      (s.before.contains lang (s.call.env env) sha256 jti).1 = true ↔
        ∃ body, s.call.content = some body ∧ jti ∈ revokedIds body

section Decode

theorem tokenLines_agree (lang lang' : Lang) (token : List Char) :
    tokenLines lang token = tokenLines lang' token := by
  unfold tokenLines
  cases splitToken token with
  | none => rfl
  | some parts => simp only [Option.bind_eq_bind, Option.bind_some, b64urlDecode_agree lang lang']

theorem atoll_agree {raw : Bytes} (h : (leadingDigits raw).length ≤ maxStrDigits) :
    atoll .cpp raw = atoll .python raw := by
  have hcpp : ¬ (Lang.cpp = .python ∧ maxStrDigits < (leadingDigits raw).length) := by simp
  have hpy : ¬ (Lang.python = .python ∧ maxStrDigits < (leadingDigits raw).length) := by
    rintro ⟨-, hlt⟩
    omega
  unfold atoll
  rw [if_neg hcpp, if_neg hpy]

theorem decode_agree {token : List Char} (h : ¬ Overlong token) :
    decode .cpp token = decode .python token := by
  unfold decode
  rw [tokenLines_agree .cpp .python]
  cases hl : tokenLines .python token with
  | none => rfl
  | some lines =>
    obtain ⟨cn, role, iat, exp, jti⟩ := lines
    have hshort : (leadingDigits iat).length ≤ maxStrDigits ∧
        (leadingDigits exp).length ≤ maxStrDigits := by
      by_contra hlong
      refine h ⟨cn, role, iat, exp, jti, hl, ?_⟩
      omega
    simp only [atoll_agree hshort.1, atoll_agree hshort.2]

theorem decode_python_eq_none_iff {token : List Char} :
    decode .python token = none ↔ Overlong token := by
  rw [decode_eq_none_iff]
  exact ⟨fun h => h.2, fun h => ⟨rfl, h⟩⟩

theorem verify_agree_iff (env : GateEnv) (token : List Char) :
    verify .cpp env token = verify .python env token ↔ ¬ (env.key ≠ [] ∧ Overlong token) := by
  constructor
  · rintro heq ⟨hkey, hlong⟩
    have hpy : verify .python env token = (none, []) := by
      simp only [verify, if_neg hkey, decode_python_eq_none_iff.mpr hlong]
    rcases verify_cases .cpp env token with ⟨-, hnone, -⟩ | ⟨-, ⟨c, -, hv⟩ | ⟨v, r, -, -, hv⟩⟩
    · obtain ⟨hlang, -⟩ := decode_eq_none_iff.mp hnone
      cases hlang
    · rw [heq, hpy] at hv
      cases hv
    · rw [heq, hpy] at hv
      cases hv
  · intro h
    by_cases hkey : env.key = []
    · simp only [verify, if_pos hkey]
    · have hdec := decode_agree fun hlong => h ⟨hkey, hlong⟩
      simp only [verify, hdec]

end Decode

section Cache

variable {lang : Lang} {env : GateEnv} {sha256 : Bytes → Bytes} {r : RevocationList}

/-- The list is empty, or what was read from one of the contents of a run. -/
def CacheOf (lang : Lang) (env : GateEnv) (sha256 : Bytes → Bytes) (calls : List SessionCall)
    (r : RevocationList) : Prop :=
  r = .empty ∨ ∃ c ∈ calls, ∃ body, c.content = some body ∧
    r = ⟨fileStamp lang env sha256 body, revokedIds body⟩

/-- After a reload the list is that of the content the file has now. -/
theorem reload_eq {calls : List SessionCall} (hs : StampsDiffer env sha256 calls)
    (hr : CacheOf lang env sha256 calls r) {c : SessionCall} (hc : c ∈ calls) :
    r.reloadIfChanged lang (c.env env) sha256 =
      c.content.elim .empty fun body => ⟨fileStamp lang env sha256 body, revokedIds body⟩ := by
  unfold RevocationList.reloadIfChanged
  simp only [SessionCall.env]
  cases hcontent : c.content with
  | none => rfl
  | some body =>
    have hstamp : fileStamp lang (c.env env) sha256 body = fileStamp lang env sha256 body := by
      cases lang <;> rfl
    simp only [SessionCall.env, hcontent] at hstamp
    simp only [hstamp, Option.elim_some]
    split
    next heq =>
      rcases hr with rfl | ⟨c', hc', body', hcontent', rfl⟩
      · exact absurd heq ((hs lang).1 body)
      · rw [(hs lang).2 c hc c' hc' body body' hcontent hcontent' heq]
    next => rfl

theorem contains_eq {calls : List SessionCall} (hs : StampsDiffer env sha256 calls)
    (hr : CacheOf lang env sha256 calls r) {c : SessionCall} (hc : c ∈ calls) (jti : Bytes) :
    (r.contains lang (c.env env) sha256 jti).1 = (c.env env).isRevoked jti ∧
      CacheOf lang env sha256 calls (r.contains lang (c.env env) sha256 jti).2 := by
  have hreload := reload_eq hs hr hc
  unfold RevocationList.contains
  by_cases hjti : jti = []
  · rw [if_pos hjti]
    exact ⟨by simp [GateEnv.isRevoked, hjti], hr⟩
  · rw [if_neg hjti]
    simp only [hreload]
    show _ = (decide (jti ≠ []) && c.content.any fun body => (revokedIds body).contains jti) ∧ _
    cases hcontent : c.content with
    | none => exact ⟨by simp [RevocationList.empty], Or.inl rfl⟩
    | some body => exact ⟨by simp [hjti], Or.inr ⟨c, hc, body, hcontent, rfl⟩⟩

/-- The list kept between calls makes no difference. -/
theorem verifyCached_eq {calls : List SessionCall} (hs : StampsDiffer env sha256 calls)
    (hr : CacheOf lang env sha256 calls r) {c : SessionCall} (hc : c ∈ calls) (token : List Char) :
    (verifyCached lang (c.env env) sha256 r token).1 = verify lang (c.env env) token ∧
      CacheOf lang env sha256 calls (verifyCached lang (c.env env) sha256 r token).2 := by
  unfold verifyCached verify
  by_cases hkey : (c.env env).key = []
  · rw [if_pos hkey, if_pos hkey]
    exact ⟨rfl, hr⟩
  · rw [if_neg hkey, if_neg hkey]
    cases decode lang token with
    | none => exact ⟨rfl, hr⟩
    | some decoded =>
      cases decoded with
      | none => exact ⟨rfl, hr⟩
      | some claims =>
        cases splitToken token with
        | none => exact ⟨rfl, hr⟩
        | some parts =>
          obtain ⟨b64, mac⟩ := parts
          obtain ⟨hin, hcache⟩ := contains_eq hs hr hc claims.jti
          simp only
          split
          · exact ⟨rfl, hr⟩
          · split
            · exact ⟨rfl, hr⟩
            · rw [← hin]
              refine ⟨?_, hcache⟩
              split <;> rfl

/-- Every call of a run gives what `verify` gives on the content the file has then. -/
theorem run_results {all : List SessionCall} (hs : StampsDiffer env sha256 all)
    {calls : List SessionCall} (hsub : ∀ c ∈ calls, c ∈ all) (hr : CacheOf lang env sha256 all r) :
    (sessionRun lang env sha256 r calls).map (·.result) =
        calls.map (fun c => verify lang (c.env env) c.token) ∧
      ∀ s ∈ sessionRun lang env sha256 r calls,
        s.call ∈ calls ∧ CacheOf lang env sha256 all s.before := by
  induction calls generalizing r with
  | nil => exact ⟨rfl, fun s hs => absurd hs List.not_mem_nil⟩
  | cons c calls ih =>
    obtain ⟨hc, hcalls⟩ := List.forall_mem_cons.mp hsub
    obtain ⟨hresult, hcache⟩ := verifyCached_eq hs hr hc c.token
    obtain ⟨hrest, hbefore⟩ := ih hcalls hcache
    refine ⟨?_, ?_⟩
    · simp only [sessionRun, List.map_cons, hresult, hrest]
    · intro s hm
      rcases List.mem_cons.mp hm with rfl | hm
      · exact ⟨List.mem_cons_self, hr⟩
      · obtain ⟨hcall, hb⟩ := hbefore s hm
        exact ⟨List.mem_cons_of_mem _ hcall, hb⟩

end Cache

theorem isRevoked_iff (env : GateEnv) (c : SessionCall) (jti : Bytes) :
    (c.env env).isRevoked jti = true ↔ ∃ body, c.content = some body ∧ jti ∈ revokedIds body := by
  show (decide (jti ≠ []) && c.content.any fun body => (revokedIds body).contains jti) = true ↔ _
  have hword : ∀ body, jti ∈ revokedIds body → jti ≠ [] := by
    rintro body hm rfl
    obtain ⟨line, -, hline⟩ := List.mem_filterMap.mp hm
    simp only at hline
    split at hline
    next => cases hline
    next hne => exact hne (Option.some.inj hline)
  cases c.content with
  | none => simp
  | some body =>
    simp only [Option.any_some, Bool.and_eq_true, decide_eq_true_eq, List.contains_iff_mem,
      Option.some.injEq, exists_eq_left']
    exact ⟨fun h => h.2, fun h => ⟨hword body h, h⟩⟩

/-- The two languages agree in a run exactly when no call with a key presents a token with a number
    that Python cannot read. -/
theorem sessions_agree_iff (env : GateEnv) (sha256 : Bytes → Bytes) (calls : List SessionCall)
    (hs : StampsDiffer env sha256 calls) :
    SessionsAgree env sha256 calls ↔ ∀ c ∈ calls, ¬ (env.key ≠ [] ∧ Overlong c.token) := by
  have hrun : ∀ lang, _ := fun lang =>
    @run_results lang env sha256 .empty calls hs calls (fun c hc => hc) (Or.inl rfl)
  have hsame : (sessionRun .cpp env sha256 .empty calls).map (·.result) =
      (sessionRun .python env sha256 .empty calls).map (·.result) ↔
        ∀ c ∈ calls, ¬ (env.key ≠ [] ∧ Overlong c.token) := by
    rw [(hrun .cpp).1, (hrun .python).1, List.map_inj_left]
    exact forall₂_congr fun c _ => verify_agree_iff (c.env env) c.token
  refine ⟨fun h => hsame.mp h.1, fun h => ⟨hsame.mpr h, ?_⟩⟩
  intro lang s hm jti
  obtain ⟨hcall, hbefore⟩ := (hrun lang).2 s hm
  rw [(contains_eq hs hbefore hcall jti).1]
  exact isRevoked_iff env s.call jti

/-- A file that lists an identifier and then disappears. -/
def vanishingFile : List SessionCall :=
  [⟨some [97, 98, 10], [], 0, 1000⟩, ⟨none, ['v', '1'], 0, 1001⟩]

theorem sessions_agree_vanishing :
    SessionsAgree (sampleEnv zeroMac) (fun body => 0 :: body) vanishingFile := by
  refine (sessions_agree_iff _ _ _ ?_).mpr ?_
  · intro lang
    constructor
    · intro body
      cases lang <;> simp [fileStamp, sampleEnv, zeroMac, Bytes.ofText]
    · intro c hc c' hc' body body' h h' _
      simp only [vanishingFile, List.mem_cons, List.not_mem_nil, or_false] at hc hc'
      rcases hc with rfl | rfl <;> rcases hc' with rfl | rfl <;> simp_all
  · intro c hc
    simp only [vanishingFile, List.mem_cons, List.not_mem_nil, or_false] at hc
    rintro ⟨-, cn, role, iat, exp, jti, hlines, -⟩
    have hempty : tokenLines .python [] = none := by decide
    have hshort : tokenLines .python ['v', '1'] = none := by decide
    rcases hc with rfl | rfl
    · exact absurd (hempty.symm.trans hlines) (Option.some_ne_none _).symm
    · exact absurd (hshort.symm.trans hlines) (Option.some_ne_none _).symm

/-- A token with a number of 4304 digits and no MAC: C++ refuses it, Python raises. -/
theorem not_sessions_agree_zerosToken :
    StampsDiffer (sampleEnv zeroMac) (fun body => 0 :: body) [⟨none, zerosToken 1434, 0, 1000⟩] ∧
      ¬ SessionsAgree (sampleEnv zeroMac) (fun body => 0 :: body)
        [⟨none, zerosToken 1434, 0, 1000⟩] := by
  have hs : StampsDiffer (sampleEnv zeroMac) (fun body => 0 :: body)
      [⟨none, zerosToken 1434, 0, 1000⟩] := by
    intro lang
    constructor
    · intro body
      cases lang <;> simp [fileStamp, sampleEnv, zeroMac, Bytes.ofText]
    · intro c hc c' hc' body body' h
      rw [List.mem_singleton.mp hc] at h
      cases h
  refine ⟨hs, fun hagree => ?_⟩
  refine (verify_agree_iff (sampleEnv zeroMac) (zerosToken 1434)).mp ?_ ⟨by simp [sampleEnv], ?_⟩
  · have hrun : ∀ lang, _ := fun lang => (@run_results lang (sampleEnv zeroMac)
      (fun body => 0 :: body) .empty [⟨none, zerosToken 1434, 0, 1000⟩] hs _ (fun c hc => hc)
      (Or.inl rfl)).1
    have hresult := hagree.1
    rw [hrun .cpp, hrun .python] at hresult
    exact (List.cons.inj hresult).1
  · refine ⟨_, _, _, _, _, tokenLines_zeros 1434, Or.inl ?_⟩
    rw [leadingDigits_zeros]
    decide

end Harpia
