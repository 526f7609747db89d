import Mathlib.Data.List.DropRight
import Harpia.Lib.Bytes
import Harpia.Lib.Dict
import Harpia.KeyProvider

namespace Harpia

/-- What an audit sink is asked to record. -/
structure AuditRecord where
  operation : String
  subject : String
  detail : Bytes
  deriving DecidableEq

inductive Role
  | none
  | guest
  | main
  | admin
  deriving DecidableEq, Repr

/-- The surroundings of a request: the session key (empty: sessions are disabled), the content of
    the revocation file, the role map, the clock, and the MAC of `hmac_sha256_hex`. -/
structure GateEnv where
  key : Bytes
  revocations : Option Bytes
  roleMap : Dict Bytes Role
  now : Int
  hmacSha256Hex : Bytes → Bytes → List Char

inductive Verdict
  | ok
  | noKey
  | malformed
  | badSignature
  | expired
  | revoked
  deriving DecidableEq, Repr

def Verdict.name : Verdict → String
  | .ok => "ok"
  | .noKey => "no_key"
  | .malformed => "malformed"
  | .badSignature => "bad_signature"
  | .expired => "expired"
  | .revoked => "revoked"

/-- What a token carries. -/
structure Claims where
  cn : Bytes
  role : Bytes
  jti : Bytes
  issuedAt : Int
  expiresAt : Int
  deriving DecidableEq

def Claims.blank : Claims := ⟨[], [], [], 0, 0⟩

def tokenContext : Bytes := Bytes.ofText "harpiasess.v1.".toList

def b64Value (c : Char) : Option Nat :=
  if 'A' ≤ c ∧ c ≤ 'Z' then some (c.toNat - 'A'.toNat)
  else if 'a' ≤ c ∧ c ≤ 'z' then some (c.toNat - 'a'.toNat + 26)
  else if '0' ≤ c ∧ c ≤ '9' then some (c.toNat - '0'.toNat + 52)
  else if c = '-' then some 62
  else if c = '_' then some 63
  else none

/-- How many bits the decoder's buffer keeps. -/
def b64Window : Lang → Nat
  | .cpp => 2 ^ 32
  | .python => 2 ^ 24

def b64Loop (lang : Lang) : List Char → Nat → Nat → Option Bytes
  | [], _, _ => some []
  | c :: cs, buf, bits => do
    let v ← b64Value c
    let buf := (buf * 64 + v) % b64Window lang
    if 8 ≤ bits + 6 then
      let rest ← b64Loop lang cs buf (bits + 6 - 8)
      return UInt8.ofNat (buf / 2 ^ (bits + 6 - 8) % 256) :: rest
    else b64Loop lang cs buf (bits + 6)

/-- Unpadded base64url; leftover bits are dropped. -/
def b64urlDecode (lang : Lang) (text : List Char) : Option Bytes := b64Loop lang text 0 0

/-- The payload and the MAC of `v1.<payload>.<mac>`, parted at the last dot. -/
def splitToken (token : List Char) : Option (List Char × List Char) :=
  if "v1.".toList.isPrefixOf token then
    let mac := token.rtakeWhile (· ≠ '.')
    let dot := token.length - mac.length - 1
    if dot ≤ 2 then none else some ((token.take dot).drop 3, mac)
  else none

def isSpaceByte (b : UInt8) : Bool := b = 32 || (9 ≤ b && b ≤ 13)

def isDigitByte (b : UInt8) : Bool := 48 ≤ b && b ≤ 57

/-- The digits that a number at the start of a line has. -/
def leadingDigits (raw : Bytes) : Bytes :=
  let raw := raw.dropWhile isSpaceByte
  let raw := if raw.head? = some 43 ∨ raw.head? = some 45 then raw.tail else raw
  raw.takeWhile isDigitByte

/-- `atoll`, saturating. No result where Python raises. -/
def atoll (lang : Lang) (raw : Bytes) : Option Int :=
  let digits := leadingDigits raw
  let magnitude : Int := digits.foldl (fun n b => 10 * n + (b.toNat - 48)) (0 : Nat)
  let value := if (raw.dropWhile isSpaceByte).head? = some 45 then -magnitude else magnitude
  if lang = .python ∧ maxStrDigits < digits.length then none
  else some (max (-(2 ^ 63)) (min value (2 ^ 63 - 1)))

/-- The lines `getline` finds. -/
def payloadLines (payload : Bytes) : List Bytes :=
  let lines := payload.splitOn 10
  if payload.getLast? = some 10 then lines.dropLast else lines

/-- The five lines of a structurally sound token. -/
def tokenLines (lang : Lang) (token : List Char) : Option (Bytes × Bytes × Bytes × Bytes × Bytes) := do
  let (b64, _) ← splitToken token
  let payload ← b64urlDecode lang b64
  match payloadLines payload with
  | cn :: role :: iat :: exp :: jti :: _ => some (cn, role, iat, exp, jti)
  | _ => none

/-- The payload without any check of MAC, expiry or revocation, nothing for a structurally bad
    token. No result where the call raises. -/
def decode (lang : Lang) (token : List Char) : Option (Option Claims) :=
  match tokenLines lang token with
  | none => some none
  | some (cn, role, iat, exp, jti) => do
    let issuedAt ← atoll lang iat
    let expiresAt ← atoll lang exp
    return some ⟨cn, role, jti, issuedAt, expiresAt⟩

/-- The revoked identifiers of a file: the first word of each line before a `#`. -/
def revokedIds (content : Bytes) : List Bytes :=
  (content.splitOn 10).filterMap fun line =>
    let word := ((line.takeWhile (· ≠ 35)).dropWhile isSpaceByte).takeWhile fun b => !isSpaceByte b
    if word = [] then none else some word

/-- A missing file revokes nothing, and nothing revokes an empty identifier. -/
def GateEnv.isRevoked (env : GateEnv) (jti : Bytes) : Bool :=
  jti ≠ [] && env.revocations.any fun content => (revokedIds content).contains jti

def orNone (raw : Bytes) : Bytes := if raw = [] then Bytes.ofText "<none>".toList else raw

def sessionDenied (verdict : Verdict) (c : Claims) : AuditRecord :=
  { operation := "session_denied"
    subject := "session"
    detail := Bytes.ofText ("verdict=" ++ verdict.name ++ " cn=").toList ++ orNone c.cn
      ++ Bytes.ofText " jti=".toList ++ orNone c.jti }

/-- Structure, MAC, expiry, revocation: the verdict and, when ok, the claims, with the records
    written. No verdict where the call raises. -/
def verify (lang : Lang) (env : GateEnv) (token : List Char) :
    Option (Verdict × Option Claims) × List AuditRecord :=
  let deny (v : Verdict) (c : Claims) := (some (v, none), [sessionDenied v c])
  if env.key = [] then deny .noKey Claims.blank
  else
    match decode lang token with
    | none => (none, [])
    | some none => deny .malformed Claims.blank
    | some (some c) =>
      match splitToken token with
      | none => deny .malformed Claims.blank
      | some (b64, mac) =>
        if mac ≠ env.hmacSha256Hex env.key (tokenContext ++ Bytes.ofText b64) then deny .badSignature c
        else if c.expiresAt ≤ env.now then deny .expired c
        else if env.isRevoked c.jti then deny .revoked c
        else (some (.ok, some c), [])

/-- An `Authorization` header as a gate sees it. -/
structure Bearer where
  present : Bool
  verdict : Verdict
  cn : Bytes
  role : Bytes

/-- The token of a header: a `Bearer` scheme of any case and the blanks around it taken off. -/
def bearerToken (header : List Char) : List Char :=
  let tok := if (header.take 7).map Char.toLower = "bearer ".toList then header.drop 7 else header
  (tok.dropWhile fun c => c = ' ' || c = '\t').rdropWhile fun c =>
    c = ' ' || c = '\t' || c = '\r' || c = '\n'

def fromAuthorization (lang : Lang) (env : GateEnv) (header : List Char) :
    Option Bearer × List AuditRecord :=
  let tok := bearerToken header
  if tok = [] then (some ⟨false, .malformed, [], []⟩, [])
  else
    match verify lang env tok with
    | (none, log) => (none, log)
    | (some (v, none), log) => (some ⟨true, v, [], []⟩, log)
    | (some (v, some c), log) => (some ⟨true, v, c.cn, c.role⟩, log)

/-- A token that verifies, and what it carries. -/
structure Verifies (lang : Lang) (env : GateEnv) (token : List Char) (c : Claims) : Prop where
  enabled : env.key ≠ []
  decoded : decode lang token = some (some c)
  signed : ∃ b64 mac, splitToken token = some (b64, mac) ∧
    mac = env.hmacSha256Hex env.key (tokenContext ++ Bytes.ofText b64)
  fresh : env.now < c.expiresAt
  live : env.isRevoked c.jti = false

/-- Verification raises where decoding does; otherwise it accepts exactly the tokens that verify,
    without a record, and refuses every other one with one record. -/
theorem verify_cases (lang : Lang) (env : GateEnv) (token : List Char) :
    (env.key ≠ [] ∧ decode lang token = none ∧ verify lang env token = (none, [])) ∨
    (¬ (env.key ≠ [] ∧ decode lang token = none) ∧
      ((∃ c, Verifies lang env token c ∧ verify lang env token = (some (.ok, some c), [])) ∨
       (∃ v r, (∀ c, ¬ Verifies lang env token c) ∧ v ≠ .ok ∧
         verify lang env token = (some (v, none), [r])))) := by
  by_cases key : env.key = []
  · refine Or.inr ⟨fun h => h.1 key, Or.inr ⟨.noKey, sessionDenied .noKey Claims.blank, ?_, by decide, ?_⟩⟩
    · exact fun c h => h.enabled key
    · rw [verify, if_pos key]
  cases hd : decode lang token with
  | none =>
    refine Or.inl ⟨key, rfl, ?_⟩
    simp only [verify, if_neg key, hd]
  | some decoded =>
    refine Or.inr ⟨fun h => Option.some_ne_none _ h.2, ?_⟩
    cases decoded with
    | none =>
      refine Or.inr ⟨.malformed, sessionDenied .malformed Claims.blank, ?_, by decide, ?_⟩
      · intro c h
        simpa [hd] using h.decoded
      · simp only [verify, if_neg key, hd]
    | some c =>
      have same : ∀ c', Verifies lang env token c' → c' = c := by
        intro c' h
        simpa [hd, eq_comm] using h.decoded
      cases hs : splitToken token with
      | none =>
        refine Or.inr ⟨.malformed, sessionDenied .malformed Claims.blank, ?_, by decide, ?_⟩
        · intro c' h
          obtain ⟨b64, mac, split, -⟩ := h.signed
          simp [hs] at split
        · simp only [verify, if_neg key, hd, hs]
      | some parts =>
        obtain ⟨b64, mac⟩ := parts
        by_cases signed : mac = env.hmacSha256Hex env.key (tokenContext ++ Bytes.ofText b64)
        · by_cases expired : c.expiresAt ≤ env.now
          · refine Or.inr ⟨.expired, sessionDenied .expired c, ?_, by decide, ?_⟩
            · intro c' h
              have fresh := h.fresh
              rw [same c' h] at fresh
              omega
            · simp only [verify, if_neg key, hd, hs, signed, ne_eq, not_true_eq_false, if_false, if_pos expired]
          · by_cases revoked : env.isRevoked c.jti
            · refine Or.inr ⟨.revoked, sessionDenied .revoked c, ?_, by decide, ?_⟩
              · intro c' h
                have live := h.live
                rw [same c' h, revoked] at live
                cases live
              · simp only [verify, if_neg key, hd, hs, signed, ne_eq, not_true_eq_false, if_false,
                  if_neg expired, if_pos revoked]
            · refine Or.inl ⟨c, ⟨key, hd, ⟨b64, mac, hs, signed⟩, by omega, by simpa using revoked⟩, ?_⟩
              simp only [verify, if_neg key, hd, hs, signed, ne_eq, not_true_eq_false, if_false,
                if_neg expired, if_neg revoked]
        · refine Or.inr ⟨.badSignature, sessionDenied .badSignature c, ?_, by decide, ?_⟩
          · intro c' h
            obtain ⟨b64', mac', split, sig⟩ := h.signed
            rw [hs, Option.some.injEq, Prod.mk.injEq] at split
            obtain ⟨rfl, rfl⟩ := split
            exact signed sig
          · simp only [verify, if_neg key, hd, hs, ne_eq, signed, not_false_eq_true, if_true]

theorem verifies_unique {lang : Lang} {env : GateEnv} {token : List Char} {c c' : Claims}
    (h : Verifies lang env token c) (h' : Verifies lang env token c') : c = c' := by
  have both := h.decoded.symm.trans h'.decoded
  simpa using both

/-- Decoding raises only in Python, on a sound token with a number of too many digits. -/
theorem decode_eq_none_iff {lang : Lang} {token : List Char} :
    decode lang token = none ↔ lang = .python ∧ ∃ cn role iat exp jti,
      tokenLines lang token = some (cn, role, iat, exp, jti) ∧
        (maxStrDigits < (leadingDigits iat).length ∨ maxStrDigits < (leadingDigits exp).length) := by
  have raises : ∀ raw, atoll lang raw = none ↔
      lang = .python ∧ maxStrDigits < (leadingDigits raw).length := by
    intro raw
    simp only [atoll]
    split
    next h => simp [h]
    next h => simp [h]
  rw [decode]
  cases hl : tokenLines lang token with
  | none => simp
  | some lines =>
    obtain ⟨cn, role, iat, exp, jti⟩ := lines
    have either : (do
        let issuedAt ← atoll lang iat
        let expiresAt ← atoll lang exp
        return some (⟨cn, role, jti, issuedAt, expiresAt⟩ : Claims)) = none ↔
          atoll lang iat = none ∨ atoll lang exp = none := by
      cases atoll lang iat <;> cases atoll lang exp <;> simp
    refine either.trans ?_
    rw [raises, raises, ← and_or_left]
    refine and_congr_right fun _ => ?_
    constructor
    · exact fun long => ⟨cn, role, iat, exp, jti, rfl, long⟩
    · rintro ⟨_, _, _, _, _, same, long⟩
      cases same
      exact long

end Harpia
