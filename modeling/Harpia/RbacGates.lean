import Harpia.SessionTokens

namespace Harpia

/-- Transport-neutral operation kinds. -/
inductive Operation
  | read
  | list
  | create
  | update
  | remove
  | stream
  | heartbeat
  deriving DecidableEq, Repr

inductive Decision
  | allow
  | unauthenticated
  | forbidden
  deriving DecidableEq, Repr

def Role.name : Role → String
  | .none => "none"
  | .guest => "guest"
  | .main => "main"
  | .admin => "admin"

def Operation.name : Operation → String
  | .read => "read"
  | .list => "list"
  | .create => "create"
  | .update => "update"
  | .remove => "remove"
  | .stream => "stream"
  | .heartbeat => "heartbeat"

def Decision.name : Decision → String
  | .allow => "allow"
  | .unauthenticated => "unauthenticated"
  | .forbidden => "forbidden"

/-- The fixed role and operation matrix. -/
def permitted (role : Role) (op : Operation) : Bool :=
  op = .heartbeat || role = .admin || (role = .main && op ≠ .remove) ||
    (role = .guest && (op = .read || op = .list || op = .stream))

def GateEnv.roleFor (env : GateEnv) (cn : Bytes) : Role :=
  if cn = [] then .none else (env.roleMap.get? cn).getD .none

def rbacDenied (cn : Bytes) (role : Role) (op : Operation) (subject : String) (d : Decision) : AuditRecord :=
  { operation := "rbac_denied"
    subject := subject
    detail := Bytes.ofText "cn=".toList ++ orNone cn
      ++ Bytes.ofText (" role=" ++ role.name ++ " op=" ++ op.name ++ " decision=" ++ d.name).toList }

/-- The decision for an identity, with the records written. -/
def rbacDecide (env : GateEnv) (cn : Bytes) (op : Operation) (subject : String) : Decision × List AuditRecord :=
  if op = .heartbeat then (.allow, [])
  else
    let role := env.roleFor cn
    if cn = [] then (.unauthenticated, [rbacDenied cn role op subject .unauthenticated])
    else if permitted role op then (.allow, [])
    else (.forbidden, [rbacDenied cn role op subject .forbidden])

/-- What a gate does with a call: let it proceed, answer it, or leave by an exception. -/
inductive GateAnswer (α : Type)
  | proceed
  | refuse (reply : α)
  | raised
  deriving DecidableEq

/-- The RBAC gate that the transports share: the CN of a bearer token that verifies, else, where no
    token is presented, the peer's; `invalid` answers a token that does not verify. -/
def rbacGate {α : Type} (invalid : α) (denied : Decision → α) (lang : Lang) (env : GateEnv)
    (subject : String) (header : List Char) (peerCn : Bytes) (op : Operation) :
    GateAnswer α × List AuditRecord :=
  match fromAuthorization lang env header with
  | (none, log) => (.raised, log)
  | (some bearer, log) =>
    if bearer.present ∧ bearer.verdict ≠ .ok then (.refuse invalid, log)
    else
      let cn := if bearer.present then bearer.cn else peerCn
      let (d, written) := rbacDecide env cn op subject
      (if d = .allow then .proceed else .refuse (denied d), log ++ written)

/-- REST answers with a status and an empty body. -/
def restRbacGate : Lang → GateEnv → String → List Char → Bytes → Operation →
    GateAnswer Nat × List AuditRecord :=
  rbacGate 401 fun d => if d = .unauthenticated then 401 else 403

def soapOperation : String → Option Operation
  | "get" => some .read
  | "set" => some .create
  | "update" => some .update
  | "delete" => some .remove
  | _ => none

/-- A status and a `Client.Authentication` fault string. -/
def soapDenied (d : Decision) : Nat × String := (if d = .unauthenticated then 401 else 403, d.name)

/-- An unknown operation is not gated, except that a presented token has to verify. -/
def soapRbacGate (lang : Lang) (env : GateEnv) (subject : String) (header : List Char) (peerCn : Bytes)
    (operation : String) : GateAnswer (Nat × String) × List AuditRecord :=
  match soapOperation operation with
  | some op => rbacGate (401, "invalid session token") soapDenied lang env subject header peerCn op
  | none =>
    match fromAuthorization lang env header with
    | (none, log) => (.raised, log)
    | (some bearer, log) =>
      if bearer.present ∧ bearer.verdict ≠ .ok then (.refuse (401, "invalid session token"), log)
      else (.proceed, log)

inductive GrpcCode
  | unauthenticated
  | permissionDenied
  deriving DecidableEq

def grpcRbacGate : Lang → GateEnv → String → List Char → Bytes → Operation →
    GateAnswer (GrpcCode × String) × List AuditRecord :=
  rbacGate (.unauthenticated, "invalid session token") fun d =>
    if d = .unauthenticated then (.unauthenticated, "unauthenticated") else (.permissionDenied, "forbidden")

/-- A gated call of one of the transports. -/
inductive GatedCall
  | rest (op : Operation)
  | soap (operation : String)
  | grpc (op : Operation)

/-- The operations each transport gates, by the role check they get. -/
def GatedCall.operation : GatedCall → Option Operation
  | .rest op => if op ∈ [.list, .read, .create, .update, .remove] then some op else none
  | .soap operation => soapOperation operation
  | .grpc op => if op ∈ [.create, .read, .stream] then some op else none

inductive GateReply
  | status (code : Nat)
  | fault (code : Nat) (text : String)
  | grpcStatus (code : GrpcCode) (text : String)
  deriving DecidableEq

def GateAnswer.map {α β : Type} (f : α → β) : GateAnswer α → GateAnswer β
  | .proceed => .proceed
  | .refuse reply => .refuse (f reply)
  | .raised => .raised

/-- The gate of a call on its transport. -/
def GatedCall.gate (call : GatedCall) (lang : Lang) (env : GateEnv) (subject : String)
    (header : List Char) (peerCn : Bytes) : GateAnswer GateReply × List AuditRecord :=
  match call with
  | .rest op =>
    let (answer, log) := restRbacGate lang env subject header peerCn op
    (answer.map .status, log)
  | .soap operation =>
    let (answer, log) := soapRbacGate lang env subject header peerCn operation
    (answer.map fun r => .fault r.1 r.2, log)
  | .grpc op =>
    let (answer, log) := grpcRbacGate lang env subject header peerCn op
    (answer.map fun r => .grpcStatus r.1 r.2, log)

/-- The identity a call is gated on: the CN of a bearer token that verifies, else, where no token is
    presented, the peer's. -/
def Identity (lang : Lang) (env : GateEnv) (header : List Char) (peerCn cn : Bytes) : Prop :=
  (bearerToken header = [] ∧ cn = peerCn) ∨
    (bearerToken header ≠ [] ∧ ∃ c, Verifies lang env (bearerToken header) c ∧ cn = c.cn)

/-- The identity is known and mapped to a role that may perform the operation. -/
def Admitted (lang : Lang) (env : GateEnv) (header : List Char) (peerCn : Bytes) (op : Operation) : Prop :=
  ∃ cn, Identity lang env header peerCn cn ∧ cn ≠ [] ∧
    ∃ role, env.roleMap.get? cn = some role ∧ permitted role op

/-- What a gate promises: a call proceeds exactly when it is admitted, a presented token that does
    not verify is refused, a call that does not proceed leaves one record and an allowed one none. -/
def GateKeeps {α : Type} (lang : Lang) (env : GateEnv) (header : List Char) (peerCn : Bytes)
    (op : Operation) (result : GateAnswer α × List AuditRecord) : Prop :=
  (result.1 = .proceed ↔ Admitted lang env header peerCn op) ∧
    (bearerToken header ≠ [] → (∀ c, ¬ Verifies lang env (bearerToken header) c) →
      ∃ reply, result.1 = .refuse reply) ∧
    (result.1 ≠ .proceed → result.2.length = 1) ∧ (result.1 = .proceed → result.2 = [])

/-- A token whose issue or expiry time Python cannot convert. -/
def NumberTooLong (lang : Lang) (env : GateEnv) (header : List Char) : Prop :=
  lang = .python ∧ env.key ≠ [] ∧ bearerToken header ≠ [] ∧ ∃ cn role iat exp jti,
    tokenLines lang (bearerToken header) = some (cn, role, iat, exp, jti) ∧
      (maxStrDigits < (leadingDigits iat).length ∨ maxStrDigits < (leadingDigits exp).length)

theorem permitted_none {op : Operation} (h : op ≠ .heartbeat) : permitted .none op = false := by
  cases op <;> simp_all [permitted]

/-- The decision for a gated operation, and its single record unless it is to allow. -/
theorem rbacDecide_cases (env : GateEnv) (cn : Bytes) {op : Operation} (h : op ≠ .heartbeat)
    (subject : String) :
    ((cn ≠ [] ∧ ∃ role, env.roleMap.get? cn = some role ∧ permitted role op) ∧
      rbacDecide env cn op subject = (.allow, [])) ∨
    (¬ (cn ≠ [] ∧ ∃ role, env.roleMap.get? cn = some role ∧ permitted role op) ∧
      ∃ d r, d ≠ .allow ∧ rbacDecide env cn op subject = (d, [r])) := by
  by_cases empty : cn = []
  · refine Or.inr ⟨fun hc => hc.1 empty, .unauthenticated,
      rbacDenied cn (env.roleFor cn) op subject .unauthenticated, by decide, ?_⟩
    simp only [rbacDecide, if_neg h, if_pos empty]
  have role : env.roleFor cn = (env.roleMap.get? cn).getD .none := if_neg empty
  by_cases allowed : permitted (env.roleFor cn) op
  · refine Or.inl ⟨⟨empty, ?_⟩, ?_⟩
    · rw [role] at allowed
      cases hm : env.roleMap.get? cn with
      | none =>
        rw [hm, Option.getD_none, permitted_none h] at allowed
        cases allowed
      | some mapped =>
        rw [hm, Option.getD_some] at allowed
        exact ⟨mapped, rfl, allowed⟩
    · simp only [rbacDecide, if_neg h, if_neg empty, if_pos allowed]
  · refine Or.inr ⟨?_, .forbidden, rbacDenied cn (env.roleFor cn) op subject .forbidden, by decide, ?_⟩
    · rintro ⟨-, mapped, hm, hp⟩
      rw [role, hm, Option.getD_some] at allowed
      exact allowed hp
    · simp only [rbacDecide, if_neg h, if_neg empty, if_neg allowed]

/-- A gate that reaches its decision for the identity `cn` keeps its promise. -/
theorem gateKeeps_of_decide {α : Type} {lang : Lang} {env : GateEnv} {header : List Char} {peerCn : Bytes}
    {op : Operation} (h : op ≠ .heartbeat) {subject : String} {cn : Bytes} (denied : Decision → α)
    (identity : ∀ cn', Identity lang env header peerCn cn' ↔ cn' = cn)
    (verified : bearerToken header ≠ [] → ∃ c, Verifies lang env (bearerToken header) c) :
    GateKeeps lang env header peerCn op
      (if (rbacDecide env cn op subject).1 = .allow then .proceed
        else GateAnswer.refuse (denied (rbacDecide env cn op subject).1),
       (rbacDecide env cn op subject).2) := by
  have admitted : Admitted lang env header peerCn op ↔
      cn ≠ [] ∧ ∃ role, env.roleMap.get? cn = some role ∧ permitted role op := by
    simp only [Admitted, identity, exists_eq_left]
  have presented : ¬ (bearerToken header ≠ [] ∧ ∀ c, ¬ Verifies lang env (bearerToken header) c) := by
    rintro ⟨hp, hv⟩
    obtain ⟨c, hc⟩ := verified hp
    exact hv c hc
  rcases rbacDecide_cases env cn h subject with ⟨ok, hd⟩ | ⟨no, d, r, hne, hd⟩
  · rw [hd]
    exact ⟨by simpa [admitted] using ok, fun hp hv => absurd ⟨hp, hv⟩ presented, by simp, by simp⟩
  · rw [hd]
    exact ⟨by simpa [admitted, hne] using no, fun hp hv => absurd ⟨hp, hv⟩ presented, by simp, by simp [hne]⟩

/-- The shared gate keeps its promise unless Python has to convert too long a number. -/
theorem rbacGate_keeps_iff {α : Type} (invalid : α) (denied : Decision → α) (lang : Lang) (env : GateEnv)
    (subject : String) (header : List Char) (peerCn : Bytes) {op : Operation} (h : op ≠ .heartbeat) :
    GateKeeps lang env header peerCn op (rbacGate invalid denied lang env subject header peerCn op) ↔
      ¬ NumberTooLong lang env header := by
  by_cases blank : bearerToken header = []
  · have run : rbacGate invalid denied lang env subject header peerCn op
        = (if (rbacDecide env peerCn op subject).1 = .allow then .proceed
            else .refuse (denied (rbacDecide env peerCn op subject).1),
          (rbacDecide env peerCn op subject).2) := by
      simp [rbacGate, fromAuthorization, blank]
    rw [run]
    refine iff_of_true (gateKeeps_of_decide h denied ?_ fun hp => absurd blank hp) fun hn => hn.2.2.1 blank
    intro cn
    simp [Identity, blank]
  have long : NumberTooLong lang env header ↔
      env.key ≠ [] ∧ decode lang (bearerToken header) = none := by
    rw [NumberTooLong, decode_eq_none_iff]
    constructor
    · rintro ⟨python, key, -, lines⟩
      exact ⟨key, python, lines⟩
    · rintro ⟨key, python, lines⟩
      exact ⟨python, key, blank, lines⟩
  rw [long]
  rcases verify_cases lang env (bearerToken header) with ⟨key, raises, hv⟩ | ⟨sound, ⟨c, ok, hv⟩ | ⟨v, r, bad, hne, hv⟩⟩
  · have run : rbacGate invalid denied lang env subject header peerCn op = (.raised, []) := by
      simp [rbacGate, fromAuthorization, blank, hv]
    rw [run]
    refine iff_of_false (fun keeps => ?_) fun hn => hn ⟨key, raises⟩
    have one := keeps.2.2.1 (by simp)
    simp at one
  · have run : rbacGate invalid denied lang env subject header peerCn op
        = (if (rbacDecide env c.cn op subject).1 = .allow then .proceed
            else .refuse (denied (rbacDecide env c.cn op subject).1),
          (rbacDecide env c.cn op subject).2) := by
      simp [rbacGate, fromAuthorization, blank, hv]
    rw [run]
    refine iff_of_true (gateKeeps_of_decide h denied ?_ fun _ => ⟨c, ok⟩) sound
    intro cn
    constructor
    · rintro (⟨hb, -⟩ | ⟨-, c', hc', rfl⟩)
      · exact absurd hb blank
      · rw [verifies_unique hc' ok]
    · rintro rfl
      exact Or.inr ⟨blank, c, ok, rfl⟩
  · have run : rbacGate invalid denied lang env subject header peerCn op = (.refuse invalid, [r]) := by
      simp [rbacGate, fromAuthorization, blank, hv, hne]
    have nobody : ¬ Admitted lang env header peerCn op := by
      rintro ⟨cn, (⟨hb, -⟩ | ⟨-, c, hc, -⟩), -⟩
      · exact blank hb
      · exact bad c hc
    rw [run]
    refine iff_of_true ?_ sound
    exact ⟨by simpa using nobody, fun _ _ => ⟨invalid, rfl⟩, by simp, by simp⟩

theorem gateKeeps_map {α β : Type} (f : α → β) {lang : Lang} {env : GateEnv} {header : List Char}
    {peerCn : Bytes} {op : Operation} (result : GateAnswer α × List AuditRecord) :
    GateKeeps lang env header peerCn op (result.1.map f, result.2) ↔
      GateKeeps lang env header peerCn op result := by
  obtain ⟨answer, log⟩ := result
  cases answer <;> simp [GateKeeps, GateAnswer.map]

theorem GatedCall.operation_ne_heartbeat {call : GatedCall} {op : Operation}
    (h : call.operation = some op) : op ≠ .heartbeat := by
  rintro rfl
  cases call with
  | rest op =>
    simp only [GatedCall.operation] at h
    split at h
    next hm =>
      cases h
      simp at hm
    next => cases h
  | soap operation =>
    simp only [GatedCall.operation, soapOperation] at h
    split at h <;> cases h
  | grpc op =>
    simp only [GatedCall.operation] at h
    split at h
    next hm =>
      cases h
      simp at hm
    next => cases h

theorem restRbacGate_keeps_iff (lang : Lang) (env : GateEnv) (subject : String) (header : List Char)
    (peerCn : Bytes) {op : Operation} (h : op ≠ .heartbeat) :
    GateKeeps lang env header peerCn op (restRbacGate lang env subject header peerCn op) ↔
      ¬ NumberTooLong lang env header := rbacGate_keeps_iff _ _ lang env subject header peerCn h

theorem grpcRbacGate_keeps_iff (lang : Lang) (env : GateEnv) (subject : String) (header : List Char)
    (peerCn : Bytes) {op : Operation} (h : op ≠ .heartbeat) :
    GateKeeps lang env header peerCn op (grpcRbacGate lang env subject header peerCn op) ↔
      ¬ NumberTooLong lang env header := rbacGate_keeps_iff _ _ lang env subject header peerCn h

theorem soapRbacGate_keeps_iff (lang : Lang) (env : GateEnv) (subject : String) (header : List Char)
    (peerCn : Bytes) {operation : String} {op : Operation} (known : soapOperation operation = some op)
    (h : op ≠ .heartbeat) :
    GateKeeps lang env header peerCn op (soapRbacGate lang env subject header peerCn operation) ↔
      ¬ NumberTooLong lang env header := by
  simp only [soapRbacGate, known]
  exact rbacGate_keeps_iff _ _ lang env subject header peerCn h

theorem restCall_keeps_iff (lang : Lang) (env : GateEnv) (subject : String) (header : List Char)
    (peerCn : Bytes) {op : Operation} (h : op ≠ .heartbeat) :
    GateKeeps lang env header peerCn op (GatedCall.gate (.rest op) lang env subject header peerCn) ↔
      ¬ NumberTooLong lang env header :=
  (gateKeeps_map GateReply.status (restRbacGate lang env subject header peerCn op)).trans
    (restRbacGate_keeps_iff lang env subject header peerCn h)

/-- On every transport and in both languages, the gate of a gated call keeps its promise exactly
    when no token is presented that carries a number of more digits than Python converts. -/
theorem gate_keeps_iff (call : GatedCall) {op : Operation} (h : call.operation = some op) (lang : Lang)
    (env : GateEnv) (subject : String) (header : List Char) (peerCn : Bytes) :
    GateKeeps lang env header peerCn op (call.gate lang env subject header peerCn) ↔
      ¬ NumberTooLong lang env header := by
  have gated := GatedCall.operation_ne_heartbeat h
  cases call with
  | rest op' =>
    have same : op' = op := by
      simp only [GatedCall.operation] at h
      split at h
      · exact Option.some.inj h
      · cases h
    subst same
    exact restCall_keeps_iff lang env subject header peerCn gated
  | soap operation =>
    exact (gateKeeps_map (fun r => GateReply.fault r.1 r.2)
      (soapRbacGate lang env subject header peerCn operation)).trans
        (soapRbacGate_keeps_iff lang env subject header peerCn h gated)
  | grpc op' =>
    have same : op' = op := by
      simp only [GatedCall.operation] at h
      split at h
      · exact Option.some.inj h
      · cases h
    subst same
    exact (gateKeeps_map (fun r => GateReply.grpcStatus r.1 r.2)
      (grpcRbacGate lang env subject header peerCn op')).trans
        (grpcRbacGate_keeps_iff lang env subject header peerCn gated)

/-- A deployment with one guest and a session key. -/
def sampleEnv (hmacSha256Hex : Bytes → Bytes → List Char) : GateEnv :=
  { key := [1]
    revocations := none
    roleMap := Dict.empty.set (Bytes.ofText "ana".toList) .guest
    now := 1000
    hmacSha256Hex := hmacSha256Hex }

theorem gate_keeps_soapGet :
    GateKeeps .cpp (sampleEnv fun _ _ => []) [] (Bytes.ofText "ana".toList) .read
      (GatedCall.gate (.soap "get") .cpp (sampleEnv fun _ _ => []) "shop" [] (Bytes.ofText "ana".toList)) :=
  (gate_keeps_iff (.soap "get") rfl .cpp _ _ _ _).mpr fun h => by cases h.1

/-- A token with an empty MAC whose payload has the lines `a`, `b`, `3 n + 2` zeros, `1` and `abc`. -/
def zerosBody (n : Nat) : List Char :=
  ['Y', 'Q', 'p', 'i', 'C', 'j', 'A', 'w']
    ++ ((List.replicate n ['M', 'D', 'A', 'w']).flatten ++ ['C', 'j', 'E', 'K', 'Y', 'W', 'J', 'j'])

def zerosToken (n : Nat) : List Char := ['v', '1', '.'] ++ zerosBody n ++ ['.']

theorem b64Loop_zeros (n buf : Nat) (rest : List Char) (bytes : Bytes)
    (h : ∀ buf, b64Loop .python rest buf 0 = some bytes) :
    b64Loop .python ((List.replicate n ['M', 'D', 'A', 'w']).flatten ++ rest) buf 0
      = some (List.replicate (3 * n) 48 ++ bytes) := by
  induction n generalizing buf with
  | zero => exact h buf
  | succ n ih =>
    have group := @b64Loop_group 'M' 'D' 'A' 'w' 12 3 0 48 (by decide) (by decide) (by decide) (by decide) (by decide) (by decide)
      (by decide) (by decide) ((List.replicate n ['M', 'D', 'A', 'w']).flatten ++ rest) buf
    rw [ih] at group
    exact group

theorem b64urlDecode_zeros (n : Nat) :
    b64urlDecode .python (zerosBody n)
      = some ([97, 10, 98, 10, 48, 48] ++ (List.replicate (3 * n) 48 ++ [10, 49, 10, 97, 98, 99])) := by
  have tail : ∀ buf, b64Loop .python ['C', 'j', 'E', 'K', 'Y', 'W', 'J', 'j'] buf 0 = some [10, 49, 10, 97, 98, 99] := by
    intro buf
    exact @b64Loop_group 'C' 'j' 'E' 'K' 2 35 4 10 (by decide) (by decide) (by decide) (by decide) (by decide) (by decide) (by decide)
      (by decide) ['Y', 'W', 'J', 'j'] buf
  have second := @b64Loop_group 'C' 'j' 'A' 'w' 2 35 0 48 (by decide) (by decide) (by decide) (by decide) (by decide) (by decide)
    (by decide) (by decide) ((List.replicate n ['M', 'D', 'A', 'w']).flatten ++ ['C', 'j', 'E', 'K', 'Y', 'W', 'J', 'j'])
    (((24 * 64 + 16) * 64 + 41) * 64 + 34)
  have first := @b64Loop_group 'Y' 'Q' 'p' 'i' 24 16 41 34 (by decide) (by decide) (by decide) (by decide) (by decide) (by decide)
    (by decide) (by decide)
    ('C' :: 'j' :: 'A' :: 'w' :: ((List.replicate n ['M', 'D', 'A', 'w']).flatten ++ ['C', 'j', 'E', 'K', 'Y', 'W', 'J', 'j'])) 0
  rw [b64Loop_zeros n _ _ _ tail] at second
  rw [second] at first
  exact first

theorem splitToken_zeros (n : Nat) : splitToken (zerosToken n) = some (zerosBody n, []) := by
  have v1 : "v1.".toList = ['v', '1', '.'] := by decide
  have marked : ['v', '1', '.'].isPrefixOf (zerosToken n) = true := by
    rw [zerosToken, List.append_assoc]
    exact List.isPrefixOf_iff_prefix.mpr (List.prefix_append _ _)
  have noMac : (zerosToken n).rtakeWhile (· ≠ '.') = [] := by
    rw [zerosToken]
    exact List.rtakeWhile_concat_neg _ _ '.' (by decide)
  have length : (zerosToken n).length = (['v', '1', '.'] ++ zerosBody n).length + 1 := by
    rw [zerosToken, List.length_append, List.length_singleton]
  have body : 8 ≤ (zerosBody n).length := by
    simp only [zerosBody, List.length_append, List.length_cons, List.length_nil]
    omega
  have long : ¬ (zerosToken n).length - 0 - 1 ≤ 2 := by
    rw [length, List.length_append]
    omega
  simp only [splitToken, v1, marked, if_true, noMac, List.length_nil, if_neg long]
  rw [length, Nat.sub_zero, Nat.add_sub_cancel, zerosToken, List.take_left]
  rfl

/-- The number in the third line grows with `n`. -/
theorem tokenLines_zeros (n : Nat) :
    tokenLines .python (zerosToken n)
      = some ([97], [98], 48 :: 48 :: List.replicate (3 * n) 48, [49], [97, 98, 99]) := by
  have split : ([97, 10, 98, 10, 48, 48] ++ (List.replicate (3 * n) 48 ++ [10, 49, 10, 97, 98, 99]) : Bytes).splitOn 10
      = [[97], [98], 48 :: 48 :: List.replicate (3 * n) 48, [49], [97, 98, 99]] := by
    have a : ([97, 10, 98, 10, 48, 48] ++ (List.replicate (3 * n) 48 ++ [10, 49, 10, 97, 98, 99]) : Bytes)
        = [97] ++ 10 :: ([98] ++ 10 :: ((48 :: 48 :: List.replicate (3 * n) 48) ++ 10 :: [49, 10, 97, 98, 99])) := by
      simp
    have zeros : ∀ b ∈ (48 :: 48 :: List.replicate (3 * n) (48 : UInt8)), (b == 10) = false := by
      intro b hb
      have same : b = 48 := by
        simp only [List.mem_cons, List.mem_replicate] at hb
        tauto
      rw [same]
      rfl
    rw [a, List.splitOn, List.splitOnP_append_cons_of_forall_mem (by simp) 10 (by simp),
      List.splitOnP_append_cons_of_forall_mem (by simp) 10 (by simp),
      List.splitOnP_append_cons_of_forall_mem zeros 10 (by simp)]
    rfl
  have last : ([97, 10, 98, 10, 48, 48] ++ (List.replicate (3 * n) 48 ++ [10, 49, 10, 97, 98, 99]) : Bytes).getLast?
      ≠ some 10 := by
    rw [← List.append_assoc, List.getLast?_append]
    simp
  simp only [tokenLines, splitToken_zeros, b64urlDecode_zeros, Option.bind_eq_bind, Option.bind_some,
    payloadLines, if_neg last, split]

theorem leadingDigits_zeros (n : Nat) :
    (leadingDigits (48 :: 48 :: List.replicate n 48)).length = n + 2 := by
  have all : ∀ b ∈ (48 :: 48 :: List.replicate n (48 : UInt8)), isDigitByte b := by
    intro b hb
    have same : b = 48 := by
      simp only [List.mem_cons, List.mem_replicate] at hb
      tauto
    rw [same]
    rfl
  have blank : (48 :: 48 :: List.replicate n (48 : UInt8)).dropWhile isSpaceByte
      = 48 :: 48 :: List.replicate n 48 := List.dropWhile_cons_of_neg (by decide)
  have taken := List.takeWhile_eq_self_iff.mpr all
  simp [leadingDigits, blank, taken]

/-- A bare token is taken as it is. -/
theorem bearerToken_zeros (n : Nat) : bearerToken (zerosToken n) = zerosToken n := by
  have bare : ¬ ((zerosToken n).take 7).map Char.toLower = "bearer ".toList := by
    have start : (zerosToken n).take 7 = ['v', '1', '.', 'Y', 'Q', 'p', 'i'] := rfl
    rw [start]
    decide
  have first : (zerosToken n).dropWhile (fun c => c = ' ' || c = '\t') = zerosToken n :=
    List.dropWhile_cons_of_neg (by decide)
  simp only [bearerToken, if_neg bare, first]
  rw [zerosToken]
  exact List.rdropWhile_concat_neg _ _ '.' (by decide)

/-- A MAC of 64 digits; no check of one is reached below. -/
def zeroMac (_ _ : Bytes) : List Char := List.replicate 64 '0'

/-- Whoever presents a token with 4304 digits gets an exception and leaves no audit record. -/
theorem not_gateKeeps_zerosToken :
    ¬ GateKeeps .python (sampleEnv zeroMac) (zerosToken 1434) [] .read
      (GatedCall.gate (.rest .read) .python (sampleEnv zeroMac) "shop" (zerosToken 1434) []) := by
  intro keeps
  have token := bearerToken_zeros 1434
  refine (restCall_keeps_iff .python _ _ _ _ (by decide)).mp keeps ⟨rfl, by simp [sampleEnv], ?_, ?_⟩
  · rw [token, zerosToken]
    exact List.append_ne_nil_of_right_ne_nil _ (List.cons_ne_nil _ _)
  · rw [token]
    refine ⟨_, _, _, _, _, tokenLines_zeros 1434, Or.inl ?_⟩
    rw [leadingDigits_zeros]
    decide

end Harpia
