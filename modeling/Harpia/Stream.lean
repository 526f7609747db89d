import Mathlib.Algebra.Order.Floor.Ring
import Mathlib.Data.Rat.Floor

namespace Harpia

inductive StreamStatus
  | ok
  | invalid
  | timeout
  | stopped
  deriving DecidableEq, Repr

/-- Durations are in milliseconds. -/
structure StreamConfig where
  endpoint : String
  topic : String := ""
  readTimeoutMs : Int := 1000
  stopDeadlineMs : Int := 30000
  reclaimAfterMs : Int := 60000
  maxRecords : Int := 10000
  deriving DecidableEq, Repr

def streamSchemes : List String := ["tcp://", "ipc://", "inproc://"]

/-- C++ asks for an endpoint that is not empty before it looks for the scheme. -/
def streamConfigValid (c : StreamConfig) : Bool :=
  (streamSchemes.any fun scheme => scheme.toList.isPrefixOf c.endpoint.toList) &&
    decide (0 < c.readTimeoutMs) && decide (0 < c.stopDeadlineMs) && c.maxRecords != 0

/-- `msg` is set only when `status` is `ok`. -/
structure ReadResult (M : Type) where
  status : StreamStatus
  msg : Option M
  deriving DecidableEq

/-- A SUB socket. It has an endpoint once connected, a topic once subscribed. -/
structure StreamSocket where
  rcvtimeo : Int := -1
  endpoint : Option String := none
  topic : Option String := none

/-- What `setup` does to sockets, each of which may raise. -/
inductive SetupOp
  | close
  | socket
  | applyClient
  | linger
  | rcvtimeo
  | connect
  | subscribe
  deriving DecidableEq, Repr

/-- What is done to the new socket, in this order in both languages. -/
def configuring : List SetupOp := [.applyClient, .linger, .rcvtimeo, .connect, .subscribe]

namespace StreamSocket

def apply (config : StreamConfig) (sock : StreamSocket) : SetupOp → StreamSocket
  | .rcvtimeo => { sock with rcvtimeo := config.readTimeoutMs }
  | .connect => { sock with endpoint := some config.endpoint }
  | .subscribe => { sock with topic := some config.topic }
  | _ => sock

/-- The socket after the operations up to the first that raises, and whether none does. -/
def configure (config : StreamConfig) (fails : SetupOp → Bool) :
    StreamSocket → List SetupOp → StreamSocket × Bool
  | sock, [] => (sock, true)
  | sock, op :: ops =>
    if fails op then (sock, false) else configure config fails (sock.apply config op) ops

end StreamSocket

/-- What one `read` meets: the clock when it is called and each time it asks for the time, in
seconds, and the frame that `recv` gives it before the timeout, if any. -/
structure Wire (F : Type) where
  start : ℚ
  reclaimAt : ℚ
  watchAt : ℚ
  frame : Option F
  receivedAt : ℚ
  parsedAt : ℚ

/-- A stream in Python. -/
structure Stream where
  socket : Option StreamSocket := none
  config : StreamConfig := { endpoint := "" }
  state : StreamStatus := .invalid
  lastReadOk : ℚ := 0
  lastActivity : ℚ := 0

namespace Stream

variable {F M : Type}

def elapsedMs (since now : ℚ) : ℚ := (now - since) * 1000

def kill (s : Stream) : Stream := { s with socket := none }

/-- The answer is `none` when an operation raises; the half-made socket is then dropped. -/
def setup (s : Stream) (config : StreamConfig) (fails : SetupOp → Bool) (now : ℚ) :
    Stream × Option StreamStatus :=
  if !streamConfigValid config then (s, some .invalid)
  else if s.socket.isSome && fails .close then (s, none)
  else
    let s := { s.kill with config := config }
    if fails .socket then (s, none)
    else
      let r := StreamSocket.configure config fails {} configuring
      if r.2 then
        ({ s with socket := some r.1, state := .ok, lastReadOk := now, lastActivity := now },
          some .ok)
      else (s, none)

def reclaimIfDead (s : Stream) (now : ℚ) : Stream × Bool :=
  if s.socket.isSome && s.state = .ok && s.config.reclaimAfterMs ≤ elapsedMs s.lastActivity now then
    ({ s.kill with state := .invalid }, true)
  else (s, false)

def setRcvtimeo (s : Stream) (wait : Int) : Stream :=
  { s with socket := s.socket.map fun sock => { sock with rcvtimeo := wait } }

def read (parse : F → Option M) (s : Stream) (timeoutMs : Option Int) (wire : Wire F) :
    Stream × ReadResult M :=
  if s.state = .stopped then (s, ⟨.stopped, none⟩)
  else if s.state ≠ .ok ∨ s.socket = none then (s, ⟨.invalid, none⟩)
  else
    let r := s.reclaimIfDead wire.reclaimAt
    if r.2 then (r.1, ⟨.invalid, none⟩)
    else if s.config.stopDeadlineMs ≤ elapsedMs s.lastReadOk wire.watchAt then
      ({ s.kill with state := .invalid }, ⟨.invalid, none⟩)
    else
      let s := s.setRcvtimeo (max (timeoutMs.getD s.config.readTimeoutMs) 1)
      match wire.frame with
      | none => (s, ⟨.timeout, none⟩)
      | some frame =>
        let s := { s with lastActivity := wire.receivedAt }
        match parse frame with
        | none => (s, ⟨.invalid, none⟩)
        | some msg => ({ s with lastReadOk := wire.parsedAt }, ⟨.ok, some msg⟩)

def stop (s : Stream) (now : ℚ) : Stream × StreamStatus :=
  let s := (s.reclaimIfDead now).1.kill
  (if s.state ≠ .invalid then { s with state := .stopped } else s, .stopped)

end Stream

/-- A stream in C++. The handle `socket` can be live while `open_` is not set. -/
structure NamedStream where
  socket : Option StreamSocket := none
  config : StreamConfig := { endpoint := "" }
  open_ : Bool := false
  state : StreamStatus := .invalid
  lastReadOk : ℚ := 0
  lastActivity : ℚ := 0

namespace NamedStream

variable {F M : Type}

/-- A duration cast goes to whole milliseconds, toward zero. -/
def elapsedMs (since now : ℚ) : Int :=
  let ms := (now - since) * 1000
  if 0 ≤ ms then ⌊ms⌋ else ⌈ms⌉

def kill (s : NamedStream) : NamedStream :=
  if s.open_ then { s with socket := none, open_ := false } else s

/-- The answer is `none` when an operation throws. To assign the new socket closes the old one,
and that does not throw. -/
def setup (s : NamedStream) (config : StreamConfig) (fails : SetupOp → Bool) (now : ℚ) :
    NamedStream × Option StreamStatus :=
  if !streamConfigValid config then (s, some .invalid)
  else
    let s := { s with config := config }
    if fails .socket then (s, none)
    else
      let r := StreamSocket.configure config fails {} configuring
      let s := { s with socket := some r.1 }
      if r.2 then
        ({ s with open_ := true, state := .ok, lastReadOk := now, lastActivity := now }, some .ok)
      else (s, none)

def reclaimIfDead (s : NamedStream) (now : ℚ) : NamedStream × Bool :=
  if s.open_ && s.state = .ok && s.config.reclaimAfterMs ≤ elapsedMs s.lastActivity now then
    ({ s.kill with state := .invalid }, true)
  else (s, false)

def setRcvtimeo (s : NamedStream) (wait : Int) : NamedStream :=
  { s with socket := s.socket.map fun sock => { sock with rcvtimeo := wait } }

/-- The form without a timeout passes the config's. -/
def read (parse : F → Option M) (s : NamedStream) (timeoutMs : Option Int) (wire : Wire F) :
    NamedStream × ReadResult M :=
  if s.state = .stopped then (s, ⟨.stopped, none⟩)
  else if s.state ≠ .ok then (s, ⟨.invalid, none⟩)
  else
    let r := s.reclaimIfDead wire.reclaimAt
    if r.2 then (r.1, ⟨.invalid, none⟩)
    else if s.config.stopDeadlineMs ≤ elapsedMs s.lastReadOk wire.watchAt then
      ({ s.kill with state := .invalid }, ⟨.invalid, none⟩)
    else
      let timeoutMs := timeoutMs.getD s.config.readTimeoutMs
      let s := s.setRcvtimeo (if timeoutMs ≤ 0 then 1 else timeoutMs)
      match wire.frame with
      | none => (s, ⟨.timeout, none⟩)
      | some frame =>
        let s := { s with lastActivity := wire.receivedAt }
        match parse frame with
        | none => (s, ⟨.invalid, none⟩)
        | some decoded => ({ s with lastReadOk := wire.parsedAt }, ⟨.ok, some decoded⟩)

def stop (s : NamedStream) (now : ℚ) : NamedStream × StreamStatus :=
  let s := (s.reclaimIfDead now).1.kill
  (if s.state ≠ .invalid then { s with state := .stopped } else s, .stopped)

end NamedStream

/-- A call on a stream. The operations of a `setup` that raise are given with it, and the clock
of each call. -/
inductive StreamCall (F : Type)
  | setup (config : StreamConfig) (fails : SetupOp → Bool) (now : ℚ)
  | read (timeoutMs : Option Int) (wire : Wire F)
  | stop (now : ℚ)
  | state

inductive StreamAnswer (M : Type)
  | raised
  | status (s : StreamStatus)
  | result (r : ReadResult M)
  deriving DecidableEq

variable {F M : Type}

def StreamAnswer.ofSetup : Option StreamStatus → StreamAnswer M
  | none => .raised
  | some s => .status s

def Stream.step (parse : F → Option M) (s : Stream) : StreamCall F → Stream × StreamAnswer M
  | .setup config fails now => (s.setup config fails now).map id .ofSetup
  | .read timeoutMs wire => (s.read parse timeoutMs wire).map id .result
  | .stop now => (s.stop now).map id .status
  | .state => (s, .status s.state)

def NamedStream.step (parse : F → Option M) (s : NamedStream) :
    StreamCall F → NamedStream × StreamAnswer M
  | .setup config fails now => (s.setup config fails now).map id .ofSetup
  | .read timeoutMs wire => (s.read parse timeoutMs wire).map id .result
  | .stop now => (s.stop now).map id .status
  | .state => (s, .status s.state)

/-- The readings of the clock, in the order they are made in. -/
def StreamCall.clock : StreamCall F → List ℚ
  | .setup _ _ now => [now]
  | .read _ wire => [wire.start, wire.reclaimAt, wire.watchAt, wire.receivedAt, wire.parsedAt]
  | .stop now => [now]
  | .state => []

def MonotoneClock (calls : List (StreamCall F)) : Prop :=
  (calls.flatMap StreamCall.clock).Pairwise (· ≤ ·)

end Harpia
