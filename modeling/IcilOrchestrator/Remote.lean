import Mathlib
import IcilOrchestrator.Session

/-!
# A client, a server and the connection between them

`RemotePolicy` drives a `Session` over a socket : `Talk` is the state of both, of the
frames on their way, and of the timer of the call that runs. A call is sent frame by
frame and its reply read frame by frame; the timer may fire at any point, also too late to
be cancelled, and shuts the socket down; the policy's calls may take forever; the server
may be killed or tire of waiting; and a socket that is shut down, or whose other end has
gone, may fail a write or a read. `step` is one move of any of them.

What has happened is kept beside the state : the frames of each request, the messages the
server heard and the frames of its replies, each in order and a reply with the number of
messages heard before it, and the `trace` of what the client and the policy did.
-/

set_option linter.unusedSectionVars false

namespace IcilOrchestrator

open Python Wire Session

namespace Remote

variable {F : Type} [PyFloat F] [WireTexts F]

/-! ## Calls -/

/-- A call of the client's. -/
inductive Call (F : Type) where
  | hello
  | reset (seed : Json F)
  | setDemonstration (arrays : Mapping Value) (info : Json F)
  | act (observation : Mapping Value)
  | close

/-- The call's op. -/
def Call.op : Call F → PyStr
  | .hello => py "hello"
  | .reset _ => py "reset"
  | .setDemonstration _ _ => py "prompt"
  | .act _ => py "act"
  | .close => py "close"

/-- The op of the reply the call expects. -/
def Call.expect : Call F → PyStr
  | .act _ => py "action"
  | _ => py "ok"

/-- What `hello` says of the client. -/
def clientName : PyStr := py "icil-policy 0.1.0.dev0"

/-- The arguments are of the types the call takes. -/
def Call.typed : Call F → Bool
  | .reset (.int _) => true
  | .reset _ => false
  | .setDemonstration _ (.obj _) => true
  | .setDemonstration _ _ => false
  | _ => true

/-- The fields of the call's request. -/
def Call.fields : Call F → Dict F
  | .hello => [(py "client", .str clientName)]
  | .reset seed => [(py "seed", seed)]
  | .setDemonstration _ info => [(py "info", info)]
  | _ => []

theorem Call.nodup_fields (c : Call F) : (c.fields.map Prod.fst).Nodup := by
  cases c <;> simp [Call.fields]

/-- The arrays of the call's request. -/
def Call.arrays : Call F → Mapping Value
  | .setDemonstration arrays _ => arrays
  | .act observation => observation
  | _ => noArrays

/-- The frames of the call's request. -/
def Call.frames (c : Call F) : Except (WireError F) (List Bytes) :=
  encode c.op (fieldsOf c.fields c.nodup_fields) c.arrays

/-- `MAX_REPLY_BYTES`. -/
def maxReplyBytes : ℕ := 2 ^ 30

/-- Why a call raises `PolicyUnavailable`. -/
inductive Why (F : Type) where
  /-- The connection was closed before. -/
  | gone
  | timedOut
  | lost
  | malformed (e : RecvError F)
  | error (kind message : Json F)
  | unexpected (op : PyStr)
  | protocol (found : Json F)
  | actionType (found : Json F)
  | unusable (shape : Option (List ℕ))

/-- How a call ends. -/
inductive Outcome (F : Type) where
  | greeted (fields : Dict F)
  | done
  | acted (arrays : Arrays)
  | closed
  /-- `TypeError` or `WireError`, before anything is sent. -/
  | refused
  | unavailable (why : Why F)

/-- What ends the exchange of a call. -/
inductive Exchange (F : Type) where
  | reply (m : Message F)
  | lost
  | malformed (e : RecvError F)

/-- What a reply makes of the call, once its op is the one expected, and whether the
connection is kept. -/
def Call.answer (c : Call F) (m : Message F) : Outcome F × Bool :=
  match c with
  | .hello =>
    match Dict.get m.fields (py "protocol") with
    | .int z =>
      if z ≠ protocolVersion then (.unavailable (.protocol (.int z)), false)
      else match Dict.get m.fields (py "action_type") with
      | .str t =>
        if t ∈ actionTypes then (.greeted m.fields, true)
        else (.unavailable (.actionType (.str t)), false)
      | j => (.unavailable (.actionType j), false)
    | j => (.unavailable (.protocol j), false)
  | .act _ =>
    match m.arrays.lookup (py "action") with
    | some a =>
      if isActionShape a.shape then (.acted m.arrays, true)
      else (.unavailable (.unusable (some a.shape)), true)
    | none => (.unavailable (.unusable none), true)
  | _ => (.done, true)

/-- Whether the call is `hello`. -/
def Call.isHello : Call F → Bool
  | .hello => true
  | _ => false

/-- Whether the call is `close`. -/
def Call.isClose : Call F → Bool
  | .close => true
  | _ => false

/-- What `_call` and the method around it make of an exchange, and whether the connection
is kept. `hello` abandons it after any `PolicyUnavailable`, and `close` in every case. -/
def Call.settle (c : Call F) (expired : Bool) (x : Exchange F) : Outcome F × Bool :=
  if c.isClose then (.closed, false)
  else if expired then (.unavailable .timedOut, false)
  else match x with
  | .lost => (.unavailable .lost, false)
  | .malformed e => (.unavailable (.malformed e), false)
  | .reply m =>
    if m.op = py "error" then
      (.unavailable (.error (Dict.get m.fields (py "type")) (Dict.get m.fields (py "message"))),
        !c.isHello)
    else if m.op ≠ c.expect then (.unavailable (.unexpected m.op), false)
    else c.answer m

/-! ## The state of both ends -/

/-- The timer of a call. -/
inductive Timer where
  | off
  | armed
  /-- Its interval has passed. -/
  | fired
  /-- It has set its event. -/
  | set
  /-- It has shut the socket down. -/
  | spent
deriving DecidableEq

/-- The event of the timer is set. -/
def Timer.expired : Timer → Bool
  | .set => true
  | .spent => true
  | _ => false

/-- The timer was cancelled too late, and is still to shut the socket down. -/
def Timer.late : Timer → ℕ
  | .fired => 1
  | .set => 1
  | _ => 0

/-- What the client is at. -/
inductive Client (F : Type) where
  | idle
  | sending (c : Call F) (left : List Bytes)
  | reading (c : Call F) (r : Reader (RecvError F) (Message F))
  | ended (c : Call F) (x : Exchange F)

/-- What the server is at. -/
inductive Server (F : Type) where
  | polling
  | reading (r : Reader (RecvError F) (Message F))
  | running (h : Handler F)
  /-- In a call of the policy's. -/
  | busy (h : Handler F)
  | sending (left : List Bytes) (lost : End) (k : Handler F)
  | stopped (e : End)

/-- What the client and the policy do. -/
inductive Event (F : Type) where
  | sent
  | got
  | ended (c : Call F) (o : Outcome F)
  | heard
  | built
  /-- A call of the policy's `reset`, `set_demonstration` or `act`. -/
  | invoked

/-- Both ends of the connection. -/
structure Talk (F : Type) where
  client : Client F
  /-- `self._conn is not None`. -/
  conn : Bool
  closed : Bool
  actionType : Option (Json F)
  timer : Timer
  /-- How many timers of earlier calls are still to shut the socket down. -/
  late : ℕ
  shut : Bool
  up : List Bytes
  down : List Bytes
  server : Server F
  policy : Option (Policy F)
  requests : List (List Bytes)
  heard : List (Message F)
  replies : List (ℕ × List Bytes)
  trace : List (Event F)

/-- A client that has authenticated, and a server that waits for its first message. -/
def Talk.start : Talk F where
  client := .idle
  conn := true
  closed := false
  actionType := none
  timer := .off
  late := 0
  shut := false
  up := []
  down := []
  server := .polling
  policy := none
  requests := []
  heard := []
  replies := []
  trace := []

/-- The server's end of the connection is closed. -/
def Server.gone : Server F → Bool
  | .stopped _ => true
  | _ => false

/-! ## Moves -/

/-- What may happen next. -/
inductive Move (F : Type) where
  | call (c : Call F)
  | send
  | sendFails
  | take
  | takeFails
  | settle
  | fire
  | set
  | shut
  | shutLate
  | wake
  | tire
  | read
  | readFails
  | run
  | tail (t : PyStr)
  | built (e : HookEnd (Built F))
  | returned (e : HookEnd Unit)
  | acted (e : HookEnd Acted)
  | reply
  | replyFails
  | watch
  | kill

/-- A call begins : it ends at once where the connection is closed, where an argument is of
the wrong type and where the request cannot be sent. -/
def Talk.call (s : Talk F) (c : Call F) : Talk F :=
  if c.isClose && s.closed then { s with trace := s.trace ++ [.ended c .closed] }
  else if !c.typed then { s with trace := s.trace ++ [.ended c .refused] }
  else if !s.conn then
    { s with
      closed := s.closed || c.isClose
      trace := s.trace ++
        [.ended c (if c.isClose then .closed else .unavailable .gone)] }
  else match c.frames with
  | .error _ => { s with trace := s.trace ++ [.ended c .refused] }
  | .ok frames =>
    { s with
      client := .sending c frames
      timer := .armed
      requests := s.requests ++ [frames] }

/-- The reply's frames, as far as they have been read, end the exchange or do not. -/
def readingOf (c : Call F) : Reader (RecvError F) (Message F) → Client F
  | .done (.ok m) => .ended c (.reply m)
  | .done (.error e) => .ended c (.malformed e)
  | r => .reading c r

/-- The block under the deadline is over : the timer is cancelled, and the call ends. -/
def Talk.settle (s : Talk F) (c : Call F) (x : Exchange F) : Talk F :=
  let o := c.settle s.timer.expired x
  { s with
    client := .idle
    conn := o.2
    closed := s.closed || c.isClose
    actionType :=
      match o.1 with
      | .greeted fields => some (Dict.get fields (py "action_type"))
      | _ => s.actionType
    timer := .off
    late := s.late + s.timer.late
    trace := s.trace ++ [.ended c o.1] }

/-- The server has read a message, cannot read one, or reads on. -/
def Talk.hear (s : Talk F) (name : PyStr) : Reader (RecvError F) (Message F) → Talk F
  | .done (.ok m) =>
    { s with
      server := .running (dispatch name s.policy m)
      heard := s.heard ++ [m]
      trace := s.trace ++ [.heard] }
  | .done (.error e) => { s with server := .running (refuse e) }
  | r => { s with server := .reading r }

/-- The server goes on with a handler up to the next call, reply or message. -/
def Talk.run (s : Talk F) : Handler F → Option (Talk F)
  | .build k => some { s with server := .busy (.build k) }
  | .call .close k => some { s with server := .busy (.call .close k) }
  | .call h k => some { s with server := .busy (.call h k), trace := s.trace ++ [.invoked] }
  | .act obs k => some { s with server := .busy (.act obs k), trace := s.trace ++ [.invoked] }
  | .tail _ => none
  | .send frames lost k =>
    some { s with server := .sending frames lost k, replies := s.replies ++ [(s.heard.length, frames)] }
  | .next p => some { s with server := .polling, policy := p }
  | .stop e => some { s with server := .stopped e }

/-- A build that has ended. -/
def Talk.hasBuilt (s : Talk F) (name : PyStr) (k : HookEnd (Built F) → Handler F)
    (e : HookEnd (Built F)) : Talk F :=
  { s with
    server := .running (k e)
    trace := s.trace ++
      (match e with
        | .returned b => if (buildPolicy name b).isOk then [.built] else []
        | _ => []) }

/-- One move, where it can be made. `name` is the policy that the manifest names. -/
def step (name : PyStr) (s : Talk F) : Move F → Option (Talk F)
  | .call c =>
    match s.client with
    | .idle => some (s.call c)
    | _ => none
  | .send =>
    match s.client with
    | .sending c (f :: left) =>
      if s.shut then none
      else some { s with client := .sending c left, up := s.up ++ [f], trace := s.trace ++ [.sent] }
    | .sending c [] => some { s with client := .reading c (recv maxReplyBytes) }
    | _ => none
  | .sendFails =>
    match s.client with
    | .sending c (_ :: _) =>
      if s.shut || s.server.gone then some { s with client := .ended c .lost } else none
    | _ => none
  | .take =>
    match s.client, s.down with
    | .reading c r, f :: down =>
      some { s with client := readingOf c (r.next f), down := down, trace := s.trace ++ [.got] }
    | _, _ => none
  | .takeFails =>
    match s.client with
    | .reading c _ =>
      if s.shut || s.server.gone then some { s with client := .ended c .lost } else none
    | _ => none
  | .settle =>
    match s.client with
    | .ended c x => some (s.settle c x)
    | _ => none
  | .fire => if s.timer = .armed then some { s with timer := .fired } else none
  | .set => if s.timer = .fired then some { s with timer := .set } else none
  | .shut => if s.timer = .set then some { s with timer := .spent, shut := true } else none
  | .shutLate => if 0 < s.late then some { s with late := s.late - 1, shut := true } else none
  | .wake =>
    match s.server with
    | .polling =>
      if !s.up.isEmpty || s.shut || !s.conn then
        some { s with server := .reading (recv maxMessageBytes) }
      else none
    | _ => none
  | .tire =>
    match s.server with
    | .polling => if s.up.isEmpty then some { s with server := .stopped .idle } else none
    | _ => none
  | .read =>
    match s.server, s.up with
    | .reading r, f :: up => some ({ s with up := up }.hear name (r.next f))
    | _, _ => none
  | .readFails =>
    match s.server with
    | .reading _ => if s.shut || !s.conn then some { s with server := .stopped .hungUp } else none
    | _ => none
  | .run =>
    match s.server with
    | .running h => s.run h
    | _ => none
  | .tail t =>
    match s.server with
    | .running (.tail k) => some { s with server := .running (k t) }
    | _ => none
  | .built e =>
    match s.server with
    | .busy (.build k) => some (s.hasBuilt name k e)
    | _ => none
  | .returned e =>
    match s.server with
    | .busy (.call _ k) => some { s with server := .running (k e) }
    | _ => none
  | .acted e =>
    match s.server with
    | .busy (.act _ k) => some { s with server := .running (k e) }
    | _ => none
  | .reply =>
    match s.server with
    | .sending (f :: left) lost k =>
      some { s with server := .sending left lost k, down := s.down ++ [f] }
    | .sending [] _ k => some { s with server := .running k }
    | _ => none
  | .replyFails =>
    match s.server with
    | .sending (_ :: _) lost _ =>
      if s.shut || !s.conn then some { s with server := .stopped lost } else none
    | _ => none
  | .watch =>
    match s.server with
    | .busy _ => if s.shut || !s.conn then some { s with server := .stopped .hungUp } else none
    | _ => none
  | .kill => if s.server.gone then none else some { s with server := .stopped .killed }

/-! ## Runs -/

/-- The server's `recv` accepts the request of a call. -/
def Call.Accepted (c : Call F) : Prop :=
  ∀ frames, c.frames = .ok frames →
    ∃ m rest, (recv (F := F) maxMessageBytes).run frames = some (.ok m, rest)

/-- A move whose call, if it begins one, has a request that the server's `recv` accepts. -/
def Move.Accepted : Move F → Prop
  | .call c => c.Accepted
  | _ => True

/-- The states that runs reach, each move of which meets a condition. -/
inductive Reach (name : PyStr) (meets : Move F → Prop) : Talk F → Prop
  | start : Reach name meets .start
  | step {s t m} : Reach name meets s → meets m → step name s m = some t → Reach name meets t

/-! ## Being in step -/

/-- A session that awaits a message from its first frame, or that has gone : it was idle for
too long, or was killed, or the socket was shut down. -/
def awaits : Server F → Prop
  | .polling => True
  | .reading r => r = recv maxMessageBytes
  | .running (.next _) => True
  | .sending [] _ (.next _) => True
  | .stopped e => e = .idle ∨ e = .killed ∨ e = .hungUp
  | _ => False

/-- Nothing is on its way, every request was heard, and the session awaits the next. -/
structure InStep (s : Talk F) : Prop where
  up : s.up = []
  down : s.down = []
  heard : s.heard.length = s.requests.length
  awaits : awaits s.server

/-- The reply that a call returns is the one to its own request : the last message the
server heard is the request's, and the last reply, begun once it was heard, is the one that
the call read. -/
structure OwnReply (s : Talk F) (c : Call F) (o : Outcome F) : Prop where
  reply : ∃ frames q k reply m, c.frames = .ok frames ∧ s.requests.getLast? = some frames ∧
    (recv (F := F) maxMessageBytes).run frames = some (.ok q, []) ∧
    s.heard.getLast? = some q ∧ s.heard.length = s.requests.length ∧
    s.replies.getLast? = some (k, reply) ∧ k = s.requests.length ∧
    (recv maxReplyBytes).run reply = some (.ok m, []) ∧ c.answer m = (o, true)

/-- A call that returns a value. -/
def Outcome.isValue : Outcome F → Bool
  | .greeted _ => true
  | .done => true
  | .acted _ => true
  | _ => false

/-- A call after which the connection is not used again : one that timed out, lost its peer,
got a malformed or an unexpected reply, or was a `hello` that failed. -/
def spoils (c : Call F) : Outcome F → Bool
  | .unavailable .timedOut => true
  | .unavailable .lost => true
  | .unavailable (.malformed _) => true
  | .unavailable (.unexpected _) => true
  | .unavailable _ => c.isHello
  | _ => false

/-- The policy was built before, and has not been called since the last message heard. -/
def MayInvoke (es : List (Event F)) : Prop :=
  .built ∈ es ∧ ∃ es₁ es₂, es = es₁ ++ .heard :: es₂ ∧ .invoked ∉ es₂

/-- Client and server are in step : what the claim about them says of a state and of the
moves from it. -/
structure Synchronous (name : PyStr) (s : Talk F) : Prop where
  /-- A value is the answer to the call's own request. -/
  own : ∀ m t c o, step name s m = some t → t.trace = s.trace ++ [.ended c o] →
    o.isValue = true → OwnReply s c o
  /-- The policy is built before it is called, and called at most once for a message. -/
  once : ∀ es es', s.trace = es ++ .invoked :: es' → MayInvoke es
  /-- Nothing is sent or received after a call that spoils the connection. -/
  silent : ∀ es c o es', s.trace = es ++ .ended c o :: es' → spoils c o = true →
    .sent ∉ es' ∧ .got ∉ es'
  /-- A value refused before anything is sent changes nothing. -/
  refused : ∀ m t c, step name s m = some t → t.trace = s.trace ++ [.ended c .refused] →
    t = { s with trace := t.trace }
  /-- An error reply to a call that is not `hello` leaves the connection open. -/
  error : ∀ m t c kind message, step name s m = some t →
    t.trace = s.trace ++ [.ended c (.unavailable (.error kind message))] → c.isHello = false →
    t.conn = true
  /-- A call that leaves the connection open leaves it in step. -/
  kept : ∀ m t c o, step name s m = some t → t.trace = s.trace ++ [.ended c o] →
    t.conn = true → InStep t

end Remote

end IcilOrchestrator
