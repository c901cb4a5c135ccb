import WukongSdk.Memory

/-!
# The worker of a run

`Worker::run` polls the cancel token before `supervise`, which dials,
authenticates, holds a session and backs off. Phases are the points of these
bodies between two accesses to shared state. `polling` tells whether the task
is being polled: the token is looked at when a poll of `supervise` begins, and
the task may be suspended only where it awaits.
-/
namespace WukongSdk

/-- Parameters fixed when the client is built. -/
structure Config where
  codec : Codec
  auth : Auth
  options : Options

/-- Local state of a session. `socket` counts the sockets authenticated so far. -/
structure Session where
  socket : ℕ := 0
  pending : List Pending := []
  nextPing : ℕ := 0
  ping : Option (String × ℕ) := none
  deriving DecidableEq, Repr

/-- Points of `session`. A command or an entry in a phase has left the queue or
the map and is owned by the worker. -/
inductive SessionPhase where
  | head
  | retain (now index : ℕ)
  | expire (ids : List String)
  | expired (ids : List String) (entry : Pending)
  | select
  | timer
  | pingDue
  | ping (id : String)
  | received (command : Command)
  | fresh (command : Command)
  | timely (command : Command)
  | insert (command : Command)
  | refuse (command : Command) (error : Error)
  | writing (ping : Option (String × ℕ))
  | flushing
  | emit (event : Event)
  | sendAck (entry : Pending) (ack : SendResult)
  | answer (entry : Pending) (result : Except Error SendResult)
  | deliver (message : RecvMessage)
  | recvAck (message : RecvMessage)

/-- Points of `supervise` and `establish`. -/
inductive SupervisePhase where
  | top
  | backoff (delay : ℕ)
  | sleeping (wake : ℕ)
  | dialing (deadline : ℕ)
  | opened (deadline : ℕ)
  | hello (deadline : ℕ) (id : String)
  | greeting (deadline : ℕ) (id : String)
  | awaiting (deadline : ℕ) (id : String)
  | flushing (deadline : ℕ) (id : String)
  | bump (result : ConnectResult)
  | raise (result : ConnectResult)
  | ready (result : ConnectResult)
  | first (result : ConnectResult)
  | announce (result : ConnectResult)
  | begin
  | session (phase : SessionPhase)
  | lost (error : Error)
  | unwind (error : Error)
  | lower (error : Error)
  | unready (error : Error)
  | sweep (error : Error)
  | swept (error : Error) (command : Command)
  | disconnected (error : Error)
  | report (error : Error)
  | failed (error : Error)
  | budget

/-- Points of `run`. -/
inductive Phase where
  | supervise (phase : SupervisePhase)
  | cancelled
  | cancelLower
  | manual
  | lower (error : Error)
  | first (error : Error)
  | status (error : Error)
  | close (error : Error)
  | drain (error : Error)
  | drained (error : Error) (command : Command)
  | over

/-- A worker task. `dropping` is a permit whose reply is settled and which the
next access releases. -/
structure Worker where
  phase : Phase := .over
  polling : Bool := false
  established : Bool := false
  attempt : ℕ := 0
  session : Session := {}
  dropping : Option CallId := none

/-- What the environment supplies to a step that needs it. -/
inductive Input where
  | go
  | timer
  | io (ok : Bool)
  | uuid (id : String)
  | stamp (timestamp : UInt64)
  | random (n : ℕ)
  | message (message : Incoming)
  | command

/-- What a session does with a text frame. -/
inductive Reaction where
  | emit (event : Event)
  | pong
  | answer (entry : Pending) (result : Except Error SendResult)
  | deliver (message : RecvMessage)
  | ignore
  | fail (error : Error)

namespace Session

@[simp, grind =] def withPending (s : Session) (pending : List Pending) : Session :=
  { s with pending }

/-- The session once the entry for `id` is removed from its map. -/
@[simp, grind =] def forget (s : Session) (id : String) : Session :=
  s.withPending (s.pending.eraseP fun p => p.id = id)

/-- The heartbeat is answered: the next ping is due an interval later. -/
@[simp, grind =] def ponged (s : Session) (nextPing : ℕ) : Session :=
  { s with ping := none, nextPing }

/-- A ping that was written is outstanding until its deadline. -/
@[simp, grind =] def pinged (s : Session) (ping : Option (String × ℕ)) : Session :=
  { s with ping := ping.or s.ping }

/-- Entries whose deadline has come. -/
def due (s : Session) (now : ℕ) : List String :=
  (s.pending.filter fun p => p.deadline ≤ now).map Pending.id

/-- The instant the session sleeps until: the earliest deadline of a pending
send or of the heartbeat. -/
def wakeup (s : Session) : ℕ :=
  (s.pending.map Pending.deadline).foldr min
    (match s.ping with
      | some p => p.2
      | none => s.nextPing)

/-- Dispatch of a frame that is an answer to request `id`. -/
def reactAnswer (s : Session) (id : String) (value : Value) : Reaction :=
  if s.ping.any fun p => p.1 = id then
    match Protocol.response value with
    | .error e => .fail e
    | .ok _ => .pong
  else
    match s.pending.find? fun p => p.id = id with
    | some p =>
      .answer p ((Protocol.response value).bind (Protocol.decode Protocol.readSendResult))
    | none => .ignore

/-- Dispatch of a notification. -/
def reactNotice (codec : Codec) (method : String) (params : Value) : Reaction :=
  match method with
  | "recv" =>
    match Protocol.recv codec params with
    | .ok m => .deliver m
    | .error e => .emit (.error e)
  | "event" =>
    match Protocol.event codec params with
    | .ok e => .emit (.customEvent e)
    | .error e => .emit (.error e)
  | "disconnect" => .fail (.server (Protocol.disconnectCode params))
  | "pong" => .pong
  | _ => .ignore

def react (codec : Codec) (s : Session) (text : String) : Reaction :=
  match Protocol.parse codec text with
  | .error e => .emit (.error e)
  | .ok value =>
    match value.strField "id", value.strField "method" with
    | some id, _ => s.reactAnswer id value
    | none, some method => reactNotice codec method ((value.get "params").getD .null)
    | none, none => .emit (.error (.protocol "missing response ID or method"))

end Session

namespace Worker

/-- A task just spawned, before its first poll. -/
def spawned : Worker := { phase := .supervise .top }

@[simp, grind =] def goto (w : Worker) (p : Phase) : Worker := { w with phase := p }

@[simp, grind =] def put (w : Worker) (s : Session) : Worker := { w with session := s }

/-- The permit of `c` is to be released by the next access. -/
@[simp, grind =] def discard (w : Worker) (c : CallId) : Worker := { w with dropping := some c }

@[simp, grind =] def undrop (w : Worker) : Worker := { w with dropping := none }

@[simp, grind =] def setAttempt (w : Worker) (established : Bool) (attempt : ℕ) : Worker :=
  { w with established, attempt }

@[simp, grind =] def setPolling (w : Worker) (polling : Bool) : Worker := { w with polling }

@[simp, grind =] def goSupervise (w : Worker) (p : SupervisePhase) : Worker := w.goto (.supervise p)

@[simp, grind =] def goSession (w : Worker) (p : SessionPhase) : Worker := w.goSupervise (.session p)

/-- The session returns `Err(e)`. -/
@[simp, grind =] def lose (w : Worker) (e : Error) : Worker := w.goSupervise (.lost e)

/-- Back to the head of the session loop with the permit of `c` to release. -/
@[simp, grind =] def settled (w : Worker) (c : CallId) : Worker := (w.goSession .head).discard c

/-- `write`: an oversized frame is refused before any I/O; otherwise the frame
is handed to the socket and the worker awaits. -/
def write (cfg : Config) (w : Worker) (wire : Wire) (ping : Option (String × ℕ)) :
    Worker × Effect :=
  if (cfg.codec.render wire.value).utf8ByteSize > cfg.options.maxMessageSize then
    (w.lose .messageTooLarge, .skip)
  else (w.goSession (.writing ping), .write w.session.socket wire)

/-- The arm of the select for a socket message. -/
def onMessage (cfg : Config) (m : Memory) (w : Worker) : Incoming → Worker
  | .text text =>
    match w.session.react cfg.codec text with
    | .emit e => w.goSession (.emit e)
    | .pong =>
      (w.goSession .head).put (w.session.ponged (m.clock + cfg.options.pingInterval))
    | .answer p (.ok ack) => (w.goSession (.sendAck p ack)).put (w.session.forget p.id)
    | .answer p (.error e) => (w.goSession (.answer p (.error e))).put (w.session.forget p.id)
    | .deliver msg => w.goSession (.deliver msg)
    | .ignore => w.goSession .head
    | .fail e => w.lose e
  | .ping => w.goSession .flushing
  | .pong => w.goSession .head
  | .binary => w.goSession (.emit (.error (.protocol "expected a text message")))
  | .closed => w.lose .transport

def sessionNext (cfg : Config) (r : RunId) (m : Memory) (w : Worker) (i : Input) :
    SessionPhase → Option (Worker × Effect)
  | .head => some (w.goSession (.retain m.clock 0), .skip)
  | .retain now k =>
    match w.session.pending[k]? with
    | none => some (w.goSession (.expire (w.session.due now)), .skip)
    | some p =>
      if (m.replies p.reply).abandoned then
        some ((w.put (w.session.withPending (w.session.pending.eraseIdx k))).discard p.reply,
          .drop p.reply)
      else some (w.goSession (.retain now (k + 1)), .skip)
  | .expire [] => some (w.goSession .select, .skip)
  | .expire (id :: ids) =>
    match w.session.pending.find? fun p => p.id = id with
    | some p => some ((w.goSession (.expired ids p)).put (w.session.forget id), .skip)
    | none => some (w.goSession (.expire ids), .skip)
  | .expired ids p =>
    some ((w.goSession (.expire ids)).discard p.reply, .answer p.reply (.error .timeout))
  | .select =>
    match i with
    | .timer => if w.session.wakeup ≤ m.clock then some (w.goSession .timer, .skip) else none
    | .command =>
      match (m.cells r).commands with
      | cmd :: _ => some (w.goSession (.received cmd), .dequeue)
      -- every sender is gone once the run has left the mutex
      | [] => if m.running = some r then none else some (w.lose .disconnected, .skip)
    | .message msg => some (w.onMessage cfg m msg, .receive w.session.socket msg)
    | _ => none
  | .timer =>
    match w.session.ping with
    | some p =>
      if p.2 ≤ m.clock then some (w.lose .timeout, .skip) else some (w.goSession .head, .skip)
    | none =>
      if w.session.nextPing ≤ m.clock then some (w.goSession .pingDue, .skip)
      else some (w.goSession .head, .skip)
  | .pingDue =>
    match i with
    | .uuid id => if id ∈ m.uuids then none else some (w.goSession (.ping id), .uuid id)
    | _ => none
  | .ping id =>
    some (w.write cfg (.ping id) (some (id, m.clock + cfg.options.pongTimeout)))
  | .received cmd =>
    if (m.replies cmd.reply).abandoned then some (w.settled cmd.reply, .drop cmd.reply)
    else some (w.goSession (.fresh cmd), .skip)
  | .fresh cmd =>
    if cmd.generation ≠ m.generation then some (w.goSession (.refuse cmd .disconnected), .skip)
    else some (w.goSession (.timely cmd), .skip)
  | .timely cmd =>
    if cmd.deadline ≤ m.clock then some (w.goSession (.refuse cmd .timeout), .skip)
    else some (w.goSession (.insert cmd), .skip)
  | .insert cmd =>
    match w.session.pending.find? fun p => p.id = cmd.id with
    -- the entry a second insertion under one id would replace is dropped
    | some p => some ((w.put (w.session.forget cmd.id)).discard p.reply, .drop p.reply)
    | none =>
      some ((w.put (w.session.withPending (w.session.pending ++ [cmd.entry]))).write cfg
        (.send cmd) none)
  | .refuse cmd e => some (w.settled cmd.reply, .answer cmd.reply (.error e))
  | .writing ping =>
    match i with
    | .io true => some ((w.goSession .head).put (w.session.pinged ping), .skip)
    | .io false => some (w.lose .transport, .skip)
    | _ => none
  | .flushing =>
    match i with
    | .io true => some (w.goSession .head, .skip)
    | .io false => some (w.lose .transport, .skip)
    | _ => none
  | .emit e => some (w.goSession .head, .emit e)
  | .sendAck p ack => some (w.goSession (.answer p (.ok ack)), .emit (.sendAck ack))
  | .answer p result => some (w.settled p.reply, .answer p.reply result)
  | .deliver msg => some (w.goSession (.recvAck msg), .emit (.message msg))
  | .recvAck msg => some (w.write cfg (.recvAck msg) none)

/-- The authentication response to request `id`. -/
def authReply (codec : Codec) (id text : String) : Except Error ConnectResult := do
  let value ← Protocol.parse codec text
  if value.strField "id" ≠ some id then
    throw (.protocol "unexpected authentication response")
  let result ← Protocol.response value
  Protocol.decode Protocol.readConnectResult result

/-- `establish` returns `Err(e)`. -/
@[simp, grind =] def reject (w : Worker) (e : Error) : Worker × Effect :=
  (w.goSupervise (.failed e), .rejected e)

/-- An await of `establish`, under its overall deadline. -/
def bounded (m : Memory) (w : Worker) (deadline : ℕ) (i : Input)
    (other : Option (Worker × Effect)) : Option (Worker × Effect) :=
  match i with
  | .timer => if deadline ≤ m.clock then some (w.reject .timeout) else none
  | _ => other

def superviseNext (cfg : Config) (r : RunId) (m : Memory) (w : Worker) (i : Input) :
    SupervisePhase → Option (Worker × Effect)
  | .top =>
    if w.attempt = 0 then
      some (w.goSupervise (.dialing (m.clock + cfg.options.connectTimeout)), .dial)
    else
      match i with
      | .random n =>
        some (w.goSupervise (.backoff (reconnectDelay cfg.options w.attempt n)),
          .emit (.reconnecting w.attempt (reconnectDelay cfg.options w.attempt n)))
      | _ => none
  | .backoff delay => some (w.goSupervise (.sleeping (m.clock + delay)), .skip)
  | .sleeping wake =>
    match i with
    | .timer =>
      if wake ≤ m.clock then
        some (w.goSupervise (.dialing (m.clock + cfg.options.connectTimeout)), .dial)
      else none
    | _ => none
  | .dialing deadline =>
    w.bounded m deadline i <|
      match i with
      | .io true => some (w.goSupervise (.opened deadline), .skip)
      | .io false => some (w.reject .transport)
      | _ => none
  | .opened deadline =>
    match i with
    | .uuid id => if id ∈ m.uuids then none else some (w.goSupervise (.hello deadline id), .uuid id)
    | _ => none
  | .hello deadline id =>
    match i with
    | .stamp timestamp =>
      if (cfg.codec.render (Protocol.connect cfg.auth timestamp id)).utf8ByteSize >
          cfg.options.maxMessageSize then
        some (w.reject .messageTooLarge)
      else
        some (w.goSupervise (.greeting deadline id),
          .login (Protocol.connect cfg.auth timestamp id))
    | _ => none
  | .greeting deadline id =>
    w.bounded m deadline i <|
      match i with
      | .io true => some (w.goSupervise (.awaiting deadline id), .skip)
      | .io false => some (w.reject .transport)
      | _ => none
  | .awaiting deadline id =>
    w.bounded m deadline i <|
      match i with
      | .message (.text text) =>
        match authReply cfg.codec id text with
        | .ok result =>
          some ((w.goSupervise (.bump result)).setAttempt true 0, .authenticated result)
        | .error e => some (w.reject e)
      | .message .ping => some (w.goSupervise (.flushing deadline id), .skip)
      | .message .pong => some (w.goSupervise (.awaiting deadline id), .skip)
      | .message _ => some (w.reject .transport)
      | _ => none
  | .flushing deadline id =>
    w.bounded m deadline i <|
      match i with
      | .io true => some (w.goSupervise (.awaiting deadline id), .skip)
      | .io false => some (w.reject .transport)
      | _ => none
  | .bump result =>
    some ((w.goSupervise (.raise result)).put { socket := m.sockets + 1 }, .bump)
  | .raise result => some (w.goSupervise (.ready result), .setConnected true)
  | .ready result => some (w.goSupervise (.first result), .setStatus (.ready result))
  | .first result =>
    some (w.goSupervise (.announce result),
      if (m.cells r).firstResult.isNone then .setFirst (.ok result) else .skip)
  | .announce result => some (w.goSupervise .begin, .emit (.connect result))
  | .begin =>
    some ((w.goSession .head).put (w.session.ponged (m.clock + cfg.options.pingInterval)), .skip)
  | .session p => w.sessionNext cfg r m i p
  | .lost e => some (w.goSupervise (.unwind e), .lost w.session.socket e)
  | .unwind e =>
    match w.session.pending with
    | p :: rest =>
      some ((w.put (w.session.withPending rest)).discard p.reply, .drop p.reply)
    | [] => some (w.goSupervise (.lower e), .skip)
  | .lower e => some (w.goSupervise (.unready e), .setConnected false)
  | .unready e => some (w.goSupervise (.sweep e), .setStatus .connecting)
  | .sweep e =>
    match (m.cells r).commands with
    | cmd :: _ => some (w.goSupervise (.swept e cmd), .dequeue)
    | [] => some (w.goSupervise (.disconnected e), .skip)
  | .swept e cmd =>
    some ((w.goSupervise (.sweep e)).discard cmd.reply,
      .answer cmd.reply (.error .disconnected))
  | .disconnected e =>
    match e with
    | .server code => some (w.goto (.lower e), .emit (.disconnect (.server code)))
    | _ =>
      some (w.goSupervise (.report e),
        .emit (.disconnect (if e = .timeout then .heartbeatTimeout else .transport)))
  | .report e => some (w.goSupervise .budget, .emit (.error e))
  | .failed e =>
    if !w.established || e.isTerminal then some (w.goto (.lower e), .emit (.error e))
    else some (w.goSupervise .budget, .emit (.error e))
  | .budget =>
    if cfg.options.maxReconnectAttempts ≤ w.attempt then
      some (w.goto (.lower .reconnectExhausted), .emit (.error .reconnectExhausted))
    else some ((w.goSupervise .top).setAttempt w.established (w.attempt + 1), .skip)

/-- The next access of the task while it is being polled. -/
def next (cfg : Config) (r : RunId) (m : Memory) (w : Worker) (i : Input) :
    Option (Worker × Effect) :=
  match w.dropping with
  | some c => some (w.undrop, .release c)
  | none =>
    match w.phase with
    | .supervise p => w.superviseNext cfg r m i p
    -- dropping the future of `supervise` drops the pending map of its session
    | .cancelled =>
      match w.session.pending with
      | p :: rest =>
        some ((w.put (w.session.withPending rest)).discard p.reply, .drop p.reply)
      | [] => some (w.goto .cancelLower, .skip)
    | .cancelLower => some (w.goto .manual, .setConnected false)
    | .manual => some (w.goto (.lower .disconnected), .emit (.disconnect .manual))
    | .lower e => some (w.goto (.first e), .setConnected false)
    | .first e =>
      some (w.goto (.status e),
        if (m.cells r).firstResult.isNone then .setFirst (.error e) else .skip)
    | .status e => some (w.goto (.close e), .setStatus (.failed e))
    | .close e => some (w.goto (.drain e), .close)
    | .drain e =>
      match (m.cells r).commands with
      | cmd :: _ => some (w.goto (.drained e cmd), .dequeue)
      | [] => some (w.goto .over, .finish)
    | .drained e cmd =>
      some ((w.goto (.drain e)).discard cmd.reply, .answer cmd.reply (.error e))
    | .over => none

/-- The awaits of `run`: those inside its select, and the `recv` of the final
drain, which yields when the task has used up its budget. -/
def awaits : Phase → Bool
  | .supervise (.sleeping _) | .supervise (.dialing _) | .supervise (.greeting _ _)
  | .supervise (.awaiting _ _) | .supervise (.flushing _ _)
  | .supervise (.session .select) | .supervise (.session (.writing _))
  | .supervise (.session .flushing) => true
  | .drain _ => true
  | _ => false

/-- The biased select: a poll that finds the token cancelled takes that branch.
After the select the token is not looked at again. -/
def poll (r : RunId) (m : Memory) (w : Worker) : Option (Worker × Effect) :=
  match w.polling, w.phase with
  | false, .supervise _ =>
    if (m.cells r).cancelled then
      some ((w.goto .cancelled).setPolling true, .cancelled)
    else some (w.setPolling true, .skip)
  | false, .drain _ => some (w.setPolling true, .skip)
  | _, _ => none

def suspend (w : Worker) : Option (Worker × Effect) :=
  if w.polling && w.dropping.isNone && awaits w.phase then
    some (w.setPolling false, .skip)
  else none

end Worker

end WukongSdk
