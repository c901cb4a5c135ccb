import WukongSdk.Worker

/-!
# Calls on the client

One automaton for each public operation. A call moves between two accesses to
shared state; its future may be dropped before its first poll and where it
awaits: at the mutex, at the watch channels, at the join and at its reply.
-/
namespace WukongSdk

structure SendArgs where
  channel : String
  channelType : UInt8
  payload : Value
  options : SendOptions := {}

/-- Points of `send_with_options`. The permit is held from `prepare` to the
enqueueing; `recheck`, `enqueue`, `abortLocked`, `unlock` and `refused` hold the
mutex. -/
inductive SendPhase where
  | start
  | checkConnected
  | readGeneration
  | acquire (generation : UInt64)
  | prepare (generation : UInt64)
  | lock (command : Command)
  | recheck (command : Command)
  | enqueue (command : Command)
  | abortLocked (error : Error)
  | abort (error : Error)
  | refused (error : Error)
  | unlock (run : RunId) (command : Command)
  | wait (run : RunId) (command : Command)
  | done (result : Except Error SendResult)
  | dropped

/-- Points of `connect`. `initial` tells whether the call joined the run before
its first result was known; `done` keeps the run its value was read from. -/
inductive ConnectPhase where
  | lock
  | checkDestroyed
  | decide
  | join (run : RunId)
  | unlock (run : RunId) (initial : Bool)
  | refused (error : Error)
  | wait (run : RunId) (initial : Bool)
  | done (source : Option (RunId × Bool)) (result : Except Error ConnectResult)
  | dropped

/-- Points of `disconnect`, and of `destroy` before it. `dropped` keeps the run
whose cancellation the call had triggered. -/
inductive DisconnectPhase where
  | mark
  | lock
  | cancel
  | join (run : RunId)
  | done
  | dropped (run : Option RunId)

inductive Call where
  | idle
  | send (args : SendArgs) (phase : SendPhase)
  | connect (inRuntime : Bool) (phase : ConnectPhase)
  | disconnect (destroy : Bool) (phase : DisconnectPhase)

inductive CallInput where
  | go
  | timer
  | ids (id msgNo : String)
  | drop

/-- The operation a call is started with. -/
inductive Operation where
  | send (args : SendArgs)
  | connect (inRuntime : Bool)
  | disconnect
  | destroy

def Operation.call : Operation → Call
  | send args => .send args .start
  | connect inRuntime => .connect inRuntime .lock
  | disconnect => .disconnect false .lock
  | destroy => .disconnect true .mark

namespace SendPhase

/-- `protocol::send` and the size check, then the command to enqueue. -/
def build (cfg : Config) (m : Memory) (args : SendArgs) (c : CallId) (generation : UInt64)
    (id msgNo : String) : Except Error Command := do
  let params ← Protocol.send cfg.codec args.channel args.channelType args.payload args.options msgNo
  if (cfg.codec.render (Protocol.request "send" params id)).utf8ByteSize >
      cfg.options.maxMessageSize then
    throw .messageTooLarge
  return ⟨generation, id, params, m.clock + cfg.options.requestTimeout, c⟩

def next (cfg : Config) (c : CallId) (m : Memory) (args : SendArgs) (i : CallInput) :
    SendPhase → Option (SendPhase × Act)
  | .start =>
    match i with
    | .drop => some (.dropped, .skip)
    | _ =>
      if m.destroyed then some (.done (.error .destroyed), .skip)
      else some (.checkConnected, .skip)
  | .checkConnected =>
    if m.connected then some (.readGeneration, .skip)
    else some (.done (.error .notConnected), .skip)
  | .readGeneration => some (.acquire m.generation, .skip)
  | .acquire g =>
    if m.slots = 0 then some (.done (.error .backpressure), .skip)
    else some (.prepare g, .acquire)
  | .prepare g =>
    match i with
    | .ids id msgNo =>
      if id ∈ m.uuids then none
      else
        match build cfg m args c g id msgNo with
        | .ok cmd => some (.lock cmd, .uuid id)
        | .error e => some (.abort e, .uuid id)
    | _ => none
  | .lock cmd =>
    match i with
    | .drop => some (.dropped, .release)
    | _ => if m.lock.isNone then some (.recheck cmd, .lock) else none
  | .recheck cmd =>
    if m.connected then some (.enqueue cmd, .skip) else some (.abortLocked .notConnected, .skip)
  | .enqueue cmd =>
    match m.running with
    | none => some (.abortLocked .notConnected, .skip)
    | some r =>
      -- a refused command comes back and is dropped with its permit
      if (m.cells r).closed then some (.refused .disconnected, .release)
      else if (m.cells r).commands.length < cfg.options.maxInFlight then
        some (.unlock r cmd, .enqueue r cmd)
      else some (.refused .backpressure, .release)
  | .abortLocked e => some (.abort e, .unlock)
  | .abort e => some (.done (.error e), .release)
  | .refused e => some (.done (.error e), .unlock)
  | .unlock r cmd => some (.wait r cmd, .unlock)
  | .wait _ cmd =>
    match i with
    | .drop => some (.dropped, .abandon)
    | .timer =>
      if cmd.deadline ≤ m.clock ∧ (m.replies c).sender = .live then
        some (.done (.error .timeout), .abandon)
      else none
    | _ =>
      match (m.replies c).sender with
      | .live => none
      | .sent result => some (.done result, .skip)
      | .gone => some (.done (.error .disconnected), .skip)
  | .done _ => none
  | .dropped => none

end SendPhase

namespace ConnectPhase

/-- The value a waiter reads: the first result, or the current status. -/
def observe (x : Cells) : Bool → Option (Except Error ConnectResult)
  | true => x.firstResult
  | false =>
    match x.status with
    | .ready result => some (.ok result)
    | .failed e => some (.error e)
    | .connecting => none

def next (m : Memory) (inRuntime : Bool) (i : CallInput) :
    ConnectPhase → Option (ConnectPhase × Act)
  | .lock =>
    match i with
    | .drop => some (.dropped, .skip)
    | _ => if m.lock.isNone then some (.checkDestroyed, .lock) else none
  | .checkDestroyed =>
    if m.destroyed then some (.refused .destroyed, .skip) else some (.decide, .skip)
  | .decide =>
    match m.running.filter fun r => !(m.cells r).finished with
    | some r => some (.join r, .skip)
    | none =>
      if inRuntime then some (.unlock m.started true, .spawn)
      else some (.refused .runtimeUnavailable, .skip)
  | .join r => some (.unlock r (m.cells r).firstResult.isNone, .skip)
  | .unlock r initial => some (.wait r initial, .unlock)
  | .refused e => some (.done none (.error e), .unlock)
  | .wait r initial =>
    match i with
    | .drop => some (.dropped, .skip)
    | _ =>
      match observe (m.cells r) initial with
      | some result => some (.done (some (r, initial)) result, .skip)
      -- the senders are gone and no newer value will come
      | none =>
        if (m.cells r).finished then
          some (.done (some (r, initial)) (.error .disconnected), .skip)
        else none
  | .done _ _ => none
  | .dropped => none

end ConnectPhase

namespace DisconnectPhase

def next (m : Memory) (i : CallInput) : DisconnectPhase → Option (DisconnectPhase × Act)
  | .mark =>
    match i with
    | .drop => some (.dropped none, .skip)
    | _ => some (.lock, .destroy)
  | .lock =>
    match i with
    | .drop => some (.dropped none, .skip)
    | _ => if m.lock.isNone then some (.cancel, .lock) else none
  | .cancel =>
    match m.running with
    | some r => some (.join r, .cancel r)
    | none => some (.done, .clear)
  | .join r =>
    match i with
    -- dropping the guard leaves the entry in the mutex
    | .drop => some (.dropped (some r), .unlock)
    | _ => if (m.cells r).finished then some (.done, .clear) else none
  | .done => none
  | .dropped _ => none

end DisconnectPhase

namespace Call

def next (cfg : Config) (c : CallId) (m : Memory) (i : CallInput) : Call → Option (Call × Act)
  | .idle => none
  | .send args p => (p.next cfg c m args i).map fun x => (.send args x.1, x.2)
  | .connect rt p => (p.next m rt i).map fun x => (.connect rt x.1, x.2)
  | .disconnect d p => (p.next m i).map fun x => (.disconnect d x.1, x.2)

/-- The call has returned or its future is gone. -/
def settled : Call → Bool
  | .idle => true
  | .send _ (.done _) | .send _ .dropped => true
  | .connect _ (.done _ _) | .connect _ .dropped => true
  | .disconnect _ .done | .disconnect _ (.dropped _) => true
  | _ => false

end Call

end WukongSdk
