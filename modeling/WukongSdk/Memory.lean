import WukongSdk.Protocol

/-!
# State shared by the callers and the workers

`Inner` holds two flags, the generation counter, the admission semaphore and
the mutex around the current `Running`. A run adds its cancel token, its join
handle, two watch channels and its command channel; a send call adds a oneshot
channel. Every step of the model performs one access to this state.

A permit and the reply sender that travels with it are named by the call that
obtained them. `clock` and `sockets` only observe: the current instant, and how
many sockets have raised the generation. `uuids` are the UUIDs drawn so far; a
draw never yields one of them, which is what the code relies on the random UUIDs
of version 4 for.
-/
namespace WukongSdk

abbrev CallId := ℕ

abbrev RunId := ℕ

structure Command where
  generation : UInt64
  id : String
  params : Value
  deadline : ℕ
  reply : CallId
  deriving Repr

/-- An entry of the session's map from request ids to waiting callers. -/
structure Pending where
  id : String
  deadline : ℕ
  reply : CallId
  deriving DecidableEq, Repr

def Command.entry (c : Command) : Pending := ⟨c.id, c.deadline, c.reply⟩

inductive Status where
  | connecting
  | ready (result : ConnectResult)
  | failed (error : Error)
  deriving DecidableEq, Repr

/-- The sending half of a oneshot channel. -/
inductive Sender where
  | live
  | sent (result : Except Error SendResult)
  | gone
  deriving DecidableEq

/-- A oneshot channel; `abandoned` once its receiver is dropped. -/
structure Reply where
  sender : Sender := .live
  abandoned : Bool := false
  deriving DecidableEq

/-- What one run shares with the callers. -/
structure Cells where
  cancelled : Bool := false
  finished : Bool := false
  status : Status := .connecting
  firstResult : Option (Except Error ConnectResult) := none
  commands : List Command := []
  closed : Bool := false

structure Memory where
  clock : ℕ := 0
  uuids : List String := []
  destroyed : Bool := false
  connected : Bool := false
  generation : UInt64 := 0
  sockets : ℕ := 0
  slots : ℕ
  permits : Finset CallId := ∅
  lock : Option CallId := none
  running : Option RunId := none
  started : ℕ := 0
  cells : RunId → Cells := fun _ => { finished := true }
  replies : CallId → Reply := fun _ => {}

/-- What a socket yields. A close frame, an error and the end of the stream
all count as `closed`. -/
inductive Incoming where
  | text (text : String)
  | binary
  | ping
  | pong
  | closed
  deriving DecidableEq, Repr

/-- Frames a session writes. -/
inductive Wire where
  | send (command : Command)
  | ping (id : String)
  | recvAck (message : RecvMessage)
  deriving Repr

def Wire.value : Wire → Value
  | send command => Protocol.request "send" command.params command.id
  | ping id => Protocol.request "ping" (.object []) id
  | recvAck message => Protocol.recvAck message

/-- One access of a worker. Those from `emit` on leave the shared state alone
and are kept in the log: what the worker emits, writes and receives. -/
inductive Effect where
  | skip
  | release (call : CallId)
  | drop (call : CallId)
  | answer (call : CallId) (result : Except Error SendResult)
  | uuid (id : String)
  | setConnected (b : Bool)
  | bump
  | setStatus (status : Status)
  | setFirst (result : Except Error ConnectResult)
  | dequeue
  | close
  | finish
  | emit (event : Event)
  | dial
  | login (request : Value)
  | authenticated (result : ConnectResult)
  | rejected (error : Error)
  | receive (socket : ℕ) (message : Incoming)
  | write (socket : ℕ) (wire : Wire)
  | lost (socket : ℕ) (error : Error)
  | cancelled

/-- One access of a caller. -/
inductive Act where
  | skip
  | destroy
  | acquire
  | release
  | uuid (id : String)
  | lock
  | unlock
  | spawn
  | cancel (run : RunId)
  | clear
  | enqueue (run : RunId) (command : Command)
  | abandon

namespace Memory

def modify (m : Memory) (r : RunId) (f : Cells → Cells) : Memory :=
  { m with cells := Function.update m.cells r (f (m.cells r)) }

def setSender (m : Memory) (c : CallId) (sender : Sender) : Memory :=
  { m with replies := Function.update m.replies c { m.replies c with sender } }

/-- Dropping an admission permit frees its slot. -/
def freeSlot (m : Memory) (c : CallId) : Memory :=
  { m with slots := m.slots + 1, permits := m.permits.erase c }

/-- The worker of run `r` performs `e`. -/
def work (m : Memory) (r : RunId) : Effect → Memory
  | .release c => m.freeSlot c
  | .drop c => m.setSender c .gone
  | .answer c result => m.setSender c (.sent result)
  | .uuid id => { m with uuids := id :: m.uuids }
  | .setConnected b => { m with connected := b }
  | .bump => { m with generation := m.generation + 1, sockets := m.sockets + 1 }
  | .setStatus status => m.modify r fun x => { x with status }
  | .setFirst result => m.modify r fun x => { x with firstResult := some result }
  | .dequeue => m.modify r fun x => { x with commands := x.commands.tail }
  | .close => m.modify r fun x => { x with closed := true }
  | .finish => m.modify r fun x => { x with finished := true }
  | _ => m

/-- Call `c` performs `a`. A spawned run gets the next number; dropping the
guard after `*running = None` is the last access of a disconnect. -/
def serve (m : Memory) (c : CallId) : Act → Memory
  | .skip => m
  | .destroy => { m with destroyed := true }
  | .acquire => { m with slots := m.slots - 1, permits := insert c m.permits }
  | .release => m.freeSlot c
  | .uuid id => { m with uuids := id :: m.uuids }
  | .lock => { m with lock := some c }
  | .unlock => { m with lock := none }
  | .spawn =>
      { m with
        running := some m.started
        started := m.started + 1
        cells := Function.update m.cells m.started {} }
  | .cancel r => m.modify r fun x => { x with cancelled := true }
  | .clear => { m with running := none, lock := none }
  | .enqueue r command => m.modify r fun x => { x with commands := x.commands ++ [command] }
  | .abandon =>
      { m with replies := Function.update m.replies c { m.replies c with abandoned := true } }

end Memory

end WukongSdk
