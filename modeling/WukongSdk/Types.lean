import WukongSdk.Value

/-!
# Public types of the client

Durations are nanoseconds. Fields keep the fixed widths of the source where a
value can reach a comparison or a conversion.
-/
namespace WukongSdk

inductive DeviceFlag where
  | app
  | web
  | desktop
  deriving DecidableEq, Repr

def DeviceFlag.wire : DeviceFlag → UInt64
  | app => 0
  | web => 1
  | desktop => 2

structure Auth where
  uid : String
  token : String
  deviceId : String
  deviceFlag : DeviceFlag
  deriving Repr

/-- Resource and deadline limits. -/
structure Options where
  connectTimeout : ℕ
  requestTimeout : ℕ
  writeTimeout : ℕ
  pingInterval : ℕ
  pongTimeout : ℕ
  maxReconnectAttempts : ℕ
  reconnectDelay : ℕ
  maxReconnectDelay : ℕ
  maxInFlight : ℕ
  eventCapacity : ℕ
  maxMessageSize : ℕ
  additionalRootCertificates : List (List UInt8) := []
  deriving Repr

def second : ℕ := 1000000000

def day : ℕ := 86400 * second

/-- `Options::default`. -/
def Options.default : Options where
  connectTimeout := 5 * second
  requestTimeout := 15 * second
  writeTimeout := 5 * second
  pingInterval := 25 * second
  pongTimeout := 10 * second
  maxReconnectAttempts := 5
  reconnectDelay := second
  maxReconnectDelay := 30 * second
  maxInFlight := 256
  eventCapacity := 256
  maxMessageSize := 1024 * 1024

structure Header where
  noPersist : Bool := false
  redDot : Bool := false
  syncOnce : Bool := false
  dup : Bool := false
  deriving DecidableEq, Repr

structure MessageSetting where
  receipt : Bool := false
  signal : Bool := false
  stream : Bool := false
  topic : Bool := false
  deriving DecidableEq, Repr

structure SendOptions where
  clientMsgNo : Option String := none
  header : Header := { redDot := true }
  setting : Option MessageSetting := none
  topic : Option String := none
  deriving DecidableEq, Repr

structure ConnectResult where
  reasonCode : Int64
  serverKey : String := ""
  salt : String := ""
  timeDiff : Int64 := 0
  serverVersion : UInt32 := 0
  nodeId : UInt64 := 0
  deriving DecidableEq, Repr

structure SendResult where
  messageId : String
  messageSeq : UInt64
  reasonCode : Int64
  deriving DecidableEq, Repr

structure RecvMessage where
  header : Header
  messageId : String
  messageSeq : UInt64
  timestamp : Int64
  channelId : String
  channelType : UInt8
  fromUid : String
  payload : Value
  clientMsgNo : Option String
  setting : Option MessageSetting
  topic : Option String
  deriving Repr

structure CustomEvent where
  header : Option Header
  id : String
  eventType : String
  timestamp : Int64
  data : Value
  deriving Repr

inductive Error where
  | invalidInput (text : String)
  | notConnected
  | disconnected
  | destroyed
  | backpressure
  | timeout
  | transport
  | protocol (text : String)
  | server (code : Int64)
  | reconnectExhausted
  | messageTooLarge
  | runtimeUnavailable
  deriving DecidableEq, Repr

/-- `Options::validate`. -/
def Options.validate (o : Options) : Except Error Unit :=
  if o.additionalRootCertificates.length > 16
      || o.additionalRootCertificates.any fun cert => cert.isEmpty || cert.length > 65536 then
    .error (.invalidInput "invalid additional root certificate limit")
  else if ([o.connectTimeout, o.requestTimeout, o.writeTimeout, o.pingInterval, o.pongTimeout,
        o.reconnectDelay, o.maxReconnectDelay].any fun d => d = 0 || d > day)
      || o.maxReconnectDelay < o.reconnectDelay
      || o.maxReconnectAttempts > 100
      || !(1 ≤ o.maxInFlight && o.maxInFlight ≤ 65536)
      || !(1 ≤ o.eventCapacity && o.eventCapacity ≤ 65536)
      || !(256 ≤ o.maxMessageSize && o.maxMessageSize ≤ 64 * 1024 * 1024) then
    .error (.invalidInput "invalid resource or duration limit")
  else .ok ()

inductive DisconnectReason where
  | manual
  | transport
  | heartbeatTimeout
  | server (code : Int64)
  deriving DecidableEq, Repr

inductive Event where
  | connect (result : ConnectResult)
  | disconnect (reason : DisconnectReason)
  | message (message : RecvMessage)
  | sendAck (ack : SendResult)
  | reconnecting (attempt delay : ℕ)
  | customEvent (event : CustomEvent)
  | error (error : Error)
  deriving Repr

namespace Error

/-- `matches!(error, Error::Server { .. } | Error::Protocol(_))`: an answer to
an authentication that no retry can mend. -/
def isTerminal : Error → Bool
  | server _ => true
  | protocol _ => true
  | _ => false

def isServer : Error → Bool
  | server _ => true
  | _ => false

end Error

/-- `Duration::MAX`. -/
def durationMax : ℕ := 2 ^ 64 * second - 1

def durationMul (d : ℕ) (k : ℕ) : ℕ := min (d * k) durationMax

def durationAdd (d e : ℕ) : ℕ := min (d + e) durationMax

/-- The delay before reconnect attempt number `attempt`. `random` is the
128-bit value of a fresh UUID; the jitter is whole milliseconds, cast to `u64`. -/
def reconnectDelay (options : Options) (attempt random : ℕ) : ℕ :=
  let power := min (2 ^ (attempt - 1)) (2 ^ 32 - 1)
  let base := min (durationMul options.reconnectDelay power) options.maxReconnectDelay
  let jitterBound := base / 1000000 / 4
  let jitter := random % (jitterBound + 1)
  min (durationAdd base (jitter % 2 ^ 64 * 1000000)) options.maxReconnectDelay

end WukongSdk
