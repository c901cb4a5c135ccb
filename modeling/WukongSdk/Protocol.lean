import WukongSdk.Types

/-!
# JSON-RPC messages

Requests, responses and notifications, with the normalization of metadata
spellings and the derived deserializers. The text level of `serde_json` and
Base64 are third-party code: `Codec` carries them, and every definition below
takes whatever codec it is given.
-/
namespace WukongSdk

/-- `serde_json::{from_str, from_slice, to_vec}`, `Value::to_string` and the
standard Base64 engine. -/
structure Codec where
  fromStr : String → Option Value
  fromSlice : ByteArray → Option Value
  toVec : Value → Option ByteArray
  render : Value → String
  encode : ByteArray → String
  decode : String → Option ByteArray

namespace Protocol

def request (method : String) (params : Value) (id : String) : Value :=
  .object [("id", .string id), ("jsonrpc", .string "2.0"), ("method", .string method),
    ("params", params)]

/-- The authentication request; `timestamp` is the wall clock in milliseconds. -/
def connect (auth : Auth) (timestamp : UInt64) (id : String) : Value :=
  request "connect" (.object [("clientTimestamp", .number (.posInt timestamp)),
    ("deviceFlag", .number (.posInt auth.deviceFlag.wire)),
    ("deviceId", .string auth.deviceId), ("token", .string auth.token),
    ("uid", .string auth.uid)]) id

def headerValue (h : Header) : Value :=
  .object [("dup", .bool h.dup), ("noPersist", .bool h.noPersist),
    ("redDot", .bool h.redDot), ("syncOnce", .bool h.syncOnce)]

def settingValue (s : MessageSetting) : Value :=
  .object [("receipt", .bool s.receipt), ("signal", .bool s.signal),
    ("stream", .bool s.stream), ("topic", .bool s.topic)]

/-- `char::is_whitespace`, the Unicode property White_Space. -/
def isWhitespace (c : Char) : Bool :=
  let n := c.toNat
  (9 ≤ n && n ≤ 13) || n = 32 || n = 0x85 || n = 0xA0 || n = 0x1680
    || (0x2000 ≤ n && n ≤ 0x200A) || n = 0x2028 || n = 0x2029 || n = 0x202F || n = 0x205F
    || n = 0x3000

/-- `str::trim().is_empty()`. -/
def isBlank (s : String) : Bool := s.toList.all isWhitespace

/-- Parameters of a SEND; `msgNo` is the UUID used when the caller gave no
message number. -/
def send (codec : Codec) (channel : String) (kind : UInt8) (payload : Value)
    (options : SendOptions) (msgNo : String) : Except Error Value :=
  if isBlank channel || kind = 0 || !payload.isObject && !payload.isArray
      || options.clientMsgNo.any isBlank then
    .error (.invalidInput "send requires a channel, nonzero type and JSON object/array")
  else
    match codec.toVec payload with
    | none => .error (.protocol "payload encoding")
    | some bytes =>
      let params : Fields := [("channelId", .string channel),
        ("channelType", .number (.posInt kind.toUInt64)),
        ("clientMsgNo", .string (options.clientMsgNo.getD msgNo)),
        ("header", headerValue options.header), ("payload", .string (codec.encode bytes))]
      let params := match options.setting with
        | some setting => Fields.insert "setting" (settingValue setting) params
        | none => params
      let params := match options.topic with
        | some topic => Fields.insert "topic" (.string topic) params
        | none => params
      .ok (.object params)

/-- The acknowledgement of a received message, a notification without an id. -/
def recvAck (m : RecvMessage) : Value :=
  .object [("jsonrpc", .string "2.0"), ("method", .string "recvack"),
    ("params", .object [("header", headerValue m.header), ("messageId", .string m.messageId),
      ("messageSeq", .number (.posInt m.messageSeq))])]

/-- Snake-case spellings and the names they are folded into. -/
def aliases : List (String × String) :=
  [("reason_code", "reasonCode"), ("server_key", "serverKey"), ("time_diff", "timeDiff"),
    ("server_version", "serverVersion"), ("node_id", "nodeId"), ("message_id", "messageId"),
    ("message_seq", "messageSeq"), ("channel_id", "channelId"), ("channel_type", "channelType"),
    ("from_uid", "fromUid"), ("client_msg_no", "clientMsgNo"), ("no_persist", "noPersist"),
    ("red_dot", "redDot"), ("sync_once", "syncOnce")]

/-- One turn of the alias loop: a camelCase field that is present wins. -/
def foldAlias (fields : Fields) (spelling : String × String) : Fields :=
  match fields.remove spelling.1 with
  | (some v, rest) => Fields.orInsert spelling.2 v rest
  | (none, _) => fields

/-- A numeric `messageId` becomes its decimal string. -/
def stringId (fields : Fields) : Fields :=
  fields.map fun f =>
    if f.1 = "messageId" then
      match f.2.asU64 with
      | some n => (f.1, .string (toString n.toNat))
      | none => f
    else f

mutual

/-- Metadata spellings of a message and of its header. No alias touches the
field `header`, so the inner call may come before the loop over the aliases. -/
def normalize : Value → Value
  | .object fields => .object (stringId (aliases.foldl foldAlias (normalizeFields fields)))
  | .null => .null
  | .bool b => .bool b
  | .number n => .number n
  | .string s => .string s
  | .array items => .array items

def normalizeFields : List (String × Value) → List (String × Value)
  | [] => []
  | f :: rest => normalizeField f :: normalizeFields rest

def normalizeField : String × Value → String × Value
  | (key, value) => (key, if key = "header" then normalize value else value)

end

/-! ## Derived deserializers

A derived struct reads an object by field name and an array by position; an
array may be shorter than the struct, never longer. -/

/-- Access to the members of a struct with `arity` fields. -/
def slots (v : Value) (arity : ℕ) : Option (ℕ → String → Option Value) :=
  match v with
  | .object fields => some fun _ name => fields.lookup name
  | .array items => if items.length ≤ arity then some fun i _ => items[i]? else none
  | _ => none

/-- A field without a default must be present. -/
def required {α : Type} (read : Value → Option α) (slot : Option Value) : Option α :=
  slot.bind read

/-- `#[serde(default)]`: only an absent field takes the default. -/
def defaulted {α : Type} (d : α) (read : Value → Option α) : Option Value → Option α
  | some v => read v
  | none => some d

/-- `Option<T>`: JSON null is `None`. -/
def nullable {α : Type} (read : Value → Option α) : Value → Option (Option α)
  | .null => some none
  | v => (read v).map some

def readBool : Value → Option Bool
  | .bool b => some b
  | _ => none

def readU32 (v : Value) : Option UInt32 :=
  v.asU64.bind fun n => if n.toNat < 2 ^ 32 then some (UInt32.ofNat n.toNat) else none

def readU8 (v : Value) : Option UInt8 :=
  v.asU64.bind fun n => if n.toNat < 2 ^ 8 then some (UInt8.ofNat n.toNat) else none

def readHeader (v : Value) : Option Header := do
  let slot ← slots v 4
  let noPersist ← defaulted false readBool (slot 0 "noPersist")
  let redDot ← defaulted false readBool (slot 1 "redDot")
  let syncOnce ← defaulted false readBool (slot 2 "syncOnce")
  let dup ← defaulted false readBool (slot 3 "dup")
  return { noPersist, redDot, syncOnce, dup }

def readSetting (v : Value) : Option MessageSetting := do
  let slot ← slots v 4
  let receipt ← defaulted false readBool (slot 0 "receipt")
  let signal ← defaulted false readBool (slot 1 "signal")
  let stream ← defaulted false readBool (slot 2 "stream")
  let topic ← defaulted false readBool (slot 3 "topic")
  return { receipt, signal, stream, topic }

def readConnectResult (v : Value) : Option ConnectResult := do
  let slot ← slots v 6
  let reasonCode ← required Value.asI64 (slot 0 "reasonCode")
  let serverKey ← defaulted "" Value.asStr (slot 1 "serverKey")
  let salt ← defaulted "" Value.asStr (slot 2 "salt")
  let timeDiff ← defaulted 0 Value.asI64 (slot 3 "timeDiff")
  let serverVersion ← defaulted 0 readU32 (slot 4 "serverVersion")
  let nodeId ← defaulted 0 Value.asU64 (slot 5 "nodeId")
  return { reasonCode, serverKey, salt, timeDiff, serverVersion, nodeId }

def readSendResult (v : Value) : Option SendResult := do
  let slot ← slots v 3
  let messageId ← required Value.asStr (slot 0 "messageId")
  let messageSeq ← required Value.asU64 (slot 1 "messageSeq")
  let reasonCode ← required Value.asI64 (slot 2 "reasonCode")
  return { messageId, messageSeq, reasonCode }

def readRecvMessage (v : Value) : Option RecvMessage := do
  let slot ← slots v 11
  let header ← defaulted {} readHeader (slot 0 "header")
  let messageId ← required Value.asStr (slot 1 "messageId")
  let messageSeq ← required Value.asU64 (slot 2 "messageSeq")
  let timestamp ← required Value.asI64 (slot 3 "timestamp")
  let channelId ← required Value.asStr (slot 4 "channelId")
  let channelType ← required readU8 (slot 5 "channelType")
  let fromUid ← required Value.asStr (slot 6 "fromUid")
  let payload ← required some (slot 7 "payload")
  let clientMsgNo ← defaulted none (nullable Value.asStr) (slot 8 "clientMsgNo")
  let setting ← defaulted none (nullable readSetting) (slot 9 "setting")
  let topic ← defaulted none (nullable Value.asStr) (slot 10 "topic")
  return ⟨header, messageId, messageSeq, timestamp, channelId, channelType, fromUid, payload,
    clientMsgNo, setting, topic⟩

def readCustomEvent (v : Value) : Option CustomEvent := do
  let slot ← slots v 5
  let header ← defaulted none (nullable readHeader) (slot 0 "header")
  let id ← required Value.asStr (slot 1 "id")
  let eventType ← required Value.asStr (slot 2 "type")
  let timestamp ← required Value.asI64 (slot 3 "timestamp")
  let data ← required some (slot 4 "data")
  return { header, id, eventType, timestamp, data }

/-- `decode::<T>`, for the deserializer `read` of `T`. -/
def decode {α : Type} (read : Value → Option α) (v : Value) : Except Error α :=
  match read (normalize v) with
  | some a => .ok a
  | none => .error (.protocol "invalid fields")

/-- The result of a response, or the error it carries. -/
def response (v : Value) : Except Error Value :=
  match v.get "result", v.get "error" with
  | some result, none =>
    match (result.get "reasonCode").or (result.get "reason_code") with
    | none => .ok result
    | some code =>
      match code.asI64 with
      | none => .error (.protocol "invalid reason code")
      | some code => if code ≠ 1 then .error (.server code) else .ok result
  | none, some error =>
    match (error.get "code").bind Value.asI64 with
    | some code => .error (.server code)
    | none => .error (.protocol "invalid RPC error")
  | _, _ => .error (.protocol "expected exactly one result or error")

/-- A received message. A payload string is replaced only if it decodes all the
way to JSON. -/
def recv (codec : Codec) (v : Value) : Except Error RecvMessage := do
  let m ← decode readRecvMessage v
  if m.messageId.isEmpty || m.channelId.isEmpty then
    throw (.protocol "missing message identity")
  match (m.payload.asStr.bind codec.decode).bind codec.fromSlice with
  | some json => return { m with payload := json }
  | none => return m

def event (codec : Codec) (v : Value) : Except Error CustomEvent := do
  if (v.get "data").isNone then throw (.protocol "missing event data")
  let e ← decode readCustomEvent v
  if e.id.isEmpty || e.eventType.isEmpty then throw (.protocol "missing event identity")
  match e.data.asStr.bind codec.fromStr with
  | some json => return { e with data := json }
  | none => return e

/-- A JSON-RPC envelope: an object whose version, if given, is 2.0. -/
def parse (codec : Codec) (text : String) : Except Error Value :=
  match codec.fromStr text with
  | none => .error (.protocol "invalid JSON")
  | some v =>
    if !v.isObject || (v.get "jsonrpc").any fun j => j.asStr ≠ some "2.0" then
      .error (.protocol "expected JSON-RPC 2.0 object")
    else .ok v

/-- The reason code of a `disconnect` notification, zero if it has none. -/
def disconnectCode (params : Value) : Int64 :=
  (((params.get "reasonCode").or (params.get "reason_code")).bind Value.asI64).getD 0

/-! ## Errors of malformed data -/

/-- Malformed data is a protocol error. -/
def Malformed (e : Error) : Prop := ∃ what, e = .protocol what

variable {codec : Codec} {e : Error}

theorem parse_malformed {text : String} (h : parse codec text = .error e) : Malformed e := by
  unfold parse at h
  split at h
  · cases h
    exact ⟨_, rfl⟩
  · split at h <;> cases h
    exact ⟨_, rfl⟩

theorem decode_malformed {α : Type} {read : Value → Option α} {v : Value}
    (h : decode read v = .error e) : Malformed e := by
  unfold decode at h
  split at h <;> cases h
  exact ⟨_, rfl⟩

theorem recv_malformed {v : Value} (h : recv codec v = .error e) : Malformed e := by
  unfold recv at h
  cases hd : decode readRecvMessage v with
  | error e' =>
    rw [hd] at h
    cases h
    exact decode_malformed hd
  | ok m =>
    rw [hd] at h
    simp only [bind, Except.bind] at h
    split at h
    · cases h
      exact ⟨_, rfl⟩
    · split at h <;> cases h

theorem event_malformed {v : Value} (h : event codec v = .error e) : Malformed e := by
  unfold event at h
  cases hd : decode readCustomEvent v with
  | error e' =>
    rw [hd] at h
    simp only [bind, Except.bind] at h
    split at h
    · cases h
      exact ⟨_, rfl⟩
    · cases h
      exact decode_malformed hd
  | ok m =>
    rw [hd] at h
    simp only [bind, Except.bind] at h
    split at h
    · cases h
      exact ⟨_, rfl⟩
    · split at h
      · cases h
        exact ⟨_, rfl⟩
      · split at h <;> cases h

end Protocol

end WukongSdk
