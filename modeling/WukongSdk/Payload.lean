import WukongSdk.Client
import WukongSdk.Decoding

/-!
# From the parameters of a SEND to the received message

The peer passes on what a SEND carried: payload, header, flags, topic and message
number. `recv` gives them back, up to the nesting its JSON reader accepts; a
payload beyond that stays the Base64 string it travelled as.
-/
namespace WukongSdk

mutual

/-- Levels of arrays and objects. -/
def Value.depth : Value → ℕ
  | .array items => 1 + itemsDepth items
  | .object fields => 1 + fieldsDepth fields
  | .null => 0
  | .bool _ => 0
  | .number _ => 0
  | .string _ => 0

def itemsDepth : List Value → ℕ
  | [] => 0
  | v :: rest => max v.depth (itemsDepth rest)

def fieldsDepth : List (String × Value) → ℕ
  | [] => 0
  | (_, v) :: rest => max v.depth (fieldsDepth rest)

end

namespace Protocol

/-- The parameters of an accepted SEND, by name. -/
theorem send_params {codec : Codec} {channel msgNo : String} {kind : UInt8} {payload v : Value}
    {options : SendOptions} (h : send codec channel kind payload options msgNo = .ok v) :
    ∃ bytes params, codec.toVec payload = some bytes ∧ v = .object params ∧
      params.lookup "payload" = some (.string (codec.encode bytes)) ∧
      params.lookup "header" = some (headerValue options.header) ∧
      params.lookup "clientMsgNo" = some (.string (options.clientMsgNo.getD msgNo)) ∧
      params.lookup "setting" = options.setting.map settingValue ∧
      params.lookup "topic" = options.topic.map .string := by
  unfold send at h
  split at h
  · cases h
  split at h
  · cases h
  next bytes hbytes =>
    injection h with h
    refine ⟨bytes, _, hbytes, h.symm, ?_⟩
    cases options.setting <;> cases options.topic <;>
      simp only [Fields.lookup_insert, Option.map_some, Option.map_none] <;>
      exact ⟨rfl, rfl, rfl, rfl, rfl⟩

theorem readSetting_settingValue (s : MessageSetting) : readSetting (settingValue s) = some s := rfl

/-- What a notification must carry beside the members of the SEND. -/
structure Addressed (fields : Fields) : Prop where
  messageId : ∃ id, (spelled fields "messageId").map decimal = some (.string id) ∧
    id.isEmpty = false
  messageSeq : ((spelled fields "messageSeq").bind Value.asU64).isSome
  timestamp : ((fields.lookup "timestamp").bind Value.asI64).isSome
  channelId : ∃ id, spelled fields "channelId" = some (.string id) ∧ id.isEmpty = false
  channelType : ((spelled fields "channelType").bind readU8).isSome
  fromUid : ((spelled fields "fromUid").bind Value.asStr).isSome

/-- The notification carries these members of the parameters unchanged. -/
def Carries (params fields : Fields) : Prop :=
  ∀ name ∈ ["payload", "header", "clientMsgNo", "setting", "topic"],
    fields.lookup name = params.lookup name

/-- A notification with a SEND's members is accepted, and gives them back; its
payload is read from the encoded bytes, or stays encoded. -/
theorem recv_of_send {codec : Codec} {channel msgNo : String} {kind : UInt8} {payload : Value}
    {options : SendOptions} {params fields : Fields} {bytes : ByteArray}
    (h : send codec channel kind payload options msgNo = .ok (.object params))
    (hbytes : codec.toVec payload = some bytes)
    (hdecode : codec.decode (codec.encode bytes) = some bytes)
    (hcarries : Carries params fields) (haddressed : Addressed fields) :
    ∃ m, recv codec (.object fields) = .ok m ∧ m.header = options.header ∧
      m.setting = options.setting ∧ m.topic = options.topic ∧
      m.clientMsgNo = some (options.clientMsgNo.getD msgNo) ∧
      m.payload = (codec.fromSlice bytes).getD (.string (codec.encode bytes)) := by
  obtain ⟨bytes', params', hbytes', hparams, hpayload, hheader, hmsgNo, hsetting, htopic⟩ :=
    send_params h
  obtain rfl := Option.some.inj (hbytes.symm.trans hbytes')
  cases hparams
  obtain ⟨id, hid, hidne⟩ := haddressed.messageId
  obtain ⟨channelId, hchannel, hchannelne⟩ := haddressed.channelId
  obtain ⟨seq, hseq⟩ := Option.isSome_iff_exists.mp haddressed.messageSeq
  obtain ⟨ts, hts⟩ := Option.isSome_iff_exists.mp haddressed.timestamp
  obtain ⟨type, htype⟩ := Option.isSome_iff_exists.mp haddressed.channelType
  obtain ⟨uid, huid⟩ := Option.isSome_iff_exists.mp haddressed.fromUid
  have hcarry : ∀ name ∈ ["payload", "header", "clientMsgNo", "setting", "topic"],
    fields.lookup name = params.lookup name := hcarries
  simp only [List.forall_mem_cons, hpayload, hheader, hmsgNo, hsetting, htopic] at hcarry
  obtain ⟨hpayload', hheader', hmsgNo', hsetting', htopic', -⟩ := hcarry
  refine ⟨⟨options.header, id, seq, ts, channelId, type, uid,
    (codec.fromSlice bytes).getD (.string (codec.encode bytes)),
    some (options.clientMsgNo.getD msgNo), options.setting, options.topic⟩, ?_, rfl, rfl, rfl, rfl,
    rfl⟩
  refine recv_ok.mpr ⟨⟨options.header, id, seq, ts, channelId, type, uid,
    .string (codec.encode bytes), some (options.clientMsgNo.getD msgNo), options.setting,
    options.topic⟩, ?_, hidne, hchannelne, ?_⟩
  · have hplain : ∀ name, Unaliased name → (spelled fields name) = fields.lookup name :=
      fun name hname => spelled_unaliased hname fields
    have hmsg := spelled_camel (p := ("client_msg_no", "clientMsgNo")) (by decide) fields
    rw [decode_ok, normalize_object, readRecvMessage_eq_some]
    refine ⟨fun _ name => (normalized fields).lookup name, rfl, ?_, ?_, ?_, ?_, ?_, ?_, ?_, ?_, ?_,
      ?_, ?_⟩
    · simp only [lookup_header, hheader', Option.map_some, defaulted, readHeader_headerValue]
    · simp only [lookup_messageId, hid, required, Option.bind_some, Value.asStr]
    · simpa only [lookup_other fields (k := "messageSeq") (by decide) (by decide),
        required] using hseq
    · simpa only [lookup_other fields (k := "timestamp") (by decide) (by decide),
        hplain "timestamp" (by decide), required] using hts
    · simp only [lookup_other fields (k := "channelId") (by decide) (by decide), hchannel, required,
        Option.bind_some, Value.asStr]
    · simpa only [lookup_other fields (k := "channelType") (by decide) (by decide),
        required] using htype
    · simpa only [lookup_other fields (k := "fromUid") (by decide) (by decide),
        required] using huid
    · simp only [lookup_other fields (k := "payload") (by decide) (by decide),
        hplain "payload" (by decide), hpayload', required, Option.bind_some]
    · simp only [lookup_other fields (k := "clientMsgNo") (by decide) (by decide), hmsg, hmsgNo',
        Option.some_or, defaulted, nullable, Value.asStr, Option.map_some]
    · simp only [lookup_other fields (k := "setting") (by decide) (by decide),
        hplain "setting" (by decide), hsetting']
      cases options.setting with
      | none => rfl
      | some s => exact congrArg (Option.map some) (readSetting_settingValue s)
    · simp only [lookup_other fields (k := "topic") (by decide) (by decide),
        hplain "topic" (by decide), htopic']
      cases options.topic <;> rfl
  · simp [Value.asStr, hdecode]

/-- What is sent is what is received, where the JSON reader takes back what the
writer wrote up to `limit` levels of nesting and rejects more: the payload is
read if it is within the limit, and else stays the string it was sent as. -/
theorem send_recv_round_trip {codec : Codec} {channel msgNo : String} {kind : UInt8}
    {payload : Value} {options : SendOptions} {params fields : Fields} {bytes : ByteArray}
    {limit : ℕ} (h : send codec channel kind payload options msgNo = .ok (.object params))
    (hbytes : codec.toVec payload = some bytes)
    (hdecode : codec.decode (codec.encode bytes) = some bytes)
    (hread : codec.fromSlice bytes = if payload.depth ≤ limit then some payload else none)
    (hcarries : Carries params fields) (haddressed : Addressed fields) :
    ∃ m no, recv codec (.object fields) = .ok m ∧
      (payload.depth ≤ limit → m.payload = payload) ∧
      (limit < payload.depth → params.lookup "payload" = some m.payload) ∧
      m.header = options.header ∧ m.setting = options.setting ∧ m.topic = options.topic ∧
      m.clientMsgNo = some no ∧ params.lookup "clientMsgNo" = some (.string no) := by
  obtain ⟨m, hm, hheader, hsetting, htopic, hno, hpayload⟩ :=
    recv_of_send h hbytes hdecode hcarries haddressed
  obtain ⟨bytes', params', hbytes', hparams, hencoded, -, hmsgNo, -⟩ := send_params h
  obtain rfl := Option.some.inj (hbytes.symm.trans hbytes')
  cases hparams
  refine ⟨m, _, hm, fun hle => ?_, fun hlt => ?_, hheader, hsetting, htopic, hno, hmsgNo⟩
  · rw [hpayload, hread, if_pos hle, Option.getD_some]
  · rw [hpayload, hread, if_neg (by omega), Option.getD_none, hencoded]

/-! ## A reader with the usual limit -/

/-- A character of the Base64 alphabet. -/
def sextet (n : ℕ) : Char :=
  "ABCDEFGHIJKLMNOPQRSTUVWXYZabcdefghijklmnopqrstuvwxyz0123456789+/".toList.getD n '='

def base64 : List UInt8 → List Char
  | a :: b :: c :: rest =>
    let n := a.toNat * 65536 + b.toNat * 256 + c.toNat
    sextet (n / 262144) :: sextet (n / 4096 % 64) :: sextet (n / 64 % 64) :: sextet (n % 64) ::
      base64 rest
  | [a, b] =>
    let n := a.toNat * 1024 + b.toNat * 4
    [sextet (n / 4096), sextet (n / 64 % 64), sextet (n % 64), '=']
  | [a] => [sextet (a.toNat / 4), sextet (a.toNat % 4 * 16), '=', '=']
  | [] => []

/-- A codec for the given payloads, whose reader accepts 127 levels. -/
def archive (payloads : List Value) : Codec where
  fromStr _ := none
  fromSlice bytes :=
    (payloads.find? fun v => (compact v).toUTF8 = bytes).filter fun v => v.depth ≤ 127
  toVec v := some (compact v).toUTF8
  render := compact
  encode bytes := String.ofList (base64 bytes.toList)
  decode text := (payloads.map fun v => (compact v).toUTF8).find? fun bytes =>
    String.ofList (base64 bytes.toList) = text

/-- A notification with the members of a SEND. -/
def notification (params : Fields) : Fields :=
  [("channelId", .string "eve"), ("channelType", .number (.posInt 1)), ("fromUid", .string "eve"),
    ("messageId", .string "7"), ("messageSeq", .number (.posInt 3)),
    ("timestamp", .number (.posInt 0))] ++
    params.filter fun f => f.1 ∈ ["payload", "header", "clientMsgNo", "setting", "topic"]

def greeting : Value := .object [("content", .string "hi")]

def nested : ℕ → Value
  | 0 => .array []
  | n + 1 => .array [nested n]

def sentParams (payload : Value) : Fields :=
  [("channelId", .string "bob"), ("channelType", .number (.posInt 1)),
    ("clientMsgNo", .string "m1"), ("header", headerValue { redDot := true }),
    ("payload", .string ((archive [payload]).encode (compact payload).toUTF8))]

theorem send_archive {payload : Value} (h : payload.isObject = true ∨ payload.isArray = true) :
    send (archive [payload]) "bob" 1 payload {} "m1" = .ok (.object (sentParams payload)) := by
  have hblank : isBlank "bob" = false := by decide
  have hkind : (!payload.isObject && !payload.isArray) = false := by
    rcases h with h | h <;> simp [h]
  rw [send, hblank, hkind]
  rfl

theorem carries_notification (payload : Value) :
    Carries (sentParams payload) (notification (sentParams payload)) := by
  simp only [Carries, List.forall_mem_cons]
  exact ⟨rfl, rfl, rfl, rfl, rfl, nofun⟩

theorem addressed_notification (payload : Value) :
    Addressed (notification (sentParams payload)) where
  messageId := ⟨"7", rfl, rfl⟩
  messageSeq := rfl
  timestamp := rfl
  channelId := ⟨"eve", rfl, by decide⟩
  channelType := rfl
  fromUid := rfl

theorem archive_decode (payload : Value) :
    (archive [payload]).decode ((archive [payload]).encode (compact payload).toUTF8) =
      some (compact payload).toUTF8 := by
  simp [archive]

theorem archive_fromSlice (payload : Value) :
    (archive [payload]).fromSlice (compact payload).toUTF8 =
      if payload.depth ≤ 127 then some payload else none := by
  simp [archive, Option.filter_some]

theorem send_recv_round_trip_greeting :
    ∃ m no, recv (archive [greeting]) (.object (notification (sentParams greeting))) = .ok m ∧
      m.payload = greeting ∧ m.header = { redDot := true } ∧ m.clientMsgNo = some no := by
  obtain ⟨m, no, hm, hpayload, -, hheader, -, -, hno, -⟩ :=
    send_recv_round_trip (send_archive (.inl rfl)) rfl (archive_decode greeting)
      (archive_fromSlice greeting) (carries_notification greeting) (addressed_notification greeting)
  exact ⟨m, no, hm, hpayload (by decide), hheader, hno⟩

theorem depth_nested (n : ℕ) : (nested n).depth = n + 1 := by
  induction n with
  | zero => rfl
  | succ n ih =>
    rw [nested, Value.depth, itemsDepth, itemsDepth, ih]
    omega

/-- An array nested in 129 others is sent, and received as the string it travelled as. -/
theorem sent_too_deep :
    ∃ params fields bytes m,
      send (archive [nested 129]) "bob" 1 (nested 129) {} "m1" = .ok (.object params) ∧
      (archive [nested 129]).toVec (nested 129) = some bytes ∧
      (archive [nested 129]).decode ((archive [nested 129]).encode bytes) = some bytes ∧
      128 < (nested 129).depth ∧ (archive [nested 129]).fromSlice bytes = none ∧
      Carries params fields ∧ Addressed fields ∧
      recv (archive [nested 129]) (.object fields) = .ok m ∧ m.payload ≠ nested 129 := by
  have hsend := @send_archive (nested 129) (.inr rfl)
  have hread : (archive [nested 129]).fromSlice (compact (nested 129)).toUTF8 = none := by
    rw [archive_fromSlice, depth_nested]
    rfl
  obtain ⟨m, hm, -, -, -, -, hpayload⟩ := recv_of_send hsend rfl (archive_decode _)
    (carries_notification _) (addressed_notification _)
  refine ⟨_, _, _, m, hsend, rfl, archive_decode _, by rw [depth_nested]; decide, hread,
    carries_notification _, addressed_notification _, hm, ?_⟩
  rw [hpayload, hread, Option.getD_none, nested]
  exact nofun

end Protocol

end WukongSdk
