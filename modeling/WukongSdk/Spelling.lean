import WukongSdk.Decoding

/-!
# Spellings of metadata

Two objects that differ only in how their metadata is spelled decode alike,
normalization is idempotent, and application data passes through it untouched.
-/
namespace WukongSdk

namespace Protocol

/-! ## Two spellings of one object -/

/-- The two objects carry the same metadata outside `header`: each aliased field
has one value, read in camelCase first, and a message id may be a number in one
and its decimal string in the other. -/
structure SameMetadata (fields fields' : Fields) : Prop where
  aliased : ∀ p ∈ aliases, p.2 ≠ "messageId" →
    (fields'.lookup p.2).or (fields'.lookup p.1) = (fields.lookup p.2).or (fields.lookup p.1)
  messageId : ((fields'.lookup "messageId").or (fields'.lookup "message_id")).map decimal =
    ((fields.lookup "messageId").or (fields.lookup "message_id")).map decimal
  other : ∀ k, Unaliased k → k ≠ "header" → fields'.lookup k = fields.lookup k

/-- `fields'` is `fields` in another spelling, also inside `header` where that
is an object. -/
inductive Respelled : Fields → Fields → Prop
  | plain {fields fields' : Fields} (hmeta : SameMetadata fields fields')
      (hheader : fields'.lookup "header" = fields.lookup "header") : Respelled fields fields'
  | nested {fields fields' header header' : Fields} (hmeta : SameMetadata fields fields')
      (h : fields.lookup "header" = some (.object header))
      (h' : fields'.lookup "header" = some (.object header'))
      (hinner : Respelled header header') : Respelled fields fields'

theorem SameMetadata.lookup_normalized {fields fields' : Fields} (h : SameMetadata fields fields')
    {k : String} (hk : k ≠ "header") :
    (normalized fields').lookup k = (normalized fields).lookup k := by
  by_cases hid : k = "messageId"
  · rw [hid, lookup_messageId, lookup_messageId]
    have hcamel := @spelled_camel ("message_id", "messageId") (by decide)
    simp only at hcamel
    rw [hcamel, hcamel]
    exact h.messageId
  rw [lookup_other _ hid hk, lookup_other _ hid hk]
  rcases spelling_cases k with hsnake | ⟨p, hp, rfl⟩ | hnone
  · rw [spelled_snake hsnake, spelled_snake hsnake]
  · rw [spelled_camel hp, spelled_camel hp, h.aliased p hp hid]
  · rw [spelled_unaliased hnone, spelled_unaliased hnone, h.other k hnone hk]

theorem Respelled.sameMetadata {fields fields' : Fields} (h : Respelled fields fields') :
    SameMetadata fields fields' := by
  cases h with
  | plain hmeta _ => exact hmeta
  | nested hmeta _ _ _ => exact hmeta

theorem Respelled.lookup_normalized {fields fields' : Fields} (h : Respelled fields fields')
    {k : String} (hk : k ≠ "header") :
    (normalized fields').lookup k = (normalized fields).lookup k :=
  h.sameMetadata.lookup_normalized hk

/-- A header reads the same in both spellings. -/
theorem Respelled.readHeader {fields fields' : Fields} (h : Respelled fields fields') :
    readHeader (.object (normalized fields')) = readHeader (.object (normalized fields)) := by
  simp (disch := decide) only [Protocol.readHeader, slots, Option.bind_eq_bind, Option.bind_some,
    h.lookup_normalized]

/-- What a reader of headers finds in the field `header` of either spelling. -/
theorem Respelled.header {fields fields' : Fields} (h : Respelled fields fields') {α : Type}
    {read : Option Value → Option α}
    (hread : ∀ o o' : Fields, Protocol.readHeader (.object o') = Protocol.readHeader (.object o) →
      read (some (.object o')) = read (some (.object o))) :
    read ((normalized fields').lookup "header") = read ((normalized fields).lookup "header") := by
  rw [lookup_header, lookup_header]
  cases h with
  | plain _ hheader => rw [hheader]
  | nested _ h h' hinner =>
    rw [h, h', Option.map_some, Option.map_some, normalize_object, normalize_object]
    exact hread _ _ hinner.readHeader

theorem decode_object {α : Type} {read : Value → Option α} {fields fields' : Fields}
    (h : read (.object (normalized fields')) = read (.object (normalized fields))) :
    decode read (.object fields') = decode read (.object fields) := by
  rw [decode, decode, normalize_object, normalize_object, h]

namespace Respelled

variable {fields fields' : Fields} (h : Respelled fields fields')
include h

theorem connectResult :
    decode readConnectResult (.object fields') = decode readConnectResult (.object fields) := by
  apply decode_object
  simp only [readConnectResult, slots, Option.bind_eq_bind, Option.bind_some]
  rw [h.lookup_normalized (k := "reasonCode") (by decide),
    h.lookup_normalized (k := "serverKey") (by decide),
    h.lookup_normalized (k := "salt") (by decide),
    h.lookup_normalized (k := "timeDiff") (by decide),
    h.lookup_normalized (k := "serverVersion") (by decide),
    h.lookup_normalized (k := "nodeId") (by decide)]

theorem sendResult :
    decode readSendResult (.object fields') = decode readSendResult (.object fields) := by
  apply decode_object
  simp only [readSendResult, slots, Option.bind_eq_bind, Option.bind_some]
  rw [h.lookup_normalized (k := "messageId") (by decide),
    h.lookup_normalized (k := "messageSeq") (by decide),
    h.lookup_normalized (k := "reasonCode") (by decide)]

theorem recvMessage :
    decode readRecvMessage (.object fields') = decode readRecvMessage (.object fields) := by
  have hheader := h.header fun o o' he => show defaulted {} Protocol.readHeader _ =
    defaulted {} Protocol.readHeader _ from he
  apply decode_object
  dsimp only [readRecvMessage, slots, Option.bind_eq_bind, Option.bind_some]
  rw [hheader,
    h.lookup_normalized (k := "messageId") (by decide),
    h.lookup_normalized (k := "messageSeq") (by decide),
    h.lookup_normalized (k := "timestamp") (by decide),
    h.lookup_normalized (k := "channelId") (by decide),
    h.lookup_normalized (k := "channelType") (by decide),
    h.lookup_normalized (k := "fromUid") (by decide),
    h.lookup_normalized (k := "payload") (by decide),
    h.lookup_normalized (k := "clientMsgNo") (by decide),
    h.lookup_normalized (k := "setting") (by decide),
    h.lookup_normalized (k := "topic") (by decide)]

theorem customEvent :
    decode readCustomEvent (.object fields') = decode readCustomEvent (.object fields) := by
  have hheader := h.header fun o o' he => show defaulted none (nullable Protocol.readHeader) _ =
    defaulted none (nullable Protocol.readHeader) _ from congrArg (Option.map some) he
  apply decode_object
  simp only [readCustomEvent, slots, Option.bind_eq_bind, Option.bind_some]
  rw [hheader,
    h.lookup_normalized (k := "id") (by decide),
    h.lookup_normalized (k := "type") (by decide),
    h.lookup_normalized (k := "timestamp") (by decide),
    h.lookup_normalized (k := "data") (by decide)]

end Respelled

/-! ## Normalizing twice -/

/-- An entry normalization leaves alone. -/
structure Normal (f : String × Value) : Prop where
  spelling : f.1 ∉ aliases.map Prod.fst
  messageId : f.1 = "messageId" → decimal f.2 = f.2
  header : f.1 = "header" → normalize f.2 = f.2

theorem decimal_decimal (v : Value) : decimal (decimal v) = decimal v := by
  unfold decimal
  cases hv : v.asU64 with
  | none => simp [hv]
  | some n => rfl

theorem mem_insert {key : String} {value : Value} {fields : Fields} {f : String × Value}
    (hf : f ∈ Fields.insert key value fields) : f = (key, value) ∨ f ∈ fields := by
  induction fields with
  | nil => exact .inl (by simpa [Fields.insert] using hf)
  | cons g rest ih =>
    unfold Fields.insert at hf
    split at hf
    · rcases List.mem_cons.mp hf with rfl | hf
      · exact .inl rfl
      · exact .inr (List.mem_cons_of_mem _ hf)
    · split at hf
      · exact List.mem_cons.mp hf
      · rcases List.mem_cons.mp hf with rfl | hf
        · exact .inr (List.mem_cons_self ..)
        · exact (ih hf).imp_right (List.mem_cons_of_mem _)

/-- An entry of a folded object keeps its name or takes the camelCase one. -/
theorem mem_foldAlias {fields : Fields} {p : String × String} {f : String × Value}
    (hp : p.1 ≠ p.2) (hf : f ∈ foldAlias fields p) : f.1 ≠ p.1 ∧ (f ∈ fields ∨ f.1 = p.2) := by
  unfold foldAlias Fields.remove at hf
  cases h : fields.lookup p.1 with
  | none =>
    simp only [h] at hf
    refine ⟨fun heq => ?_, .inl hf⟩
    rw [List.lookup_eq_none_iff] at h
    simpa [heq] using h f hf
  | some v =>
    simp only [h] at hf
    have hrest : ∀ g ∈ fields.filter fun f => f.1 ≠ p.1, g.1 ≠ p.1 ∧ (g ∈ fields ∨ g.1 = p.2) := by
      intro g hg
      rw [List.mem_filter] at hg
      exact ⟨by simpa using hg.2, .inl hg.1⟩
    unfold Fields.orInsert at hf
    split at hf
    · exact hrest f hf
    · rcases mem_insert hf with rfl | hf
      · exact ⟨hp.symm, .inr rfl⟩
      · exact hrest f hf

theorem mem_foldl {pairs : List (String × String)} {fields : Fields} {f : String × Value}
    (hpairs : ∀ p ∈ pairs, p.1 ∉ pairs.map Prod.snd) (hf : f ∈ pairs.foldl foldAlias fields) :
    f.1 ∉ pairs.map Prod.fst ∧ (f ∈ fields ∨ f.1 ∈ pairs.map Prod.snd) := by
  induction pairs generalizing fields with
  | nil => exact ⟨by simp, .inl hf⟩
  | cons p pairs ih =>
    have hp := hpairs p (List.mem_cons_self ..)
    rw [List.map_cons, List.mem_cons, not_or] at hp
    have hrest : ∀ q ∈ pairs, q.1 ∉ pairs.map Prod.snd := fun q hq h =>
      hpairs q (List.mem_cons_of_mem _ hq) (List.mem_cons_of_mem _ h)
    obtain ⟨hnot, hmem⟩ := ih hrest hf
    have hkey : f.1 ≠ p.1 := by
      rcases hmem with hmem | hmem
      · exact (mem_foldAlias hp.1 hmem).1
      · exact fun h => hp.2 (h ▸ hmem)
    refine ⟨by simp [hkey, hnot], ?_⟩
    rcases hmem with hmem | hmem
    · refine (mem_foldAlias hp.1 hmem).2.imp_right fun h => ?_
      rw [h, List.map_cons]
      exact List.mem_cons_self ..
    · exact .inr (List.mem_cons_of_mem _ hmem)

theorem foldl_of_normal {pairs : List (String × String)} {fields : Fields}
    (h : ∀ f ∈ fields, f.1 ∉ pairs.map Prod.fst) : pairs.foldl foldAlias fields = fields := by
  induction pairs with
  | nil => rfl
  | cons p pairs ih =>
    have hnone : fields.lookup p.1 = none := by
      rw [List.lookup_eq_none_iff]
      intro f hf
      have hne : f.1 ≠ p.1 := fun he => h f hf (he ▸ List.mem_cons_self ..)
      simpa using hne.symm
    rw [List.foldl_cons, foldAlias, Fields.remove, hnone]
    exact ih fun f hf hmem => h f hf (List.mem_cons_of_mem _ hmem)

theorem normalized_of_normal {fields : Fields} (h : ∀ f ∈ fields, Normal f) :
    normalized fields = fields := by
  have hheader : normalizeFields fields = fields := by
    rw [normalizeFields_eq_map]
    refine (List.map_congr_left fun f hf => ?_).trans (List.map_id fields)
    split
    · next he => rw [(h f hf).header he, id]
    · rfl
  rw [normalized, hheader, foldl_of_normal fun f hf => (h f hf).spelling, stringId_eq_map]
  refine (List.map_congr_left fun f hf => ?_).trans (List.map_id fields)
  split
  · next he => rw [(h f hf).messageId he, id]
  · rfl

/-- Normalization makes entries normal, if it does inside headers. -/
theorem normal_of_mem {fields : Fields}
    (hheader : ∀ f ∈ normalizeFields fields, f.1 = "header" → normalize f.2 = f.2)
    {f : String × Value} (hf : f ∈ normalized fields) : Normal f := by
  rw [normalized, stringId_eq_map, List.mem_map] at hf
  obtain ⟨g, hg, rfl⟩ := hf
  obtain ⟨hsnake, hmem⟩ := mem_foldl (by decide) hg
  refine ⟨hsnake, fun he => ?_, fun he => ?_⟩
  · simp only at he
    simp only [if_pos he, decimal_decimal]
  · simp only at he
    have hne : g.1 ≠ "messageId" := fun h => absurd (he.symm.trans h) (by decide)
    have hcamel : g.1 ∉ aliases.map Prod.snd := he ▸ by decide
    simp only [if_neg hne]
    exact hheader g (hmem.resolve_right hcamel) he

mutual

/-- Normalizing a second time changes nothing. -/
theorem normalize_normalize : ∀ v : Value, normalize (normalize v) = normalize v
  | .object fields => by
    rw [normalize_object, normalize_object,
      normalized_of_normal fun f hf => normal_of_mem (normalizeFields_normal fields) hf]
  | .null | .bool _ | .number _ | .string _ | .array _ => by simp only [normalize]

theorem normalizeFields_normal : ∀ fields : List (String × Value),
    ∀ f ∈ normalizeFields fields, f.1 = "header" → normalize f.2 = f.2
  | [], f, hf, _ => by simp [normalizeFields] at hf
  | g :: rest, f, hf, he => by
    rw [normalizeFields, List.mem_cons] at hf
    rcases hf with rfl | hf
    · exact normalizeField_normal g he
    · exact normalizeFields_normal rest f hf he

theorem normalizeField_normal : ∀ f : String × Value,
    (normalizeField f).1 = "header" → normalize (normalizeField f).2 = (normalizeField f).2
  | (key, value), he => by
    simp only [normalizeField] at he ⊢
    rw [if_pos he]
    exact normalize_normalize value

end

/-! ## Application data -/

/-- The member of a struct of `arity` fields that stands at `index` in an array
and under `name` in an object. -/
def member (v : Value) (arity index : ℕ) (name : String) : Option Value :=
  (slots v arity).bind fun slot => slot index name

theorem member_normalize (v : Value) (arity index : ℕ) {name : String} (hname : Unaliased name)
    (hheader : name ≠ "header") :
    member (normalize v) arity index name = member v arity index name := by
  cases v with
  | object fields =>
    rw [normalize_object]
    show (normalized fields).lookup name = fields.lookup name
    have hid : name ≠ "messageId" := fun h =>
      (hname ("message_id", "messageId") (by decide)).2 h
    rw [lookup_other fields hid hheader, spelled_unaliased hname]
  | _ => simp only [normalize]

/-- The payload of a decoded message is the member of that name. -/
theorem member_payload {v : Value} {m : RecvMessage} (h : decode readRecvMessage v = .ok m) :
    member v 11 7 "payload" = some m.payload := by
  rw [decode_ok, readRecvMessage_eq_some] at h
  obtain ⟨slot, hslot, -, -, -, -, -, -, -, hpayload, -⟩ := h
  rw [← member_normalize v 11 7 (by decide) (by decide), member, hslot,
    Option.bind_some]
  simpa [required] using hpayload

theorem member_data {v : Value} {e : CustomEvent} (h : decode readCustomEvent v = .ok e) :
    member v 5 4 "data" = some e.data := by
  rw [decode_ok, readCustomEvent_eq_some] at h
  obtain ⟨slot, hslot, -, -, -, -, hdata⟩ := h
  rw [← member_normalize v 5 4 (by decide) (by decide), member, hslot,
    Option.bind_some]
  simpa [required] using hdata

/-- The spelling of metadata does not matter to any decoder, normalizing twice is
normalizing once, and a payload or event data that is no string reaches the
application as it came. -/
theorem spelling_invariance {fields fields' : Fields} (h : Respelled fields fields')
    (codec : Codec) (v : Value) :
    (decode readConnectResult (.object fields') = decode readConnectResult (.object fields) ∧
      decode readSendResult (.object fields') = decode readSendResult (.object fields) ∧
      decode readRecvMessage (.object fields') = decode readRecvMessage (.object fields) ∧
      decode readCustomEvent (.object fields') = decode readCustomEvent (.object fields)) ∧
    normalize (normalize v) = normalize v ∧
    (∀ m, recv codec v = .ok m → ∃ payload, member v 11 7 "payload" = some payload ∧
      (payload.asStr = none → m.payload = payload)) ∧
    (∀ e, event codec v = .ok e → ∃ data, member v 5 4 "data" = some data ∧
      (data.asStr = none → e.data = data)) := by
  refine ⟨⟨h.connectResult, h.sendResult, h.recvMessage, h.customEvent⟩, normalize_normalize v,
    fun m hm => ?_, fun e he => ?_⟩
  · obtain ⟨d, hd, -, -, rfl⟩ := recv_ok.mp hm
    exact ⟨d.payload, member_payload hd, fun hp => by simp [hp]⟩
  · obtain ⟨-, d, hd, -, -, rfl⟩ := event_ok.mp he
    exact ⟨d.data, member_data hd, fun hp => by simp [hp]⟩

/-- A received message in camelCase, with its id as a string. -/
def camelCased : Fields :=
  [("channelId", .string "bob"), ("channelType", .number (.posInt 1)), ("fromUid", .string "eve"),
    ("header", .object [("redDot", .bool true)]), ("messageId", .string "7"),
    ("messageSeq", .number (.posInt 3)), ("payload", .object [("message_id", .null)]),
    ("timestamp", .number (.posInt 0))]

/-- The same with some names in snake_case, one of them beside its camelCase
spelling, and with a numeric id. -/
def snakeCased : Fields :=
  [("channelId", .string "bob"), ("channel_type", .number (.posInt 1)), ("from_uid", .string "eve"),
    ("header", .object [("red_dot", .bool true)]), ("messageSeq", .number (.posInt 3)),
    ("message_id", .number (.posInt 7)), ("message_seq", .null),
    ("payload", .object [("message_id", .null)]), ("timestamp", .number (.posInt 0))]

theorem snakeCased_respelled : Respelled camelCased snakeCased := by
  have hheader : SameMetadata [("redDot", .bool true)] [("red_dot", .bool true)] := by
    refine ⟨fun p hp _ => ?_, rfl, fun k hk _ => ?_⟩
    · simp only [aliases, List.mem_cons, List.not_mem_nil, or_false] at hp
      rcases hp with rfl | rfl | rfl | rfl | rfl | rfl | rfl | rfl | rfl | rfl | rfl | rfl | rfl |
        rfl <;> rfl
    · have h := hk ("red_dot", "redDot") (by decide)
      simp [lookup_cons_ite, h.1, h.2]
  refine .nested ⟨fun p hp hid => ?_, rfl, fun k hk hheader => ?_⟩ rfl rfl (.plain hheader rfl)
  · simp only [aliases, List.mem_cons, List.not_mem_nil, or_false] at hp
    rcases hp with rfl | rfl | rfl | rfl | rfl | rfl | rfl | rfl | rfl | rfl | rfl | rfl | rfl |
      rfl <;> first | rfl | exact absurd rfl hid
  · have htype := hk ("channel_type", "channelType") (by decide)
    have hfrom := hk ("from_uid", "fromUid") (by decide)
    have hid := hk ("message_id", "messageId") (by decide)
    have hseq := hk ("message_seq", "messageSeq") (by decide)
    simp [camelCased, snakeCased, lookup_cons_ite, hheader, htype.1, htype.2, hfrom.1, hfrom.2,
      hid.1, hid.2, hseq.1, hseq.2]

theorem spelling_invariance_snakeCased :
    ∃ m, decode readRecvMessage (.object camelCased) = .ok m ∧
      decode readRecvMessage (.object snakeCased) = .ok m ∧ m.messageId = "7" ∧
      m.header.redDot = true := by
  have hsame := (spelling_invariance snakeCased_respelled
    { fromStr := fun _ => none, fromSlice := fun _ => none, toVec := fun _ => none
      render := fun _ => "", encode := fun _ => "", decode := fun _ => none } .null).1.2.2.1
  obtain ⟨m, hm, hid, hheader⟩ : ∃ m, decode readRecvMessage (.object camelCased) = .ok m ∧
      m.messageId = "7" ∧ m.header.redDot = true := ⟨_, rfl, rfl, rfl⟩
  exact ⟨m, hm, hsame.trans hm, hid, hheader⟩

end Protocol

end WukongSdk
