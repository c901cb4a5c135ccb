import WukongSdk.Protocol

/-!
# What decoding reads

`normalize` folds fourteen snake_case names into camelCase ones, makes a numeric
`messageId` a string, and does the same inside `header`. What it leaves under a
name is told by lookups in the object as it came. Each derived deserializer is
characterized by the members it reads.
-/
namespace WukongSdk

/-! ## Lookups in a list of pairs -/

section

variable {α β : Type*} [DecidableEq α]

theorem lookup_cons_ite (f : α × β) (l : List (α × β)) (k : α) :
    (f :: l).lookup k = if k = f.1 then some f.2 else l.lookup k := by
  obtain ⟨a, b⟩ := f
  rw [List.lookup_cons]
  by_cases hk : k = a
  · simp [hk]
  · simp [hk, beq_false_of_ne hk]

theorem lookup_filter_ne (l : List (α × β)) (a k : α) :
    (l.filter fun f => f.1 ≠ a).lookup k = if k = a then none else l.lookup k := by
  induction l with
  | nil => simp
  | cons f l ih =>
    by_cases hf : f.1 = a
    · rw [List.filter_cons_of_neg (by simpa using hf), ih, lookup_cons_ite, hf]
      by_cases hk : k = a <;> simp [hk]
    · rw [List.filter_cons_of_pos (by simpa using hf), lookup_cons_ite, lookup_cons_ite, ih]
      by_cases hk : k = f.1
      · simp [hk, hf]
      · simp [hk]

theorem lookup_map_value (g : α → β → β) (l : List (α × β)) (k : α) :
    (l.map fun f => (f.1, g f.1 f.2)).lookup k = (l.lookup k).map (g k) := by
  induction l with
  | nil => rfl
  | cons f l ih =>
    rw [List.map_cons, lookup_cons_ite, lookup_cons_ite, ih]
    by_cases hk : k = f.1 <;> simp [hk]

end

namespace Fields

variable (fields : Fields) (key k : String) (value : Value)

theorem lookup_insert :
    (insert key value fields).lookup k = if k = key then some value else fields.lookup k := by
  induction fields with
  | nil => rw [insert, lookup_cons_ite]
  | cons f rest ih =>
    unfold insert
    split
    · next hf =>
      rw [lookup_cons_ite, lookup_cons_ite, hf]
      by_cases hk : k = key <;> simp [hk]
    · next hf =>
      split
      · rw [lookup_cons_ite]
      · rw [lookup_cons_ite, lookup_cons_ite, ih]
        by_cases hk : k = f.1
        · simp [hk, hf]
        · simp [hk]

theorem lookup_orInsert :
    (orInsert key value fields).lookup k =
      if k = key then (fields.lookup k).or (some value) else fields.lookup k := by
  unfold orInsert
  cases h : fields.lookup key with
  | none =>
    rw [if_neg (by simp), lookup_insert]
    by_cases hk : k = key
    · simp [hk, h]
    · simp [hk]
  | some v =>
    rw [if_pos (Option.isSome_some)]
    by_cases hk : k = key
    · simp [hk, h]
    · simp [hk]

end Fields

namespace Protocol

theorem lookup_foldAlias (fields : Fields) {p : String × String} (hp : p.1 ≠ p.2) (k : String) :
    (foldAlias fields p).lookup k =
      if k = p.1 then none
      else if k = p.2 then (fields.lookup k).or (fields.lookup p.1)
      else fields.lookup k := by
  unfold foldAlias Fields.remove
  cases h : fields.lookup p.1 with
  | none =>
    by_cases h₁ : k = p.1
    · simp [h₁, h]
    · by_cases h₂ : k = p.2 <;> simp [h₁, h₂, hp.symm]
  | some v =>
    simp only [Fields.lookup_orInsert, lookup_filter_ne]
    by_cases h₁ : k = p.1
    · simp [h₁, hp]
    · by_cases h₂ : k = p.2 <;> simp [h₁, h₂, hp.symm]

/-- What stands under a name once the aliases in `pairs` are folded: nothing
under a snake_case name, and under a camelCase name what had that name, else
what had the snake_case one. -/
def folded (pairs : List (String × String)) (fields : Fields) (k : String) : Option Value :=
  if k ∈ pairs.map Prod.fst then none
  else
    match pairs.find? fun p => p.2 = k with
    | some p => (fields.lookup k).or (fields.lookup p.1)
    | none => fields.lookup k

theorem lookup_foldl (pairs : List (String × String))
    (hnodup : (pairs.map Prod.fst ++ pairs.map Prod.snd).Nodup) (fields : Fields) (k : String) :
    (pairs.foldl foldAlias fields).lookup k = folded pairs fields k := by
  induction pairs generalizing fields with
  | nil => rfl
  | cons p pairs ih =>
    obtain ⟨hsnakes, hcamels, hdisjoint⟩ := List.nodup_append.mp hnodup
    rw [List.map_cons, List.nodup_cons] at hsnakes hcamels
    have hp : p.1 ≠ p.2 := hdisjoint _ (List.mem_cons_self ..) _ (List.mem_cons_self ..)
    have hsnake : ∀ q ∈ pairs, q.1 ≠ p.1 ∧ q.1 ≠ p.2 := fun q hq =>
      ⟨fun h => hsnakes.1 (h ▸ List.mem_map_of_mem hq),
        hdisjoint _ (List.mem_cons_of_mem _ (List.mem_map_of_mem hq)) _ (List.mem_cons_self ..)⟩
    have hcamel : ∀ q ∈ pairs, q.2 ≠ p.1 ∧ q.2 ≠ p.2 := fun q hq =>
      ⟨fun h => hdisjoint _ (List.mem_cons_self ..) _
          (List.mem_cons_of_mem _ (List.mem_map_of_mem hq)) h.symm,
        fun h => hcamels.1 (h ▸ List.mem_map_of_mem hq)⟩
    have hrest : (pairs.map Prod.fst ++ pairs.map Prod.snd).Nodup :=
      List.nodup_append.mpr ⟨hsnakes.2, hcamels.2, fun a ha b hb =>
        hdisjoint a (List.mem_cons_of_mem _ ha) b (List.mem_cons_of_mem _ hb)⟩
    rw [List.foldl_cons, ih hrest]
    by_cases h₁ : k = p.1
    · have hnone : pairs.find? (fun q => q.2 = k) = none :=
        List.find?_eq_none.mpr fun q hq => by simpa [h₁] using (hcamel q hq).1
      have hnot : k ∉ pairs.map Prod.fst := h₁ ▸ hsnakes.1
      have hin : k ∈ (p :: pairs).map Prod.fst := h₁ ▸ List.mem_cons_self ..
      simp only [folded, hnone, if_neg hnot, if_pos hin, lookup_foldAlias fields hp, if_pos h₁]
    by_cases h₂ : k = p.2
    · have hnone : pairs.find? (fun q => q.2 = k) = none :=
        List.find?_eq_none.mpr fun q hq => by simpa [h₂] using (hcamel q hq).2
      have hnot : k ∉ pairs.map Prod.fst := fun hk => by
        obtain ⟨q, hq, rfl⟩ := List.mem_map.mp hk
        exact (hsnake q hq).2 h₂
      have hnot' : k ∉ (p :: pairs).map Prod.fst := fun hk => by
        rcases List.mem_cons.mp hk with hk | hk
        · exact h₁ hk
        · exact hnot hk
      have hfind : (p :: pairs).find? (fun q => q.2 = k) = some p :=
        List.find?_cons_of_pos (by simp [h₂])
      simp only [folded, hnone, hfind, if_neg hnot, if_neg hnot', lookup_foldAlias fields hp,
        if_neg h₁, if_pos h₂]
    · have hkeep : ∀ a, a ≠ p.1 → a ≠ p.2 → (foldAlias fields p).lookup a = fields.lookup a :=
        fun a ha hb => by rw [lookup_foldAlias fields hp, if_neg ha, if_neg hb]
      have hfind : (p :: pairs).find? (fun q => q.2 = k) = pairs.find? fun q => q.2 = k :=
        List.find?_cons_of_neg (by simpa using fun h => h₂ h.symm)
      have hmem : k ∈ (p :: pairs).map Prod.fst ↔ k ∈ pairs.map Prod.fst := by simp [h₁]
      simp only [folded, hfind, hmem, hkeep k h₁ h₂]
      split
      · rfl
      · cases hq : pairs.find? fun q => q.2 = k with
        | none => rfl
        | some q =>
          have hin := hsnake q (List.mem_of_find?_eq_some hq)
          simp only [hkeep q.1 hin.1 hin.2]

/-- The value of a field of metadata, in whichever spelling. -/
def spelled (fields : Fields) (k : String) : Option Value := folded aliases fields k

/-- A numeric id as its decimal string, anything else as it is. -/
def decimal (v : Value) : Value :=
  match v.asU64 with
  | some n => .string (toString n.toNat)
  | none => v

/-- What normalization makes of the value under a name. -/
def settle (k : String) (v : Value) : Value :=
  if k = "messageId" then decimal v else if k = "header" then normalize v else v

/-- The fields of a normalized object. -/
def normalized (fields : Fields) : Fields :=
  stringId (aliases.foldl foldAlias (normalizeFields fields))

theorem normalize_object (fields : Fields) :
    normalize (.object fields) = .object (normalized fields) := by
  rw [normalize, normalized]

theorem normalizeFields_eq_map (fields : Fields) :
    normalizeFields fields =
      fields.map fun f => (f.1, if f.1 = "header" then normalize f.2 else f.2) := by
  induction fields with
  | nil => rw [normalizeFields, List.map_nil]
  | cons f rest ih => rw [normalizeFields, List.map_cons, ih, normalizeField]

theorem stringId_eq_map (fields : Fields) :
    stringId fields =
      fields.map fun f => (f.1, if f.1 = "messageId" then decimal f.2 else f.2) := by
  unfold stringId
  refine List.map_congr_left fun f _ => ?_
  split
  · rw [decimal]
    cases f.2.asU64 <;> rfl
  · rfl

theorem lookup_normalizeFields (fields : Fields) (k : String) :
    (normalizeFields fields).lookup k =
      (fields.lookup k).map fun v => if k = "header" then normalize v else v := by
  rw [normalizeFields_eq_map, lookup_map_value fun k v => if k = "header" then normalize v else v]

theorem spelled_normalizeFields (fields : Fields) (k : String) :
    spelled (normalizeFields fields) k =
      (spelled fields k).map fun v => if k = "header" then normalize v else v := by
  have hheader : ∀ p ∈ aliases, p.1 ≠ "header" ∧ p.2 ≠ "header" := by decide
  unfold spelled folded
  split
  · rfl
  · cases hq : aliases.find? fun p => p.2 = k with
    | none => exact lookup_normalizeFields fields k
    | some p =>
      have hin := hheader p (List.mem_of_find?_eq_some hq)
      have hk : p.2 = k := by simpa using List.find?_some hq
      simp [lookup_normalizeFields, hin.1, hk ▸ hin.2]

theorem lookup_normalized (fields : Fields) (k : String) :
    (normalized fields).lookup k = (spelled fields k).map (settle k) := by
  have hsettle : settle k = (fun v => if k = "messageId" then decimal v else v) ∘
      fun v => if k = "header" then normalize v else v := by
    funext v
    by_cases hk : k = "messageId"
    · simp [settle, hk]
    · simp [settle, hk]
  rw [normalized, stringId_eq_map,
    lookup_map_value fun k v => if k = "messageId" then decimal v else v,
    lookup_foldl _ (by decide), ← spelled, spelled_normalizeFields, hsettle, Option.map_map]

/-- A name that is no spelling of an aliased field. -/
def Unaliased (k : String) : Prop := ∀ p ∈ aliases, k ≠ p.1 ∧ k ≠ p.2

instance (k : String) : Decidable (Unaliased k) :=
  inferInstanceAs (Decidable (∀ p ∈ aliases, k ≠ p.1 ∧ k ≠ p.2))

theorem spelled_unaliased {k : String} (hk : Unaliased k) (fields : Fields) :
    spelled fields k = fields.lookup k := by
  have hsnake : k ∉ aliases.map Prod.fst := fun h => by
    obtain ⟨p, hp, rfl⟩ := List.mem_map.mp h
    exact (hk p hp).1 rfl
  have hnone : aliases.find? (fun p => p.2 = k) = none :=
    List.find?_eq_none.mpr fun p hp => by simpa using (hk p hp).2.symm
  rw [spelled, folded, if_neg hsnake, hnone]

theorem spelled_snake {k : String} (hk : k ∈ aliases.map Prod.fst) (fields : Fields) :
    spelled fields k = none := if_pos hk

theorem spelled_camel {p : String × String} (hp : p ∈ aliases) (fields : Fields) :
    spelled fields p.2 = (fields.lookup p.2).or (fields.lookup p.1) := by
  have hfind : ∀ q ∈ aliases, q.2 ∉ aliases.map Prod.fst ∧
      aliases.find? (fun r => r.2 = q.2) = some q := by decide
  obtain ⟨hsnake, hq⟩ := hfind p hp
  rw [spelled, folded, if_neg hsnake, hq]

/-- Every name is a snake_case spelling, a camelCase one, or no spelling at all. -/
theorem spelling_cases (k : String) :
    k ∈ aliases.map Prod.fst ∨ (∃ p ∈ aliases, k = p.2) ∨ Unaliased k := by
  by_cases hsnake : k ∈ aliases.map Prod.fst
  · exact .inl hsnake
  by_cases hcamel : ∃ p ∈ aliases, k = p.2
  · exact .inr (.inl hcamel)
  · refine .inr (.inr fun p hp => ⟨fun h => hsnake ?_, fun h => hcamel ⟨p, hp, h⟩⟩)
    exact h ▸ List.mem_map_of_mem hp

theorem lookup_messageId (fields : Fields) :
    (normalized fields).lookup "messageId" = (spelled fields "messageId").map decimal :=
  lookup_normalized fields "messageId"

theorem lookup_header (fields : Fields) :
    (normalized fields).lookup "header" = (fields.lookup "header").map normalize := by
  rw [lookup_normalized, spelled_unaliased (by decide)]
  rfl

/-- Normalization only spells any other field. -/
theorem lookup_other (fields : Fields) {k : String} (hid : k ≠ "messageId")
    (hheader : k ≠ "header") : (normalized fields).lookup k = spelled fields k := by
  have hsettle : settle k = id := by
    funext v
    rw [settle, if_neg hid, if_neg hheader, id]
  rw [lookup_normalized, hsettle, Option.map_id, id]

/-! ## What the deserializers ask of a value -/

theorem readSendResult_eq_some {v : Value} {r : SendResult} :
    readSendResult v = some r ↔ ∃ slot, slots v 3 = some slot ∧
      required Value.asStr (slot 0 "messageId") = some r.messageId ∧
      required Value.asU64 (slot 1 "messageSeq") = some r.messageSeq ∧
      required Value.asI64 (slot 2 "reasonCode") = some r.reasonCode := by
  constructor
  · intro h
    obtain ⟨slot, hslot, h⟩ := Option.bind_eq_some_iff.mp h
    obtain ⟨messageId, h₀, h⟩ := Option.bind_eq_some_iff.mp h
    obtain ⟨messageSeq, h₁, h⟩ := Option.bind_eq_some_iff.mp h
    obtain ⟨reasonCode, h₂, h⟩ := Option.bind_eq_some_iff.mp h
    cases h
    exact ⟨slot, hslot, h₀, h₁, h₂⟩
  · rintro ⟨slot, hslot, h₀, h₁, h₂⟩
    rw [readSendResult, hslot, Option.bind_eq_bind, Option.bind_some, h₀, h₁, h₂]
    rfl

theorem readConnectResult_eq_some {v : Value} {r : ConnectResult} :
    readConnectResult v = some r ↔ ∃ slot, slots v 6 = some slot ∧
      required Value.asI64 (slot 0 "reasonCode") = some r.reasonCode ∧
      defaulted "" Value.asStr (slot 1 "serverKey") = some r.serverKey ∧
      defaulted "" Value.asStr (slot 2 "salt") = some r.salt ∧
      defaulted 0 Value.asI64 (slot 3 "timeDiff") = some r.timeDiff ∧
      defaulted 0 readU32 (slot 4 "serverVersion") = some r.serverVersion ∧
      defaulted 0 Value.asU64 (slot 5 "nodeId") = some r.nodeId := by
  constructor
  · intro h
    obtain ⟨slot, hslot, h⟩ := Option.bind_eq_some_iff.mp h
    obtain ⟨reasonCode, h₀, h⟩ := Option.bind_eq_some_iff.mp h
    obtain ⟨serverKey, h₁, h⟩ := Option.bind_eq_some_iff.mp h
    obtain ⟨salt, h₂, h⟩ := Option.bind_eq_some_iff.mp h
    obtain ⟨timeDiff, h₃, h⟩ := Option.bind_eq_some_iff.mp h
    obtain ⟨serverVersion, h₄, h⟩ := Option.bind_eq_some_iff.mp h
    obtain ⟨nodeId, h₅, h⟩ := Option.bind_eq_some_iff.mp h
    cases h
    exact ⟨slot, hslot, h₀, h₁, h₂, h₃, h₄, h₅⟩
  · rintro ⟨slot, hslot, h₀, h₁, h₂, h₃, h₄, h₅⟩
    rw [readConnectResult, hslot, Option.bind_eq_bind, Option.bind_some, h₀, h₁, h₂, h₃, h₄, h₅]
    rfl

theorem readCustomEvent_eq_some {v : Value} {e : CustomEvent} :
    readCustomEvent v = some e ↔ ∃ slot, slots v 5 = some slot ∧
      defaulted none (nullable readHeader) (slot 0 "header") = some e.header ∧
      required Value.asStr (slot 1 "id") = some e.id ∧
      required Value.asStr (slot 2 "type") = some e.eventType ∧
      required Value.asI64 (slot 3 "timestamp") = some e.timestamp ∧
      required some (slot 4 "data") = some e.data := by
  constructor
  · intro h
    obtain ⟨slot, hslot, h⟩ := Option.bind_eq_some_iff.mp h
    obtain ⟨header, h₀, h⟩ := Option.bind_eq_some_iff.mp h
    obtain ⟨id, h₁, h⟩ := Option.bind_eq_some_iff.mp h
    obtain ⟨eventType, h₂, h⟩ := Option.bind_eq_some_iff.mp h
    obtain ⟨timestamp, h₃, h⟩ := Option.bind_eq_some_iff.mp h
    obtain ⟨data, h₄, h⟩ := Option.bind_eq_some_iff.mp h
    cases h
    exact ⟨slot, hslot, h₀, h₁, h₂, h₃, h₄⟩
  · rintro ⟨slot, hslot, h₀, h₁, h₂, h₃, h₄⟩
    rw [readCustomEvent, hslot, Option.bind_eq_bind, Option.bind_some, h₀, h₁, h₂, h₃, h₄]
    rfl

theorem readRecvMessage_eq_some {v : Value} {m : RecvMessage} :
    readRecvMessage v = some m ↔ ∃ slot, slots v 11 = some slot ∧
      defaulted {} readHeader (slot 0 "header") = some m.header ∧
      required Value.asStr (slot 1 "messageId") = some m.messageId ∧
      required Value.asU64 (slot 2 "messageSeq") = some m.messageSeq ∧
      required Value.asI64 (slot 3 "timestamp") = some m.timestamp ∧
      required Value.asStr (slot 4 "channelId") = some m.channelId ∧
      required readU8 (slot 5 "channelType") = some m.channelType ∧
      required Value.asStr (slot 6 "fromUid") = some m.fromUid ∧
      required some (slot 7 "payload") = some m.payload ∧
      defaulted none (nullable Value.asStr) (slot 8 "clientMsgNo") = some m.clientMsgNo ∧
      defaulted none (nullable readSetting) (slot 9 "setting") = some m.setting ∧
      defaulted none (nullable Value.asStr) (slot 10 "topic") = some m.topic := by
  constructor
  · intro h
    obtain ⟨slot, hslot, h⟩ := Option.bind_eq_some_iff.mp h
    obtain ⟨header, h₀, h⟩ := Option.bind_eq_some_iff.mp h
    obtain ⟨messageId, h₁, h⟩ := Option.bind_eq_some_iff.mp h
    obtain ⟨messageSeq, h₂, h⟩ := Option.bind_eq_some_iff.mp h
    obtain ⟨timestamp, h₃, h⟩ := Option.bind_eq_some_iff.mp h
    obtain ⟨channelId, h₄, h⟩ := Option.bind_eq_some_iff.mp h
    obtain ⟨channelType, h₅, h⟩ := Option.bind_eq_some_iff.mp h
    obtain ⟨fromUid, h₆, h⟩ := Option.bind_eq_some_iff.mp h
    obtain ⟨payload, h₇, h⟩ := Option.bind_eq_some_iff.mp h
    obtain ⟨clientMsgNo, h₈, h⟩ := Option.bind_eq_some_iff.mp h
    obtain ⟨setting, h₉, h⟩ := Option.bind_eq_some_iff.mp h
    obtain ⟨topic, h₁₀, h⟩ := Option.bind_eq_some_iff.mp h
    cases h
    exact ⟨slot, hslot, h₀, h₁, h₂, h₃, h₄, h₅, h₆, h₇, h₈, h₉, h₁₀⟩
  · rintro ⟨slot, hslot, h₀, h₁, h₂, h₃, h₄, h₅, h₆, h₇, h₈, h₉, h₁₀⟩
    rw [readRecvMessage, hslot, Option.bind_eq_bind, Option.bind_some, h₀, h₁, h₂, h₃, h₄, h₅, h₆,
      h₇, h₈, h₉, h₁₀]
    rfl

theorem decode_ok {α : Type} {read : Value → Option α} {v : Value} {a : α} :
    decode read v = .ok a ↔ read (normalize v) = some a := by
  unfold decode
  cases read (normalize v) <;> simp

/-- A received message is the decoded one, with its payload read as JSON text
where it is such a string. -/
theorem recv_ok {codec : Codec} {v : Value} {m : RecvMessage} :
    recv codec v = .ok m ↔ ∃ d, decode readRecvMessage v = .ok d ∧
      d.messageId.isEmpty = false ∧ d.channelId.isEmpty = false ∧
      m = { d with payload :=
        ((d.payload.asStr.bind codec.decode).bind codec.fromSlice).getD d.payload } := by
  unfold recv
  cases hd : decode readRecvMessage v with
  | error e => simp [bind, Except.bind]
  | ok d =>
    simp only [bind, Except.bind, Except.ok.injEq, exists_eq_left']
    cases hid : d.messageId.isEmpty with
    | true => simp [throw, throwThe, MonadExceptOf.throw]
    | false =>
      cases hc : d.channelId.isEmpty with
      | true => simp [throw, throwThe, MonadExceptOf.throw]
      | false =>
        cases (d.payload.asStr.bind codec.decode).bind codec.fromSlice <;>
          simp [pure, Except.pure, eq_comm]

theorem event_ok {codec : Codec} {v : Value} {e : CustomEvent} :
    event codec v = .ok e ↔ (v.get "data").isSome ∧ ∃ d, decode readCustomEvent v = .ok d ∧
      d.id.isEmpty = false ∧ d.eventType.isEmpty = false ∧
      e = { d with data := (d.data.asStr.bind codec.fromStr).getD d.data } := by
  unfold event
  cases hget : v.get "data" with
  | none => simp [bind, Except.bind, throw, throwThe, MonadExceptOf.throw]
  | some p =>
    cases hd : decode readCustomEvent v with
    | error e => simp [bind, Except.bind]
    | ok d =>
      simp only [bind, Except.bind, pure, Except.pure, Except.ok.injEq, exists_eq_left',
        Option.isNone_some, Option.isSome_some, true_and, Bool.false_eq_true, if_false]
      cases hid : d.id.isEmpty with
      | true => simp [throw, throwThe, MonadExceptOf.throw]
      | false =>
        cases ht : d.eventType.isEmpty with
        | true => simp [throw, throwThe, MonadExceptOf.throw]
        | false => cases d.data.asStr.bind codec.fromStr <;> simp [eq_comm]

/-- A header that was written is read back. -/
theorem readHeader_headerValue (h : Header) : readHeader (normalize (headerValue h)) = some h := by
  rw [headerValue, normalize_object]
  dsimp only [readHeader, slots, Option.bind_eq_bind, Option.bind_some]
  simp only [lookup_normalized]
  rfl

end Protocol

end WukongSdk
