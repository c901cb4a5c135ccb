import WukongSdk.Decoding
import WukongSdk.Provenance

/-!
# Success means reason code 1

`response` looks for a reason code in the result as it came; decoding then
normalizes the result and reads the code again. On objects the two agree. On an
array they do not: `response` sees no code there, decoding takes one by position.
-/
namespace WukongSdk

namespace Protocol

/-- The elements of a result that is an array, in a response without an error. -/
def listed (v : Value) : Option (List Value) :=
  match v.get "result", v.get "error" with
  | some (.array items), none => some items
  | _, _ => none

/-- An integer other than 1. -/
def otherCode (v : Option Value) : Bool := (v.bind Value.asI64).any fun code => code ≠ 1

/-- The elements read by position as the result of an authentication, with a
reason code other than 1 in the first place. -/
def misleadsConnect (items : List Value) : Bool :=
  items.length ≤ 6 && otherCode items[0]? && items[1]?.all (fun v => v.asStr.isSome)
    && items[2]?.all (fun v => v.asStr.isSome) && items[3]?.all (fun v => v.asI64.isSome)
    && items[4]?.all (fun v => (readU32 v).isSome) && items[5]?.all (fun v => v.asU64.isSome)

/-- The elements read by position as the result of a SEND, with a reason code
other than 1 in the third place. -/
def misleadsSend (items : List Value) : Bool :=
  items.length ≤ 3 && (items[0]?.bind Value.asStr).isSome && (items[1]?.bind Value.asU64).isSome
    && otherCode items[2]?

/-- The reason code `response` finds in a result. -/
def shownCode (result : Value) : Option Value :=
  (result.get "reasonCode").or (result.get "reason_code")

/-- A response passes if its result shows no reason code, or 1. -/
theorem response_ok {v result : Value} :
    response v = .ok result ↔ v.get "result" = some result ∧ v.get "error" = none ∧
      ∀ code, shownCode result = some code → code.asI64 = some 1 := by
  unfold response shownCode
  split
  next value hr he =>
    simp only [hr, he, Option.some.injEq, true_and]
    cases hc : (value.get "reasonCode").or (value.get "reason_code") with
    | none =>
      simp only [Except.ok.injEq]
      refine ⟨fun h => ⟨h, fun code hcode => ?_⟩, fun h => h.1⟩
      rw [← h, hc] at hcode
      cases hcode
    | some code =>
      simp only
      constructor
      · intro h
        cases hi : code.asI64 with
        | none => simp [hi] at h
        | some n =>
          by_cases hn : n = 1
          · simp only [hi, hn, ne_eq, not_true_eq_false, if_false, Except.ok.injEq] at h
            refine ⟨h, fun code' hcode => ?_⟩
            rw [← h, hc, Option.some.injEq] at hcode
            rw [← hcode, hi, hn]
          · simp [hi, hn] at h
      · rintro ⟨rfl, h⟩
        simp [h code hc]
  next error hr he =>
    simp only [hr, reduceCtorEq, false_and, iff_false]
    split <;> simp
  next hno _ =>
    simp only [reduceCtorEq, false_iff]
    rintro ⟨hr, he, -⟩
    exact hno _ hr he

/-- What both readers of a reason code see in an object. -/
theorem shownCode_object {fields : Fields} :
    (normalized fields).lookup "reasonCode" = shownCode (.object fields) := by
  rw [lookup_other fields (by decide) (by decide)]
  exact spelled_camel (p := ("reason_code", "reasonCode")) (by decide) fields

/-- Decoding a checked result that is no array finds a reason code only if it is 1. -/
theorem code_of_checked {result : Value} {n : ℕ} {slot : ℕ → String → Option Value} {i : ℕ}
    {code : Int64} (hcheck : ∀ c, shownCode result = some c → c.asI64 = some 1)
    (hslot : slots (normalize result) n = some slot)
    (hcode : required Value.asI64 (slot i "reasonCode") = some code) :
    code = 1 ∨ ∃ items, result = .array items := by
  cases result with
  | object fields =>
    rw [normalize_object, slots, Option.some.injEq] at hslot
    rw [← hslot] at hcode
    obtain ⟨c, hc, hi⟩ := Option.bind_eq_some_iff.mp hcode
    change (normalized fields).lookup "reasonCode" = some c at hc
    rw [shownCode_object] at hc
    rw [hcheck c hc, Option.some.injEq] at hi
    exact .inl hi.symm
  | array items => exact .inr ⟨items, rfl⟩
  | _ => simp [normalize, slots] at hslot

theorem listed_eq_some {v : Value} {items : List Value} :
    listed v = some items ↔ v.get "result" = some (.array items) ∧ v.get "error" = none := by
  unfold listed
  split <;> simp_all

theorem response_listed {v : Value} {items : List Value} (h : listed v = some items) :
    response v = .ok (.array items) := by
  obtain ⟨hr, he⟩ := listed_eq_some.mp h
  exact response_ok.mpr ⟨hr, he, fun code hc => by simp [shownCode, Value.get] at hc⟩

theorem defaulted_isSome {α : Type} {d : α} {read : Value → Option α} {slot : Option Value} :
    (defaulted d read slot).isSome = slot.all fun v => (read v).isSome := by
  cases slot <;> rfl

theorem otherCode_iff {v : Option Value} :
    otherCode v = true ↔ ∃ code, required Value.asI64 v = some code ∧ code ≠ 1 := by
  unfold otherCode required
  cases v.bind Value.asI64 <;> simp

/-- An authentication passes with another code exactly on the arrays that
mislead. -/
theorem misleadsConnect_iff {items : List Value} :
    misleadsConnect items = true ↔
      ∃ r, decode readConnectResult (.array items) = .ok r ∧ r.reasonCode ≠ 1 := by
  simp only [misleadsConnect, Bool.and_eq_true, decide_eq_true_eq, otherCode_iff]
  rw [← defaulted_isSome (d := ""), ← defaulted_isSome (d := ""), ← defaulted_isSome (d := 0),
    ← defaulted_isSome (d := 0), ← defaulted_isSome (d := 0)]
  simp only [Option.isSome_iff_exists, decode_ok, normalize, readConnectResult_eq_some, slots]
  constructor
  · rintro ⟨⟨⟨⟨⟨⟨hlen, code, h₀, hne⟩, key, h₁⟩, salt, h₂⟩, timeDiff, h₃⟩, version, h₄⟩, node, h₅⟩
    exact ⟨⟨code, key, salt, timeDiff, version, node⟩,
      ⟨_, if_pos hlen, h₀, h₁, h₂, h₃, h₄, h₅⟩, hne⟩
  · rintro ⟨r, ⟨slot, hslot, h₀, h₁, h₂, h₃, h₄, h₅⟩, hne⟩
    obtain ⟨hlen, hslot⟩ := Option.ite_none_right_eq_some.mp hslot
    cases hslot
    exact ⟨⟨⟨⟨⟨⟨hlen, _, h₀, hne⟩, _, h₁⟩, _, h₂⟩, _, h₃⟩, _, h₄⟩, _, h₅⟩

theorem misleadsSend_iff {items : List Value} :
    misleadsSend items = true ↔
      ∃ r, decode readSendResult (.array items) = .ok r ∧ r.reasonCode ≠ 1 := by
  simp only [misleadsSend, Bool.and_eq_true, decide_eq_true_eq, otherCode_iff,
    Option.isSome_iff_exists, decode_ok, normalize, readSendResult_eq_some, slots]
  constructor
  · rintro ⟨⟨⟨hlen, id, h₀⟩, seq, h₁⟩, code, h₂, hne⟩
    exact ⟨⟨id, seq, code⟩, ⟨_, if_pos hlen, h₀, h₁, h₂⟩, hne⟩
  · rintro ⟨r, ⟨slot, hslot, h₀, h₁, h₂⟩, hne⟩
    obtain ⟨hlen, hslot⟩ := Option.ite_none_right_eq_some.mp hslot
    cases hslot
    exact ⟨⟨⟨hlen, _, h₀⟩, _, h₁⟩, _, h₂, hne⟩

/-- A result is read with a reason code other than 1 exactly when it is an array
the reader accepts with such a code. -/
theorem checked_iff {α : Type} {read : Value → Option α} {code : α → Int64}
    {misleads : List Value → Bool} (v : Value)
    (harray : ∀ items, misleads items = true ↔
      ∃ r, decode read (.array items) = .ok r ∧ code r ≠ 1)
    (hcode : ∀ result r, (∀ c, shownCode result = some c → c.asI64 = some 1) →
      decode read result = .ok r → code r = 1 ∨ ∃ items, result = .array items) :
    (∀ r, (response v).bind (decode read) = .ok r → code r = 1) ↔
      (listed v).any misleads = false := by
  constructor
  · intro h
    by_contra hany
    rw [Bool.not_eq_false, Option.any_eq_true] at hany
    obtain ⟨items, hlisted, hm⟩ := hany
    obtain ⟨r, hr, hne⟩ := (harray items).mp hm
    exact hne (h r (by rw [response_listed hlisted]; exact hr))
  · intro h r hr
    cases hres : response v with
    | error e =>
      rw [hres] at hr
      cases hr
    | ok result =>
      rw [hres] at hr
      obtain ⟨hget, herr, hcheck⟩ := response_ok.mp hres
      rcases hcode result r hcheck hr with h1 | ⟨items, rfl⟩
      · exact h1
      · by_contra hne
        have hm : misleads items = true := (harray items).mpr ⟨r, hr, hne⟩
        rw [listed_eq_some.mpr ⟨hget, herr⟩, Option.any_some, hm] at h
        cases h

theorem connect_checked_iff (v : Value) :
    (∀ r, (response v).bind (decode readConnectResult) = .ok r → r.reasonCode = 1) ↔
      (listed v).any misleadsConnect = false := by
  refine checked_iff v (fun _ => misleadsConnect_iff) fun result r hcheck hr => ?_
  obtain ⟨slot, hslot, hread, -⟩ := readConnectResult_eq_some.mp (decode_ok.mp hr)
  exact code_of_checked hcheck hslot hread

theorem send_checked_iff (v : Value) :
    (∀ r, (response v).bind (decode readSendResult) = .ok r → r.reasonCode = 1) ↔
      (listed v).any misleadsSend = false := by
  refine checked_iff v (fun _ => misleadsSend_iff) fun result r hcheck hr => ?_
  obtain ⟨slot, hslot, -, -, hread⟩ := readSendResult_eq_some.mp (decode_ok.mp hr)
  exact code_of_checked hcheck hslot hread

end Protocol

/-- The reason code of the result a phase holds. -/
def Phase.code : Phase → Option Int64
  | .supervise (.bump result) | .supervise (.raise result) | .supervise (.ready result)
  | .supervise (.first result) | .supervise (.announce result) => some result.reasonCode
  | .supervise (.session (.sendAck _ ack)) | .supervise (.session (.answer _ (.ok ack))) =>
    some ack.reasonCode
  | _ => none

/-- The reason code of the result an access takes or passes on. -/
def Effect.code : Effect → Option Int64
  | .authenticated result | .setStatus (.ready result) | .setFirst (.ok result)
  | .emit (.connect result) => some result.reasonCode
  | .emit (.sendAck ack) | .answer _ (.ok ack) => some ack.reasonCode
  | _ => none

/-- The result of an authentication. -/
def Effect.admits : Effect → Option ConnectResult
  | .authenticated result => some result
  | _ => none

/-- The result by which the latest socket was authenticated. -/
def lastResult (trace : List Effect) : Option ConnectResult :=
  (trace.filterMap Effect.admits).getLast?

theorem lastResult_snoc (trace : List Effect) (e : Effect) :
    lastResult (trace ++ [e]) = e.admits.or (lastResult trace) := by
  unfold lastResult
  cases he : e.admits with
  | none => simp [he]
  | some result => simp [he]

/-- The result for which a worker is about to raise `connected`. -/
def Phase.raising : Phase → Option ConnectResult
  | .supervise (.bump result) | .supervise (.raise result) => some result
  | _ => none

namespace Worker

variable {cfg : Config} {r : RunId} {m : Memory} {w w' : Worker} {i : Input} {e : Effect} {l : Label}

/-- The result of an authentication, read from a response that does not mislead. -/
theorem authReply_code {codec : Codec} {id text : String} {result : ConnectResult}
    (h : authReply codec id text = .ok result)
    (hs : ∀ v, Protocol.parse codec text = .ok v → v.strField "id" = some id →
      (Protocol.listed v).any Protocol.misleadsConnect = false) : result.reasonCode = 1 := by
  unfold authReply at h
  cases hp : Protocol.parse codec text with
  | error e =>
    rw [hp] at h
    cases h
  | ok v =>
    rw [hp] at h
    simp only [bind, Except.bind] at h
    split at h
    · cases h
    next hid =>
      have hid : v.strField "id" = some id := by simpa using hid
      exact (Protocol.connect_checked_iff v).mpr (hs v hp hid) result h

/-- The same for the acknowledgement of a SEND. -/
theorem react_code {s : Session} {codec : Codec} {text : String} {p : Pending} {ack : SendResult}
    (h : s.react codec text = .answer p (.ok ack))
    (hs : ∀ v, Protocol.parse codec text = .ok v → ∀ p ∈ s.pending, v.strField "id" = some p.id →
      (Protocol.listed v).any Protocol.misleadsSend = false) : ack.reasonCode = 1 := by
  unfold Session.react at h
  split at h
  · cases h
  next v hp =>
    split at h
    next _ id hid =>
      unfold Session.reactAnswer at h
      split at h
      · split at h <;> cases h
      · split at h
        next q hq =>
          injection h with hqp h
          have hqid : q.id = id := by simpa using List.find?_some hq
          exact (Protocol.send_checked_iff v).mpr
            (hs v hp q (List.mem_of_find?_eq_some hq) (hqid ▸ hid)) ack h
        · cases h
    · unfold Session.reactNotice at h
      split at h
      · split at h <;> cases h
      · split at h <;> cases h
      all_goals cases h
    · cases h

attribute [local grind] Phase.relaying Phase.code Effect.code

theorem code_of_relayed {event : Event} (h : event.Relayed) : (Effect.emit event).code = none := by
  rcases h with ⟨_, -, rfl⟩ | ⟨_, rfl⟩ <;> rfl

/-- A worker that takes only code 1 holds and passes on only code 1. -/
theorem next_code (h : Access cfg r m w i w' e) (hw : ∀ c, w.phase.code = some c → c = 1)
    (hr : ∀ event, w.phase.relaying = some event → event.Relayed)
    (hauth : ∀ deadline id text result, w.phase = .supervise (.awaiting deadline id) →
      i = .message (.text text) → authReply cfg.codec id text = .ok result → result.reasonCode = 1)
    (hans : ∀ text p ack, w.phase = .supervise (.session .select) → i = .message (.text text) →
      w.session.react cfg.codec text = .answer p (.ok ack) → ack.reasonCode = 1) :
    (∀ c, w'.phase.code = some c → c = 1) ∧ ∀ c, e.code = some c → c = 1 := by
  cases h
  case emit => grind -linarith [code_of_relayed]
  case answer p result hd hp => cases result <;> grind -linarith
  all_goals grind -linarith

attribute [local grind] Phase.raising Effect.admits

/-- The flag is raised only for the result of the latest authentication. -/
theorem next_raising {trace : List Effect} (h : Access cfg r m w i w' e)
    (hw : ∀ result, w.phase.raising = some result → lastResult trace = some result) :
    (∀ result, w'.phase.raising = some result → lastResult (trace ++ [e]) = some result) ∧
      (e = .setConnected true → ∃ result, w.phase = .supervise (.raise result)) := by
  rw [lastResult_snoc]
  cases h
  all_goals grind -linarith

end Worker

/-- All results a worker holds or has passed on report code 1, and `connected`
was raised only for such a result. -/
structure Honest (trace : List Effect) (w : Worker) : Prop where
  held : ∀ c, w.phase.code = some c → c = 1
  passed : ∀ e ∈ trace, ∀ c, e.code = some c → c = 1
  raising : ∀ result, w.phase.raising = some result → lastResult trace = some result
  raised : ∀ pre post, trace = pre ++ .setConnected true :: post →
    ∃ result, lastResult pre = some result ∧ result.reasonCode = 1

namespace Honest

variable {trace : List Effect} {w w' : Worker} {e : Effect}

theorem fresh (hcode : w.phase.code = none) (hraising : w.phase.raising = none) : Honest [] w :=
  ⟨by simp [hcode], by simp, by simp [hraising], fun pre _ heq => absurd heq (by simp)⟩

theorem snoc (h : Honest trace w) (hheld : ∀ c, w'.phase.code = some c → c = 1)
    (hpassed : ∀ c, e.code = some c → c = 1)
    (hraising : ∀ result, w'.phase.raising = some result → lastResult (trace ++ [e]) = some result)
    (hraise : e = .setConnected true → ∃ result, w.phase = .supervise (.raise result)) :
    Honest (trace ++ [e]) w' := by
  refine ⟨hheld, fun x hx c hc => ?_, hraising, fun pre post heq => ?_⟩
  · rcases List.mem_append.mp hx with hx | hx
    · exact h.passed x hx c hc
    · exact hpassed c (List.mem_singleton.mp hx ▸ hc)
  · rcases List.eq_nil_or_concat post with rfl | ⟨post, x, rfl⟩
    · obtain ⟨rfl, he⟩ := List.append_inj' heq rfl
      obtain ⟨result, hq⟩ := hraise (List.singleton_inj.mp he)
      exact ⟨result, h.raising result (by rw [hq]; rfl), h.held _ (by rw [hq]; rfl)⟩
    · have hcons : trace ++ [e] = (pre ++ .setConnected true :: post) ++ [x] := by simpa using heq
      exact h.raised pre post (List.append_inj' hcons rfl).1

/-- An access that takes and passes on no result, between phases that hold none
the worker did not hold. -/
theorem quiet (h : Honest trace w) (hcode : e.code = none) (hadmits : e.admits = none)
    (he : e ≠ .setConnected true) (hheld : ∀ c, w'.phase.code = some c → w.phase.code = some c)
    (hraising : ∀ result, w'.phase.raising = some result → w.phase.raising = some result) :
    Honest (trace ++ [e]) w' := by
  refine h.snoc (fun c hc => h.held c (hheld c hc)) (by simp [hcode]) (fun result hq => ?_)
    fun heq => absurd heq he
  rw [lastResult_snoc, hadmits, Option.none_or]
  exact h.raising result (hraising result hq)

end Honest

theorem Worker.Moves.honest {cfg : Config} {r : RunId} {m : Memory} {w w' : Worker} {l : Label}
    {e : Effect} {trace : List Effect} (h : w.Moves cfg r m l w' e) (hw : Honest trace w)
    (hr : ∀ event, w.phase.relaying = some event → event.Relayed)
    (hauth : ∀ deadline id text result, w.phase = .supervise (.awaiting deadline id) →
      l = .work r (.message (.text text)) → authReply cfg.codec id text = .ok result →
      result.reasonCode = 1)
    (hans : ∀ text p ack, w.phase = .supervise (.session .select) →
      l = .work r (.message (.text text)) →
      w.session.react cfg.codec text = .answer p (.ok ack) → ack.reasonCode = 1) :
    Honest (trace ++ [e]) w' := by
  cases h with
  | next hp h =>
    obtain ⟨hheld, hpassed⟩ := next_code h hw.held hr
      (fun d id text result hq hi => hauth d id text result hq (congrArg (Label.work r) hi))
      fun text p ack hq hi => hans text p ack hq (congrArg (Label.work r) hi)
    obtain ⟨hraising, hraise⟩ := next_raising h hw.raising
    exact hw.snoc hheld hpassed hraising hraise
  | wake hp hq hc | resume hp hq => exact hw.quiet rfl rfl nofun (fun _ => id) fun _ => id
  | cancel hp hq hc => exact hw.quiet rfl rfl nofun nofun nofun
  | suspend hp hd ha => exact hw.quiet rfl rfl nofun (fun _ => id) fun _ => id

/-- No response the worker takes for an answer to a request of its own misleads:
its result is no array that reads by position with a reason code other than 1. -/
def State.Sincere (cfg : Config) (s : State) (l : Label) : Prop :=
  ∀ r text v, l = .work r (.message (.text text)) → Protocol.parse cfg.codec text = .ok v →
    (∀ deadline id, (s.workers r).phase = .supervise (.awaiting deadline id) →
      v.strField "id" = some id → (Protocol.listed v).any Protocol.misleadsConnect = false) ∧
    ((s.workers r).phase = .supervise (.session .select) →
      ∀ p ∈ (s.workers r).session.pending, v.strField "id" = some p.id →
        (Protocol.listed v).any Protocol.misleadsSend = false)

theorem honest_of_run {cfg : Config} {labels : List Label} {s : State}
    (h : Run (State.step cfg) (State.Sincere cfg) (State.new cfg) labels s) (r : RunId) :
    Honest (s.trace r) (s.workers r) := by
  refine h.invariant_along (I := fun s => ∀ r, Honest (s.trace r) (s.workers r))
    (fun r => .fresh rfl rfl) (fun _ s l t hrun hi hok hs r => ?_) r
  have hreach : Reaches cfg _ s := hrun.weaken fun _ _ _ => trivial
  cases State.step_cases hs with
  | tick d => exact hi r
  | begin op hh => exact hi r
  | @call c i k a hx =>
    rw [State.served_workers, State.trace_served]
    rcases s.spawnWorker_cases r a with hw | ⟨-, rfl, hw⟩
    · rw [hw]
      exact hi r
    · rw [hw, ((Lifecycle.of_reaches hreach).fresh _ le_rfl).2.2]
      exact .fresh rfl rfl
  | @worker r' l w e hx =>
    rw [State.trace_worked, State.worked_workers]
    by_cases hr : r = r'
    · subst hr
      rw [if_pos rfl, Function.update_self]
      have hrelay := (Attested.of_reaches hreach).relaying r
      refine hx.honest (hi r) hrelay ?_ ?_
      · intro deadline id text result hq hl hreply
        exact Worker.authReply_code hreply fun v hv hid => (hok r text v hl hv).1 deadline id hq hid
      · intro text p ack hq hl hreact
        exact Worker.react_code hreact fun v hv => (hok r text v hl hv).2 hq
    · rw [if_neg hr, Function.update_of_ne hr]
      exact hi r
  | dropClient _ _ => exact hi r

/-- A checked result is read with code 1 unless it is an array that misleads its
reader; and where no answer to a request of the worker misleads, every result it
takes or passes on has code 1, and `connected` is raised only for such a one. -/
theorem success_means_one {cfg : Config} {labels : List Label} {s : State}
    (h : Run (State.step cfg) (State.Sincere cfg) (State.new cfg) labels s) :
    (∀ v, ((∀ r, (Protocol.response v).bind (Protocol.decode Protocol.readConnectResult) = .ok r →
        r.reasonCode = 1) ↔ (Protocol.listed v).any Protocol.misleadsConnect = false) ∧
      ((∀ r, (Protocol.response v).bind (Protocol.decode Protocol.readSendResult) = .ok r →
        r.reasonCode = 1) ↔ (Protocol.listed v).any Protocol.misleadsSend = false)) ∧
    ∀ r, (∀ e ∈ s.trace r, ∀ code, e.code = some code → code = 1) ∧
      ∀ pre post, s.trace r = pre ++ .setConnected true :: post →
        ∃ result, lastResult pre = some result ∧ result.reasonCode = 1 :=
  ⟨fun v => ⟨Protocol.connect_checked_iff v, Protocol.send_checked_iff v⟩, fun r =>
    ⟨(honest_of_run h r).passed, (honest_of_run h r).raised⟩⟩

/-- `Sincere`, computed. -/
def State.sincere (cfg : Config) (s : State) : Label → Bool
  | .work r (.message (.text text)) =>
    match Protocol.parse cfg.codec text with
    | .error _ => true
    | .ok v =>
      match (s.workers r).phase with
      | .supervise (.awaiting _ _) => !(Protocol.listed v).any Protocol.misleadsConnect
      | .supervise (.session .select) => !(Protocol.listed v).any Protocol.misleadsSend
      | _ => true
  | _ => true

theorem State.sincere_spec (cfg : Config) (s : State) (l : Label) (h : s.sincere cfg l = true) :
    s.Sincere cfg l := by
  rintro r text v rfl hv
  simp only [sincere, hv] at h
  refine ⟨fun deadline id hq _ => ?_, fun hq _ _ _ => ?_⟩
  · simpa [hq] using h
  · simpa [hq] using h

def Effect.connects : Effect → Bool
  | .setConnected true => true
  | _ => false

theorem success_means_one_acknowledging :
    ∃ s pre post, Run (State.step (sample [accepted "u0", acknowledged "u1"]))
        (State.Sincere (sample [accepted "u0", acknowledged "u1"]))
        (State.new (sample [accepted "u0", acknowledged "u1"])) acknowledging s ∧
      s.trace 0 = pre ++ .setConnected true :: post ∧
      ∃ result, lastResult pre = some result ∧ result.reasonCode = 1 := by
  obtain ⟨s, h, ho⟩ := run_of_play (sample [accepted "u0", acknowledged "u1"])
    (State.sincere (sample [accepted "u0", acknowledged "u1"])) (State.sincere_spec _) acknowledging
    (fun s => (s.trace 0).any Effect.connects)
    (by decide +kernel)
  obtain ⟨e, hmem, he⟩ := List.any_eq_true.mp ho
  unfold Effect.connects at he
  split at he
  next =>
    obtain ⟨pre, post, htr⟩ := List.append_of_mem hmem
    exact ⟨s, pre, post, h, htr, ((success_means_one h).2 0).2 pre post htr⟩
  next => cases he

/-- The response to request `id` whose result is an array that starts with 0. -/
def listing (id : String) : Value :=
  .object [("id", .string id), ("result", .array [.number (.posInt 0)])]

/-- The first call connects to a server that answers with such a response. -/
def misled : List Label :=
  List.flatten [[.begin (.connect true)], List.replicate 4 (.call 0 .go),
    [.poll 0, .work 0 .go, .work 0 (.io true), .work 0 (.uuid "u0"), .work 0 (.stamp 0),
      .work 0 (.io true), .work 0 (.message (.text (compact (listing "u0"))))],
    List.replicate 2 (.work 0 .go)]

/-- The connect has been answered with reason code zero. -/
def Phase.readyWithZero : Phase → Bool
  | .supervise (.ready result) => result.reasonCode = 0
  | _ => false

/-- A result of code 0 is accepted, and connects the client. -/
theorem success_with_zero :
    (∃ v r, Protocol.parse (sample [listing "u0"]).codec (compact (listing "u0")) = .ok v ∧
      (Protocol.response v).bind (Protocol.decode Protocol.readConnectResult) = .ok r ∧
      r.reasonCode = 0) ∧
    ∃ s result, Reaches (sample [listing "u0"]) misled s ∧ s.mem.connected = true ∧
      (s.workers 0).phase = .supervise (.ready result) ∧ result.reasonCode = 0 := by
  refine ⟨⟨listing "u0", { reasonCode := 0 }, by rfl, by rfl, rfl⟩, ?_⟩
  obtain ⟨s, h, ho⟩ := reaches_of_play (sample [listing "u0"]) misled
    (fun s => s.mem.connected && (s.workers 0).phase.readyWithZero) (by decide +kernel)
  obtain ⟨hc, ho⟩ := Bool.and_eq_true_iff.mp ho
  unfold Phase.readyWithZero at ho
  split at ho
  next result hq => exact ⟨s, result, h, hc, hq, of_decide_eq_true ho⟩
  next => cases ho

end WukongSdk
