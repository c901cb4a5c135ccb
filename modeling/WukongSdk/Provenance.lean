import WukongSdk.Retry

/-!
# Provenance of a send's outcome

Every entry of a session's map was written to the socket and has not been
answered yet. So the reply a frame settles is the outcome of the first response
to that very request. The one exception is a command found in the queue when
the run ends, which is answered with the error of the run.
-/
namespace WukongSdk

/-- Request `cmd` is on socket `k` and no frame with its id has come since. -/
def Asked (codec : Codec) (trace : List Effect) (k : ℕ) (cmd : Command) : Prop :=
  ∃ pre post, trace = pre ++ .write k (.send cmd) :: post ∧
    ∀ n text, .receive n (.text text) ∈ post → Protocol.bears codec text cmd.id = false

/-- The trace ends with the first frame that bears the id of the request of
`p`, and `result` is what that response says. -/
def Heard (codec : Codec) (trace : List Effect) (p : Pending) (result : Except Error SendResult) :
    Prop :=
  ∃ pre k cmd text value, trace = pre ++ [.receive k (.text text)] ∧ cmd.entry = p ∧
    Asked codec pre k cmd ∧ Protocol.parse codec text = .ok value ∧
    value.strField "id" = some cmd.id ∧
    result = (Protocol.response value).bind (Protocol.decode Protocol.readSendResult)

/-- What a worker emits between a response and the answer to the caller. -/
def announced : Except Error SendResult → List Effect
  | .ok ack => [.emit (.sendAck ack)]
  | .error _ => []

namespace Phase

def inSession : Phase → Bool
  | .supervise (.session _) => true
  | _ => false

/-- The entry about to be answered, with the result and what has been emitted
since the response. -/
def answering : Phase → Option (Pending × Except Error SendResult × List Effect)
  | .supervise (.session (.sendAck p ack)) => some (p, .ok ack, [])
  | .supervise (.session (.answer p result)) => some (p, result, announced result)
  | _ => none

/-- The error a dequeued command is refused with. -/
def refusing : Phase → Option Error
  | .supervise (.session (.refuse _ e)) => some e
  | _ => none

end Phase

theorem Asked.snoc {codec : Codec} {trace : List Effect} {k : ℕ} {cmd : Command} {e : Effect}
    (h : Asked codec trace k cmd)
    (he : ∀ n text, e = .receive n (.text text) → Protocol.bears codec text cmd.id = false) :
    Asked codec (trace ++ [e]) k cmd := by
  obtain ⟨pre, post, rfl, hpost⟩ := h
  refine ⟨pre, post ++ [e], by simp, fun n text hmem => ?_⟩
  rcases List.mem_append.mp hmem with hmem | hmem
  · exact hpost n text hmem
  · exact he n text (List.mem_singleton.mp hmem).symm

/-- A session knows what it has asked and what it was told. -/
structure Witnessed (codec : Codec) (trace : List Effect) (w : Worker) : Prop where
  pending : w.phase.inSession = true → ∀ p ∈ w.session.pending,
    ∃ cmd, cmd.entry = p ∧ Asked codec trace w.session.socket cmd
  answering : ∀ p result done, w.phase.answering = some (p, result, done) →
    w.dropping = none ∧ ∃ pre, trace = pre ++ done ∧ Heard codec pre p result
  refusing : ∀ e, w.phase.refusing = some e → e = .disconnected ∨ e = .timeout

namespace Witnessed

variable {codec : Codec} {trace : List Effect} {w w' : Worker} {e : Effect}

theorem kept (hw : Witnessed codec trace w) (hin : w.phase.inSession = true)
    (he : ∀ n text, e ≠ .receive n (.text text)) : ∀ p ∈ w.session.pending,
    ∃ cmd, cmd.entry = p ∧ Asked codec (trace ++ [e]) w.session.socket cmd := by
  intro p hmem
  obtain ⟨cmd, hcmd, hasked⟩ := hw.pending hin p hmem
  exact ⟨cmd, hcmd, hasked.snoc fun n text heq => absurd heq (he n text)⟩

theorem quiet (hw : Witnessed codec trace w)
    (hp : w'.phase.inSession = true → w.phase.inSession = true ∧
      w'.session.socket = w.session.socket ∧ ∀ p ∈ w'.session.pending, p ∈ w.session.pending)
    (ha : w'.phase.answering = none) (hr : w'.phase.refusing = none)
    (he : ∀ n text, e ≠ .receive n (.text text)) : Witnessed codec (trace ++ [e]) w' where
  pending h p hmem := by
    obtain ⟨hin, hk, hsub⟩ := hp h
    rw [hk]
    exact hw.kept hin he p (hsub p hmem)
  answering p result done h := by rw [ha] at h; cases h
  refusing e h := by rw [hr] at h; cases h

/-- Outside a session there is nothing to know. -/
theorem outside (hp : w.phase.inSession = false) : Witnessed codec trace w := by
  have hq : ∀ q, w.phase ≠ .supervise (.session q) := fun q hq => by simp [hq, Phase.inSession] at hp
  refine ⟨fun h => ?_, fun p result done h => ?_, fun e h => ?_⟩
  · rw [hp] at h
    cases h
  · unfold Phase.answering at h
    split at h
    · exact absurd ‹_› (hq _)
    · exact absurd ‹_› (hq _)
    · cases h
  · unfold Phase.refusing at h
    split at h
    · exact absurd ‹_› (hq _)
    · cases h

end Witnessed

namespace Worker

variable {cfg : Config} {r : RunId} {m : Memory} {w w' : Worker} {i : Input} {e : Effect} {l : Label}
  {trace : List Effect} {n : ℕ} {codec : Codec}

/-- A frame with the id of an entry is the answer to that entry. -/
theorem react_of_bears {s : Session} {text : String} {p : Pending} (hp : p ∈ s.pending)
    (hids : (s.pending.map Pending.id).Nodup) (hping : ∀ x ∈ s.ping, x.1 ≠ p.id)
    (hb : Protocol.bears codec text p.id = true) :
    ∃ result, s.react codec text = .answer p result := by
  unfold Protocol.bears at hb
  split at hb
  next value hparse =>
    have hid : value.strField "id" = some p.id := of_decide_eq_true hb
    have hno : s.ping.any (fun x => x.1 = p.id) = false := by
      rw [Option.any_eq_false]
      intro x hx
      simpa using hping x hx
    have hfind : s.pending.find? (fun q => q.id = p.id) = some p := by
      have hsome : (s.pending.find? fun q => q.id = p.id).isSome = true :=
        List.find?_isSome.mpr ⟨p, hp, by simp⟩
      obtain ⟨q, hq⟩ := Option.isSome_iff_exists.mp hsome
      have hqid : q.id = p.id := by simpa using List.find?_some hq
      rw [hq, List.inj_on_of_nodup_map hids (List.mem_of_find?_eq_some hq) hp hqid]
    refine ⟨(Protocol.response value).bind (Protocol.decode Protocol.readSendResult), ?_⟩
    simp only [Session.react, hparse, hid, Session.reactAnswer, hno, hfind, Bool.false_eq_true,
      if_false]
  next => cases hb

/-- What the ids a session holds must meet for a step to keep `Witnessed`. -/
structure Sorted (w : Worker) : Prop where
  ids : (w.session.pending.map Pending.id).Nodup
  ping : ∀ p ∈ w.session.pending, ∀ x ∈ w.session.ping, x.1 ≠ p.id

theorem answer_witnessed {text : String} {p : Pending} {result : Except Error SendResult}
    {w₁ : Worker} (hw : Witnessed cfg.codec trace w) (ho : Sorted w)
    (hq : w.phase.inSession = true) (hd : w₁.dropping = none)
    (h : w.session.react cfg.codec text = .answer p result)
    (hs : w₁.session = w.session.forget p.id) (hr : w₁.phase.refusing = none)
    (ha : ∀ p' result' done, w₁.phase.answering = some (p', result', done) →
      p' = p ∧ result' = result ∧ done = []) :
    Witnessed cfg.codec (trace ++ [.receive w.session.socket (.text text)]) w₁ := by
  obtain ⟨hfind, value, hparse, hid, hres⟩ := react_answer h
  refine ⟨fun _ q hmem => ?_, fun p' result' done h' => ?_, fun e he => by rw [hr] at he; cases he⟩
  · rw [hs] at hmem
    obtain ⟨cmd, hcmd, hasked⟩ := hw.pending hq q (List.mem_of_mem_eraseP hmem)
    refine ⟨cmd, hcmd, ?_⟩
    rw [hs]
    refine hasked.snoc fun n text' heq => ?_
    cases heq
    by_contra hb
    have hb : Protocol.bears cfg.codec text q.id = true := by
      rw [← hcmd]
      simpa [Command.entry] using hb
    have hqmem := List.mem_of_mem_eraseP hmem
    obtain ⟨result', h'⟩ := react_of_bears hqmem ho.ids (ho.ping q hqmem) hb
    rw [h] at h'
    cases h'
    -- the entry answered is out of the map, and no other has its id
    have hnodup := ((perm_eraseP hfind).map Pending.id).nodup_iff.1 ho.ids
    exact (List.nodup_cons.mp hnodup).1 (List.mem_map_of_mem hmem)
  · obtain ⟨rfl, rfl, rfl⟩ := ha _ _ _ h'
    obtain ⟨cmd, hcmd, hasked⟩ := hw.pending hq _ (List.mem_of_find?_eq_some hfind)
    refine ⟨hd, _, (List.append_nil _).symm, trace, _, cmd, text, value, rfl, hcmd, hasked,
        hparse, ?_, hres⟩
    rw [hid, ← hcmd]
    rfl

/-- A frame that answers no entry bears the id of none. -/
theorem other_witnessed {text : String} {w₁ : Worker} (hw : Witnessed cfg.codec trace w)
    (ho : Sorted w) (hno : ∀ p result, w.session.react cfg.codec text ≠ .answer p result)
    (hp : w₁.phase.inSession = true → w.phase.inSession = true ∧
      w₁.session.socket = w.session.socket ∧ w₁.session.pending = w.session.pending)
    (ha : w₁.phase.answering = none) (hr : w₁.phase.refusing = none) :
    Witnessed cfg.codec (trace ++ [.receive w.session.socket (.text text)]) w₁ where
  pending h p hmem := by
    obtain ⟨hin, hk, heq⟩ := hp h
    rw [heq] at hmem
    obtain ⟨cmd, hcmd, hasked⟩ := hw.pending hin p hmem
    refine ⟨cmd, hcmd, ?_⟩
    rw [hk]
    refine hasked.snoc fun n text' heq => ?_
    cases heq
    by_contra hb
    have hb : Protocol.bears cfg.codec text p.id = true := by
      rw [← hcmd]
      simpa [Command.entry] using hb
    obtain ⟨result, hreact⟩ := react_of_bears hmem ho.ids (ho.ping p hmem) hb
    exact hno p result hreact
  answering p result done h := by rw [ha] at h; cases h
  refusing e h := by rw [hr] at h; cases h

theorem insert_witnessed {cmd : Command} (hq : w.phase = .supervise (.session (.insert cmd)))
    (hw : Witnessed codec trace w) :
    Witnessed codec (trace ++ [.write w.session.socket (.send cmd)])
      ((w.put (w.session.withPending (w.session.pending ++ [cmd.entry]))).goSession (.writing none)) := by
  refine ⟨fun _ p hmem => ?_, (by rintro _ _ _ ⟨⟩), (by rintro _ ⟨⟩)⟩
  rcases List.mem_append.mp hmem with hmem | hmem
  · obtain ⟨cmd', hcmd, hasked⟩ := hw.pending (by rw [hq]; rfl) p hmem
    exact ⟨cmd', hcmd, hasked.snoc (by rintro _ _ ⟨⟩)⟩
  · exact ⟨cmd, (List.mem_singleton.mp hmem).symm, trace, [], rfl, (by rintro _ _ ⟨⟩)⟩

theorem next_witnessed (ht : Tidy w) (ho : Sorted w) (hw : Witnessed cfg.codec trace w)
    (h : Access cfg r m w i w' e) : Witnessed cfg.codec (trace ++ [e]) w' := by
  have same : ∀ p ∈ w.session.pending, p ∈ w.session.pending := fun p hp => hp
  cases h
  all_goals try exact .outside rfl
  case release hd =>
    refine ⟨fun hin => hw.kept hin (by simp), fun p result done hp => ?_, hw.refusing⟩
    have := (hw.answering p result done hp).1
    rw [hd] at this
    cases this
  case retainDrop hd hq _ _ =>
    refine hw.quiet (fun hin => ⟨hin, rfl, fun p hp => List.mem_of_mem_eraseIdx hp⟩) ?_ ?_ (by simp)
    · simp [hq, Phase.answering]
    · simp [hq, Phase.refusing]
  case expireFound hd hq _ =>
    exact hw.quiet (fun _ => ⟨by rw [hq]; rfl, rfl, fun p hp => List.mem_of_mem_eraseP hp⟩) rfl rfl
      (by simp)
  case heardAck hd hq hr | heardError hd hq hr =>
    refine answer_witnessed hw ho (by rw [hq]; rfl) hd hr rfl rfl fun p' result' done h' => ?_
    cases h'
    exact ⟨rfl, rfl, rfl⟩
  case heardEvent hd hq hr | heardPong hd hq hr | heardRecv hd hq hr | heardOther hd hq hr =>
    exact other_witnessed hw ho (fun p result => by simp [hr]) (fun _ => ⟨by rw [hq]; rfl, rfl, rfl⟩)
      rfl rfl
  case stale hd hq _ =>
    refine ⟨fun _ => hw.kept (by rw [hq]; rfl) (by simp), (by rintro _ _ _ ⟨⟩), fun e he => ?_⟩
    cases he
    exact .inl rfl
  case late hd hq _ =>
    refine ⟨fun _ => hw.kept (by rw [hq]; rfl) (by simp), (by rintro _ _ _ ⟨⟩), fun e he => ?_⟩
    cases he
    exact .inr rfl
  case replace hd hq _ =>
    refine hw.quiet (fun hin => ⟨hin, rfl, fun p hp => List.mem_of_mem_eraseP hp⟩) ?_ ?_ (by simp)
    · simp [hq, Phase.answering]
    · simp [hq, Phase.refusing]
  case insert hd hq _ _ => exact insert_witnessed hq hw
  case sendAck p ack hd hq =>
    obtain ⟨-, pre, rfl, hheard⟩ := hw.answering p (.ok ack) [] (by rw [hq]; rfl)
    refine ⟨fun _ => hw.kept (by rw [hq]; rfl) (by simp), fun p' result done h => ?_,
      (by rintro _ ⟨⟩)⟩
    cases h
    exact ⟨hd, pre, by simp [announced], hheard⟩
  case begin hd hq =>
    have hempty : w.session.pending = [] := ht.empty (by rw [hq]; rfl)
    exact ⟨fun _ p hmem => by simp [hempty] at hmem, (by rintro _ _ _ ⟨⟩), (by rintro _ ⟨⟩)⟩
  case unwind hq _ | cancelledDrop hq _ => exact .outside (by simp [hq, Phase.inSession])
  all_goals exact hw.quiet (fun _ => ⟨by simp [Phase.inSession, *], rfl, same⟩) rfl rfl (by simp)

/-- An entry about to be answered is in the worker's hand. -/
theorem answering_of_hand {p : Phase} (h : p.hand = []) : p.answering = none := by
  unfold Phase.answering
  split <;> first | rfl | cases h

theorem Moves.witnessed (h : w.Moves cfg r m l w' e) (ht : Tidy w) (ho : Sorted w)
    (hw : Witnessed cfg.codec trace w) : Witnessed cfg.codec (trace ++ [e]) w' := by
  cases h with
  | next hp h => exact next_witnessed ht ho hw h
  | wake hp hq hc | resume hp hq =>
    refine ⟨fun hin => hw.kept hin nofun, fun p result done h => ?_, hw.refusing⟩
    rw [show (w.setPolling true).phase = w.phase from rfl,
      answering_of_hand (ht.asleep hp).2] at h
    cases h
  | cancel hp hq hc => exact .outside rfl
  | suspend hp hd ha =>
    refine ⟨fun hin => hw.kept hin nofun, fun p result done h => ?_, hw.refusing⟩
    rw [show (w.setPolling false).phase = w.phase from rfl,
      answering_of_hand (hand_of_awaits ha)] at h
    cases h

/-! ## The answer -/

attribute [local grind] Phase.answering Phase.refusing

/-- What a worker answers is the outcome of the response, an error that is not
the server's, or the error its run ended with. -/
theorem next_answer {c : CallId} {result : Except Error SendResult}
    (h : Access cfg r m w i w' (.answer c result)) :
    (∃ p, w.phase.answering = some (p, result, announced result) ∧ p.reply = c) ∨
    (∃ e, result = .error e ∧ (e = .timeout ∨ e = .disconnected ∨ w.phase.refusing = some e)) ∨
    ∃ e cmd, w.phase = .drained e cmd ∧ cmd.reply = c ∧ result = .error e := by
  cases h
  all_goals grind -linarith

end Worker

/-! ## The events -/

/-- Events that pass a fault of the peer or a custom event on to the user. -/
def Event.Relayed (event : Event) : Prop :=
  (∃ e, Protocol.Malformed e ∧ event = .error e) ∨ ∃ x, event = .customEvent x

def Phase.relaying : Phase → Option Event
  | .supervise (.session (.emit event)) => some event
  | _ => none

namespace Worker

theorem react_emit {s : Session} {codec : Codec} {text : String} {event : Event}
    (h : s.react codec text = .emit event) : event.Relayed := by
  unfold Session.react at h
  split at h
  next e hparse =>
    cases h
    exact .inl ⟨_, Protocol.parse_malformed hparse, rfl⟩
  next value hparse =>
    split at h
    · unfold Session.reactAnswer at h
      split at h
      · split at h <;> cases h
      · split at h <;> cases h
    · unfold Session.reactNotice at h
      split at h
      · split at h
        · cases h
        next e he =>
          cases h
          exact .inl ⟨_, Protocol.recv_malformed he, rfl⟩
      · split at h
        · cases h
          exact .inr ⟨_, rfl⟩
        next e he =>
          cases h
          exact .inl ⟨_, Protocol.event_malformed he, rfl⟩
      all_goals cases h
    · cases h
      exact .inl ⟨_, ⟨_, rfl⟩, rfl⟩

variable {cfg : Config} {r : RunId} {m : Memory} {w w' : Worker} {i : Input} {e : Effect} {l : Label}

attribute [local grind] Phase.relaying
attribute [local grind →] react_emit

theorem relayed_binary : Event.Relayed (.error (.protocol "expected a text message")) :=
  .inl ⟨_, ⟨_, rfl⟩, rfl⟩

theorem next_relaying (hw : ∀ event, w.phase.relaying = some event → event.Relayed)
    (h : Access cfg r m w i w' e) :
    ∀ event, w'.phase.relaying = some event → event.Relayed := by
  cases h
  all_goals grind -linarith [relayed_binary]

theorem Moves.relaying (h : w.Moves cfg r m l w' e)
    (hw : ∀ event, w.phase.relaying = some event → event.Relayed) :
    ∀ event, w'.phase.relaying = some event → event.Relayed := by
  cases h with
  | next hp h => exact next_relaying hw h
  | wake hp hq hc | resume hp hq => exact hw
  | cancel hp hq hc => exact fun event he => by cases he
  | suspend hp hd ha => exact hw

end Worker

/-- The acknowledgement an access announces. -/
def Effect.acked : Effect → Option SendResult
  | .emit (.sendAck ack) => some ack
  | _ => none

/-- The acknowledgement an access answers a caller with. -/
def Effect.granted : Effect → Option SendResult
  | .answer _ (.ok ack) => some ack
  | _ => none

/-- The acknowledgement announced and about to be answered. -/
def Phase.granting : Phase → Option SendResult
  | .supervise (.session (.answer _ (.ok ack))) => some ack
  | _ => none

namespace Worker

variable {cfg : Config} {r : RunId} {m : Memory} {w w' : Worker} {i : Input} {e : Effect} {l : Label}

attribute [local grind] Phase.relaying Phase.granting Effect.acked Effect.granted

theorem acked_of_relayed {event : Event} (h : event.Relayed) : (Effect.emit event).acked = none := by
  rcases h with ⟨_, -, rfl⟩ | ⟨_, rfl⟩ <;> rfl

theorem next_granting (hw : ∀ event, w.phase.relaying = some event → event.Relayed)
    (h : Access cfg r m w i w' e) :
    w.phase.granting.toList ++ e.acked.toList = e.granted.toList ++ w'.phase.granting.toList := by
  cases h
  case emit => grind -linarith [acked_of_relayed]
  case answer p result hd hp => cases result <;> grind -linarith
  all_goals grind -linarith

theorem granting_of_hand {p : Phase} (h : p.hand = []) : p.granting = none := by
  unfold Phase.granting
  split <;> first | rfl | cases h

theorem Moves.granting (h : w.Moves cfg r m l w' e) (ht : Tidy w)
    (hw : ∀ event, w.phase.relaying = some event → event.Relayed) :
    w.phase.granting.toList ++ e.acked.toList = e.granted.toList ++ w'.phase.granting.toList := by
  cases h with
  | next hp h => exact next_granting hw h
  | wake hp hq hc | resume hp hq => simp [Effect.acked, Effect.granted]
  | cancel hp hq hc =>
    rw [granting_of_hand (ht.asleep hp).2]
    rfl
  | suspend hp hd ha => simp [Effect.acked, Effect.granted]

end Worker

/-! ## Settling a reply -/

def Effect.settles (c : CallId) : Effect → Bool
  | .drop c' | .answer c' _ => c' = c
  | _ => false

namespace State

/-- All that the workers have ever done to the reply of `c`. -/
def settlements (s : State) (c : CallId) : List (RunId × Effect) :=
  s.log.filter fun x => x.2.settles c

end State

/-- The server has decided: an acknowledgement or a rejection. -/
def decided : Except Error SendResult → Bool
  | .ok _ => true
  | .error e => e.isServer

namespace Call

variable {cfg : Config} {c : CallId} {m : Memory} {i : CallInput} {k k' : Call} {a : Act}

/-- The outcome of a send call that has returned. -/
def outcome : Call → Option (Except Error SendResult)
  | .send _ (.done result) => some result
  | _ => none

/-- The call has given its reply up. -/
def gaveUp : Call → Bool
  | .send _ .dropped | .send _ (.done (.error .timeout)) => true
  | _ => false

attribute [local grind] outcome gaveUp decided
attribute [local grind =] Memory.serve Memory.modify Memory.freeSlot Error.isServer

theorem send_undecided {codec : Codec} {channel : String} {kind : UInt8} {payload : Value}
    {options : SendOptions} {msgNo : String} {e : Error}
    (h : Protocol.send codec channel kind payload options msgNo = .error e) : e.isServer = false := by
  unfold Protocol.send at h
  split at h
  · cases h
    rfl
  · split at h <;> cases h
    rfl

/-- A command that is not built is not the server's doing. -/
theorem build_undecided {args : SendArgs} {g : UInt64} {id msgNo : String} {e : Error}
    (h : SendPhase.build cfg m args c g id msgNo = .error e) : e.isServer = false := by
  unfold SendPhase.build at h
  cases hp : Protocol.send cfg.codec args.channel args.channelType args.payload args.options msgNo with
  | error e' =>
    rw [hp] at h
    cases h
    exact send_undecided hp
  | ok params =>
    rw [hp] at h
    simp only [bind, Except.bind] at h
    split at h
    · cases h
      rfl
    · cases h

/-- The error a send call is about to return of itself. -/
def leaving : Call → Option Error
  | .send _ (.abortLocked e) | .send _ (.abort e) | .send _ (.refused e) => some e
  | _ => none

attribute [local grind] leaving
attribute [local grind →] build_undecided

theorem Moves.leaving (h : k.Moves cfg c m i k' a)
    (hk : ∀ e, k.leaving = some e → e.isServer = false) :
    ∀ e, k'.leaving = some e → e.isServer = false := by
  cases h with
  | @send args p p' a h => revert h; fun_cases SendPhase.next cfg c m args i p <;> grind -linarith
  | connect h => rintro _ ⟨⟩
  | disconnect h => rintro _ ⟨⟩

theorem Moves.outcome {result : Except Error SendResult} (h : k.Moves cfg c m i k' a)
    (hk : ∀ e, k.leaving = some e → e.isServer = false) (hr : k'.outcome = some result)
    (hd : decided result = true) : (m.replies c).sender = .sent result ∧ a = .skip := by
  revert hr
  cases h with
  | @send args p p' a h => revert h; fun_cases SendPhase.next cfg c m args i p <;> grind -linarith
  | connect h => rintro ⟨⟩
  | disconnect h => rintro ⟨⟩

theorem Moves.abandons (h : k.Moves cfg c m i k' a) :
    k.gaveUp = false ∧ (a = .abandon → k'.gaveUp = true) := by
  cases h with
  | @send args p p' a h => revert h; fun_cases SendPhase.next cfg c m args i p <;> grind -linarith
  | @connect rt p p' a h => revert h; fun_cases ConnectPhase.next m rt i p <;> grind -linarith
  | @disconnect d p p' a h => revert h; fun_cases DisconnectPhase.next m i p <;> grind -linarith

end Call

/-- What is known of a reply once it is settled, given up or read. -/
structure Settled (s : State) : Prop where
  live : ∀ c, (s.mem.replies c).sender = .live → s.settlements c = []
  sent : ∀ c result, (s.mem.replies c).sender = .sent result →
    ∃ r, s.settlements c = [(r, .answer c result)]
  leaving : ∀ c e, (s.calls c).leaving = some e → e.isServer = false
  abandoned : ∀ c, (s.mem.replies c).abandoned = true → (s.calls c).gaveUp = true
  outcome : ∀ c result, (s.calls c).outcome = some result → decided result = true →
    (s.mem.replies c).sender = .sent result ∧ (s.mem.replies c).abandoned = false

namespace Settled

variable {cfg : Config} {s t : State} {c : CallId} {i : CallInput} {k : Call} {a : Act} {r : RunId}
  {w : Worker} {e : Effect} {l : Label}

/-- An access that settles a reply finds it live. -/
theorem live_of_settles (ho : Owed s) (ht : (s.workers r).Tidy)
    (hx : (s.workers r).Moves cfg r s.mem l w e) (hs : e.settles c = true) :
    (s.mem.replies c).sender = .live := by
  have hc := hx.custody ht
  cases e with
  | drop d =>
    obtain rfl : d = c := of_decide_eq_true hs
    obtain ⟨-, -, id, hp⟩ := hc
    exact ho.live d id r (List.mem_append_right _ (hp.mem_iff.2 (List.mem_cons_self ..)))
  | answer d result =>
    obtain rfl : d = c := of_decide_eq_true hs
    obtain ⟨-, -, id, hp⟩ := hc
    exact ho.live d id r (List.mem_append_right _ (hp.mem_iff.2 (List.mem_cons_self ..)))
  | _ => cases hs

theorem work_replies (m : Memory) (r : RunId) (h : e.settles c = false) :
    (m.work r e).replies c = m.replies c := by
  cases e with
  | drop d =>
    have hne : c ≠ d := fun heq => of_decide_eq_false h heq.symm
    simp [Memory.work, Memory.setSender, hne]
  | answer d result =>
    have hne : c ≠ d := fun heq => of_decide_eq_false h heq.symm
    simp [Memory.work, Memory.setSender, hne]
  | _ => rfl

theorem work_abandoned (m : Memory) (r : RunId) (e : Effect) (c : CallId) :
    ((m.work r e).replies c).abandoned = (m.replies c).abandoned := by
  cases e with
  | drop d => by_cases hc : c = d <;> simp [Memory.work, Memory.setSender, hc]
  | answer d result => by_cases hc : c = d <;> simp [Memory.work, Memory.setSender, hc]
  | _ => rfl

theorem settlements_worked (s : State) (r : RunId) (w : Worker) (e : Effect) (c : CallId) :
    (s.worked r w e).settlements c =
      s.settlements c ++ if e.settles c = true then [(r, e)] else [] := by
  rw [State.settlements, State.worked_log, List.filter_append]
  by_cases hs : e.settles c = true <;> simp [State.settlements, hs]

theorem worked (h : Settled s) (ho : Owed s) (ht : (s.workers r).Tidy)
    (hx : (s.workers r).Moves cfg r s.mem l w e) : Settled (s.worked r w e) where
  live c hc := by
    rw [settlements_worked]
    by_cases hs : e.settles c = true
    · cases e with
      | drop d =>
        obtain rfl : d = c := of_decide_eq_true hs
        simp [Memory.work, Memory.setSender] at hc
      | answer d result =>
        obtain rfl : d = c := of_decide_eq_true hs
        simp [Memory.work, Memory.setSender] at hc
      | _ => cases hs
    · rw [State.worked_mem, work_replies _ _ (by simpa using hs)] at hc
      simp [hs, h.live c hc]
  sent c result hc := by
    rw [settlements_worked]
    by_cases hs : e.settles c = true
    · rw [h.live c (live_of_settles ho ht hx hs), if_pos hs]
      refine ⟨r, ?_⟩
      cases e with
      | drop d =>
        obtain rfl : d = c := of_decide_eq_true hs
        simp [Memory.work, Memory.setSender] at hc
      | answer d result' =>
        obtain rfl : d = c := of_decide_eq_true hs
        have : result' = result := by simpa [Memory.work, Memory.setSender] using hc
        rw [this]
        rfl
      | _ => cases hs
    · rw [State.worked_mem, work_replies _ _ (by simpa using hs)] at hc
      simpa [hs] using h.sent c result hc
  leaving := h.leaving
  abandoned c hc := h.abandoned c (by rwa [State.worked_mem, work_abandoned] at hc)
  outcome c result hc hd := by
    obtain ⟨hsent, hlive⟩ := h.outcome c result hc hd
    refine ⟨?_, by rwa [State.worked_mem, work_abandoned]⟩
    have hs : e.settles c = false := by
      by_contra hs
      rw [live_of_settles ho ht hx (by simpa using hs)] at hsent
      cases hsent
    rw [State.worked_mem, work_replies _ _ hs, hsent]

theorem serve_abandoned (m : Memory) (c c' : CallId) (a : Act)
    (h : ((m.serve c a).replies c').abandoned = true) :
    (m.replies c').abandoned = true ∨ (c' = c ∧ a = .abandon) := by
  cases a with
  | abandon =>
    by_cases hc : c' = c
    · exact .inr ⟨hc, rfl⟩
    · exact .inl (by simpa [Memory.serve, hc] using h)
  | _ => exact .inl h

theorem abandoned_served (m : Memory) (c c' : CallId) (a : Act)
    (h : (m.replies c').abandoned = true) : ((m.serve c a).replies c').abandoned = true := by
  cases a with
  | abandon => by_cases hc : c' = c <;> simp [Memory.serve, hc, h]
  | _ => exact h

theorem served (h : Settled s) (hx : (s.calls c).Moves cfg c s.mem i k a) :
    Settled (s.served c k a) where
  live c' hc := h.live c' (by simpa using hc)
  sent c' result hc := h.sent c' result (by simpa using hc)
  leaving c' e hc := by
    by_cases hcc : c' = c
    · subst hcc
      exact hx.leaving (h.leaving c') e (by simpa using hc)
    · exact h.leaving c' e (by simpa [hcc] using hc)
  abandoned c' hc := by
    rcases serve_abandoned _ _ _ _ hc with hc | ⟨rfl, rfl⟩
    · have hold := h.abandoned c' hc
      by_cases hcc : c' = c
      · subst hcc
        rw [hx.abandons.1] at hold
        cases hold
      · simpa [hcc] using hold
    · simpa using hx.abandons.2 rfl
  outcome c' result hc hd := by
    by_cases hcc : c' = c
    · subst hcc
      obtain ⟨hsent, rfl⟩ := hx.outcome (h.leaving c') (by simpa using hc) hd
      refine ⟨hsent, ?_⟩
      by_contra hb
      have := h.abandoned c' (by simpa [Memory.serve] using hb)
      rw [hx.abandons.1] at this
      cases this
    · obtain ⟨hsent, hlive⟩ := h.outcome c' result (by simpa [hcc] using hc) hd
      refine ⟨by simpa using hsent, ?_⟩
      by_contra hb
      rcases serve_abandoned s.mem c c' a (by simpa using hb) with hb | ⟨rfl, -⟩
      · rw [hlive] at hb
        cases hb
      · exact hcc rfl

theorem of_reaches {labels : List Label} (h : Reaches cfg labels s) : Settled s := by
  refine h.invariant_along (I := Settled) ⟨fun _ _ => rfl, nofun, nofun, nofun, nofun⟩
    fun _ s l t hr hi _ hs => ?_
  cases State.step_cases hs with
  | tick d => exact ⟨hi.live, hi.sent, hi.leaving, hi.abandoned, hi.outcome⟩
  | begin op hh =>
    have hidle := (Lifecycle.of_reaches hr).idle s.begun le_rfl
    have hop : op.call.leaving = none ∧ op.call.outcome = none := by cases op <;> exact ⟨rfl, rfl⟩
    refine ⟨hi.live, hi.sent, fun c e hc => ?_, fun c hc => ?_, fun c result hc => ?_⟩
    · by_cases hcb : c = s.begun
      · simp [hcb, hop] at hc
      · exact hi.leaving c e (by simpa [hcb] using hc)
    · have hold := hi.abandoned c hc
      by_cases hcb : c = s.begun
      · rw [hcb, hidle] at hold
        cases hold
      · simpa [hcb] using hold
    · by_cases hcb : c = s.begun
      · simp [hcb, hop] at hc
      · exact hi.outcome c result (by simpa [hcb] using hc)
  | call hx => exact hi.served hx
  | worker hx => exact hi.worked (.of_reaches hr) (tidy_of_reaches hr _) hx
  | dropClient _ _ =>
    have hm := s.clientDropped_mem
    have hlog : s.clientDropped.settlements = s.settlements := rfl
    exact ⟨by simpa [hm, hlog] using hi.live, by simpa [hm, hlog] using hi.sent, hi.leaving,
      by simpa [hm] using hi.abandoned, by simpa [hm] using hi.outcome⟩

end Settled

/-! ## The theorem -/

/-- What every worker can show for what it emits and answers. -/
structure Attested (cfg : Config) (s : State) : Prop where
  witnessed : ∀ r, Witnessed cfg.codec (s.trace r) (s.workers r)
  relaying : ∀ r event, (s.workers r).phase.relaying = some event → event.Relayed
  acks : ∀ r, (s.trace r).filterMap Effect.acked =
    (s.trace r).filterMap Effect.granted ++ (s.workers r).phase.granting.toList

namespace Attested

variable {cfg : Config} {s t : State} {c : CallId} {i : CallInput} {k : Call} {a : Act} {r : RunId}
  {w : Worker} {e : Effect} {l : Label}

theorem sorted (hd : Distinct s) (ha : Admission cfg s) (r : RunId) : (s.workers r).Sorted := by
  have hids := hd.nodup_ids ha r
  simp only [State.stock, Worker.carried, List.map_append, List.map_map] at hids
  have hids := (List.nodup_append.mp (List.nodup_append.mp hids).2.1).2.1
  refine ⟨hids, fun p hp x hx heq => ?_⟩
  have hping : x.1 ∈ (s.workers r).pings :=
    List.mem_append_right _ (by simpa using ⟨x.2, hx⟩)
  have htag : p.tag ∈ s.stock r :=
    List.mem_append_right _ (List.mem_append_right _ (List.mem_map_of_mem hp))
  exact (hd.pings r x.1 hping).2 p.tag (.inr ⟨r, htag⟩) heq.symm

theorem worked (h : Attested cfg s) (hd : Distinct s) (ha : Admission cfg s)
    (ht : (s.workers r).Tidy) (hx : (s.workers r).Moves cfg r s.mem l w e) :
    Attested cfg (s.worked r w e) := by
  refine ⟨fun r' => ?_, fun r' => ?_, fun r' => ?_⟩
  all_goals
    rw [State.worked_workers]
    by_cases hr : r' = r
  · subst hr
    rw [State.trace_worked, if_pos rfl, Function.update_self]
    exact hx.witnessed ht (sorted hd ha r') (h.witnessed r')
  · rw [State.trace_worked, if_neg hr, Function.update_of_ne hr]
    exact h.witnessed r'
  · subst hr
    rw [Function.update_self]
    exact hx.relaying (h.relaying r')
  · rw [Function.update_of_ne hr]
    exact h.relaying r'
  · subst hr
    have single : ∀ f : Effect → Option SendResult, [e].filterMap f = (f e).toList := fun f => by
      cases hf : f e <;> simp [hf]
    rw [State.trace_worked, if_pos rfl, Function.update_self, List.filterMap_append,
      List.filterMap_append, h.acks r', List.append_assoc, List.append_assoc, single, single,
      hx.granting ht (h.relaying r')]
  · rw [State.trace_worked, if_neg hr, Function.update_of_ne hr]
    exact h.acks r'

theorem of_reaches {labels : List Label} (h : Reaches cfg labels s) : Attested cfg s := by
  refine h.invariant_along (I := Attested cfg)
      ⟨fun _ => .outside rfl, fun _ _ he => (by cases he), fun _ => rfl⟩
    fun _ s l t hr hi _ hs => ?_
  cases State.step_cases hs with
  | tick d => exact ⟨hi.witnessed, hi.relaying, hi.acks⟩
  | begin op hh => exact ⟨hi.witnessed, hi.relaying, hi.acks⟩
  | @call c i k a hx =>
    have spawned : ∀ r, s.spawnWorker a r = s.workers r ∨
        s.trace r = [] ∧ s.spawnWorker a r = .spawned := fun r => by
      rcases s.spawnWorker_cases r a with hw | ⟨-, rfl, hw⟩
      · exact .inl hw
      · exact .inr ⟨((Lifecycle.of_reaches hr).fresh _ le_rfl).2.2, hw⟩
    refine ⟨fun r => ?_, fun r => ?_, fun r => ?_⟩
    all_goals
      rw [State.served_workers]
      rcases spawned r with hw | ⟨htr, hw⟩
    · rw [hw]
      exact hi.witnessed r
    · rw [hw]
      exact .outside rfl
    · rw [hw]
      exact hi.relaying r
    · rw [hw]
      exact fun event he => by cases he
    · rw [hw]
      exact hi.acks r
    · rw [hw, State.trace_served, htr]
      rfl
  | worker hx =>
    exact hi.worked (.of_reaches hr) (.of_reaches hr) (tidy_of_reaches hr _) hx
  | dropClient _ _ => exact ⟨hi.witnessed, hi.relaying, hi.acks⟩

end Attested

/-- The final drain of a run that ended with an error of the server finds only
commands whose callers have gone. -/
def State.DrainsNobody (s : State) (l : Label) : Prop :=
  ∀ r i code cmd, l = .work r i → (s.workers r).phase = .drained (.server code) cmd →
    (s.mem.replies cmd.reply).abandoned = true

/-- The trace shows the response that settled the reply of `c`. -/
def Backed (codec : Codec) (trace : List Effect) (c : CallId) (result : Except Error SendResult) :
    Prop :=
  ∃ pre p post, trace = pre ++ announced result ++ .answer c result :: post ∧ p.reply = c ∧
    Heard codec pre p result

theorem Backed.append {codec : Codec} {trace : List Effect} {c : CallId}
    {result : Except Error SendResult} (h : Backed codec trace c result) (rest : List Effect) :
    Backed codec (trace ++ rest) c result := by
  obtain ⟨pre, p, post, rfl, hp, hheard⟩ := h
  exact ⟨pre, p, post ++ rest, by simp, hp, hheard⟩

/-- Decisions that callers can still read are backed by responses. -/
def Founded (cfg : Config) (s : State) : Prop :=
  ∀ c result, (s.mem.replies c).sender = .sent result → (s.mem.replies c).abandoned = false →
    decided result = true → ∃ r, Backed cfg.codec (s.trace r) c result

namespace Founded

variable {cfg : Config} {s t : State} {c : CallId} {i : CallInput} {k : Call} {a : Act} {r : RunId}
  {w : Worker} {e : Effect} {l : Label}

theorem worked (h : Founded cfg s) (ha : Attested cfg s)
    (hok : s.DrainsNobody l) (hx : (s.workers r).Moves cfg r s.mem l w e) :
    Founded cfg (s.worked r w e) := by
  intro c result hsent hlive hd
  have keep : ∀ r', Backed cfg.codec (s.trace r') c result →
      ∃ r', Backed cfg.codec ((s.worked r w e).trace r') c result := by
    intro r' hb
    refine ⟨r', ?_⟩
    rw [State.trace_worked]
    split
    next heq => exact heq ▸ hb.append [e]
    · exact hb
  by_cases hs : e.settles c = true
  · cases e with
    | drop d =>
      obtain rfl : d = c := of_decide_eq_true hs
      simp [Memory.work, Memory.setSender] at hsent
    | answer d result' =>
      obtain rfl : d = c := of_decide_eq_true hs
      obtain rfl : result' = result := by simpa [Memory.work, Memory.setSender] using hsent
      cases hx with
      | @next i _ _ hp hx =>
        rcases Worker.next_answer hx with ⟨p, hans, hp⟩ | ⟨e, rfl, he⟩ | ⟨e, cmd, hq, rfl, rfl⟩
        · obtain ⟨-, pre, htr, hheard⟩ := (ha.witnessed r).answering p _ _ hans
          exact ⟨r, pre, p, [], by rw [State.trace_worked, if_pos rfl, htr], hp, hheard⟩
        · rcases he with rfl | rfl | he
          · cases hd
          · cases hd
          · rcases (ha.witnessed r).refusing e he with rfl | rfl <;> cases hd
        · cases e with
          | server code =>
            have := hok r i code cmd rfl hq
            rw [State.worked_mem, Settled.work_abandoned, this] at hlive
            cases hlive
          | _ => cases hd
    | _ => cases hs
  · rw [State.worked_mem, Settled.work_replies _ _ (by simpa using hs)] at hsent hlive
    obtain ⟨r', hb⟩ := h c result hsent hlive hd
    exact keep r' hb

theorem of_run {labels : List Label}
    (h : Run (State.step cfg) State.DrainsNobody (State.new cfg) labels s) : Founded cfg s := by
  refine h.invariant_along (I := Founded cfg) nofun fun _ s l t hr hi hok hs => ?_
  have hreach : Reaches cfg _ s := hr.weaken fun _ _ _ => trivial
  cases State.step_cases hs with
  | tick d => exact hi
  | begin op hh => exact hi
  | @call c i k a hx =>
    intro c' result hsent hlive hd
    refine hi c' result (by simpa using hsent) ?_ hd
    by_contra hb
    rw [State.served_mem, Settled.abandoned_served _ _ _ _ (by simpa using hb)] at hlive
    cases hlive
  | worker hx => exact hi.worked (.of_reaches hreach) hok hx
  | dropClient _ _ =>
    have hm := s.clientDropped_mem
    intro c result hsent hlive hd
    exact hi c result (by simpa [hm] using hsent) (by simpa [hm] using hlive) hd

end Founded

/-- Unless the final drain of a run that ended with an error of the server meets
a caller that still waits, a send that returns an acknowledgement or a server's
rejection returns what the first response to its own request says, read on the
socket it was written to; an acknowledgement is announced just before, its reply
is settled once, and a run announces exactly the acknowledgements it answers. -/
theorem outcome_of_response {cfg : Config} {labels : List Label} {s : State} {c : CallId}
    {args : SendArgs} {result : Except Error SendResult}
    (h : Run (State.step cfg) State.DrainsNobody (State.new cfg) labels s)
    (hc : s.calls c = .send args (.done result)) (hd : decided result = true) :
    ∃ r pre k cmd mid text value post,
      s.trace r = pre ++ .write k (.send cmd) :: mid ++ .receive k (.text text) ::
        announced result ++ .answer c result :: post ∧
      cmd.reply = c ∧
      (∀ n text', .receive n (.text text') ∈ mid →
        Protocol.bears cfg.codec text' cmd.id = false) ∧
      Protocol.parse cfg.codec text = .ok value ∧ value.strField "id" = some cmd.id ∧
      result = (Protocol.response value).bind (Protocol.decode Protocol.readSendResult) ∧
      s.settlements c = [(r, .answer c result)] ∧
      (s.trace r).filterMap Effect.acked =
        (s.trace r).filterMap Effect.granted ++ (s.workers r).phase.granting.toList := by
  have hreach : Reaches cfg labels s := h.weaken fun _ _ _ => trivial
  have hsettled := Settled.of_reaches hreach
  obtain ⟨hsent, hlive⟩ := hsettled.outcome c result (by rw [hc]; rfl) hd
  obtain ⟨r, -, p, post, htr, hp, pre, k, cmd, text, value, rfl, rfl, ⟨before, mid, rfl, hmid⟩, hparse,
    hid, hresult⟩ := Founded.of_run h c result hsent hlive hd
  obtain ⟨r', hlog⟩ := hsettled.sent c result hsent
  have hr : r' = r := by
    have hmem : (r, Effect.answer c result) ∈ s.settlements c := by
      have hin : Effect.answer c result ∈ s.trace r := by
        rw [htr]
        exact List.mem_append_right _ (List.mem_cons_self ..)
      obtain ⟨⟨r', e⟩, hx, he⟩ := List.mem_filterMap.mp hin
      simp only [Option.ite_none_right_eq_some, Option.some.injEq] at he
      obtain ⟨rfl, rfl⟩ := he
      exact List.mem_filter.mpr ⟨hx, by simp [Effect.settles]⟩
    rw [hlog] at hmem
    exact (Prod.mk.inj (List.mem_singleton.mp hmem)).1.symm
  subst hr
  exact ⟨r', before, k, cmd, mid, text, value, post, by rw [htr]; simp, hp, hmid, hparse, hid,
    hresult, hlog, (Attested.of_reaches hreach).acks r'⟩

/-- `DrainsNobody`, computed. -/
def State.drainsNobody (s : State) : Label → Bool
  | .work r _ =>
    match (s.workers r).phase with
    | .drained (.server _) cmd => (s.mem.replies cmd.reply).abandoned
    | _ => true
  | _ => true

theorem State.drainsNobody_spec (s : State) (l : Label) (h : s.drainsNobody l = true) :
    s.DrainsNobody l := by
  rintro r i code cmd rfl hq
  simpa [drainsNobody, hq] using h

/-- The response that acknowledges request `id`. -/
def acknowledged (id : String) : Value :=
  .object [("id", .string id), ("result", .object [("messageId", .string "7"),
    ("messageSeq", .number (.posInt 1)), ("reasonCode", .number (.posInt 1))])]

/-- The send of the sample is written, acknowledged and returns. -/
def acknowledging : List Label :=
  List.flatten [sending, [.work 0 .command], List.replicate 4 (.work 0 .go), [.work 0 (.io true)],
    List.replicate 4 (.work 0 .go), [.work 0 (.message (.text (compact (acknowledged "u1"))))],
    List.replicate 2 (.work 0 .go), [.call 1 .go]]

/-- The send has returned the acknowledgement of message `id`. -/
def Call.acknowledged (id : String) : Call → Bool
  | .send _ (.done (.ok ack)) => ack.messageId = id
  | _ => false

theorem outcome_of_response_acknowledging :
    ∃ s ack, Run (State.step (sample [accepted "u0", acknowledged "u1"])) State.DrainsNobody
        (State.new (sample [accepted "u0", acknowledged "u1"])) acknowledging s ∧
      ack.messageId = "7" ∧
      ∃ r pre k cmd mid text post, s.trace r = pre ++ .write k (.send cmd) :: mid ++
        .receive k (.text text) :: [.emit (.sendAck ack)] ++ .answer 1 (.ok ack) :: post := by
  obtain ⟨s, h, ho⟩ := run_of_play (sample [accepted "u0", acknowledged "u1"])
    State.drainsNobody State.drainsNobody_spec acknowledging
    (fun s => (s.calls 1).acknowledged "7") (by decide +kernel)
  unfold Call.acknowledged at ho
  split at ho
  next ack hc =>
    obtain ⟨r, pre, k, cmd, mid, text, -, post, htr, -⟩ := outcome_of_response h hc rfl
    exact ⟨s, ack, h, of_decide_eq_true ho, r, pre, k, cmd, mid, text, post, htr⟩
  next => cases ho

/-- The notification by which the server ends a session. -/
def kicked : Value :=
  .object [("method", .string "disconnect"),
    ("params", .object [("reasonCode", .number (.posInt 7))])]

/-- The server ends the session while a send is between its check and its
enqueueing, which comes after the queue was emptied. -/
def overtaken : List Label :=
  List.flatten [opening, [.begin (.send ⟨"bob", 1, .object [], {}⟩)],
    List.replicate 4 (.call 1 .go), [.call 1 (.ids "u1" "m1")], List.replicate 2 (.call 1 .go),
    [.work 0 (.message (.text (compact kicked)))], List.replicate 5 (.work 0 .go),
    List.replicate 2 (.call 1 .go), List.replicate 7 (.work 0 .go), [.call 1 .go]]

/-- A SEND with that id, or a frame that bears it. -/
def Effect.concerns (codec : Codec) (id : String) : Effect → Bool
  | .write _ (.send cmd) => cmd.id = id
  | .receive _ (.text text) => Protocol.bears codec text id
  | _ => false

/-- The send has returned the server's error `7`. -/
def Call.kicked : Call → Bool
  | .send _ (.done (.error (.server 7))) => true
  | _ => false

theorem outcome_without_response :
    ∃ s args, Reaches (sample [accepted "u0", kicked]) overtaken s ∧
      s.calls 1 = .send args (.done (.error (.server 7))) ∧
      ∀ x ∈ s.log, x.2.concerns (sample [accepted "u0", kicked]).codec "u1" = false := by
  obtain ⟨s, h, ho⟩ := reaches_of_play (sample [accepted "u0", kicked]) overtaken
    (fun s => (s.calls 1).kicked &&
      s.log.all fun x => !x.2.concerns (sample [accepted "u0", kicked]).codec "u1")
    (by decide +kernel)
  obtain ⟨hc, hlog⟩ := Bool.and_eq_true_iff.mp ho
  unfold Call.kicked at hc
  split at hc
  next args hs =>
    exact ⟨s, args, h, hs, fun x hx => by simpa using List.all_eq_true.mp hlog x hx⟩
  next => cases hc

end WukongSdk
