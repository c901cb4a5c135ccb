import WukongSdk.Backoff
import WukongSdk.Dispatch
import WukongSdk.Frames
import WukongSdk.Writer

/-!
# Sizes of the frames of a session

A SEND is measured before it is queued, a ping is short, and an acknowledgement
repeats what the server sent. Only the last can exceed the limit, so a session
that delivers no message with a longer acknowledgement never ends because of a
size.
-/
namespace WukongSdk

/-- Bytes of the JSON text of a flag. -/
def flagWidth (b : Bool) : ℕ := if b then 4 else 5

/-- Bytes of the acknowledgement of a message. -/
def ackWidth (m : RecvMessage) : ℕ :=
  129 + flagWidth m.header.dup + flagWidth m.header.noPersist + flagWidth m.header.redDot
    + flagWidth m.header.syncOnce + Json.textWidth m.messageId + Json.digits m.messageSeq.toNat

/-- A hyphenated UUID in lower case. -/
def IsUuid (id : String) : Prop :=
  id.toList.length = 36 ∧ id.toList.all "0123456789abcdef-".toList.contains = true

instance (id : String) : Decidable (IsUuid id) := inferInstanceAs (Decidable (_ ∧ _))

section

variable (float : UInt64 → String)

theorem width_bool (b : Bool) : Json.width float (.bool b) = flagWidth b := by
  cases b <;> rfl

theorem width_recvAck (m : RecvMessage) :
    Json.width float (Protocol.recvAck m) = ackWidth m := by
  have hseq : Json.width float (.number (.posInt m.messageSeq)) = Json.digits m.messageSeq.toNat :=
    Json.size_decimal _
  have hjsonrpc : Json.textWidth "jsonrpc" = 7 := rfl
  have hversion : Json.textWidth "2.0" = 3 := rfl
  have hmethod : Json.textWidth "method" = 6 := rfl
  have hrecvack : Json.textWidth "recvack" = 7 := rfl
  have hparams : Json.textWidth "params" = 6 := rfl
  have hheader : Json.textWidth "header" = 6 := rfl
  have hdup : Json.textWidth "dup" = 3 := rfl
  have hnoPersist : Json.textWidth "noPersist" = 9 := rfl
  have hredDot : Json.textWidth "redDot" = 6 := rfl
  have hsyncOnce : Json.textWidth "syncOnce" = 8 := rfl
  have hid : Json.textWidth "messageId" = 9 := rfl
  have hseqName : Json.textWidth "messageSeq" = 10 := rfl
  simp only [Protocol.recvAck, Protocol.headerValue, Json.width.eq_7, Json.widthFields, width_bool,
    Json.width.eq_5, hseq]
  unfold ackWidth
  omega

theorem textWidth_uuid {id : String} (h : IsUuid id) : Json.textWidth id = 36 := by
  have hall : ("0123456789abcdef-".toList.all fun c => Json.escapeWidth c == 1) = true := rfl
  have hone : ∀ c ∈ id.toList, Json.escapeWidth c = 1 := by
    intro c hc
    have hmem : c ∈ "0123456789abcdef-".toList :=
      List.contains_iff_mem.mp (List.all_eq_true.mp h.2 c hc)
    exact beq_iff_eq.mp (List.all_eq_true.mp hall c hmem)
  rw [Json.textWidth, List.map_congr_left hone, List.map_const', List.sum_replicate, h.1,
    smul_eq_mul, mul_one]

theorem width_ping {id : String} (h : IsUuid id) :
    Json.width float (Wire.value (.ping id)) = 89 := by
  have hid : Json.textWidth "id" = 2 := rfl
  have hjsonrpc : Json.textWidth "jsonrpc" = 7 := rfl
  have hversion : Json.textWidth "2.0" = 3 := rfl
  have hmethod : Json.textWidth "method" = 6 := rfl
  have hping : Json.textWidth "ping" = 4 := rfl
  have hparams : Json.textWidth "params" = 6 := rfl
  simp only [Wire.value, Protocol.request, Json.width.eq_7, Json.widthFields, Json.width.eq_5,
    textWidth_uuid h]
  omega

end

/-- The frame is within the limit of `write`. -/
def Wire.Fits (cfg : Config) (wire : Wire) : Prop :=
  (cfg.codec.render wire.value).utf8ByteSize ≤ cfg.options.maxMessageSize

/-- A frame a phase is bound to write without another look at it. -/
def Phase.bound : Phase → Option Wire
  | .supervise (.session (.ping id)) => some (.ping id)
  | .supervise (.session (.deliver m)) | .supervise (.session (.recvAck m)) => some (.recvAck m)
  | _ => none

/-- The session has ended because of a size. -/
def Phase.oversized : Phase → Bool
  | .supervise (.lost .messageTooLarge) => true
  | _ => false

def Effect.oversized : Effect → Bool
  | .lost _ .messageTooLarge => true
  | _ => false

def Effect.written : Effect → Option Wire
  | .write _ wire => some wire
  | _ => none

theorem not_oversized_of_terminal {e : Error} (h : e.isTerminal = true) :
    (Phase.supervise (.lost e)).oversized = false := by
  cases e <;> first | rfl | cases h

theorem oversized_lost (k : ℕ) (e : Error) :
    (Effect.lost k e).oversized = (Phase.supervise (.lost e)).oversized := by
  cases e <;> rfl

namespace Worker

variable {cfg : Config} {r : RunId} {m : Memory} {w w' : Worker} {i : Input} {e : Effect} {l : Label}

attribute [local grind] Phase.bound Phase.oversized Effect.oversized Effect.written Wire.Fits
  Phase.command
attribute [local grind =] react_deliver oversized_lost
attribute [local grind →] react_fail not_oversized_of_terminal

/-- A worker whose commands, pings and acknowledgements fit writes only frames
that fit. -/
theorem next_fits (h : Access cfg r m w i w' e)
    (hbound : ∀ wire, w.phase.bound = some wire → wire.Fits cfg)
    (hcmd : ∀ cmd, w.phase.command = some cmd → (Wire.send cmd).Fits cfg)
    (hping : ∀ id, i = .uuid id → (Wire.ping id).Fits cfg)
    (hack : ∀ text msg, w.phase = .supervise (.session .select) → i = .message (.text text) →
      delivered cfg.codec text = some msg → (Wire.recvAck msg).Fits cfg)
    (hlost : w.phase.oversized = false) :
    (∀ wire, w'.phase.bound = some wire → wire.Fits cfg) ∧ w'.phase.oversized = false ∧
      (∀ wire, e.written = some wire → wire.Fits cfg) ∧ e.oversized = false := by
  cases h
  case recvAckTooLarge hd hp hl => exact absurd (hbound _ (by rw [hp]; rfl)) (not_le.mpr hl)
  all_goals grind -linarith

/-- What any move of a worker writes fits, if what it holds and gets does. -/
theorem Moves.fits (h : w.Moves cfg r m l w' e)
    (hbound : ∀ wire, w.phase.bound = some wire → wire.Fits cfg)
    (hcmd : ∀ cmd, w.phase.command = some cmd → (Wire.send cmd).Fits cfg)
    (hping : ∀ id, l = .work r (.uuid id) → (Wire.ping id).Fits cfg)
    (hack : ∀ text msg, w.phase = .supervise (.session .select) →
      l = .work r (.message (.text text)) → delivered cfg.codec text = some msg →
      (Wire.recvAck msg).Fits cfg)
    (hlost : w.phase.oversized = false) :
    (∀ wire, w'.phase.bound = some wire → wire.Fits cfg) ∧ w'.phase.oversized = false ∧
      (∀ wire, e.written = some wire → wire.Fits cfg) ∧ e.oversized = false := by
  cases h with
  | next hp h =>
    exact next_fits h hbound hcmd (fun id hi => hping id (congrArg (Label.work r) hi))
      (fun text msg hq hi => hack text msg hq (congrArg (Label.work r) hi)) hlost
  | wake hp hq hc | resume hp hq => exact ⟨hbound, hlost, by simp [Effect.written], rfl⟩
  | cancel hp hq hc =>
    exact ⟨by simp [Phase.bound], rfl, by simp [Effect.written], rfl⟩
  | suspend hp hd ha => exact ⟨hbound, hlost, by simp [Effect.written], rfl⟩

end Worker

namespace Call

variable {cfg : Config} {c : CallId} {m : Memory} {i : CallInput} {k k' : Call} {a : Act}

/-- A SEND is measured when it is built. -/
theorem build_fits {args : SendArgs} {g : UInt64} {id msgNo : String} {cmd : Command}
    (h : SendPhase.build cfg m args c g id msgNo = .ok cmd) : (Wire.send cmd).Fits cfg := by
  unfold SendPhase.build at h
  cases hp : Protocol.send cfg.codec args.channel args.channelType args.payload args.options msgNo with
  | error e =>
    rw [hp] at h
    cases h
  | ok params =>
    rw [hp] at h
    simp only [bind, Except.bind, throw, throwThe, MonadExceptOf.throw, pure, Except.pure] at h
    split at h
    · cases h
    next hle =>
      cases h
      exact not_lt.mp hle

theorem Moves.fits {cmd : Command} (h : k.Moves cfg c m i k' a) (hk : k'.command = some cmd) :
    k.command = some cmd ∨ (Wire.send cmd).Fits cfg := by
  revert hk
  cases h with
  | @send args p p' a h =>
    revert h
    fun_cases SendPhase.next cfg c m args i p <;> grind -linarith [Call.command, → build_fits]
  | connect h => rintro ⟨⟩
  | disconnect h => rintro ⟨⟩

end Call

/-- Every command on its way, every frame a worker is bound to write and every
frame written fits, and no session has ended because of a size. -/
structure Fitting (cfg : Config) (s : State) : Prop where
  call : ∀ c cmd, (s.calls c).command = some cmd → (Wire.send cmd).Fits cfg
  run : ∀ r, ∀ cmd ∈ s.unwritten r, (Wire.send cmd).Fits cfg
  bound : ∀ r wire, (s.workers r).phase.bound = some wire → wire.Fits cfg
  kept : ∀ r, (s.workers r).phase.oversized = false
  written : ∀ x ∈ s.log, ∀ wire, x.2.written = some wire → wire.Fits cfg
  unharmed : ∀ x ∈ s.log, x.2.oversized = false

/-- UUIDs are UUIDs, and the acknowledgement of every message a session delivers
is within the limit. -/
structure State.Measured (cfg : Config) (s : State) (l : Label) : Prop where
  uuid : ∀ r id, l = .work r (.uuid id) → IsUuid id
  ack : ∀ r text msg, l = .work r (.message (.text text)) →
    (s.workers r).phase = .supervise (.session .select) → delivered cfg.codec text = some msg →
    ackWidth msg ≤ cfg.options.maxMessageSize

namespace Fitting

variable {cfg : Config} {s t : State} {c : CallId} {i : CallInput} {k : Call} {a : Act} {r : RunId}
  {w : Worker} {e : Effect} {l : Label} {float : UInt64 → String}

theorem ping_fits {id : String} (hrender : cfg.codec.render = Json.serialize float)
    (hvalid : cfg.options.Valid) (h : IsUuid id) : (Wire.ping id).Fits cfg := by
  have hmin := hvalid.message.1
  rw [Wire.Fits, hrender, Json.size_serialize, width_ping float h]
  omega

theorem recvAck_fits {msg : RecvMessage} (hrender : cfg.codec.render = Json.serialize float) :
    (Wire.recvAck msg).Fits cfg ↔ ackWidth msg ≤ cfg.options.maxMessageSize := by
  rw [Wire.Fits, hrender, Json.size_serialize, Wire.value, width_recvAck]

theorem new (cfg : Config) : Fitting cfg (State.new cfg) := by
  refine ⟨fun c cmd h => ?_, fun r cmd h => ?_, fun r wire h => ?_, fun r => rfl,
    fun x h => absurd h (List.not_mem_nil), fun x h => absurd h (List.not_mem_nil)⟩
  · cases h
  · simp [State.unwritten, State.new, Phase.command] at h
  · cases h

theorem called (h : Fitting cfg s) (op : Operation) : Fitting cfg (s.called op) := by
  refine ⟨fun c cmd hc => ?_, h.run, h.bound, h.kept, h.written, h.unharmed⟩
  by_cases hcb : c = s.begun
  · subst hcb
    rw [State.called_calls, Function.update_self] at hc
    cases op <;> cases hc
  · rw [State.called_calls, Function.update_of_ne hcb] at hc
    exact h.call c cmd hc

theorem served (h : Fitting cfg s) (hx : (s.calls c).Moves cfg c s.mem i k a) :
    Fitting cfg (s.served c k a) := by
  refine ⟨fun c' cmd hc => ?_, fun r cmd hr => ?_, fun r wire hr => ?_, fun r => ?_, h.written,
    h.unharmed⟩
  · by_cases hcc : c' = c
    · subst hcc
      rw [State.served_calls, Function.update_self] at hc
      exact (hx.fits hc).elim (h.call c' cmd) id
    · rw [State.served_calls, Function.update_of_ne hcc] at hc
      exact h.call c' cmd hc
  · rcases State.unwritten_served hr with hr | rfl
    · exact h.run r cmd hr
    · exact h.call c cmd hx.handed.2
  · rcases s.spawnWorker_cases r a with hw | ⟨-, -, hw⟩
    · rw [State.served_workers, hw] at hr
      exact h.bound r wire hr
    · rw [State.served_workers, hw] at hr
      cases hr
  · rcases s.spawnWorker_cases r a with hw | ⟨-, -, hw⟩
    · rw [State.served_workers, hw]
      exact h.kept r
    · rw [State.served_workers, hw]
      rfl

theorem worked (h : Fitting cfg s) (hrender : cfg.codec.render = Json.serialize float)
    (hvalid : cfg.options.Valid) (hok : s.Measured cfg l)
    (hx : (s.workers r).Moves cfg r s.mem l w e) : Fitting cfg (s.worked r w e) := by
  have hcmd : ∀ cmd, (s.workers r).phase.command = some cmd → (Wire.send cmd).Fits cfg :=
    fun cmd hq => h.run r cmd (List.mem_append_right _ (Option.mem_toList.mpr hq))
  obtain ⟨hbound, hkept, hwritten, hunharmed⟩ := hx.fits (h.bound r) hcmd
    (fun id hl => ping_fits hrender hvalid (hok.uuid r id hl))
    (fun text msg hq hl hd => (recvAck_fits hrender).mpr (hok.ack r text msg hl hq hd)) (h.kept r)
  refine ⟨h.call, fun r' cmd hr => h.run r' cmd (State.unwritten_worked hx hr), fun r' wire hr => ?_,
    fun r' => ?_, fun x hmem => ?_, fun x hmem => ?_⟩
  · by_cases hrr : r' = r
    · subst hrr
      rw [State.worked_workers, Function.update_self] at hr
      exact hbound wire hr
    · rw [State.worked_workers, Function.update_of_ne hrr] at hr
      exact h.bound r' wire hr
  · by_cases hrr : r' = r
    · subst hrr
      rw [State.worked_workers, Function.update_self]
      exact hkept
    · rw [State.worked_workers, Function.update_of_ne hrr]
      exact h.kept r'
  · rcases List.mem_append.mp hmem with hmem | hmem
    · exact h.written x hmem
    · rw [List.mem_singleton.mp hmem]
      exact hwritten
  · rcases List.mem_append.mp hmem with hmem | hmem
    · exact h.unharmed x hmem
    · rw [List.mem_singleton.mp hmem]
      exact hunharmed

theorem clientDropped (h : Fitting cfg s) : Fitting cfg s.clientDropped := by
  refine ⟨h.call, fun r => ?_, h.bound, h.kept, h.written, h.unharmed⟩
  rw [State.unwritten_clientDropped]
  exact h.run r

theorem of_run {labels : List Label} (hrender : cfg.codec.render = Json.serialize float)
    (hvalid : cfg.options.Valid)
    (h : Run (State.step cfg) (State.Measured cfg) (State.new cfg) labels s) : Fitting cfg s := by
  refine h.invariant (I := Fitting cfg) (.new cfg) fun s l t hi hok hs => ?_
  cases State.step_cases hs with
  | tick d => exact ⟨hi.call, hi.run, hi.bound, hi.kept, hi.written, hi.unharmed⟩
  | begin op hh => exact hi.called op
  | call hx => exact hi.served hx
  | worker hx => exact hi.worked hrender hvalid hok hx
  | dropClient _ _ => exact hi.clientDropped

end Fitting

/-- Nothing has happened to any session, nor to what it shares with the callers. -/
def State.SameSessions (s t : State) : Prop :=
  t.workers = s.workers ∧ t.mem.cells = s.mem.cells ∧ t.log = s.log

section

variable {cfg : Config} {s t : State} {c : CallId} {args : SendArgs} {r : RunId}

/-- A SEND that is too long is turned away before anything is queued. -/
theorem prepare_oversized {g : UInt64} {id msgNo : String} {params : Value}
    (hc : s.calls c = .send args (.prepare g))
    (hparams : Protocol.send cfg.codec args.channel args.channelType args.payload args.options msgNo
      = .ok params)
    (hbig : cfg.options.maxMessageSize <
      (cfg.codec.render (Protocol.request "send" params id)).utf8ByteSize)
    (hs : s.step cfg (.call c (.ids id msgNo)) = some t) :
    t.calls c = .send args (.abort .messageTooLarge) ∧ s.SameSessions t := by
  have hbuild : SendPhase.build cfg s.mem args c g id msgNo = .error .messageTooLarge := by
    simp [SendPhase.build, hparams, hbig, bind, Except.bind, throw, throwThe, MonadExceptOf.throw]
  simp only [State.step, hc, Call.next, SendPhase.next, hbuild, Option.map_map,
    Option.map_eq_some_iff, Option.ite_none_left_eq_some, Option.some.injEq] at hs
  obtain ⟨x, ⟨-, rfl⟩, rfl⟩ := hs
  exact ⟨Function.update_self .., rfl, rfl, rfl⟩

theorem abort_returns {e : Error} {i : CallInput} (hc : s.calls c = .send args (.abort e))
    (hs : s.step cfg (.call c i) = some t) :
    t.calls c = .send args (.done (.error e)) ∧ s.SameSessions t := by
  simp only [State.step, hc, Call.next, SendPhase.next, Option.map_some, Option.some.injEq] at hs
  subst hs
  exact ⟨Function.update_self .., rfl, rfl, rfl⟩

/-- A session that has delivered a message ends at once if the acknowledgement
is too long, and only then. -/
theorem recvAck_oversized {float : UInt64 → String} {msg : RecvMessage} {i : Input}
    (hrender : cfg.codec.render = Json.serialize float)
    (hq : (s.workers r).phase = .supervise (.session (.recvAck msg)))
    (hd : (s.workers r).dropping = none) (hs : s.step cfg (.work r i) = some t) :
    (t.workers r).phase = .supervise (.lost .messageTooLarge) ↔
      cfg.options.maxMessageSize < ackWidth msg := by
  have hfits : (Wire.recvAck msg).Fits cfg ↔ ackWidth msg ≤ cfg.options.maxMessageSize :=
    Fitting.recvAck_fits hrender
  simp only [State.step, Worker.next, hd, hq, Worker.superviseNext, Worker.sessionNext,
    Option.ite_none_right_eq_some, Option.map_some, Option.some.injEq] at hs
  obtain ⟨-, rfl⟩ := hs
  rw [State.worked_workers, Function.update_self, Worker.write, ← not_le, ← hfits, Wire.Fits]
  split
  next hbig => simp [Worker.lose, not_le.mpr hbig]
  next hle => simp [not_lt.mp hle]

/-- Where every message a session delivers has an acknowledgement within the
limit, every frame written is within it and no session ends because of a size; a
longer acknowledgement ends its session. A SEND that is too long only fails. -/
theorem size_ends_no_session {float : UInt64 → String}
    (hrender : cfg.codec.render = Json.serialize float) (hvalid : cfg.options.validate = .ok ()) :
    (∀ labels s, Run (State.step cfg) (State.Measured cfg) (State.new cfg) labels s →
      (∀ r k wire, (r, Effect.write k wire) ∈ s.log →
        (cfg.codec.render wire.value).utf8ByteSize ≤ cfg.options.maxMessageSize) ∧
      ∀ r k, (r, Effect.lost k .messageTooLarge) ∉ s.log) ∧
    (∀ (s t : State) r msg i, (s.workers r).phase = .supervise (.session (.recvAck msg)) →
      (s.workers r).dropping = none → s.step cfg (.work r i) = some t →
      ((t.workers r).phase = .supervise (.lost .messageTooLarge) ↔
        cfg.options.maxMessageSize < ackWidth msg)) ∧
    (∀ (s t : State) c args g id msgNo params, s.calls c = .send args (.prepare g) →
      Protocol.send cfg.codec args.channel args.channelType args.payload args.options msgNo
        = .ok params →
      cfg.options.maxMessageSize <
        (cfg.codec.render (Protocol.request "send" params id)).utf8ByteSize →
      s.step cfg (.call c (.ids id msgNo)) = some t →
      t.calls c = .send args (.abort .messageTooLarge) ∧ s.SameSessions t) ∧
    ∀ (s t : State) c args i, s.calls c = .send args (.abort .messageTooLarge) →
      s.step cfg (.call c i) = some t →
      t.calls c = .send args (.done (.error .messageTooLarge)) ∧ s.SameSessions t := by
  refine ⟨fun labels s h => ?_, fun s t r msg i hq hd hs => recvAck_oversized hrender hq hd hs,
    fun s t c args g id msgNo params hc hp hbig hs => prepare_oversized hc hp hbig hs,
    fun s t c args i hc hs => abort_returns hc hs⟩
  have hf := Fitting.of_run hrender (Options.validate_ok.mp hvalid) h
  refine ⟨fun r k wire hmem => hf.written _ hmem wire rfl, fun r k hmem => ?_⟩
  have := hf.unharmed _ hmem
  cases this

end

/-- A client with the least limit, whose codec writes compact JSON. -/
def tight (frames : List Value) : Config where
  codec := { (sample frames).codec with render := Json.serialize fun _ => "0.0" }
  auth := (sample frames).auth
  options := { Options.default with maxMessageSize := 256 }

/-- A notification of a message whose id consists of `n` characters of four bytes. -/
def notice (n : ℕ) : Value :=
  .object [("method", .string "recv"), ("params", .object [("channelId", .string "c"),
    ("channelType", .number (.posInt 1)), ("fromUid", .string ""),
    ("messageId", .string (String.ofList (List.replicate n (Char.ofNat 0x1D11E)))),
    ("messageSeq", .number (.posInt 7)), ("payload", .null), ("timestamp", .number (.posInt 0))])]

def someUuid : String := "00000000-0000-4000-8000-000000000000"

/-- A client connects and receives one text; then its worker moves `n` times. -/
def receiving (text : String) (n : ℕ) : List Label :=
  List.flatten [[.begin (.connect true)], List.replicate 4 (.call 0 .go),
    [.poll 0, .work 0 .go, .work 0 (.io true), .work 0 (.uuid someUuid), .work 0 (.stamp 0),
      .work 0 (.io true), .work 0 (.message (.text (compact (accepted someUuid))))],
    List.replicate 9 (.work 0 .go), [.work 0 (.message (.text text))],
    List.replicate n (.work 0 .go)]

/-- `Measured`, computed. -/
def State.measured (cfg : Config) : Label → Bool
  | .work _ (.uuid id) => decide (IsUuid id)
  | .work _ (.message (.text text)) =>
    (delivered cfg.codec text).all fun m => ackWidth m ≤ cfg.options.maxMessageSize
  | _ => true

theorem State.measured_spec (cfg : Config) (s : State) (l : Label)
    (h : State.measured cfg l = true) : s.Measured cfg l := by
  refine ⟨?_, ?_⟩
  · rintro r id rfl
    exact of_decide_eq_true h
  · rintro r text m rfl - hd
    simpa [measured, hd] using h

/-- The last access writes an acknowledgement. -/
def acknowledges : Option (RunId × Effect) → Bool
  | some (0, .write _ (.recvAck _)) => true
  | _ => false

/-- An acknowledgement of 160 bytes is written. -/
theorem size_ends_no_session_receiving :
    ∃ s k msg, Run (State.step (tight [accepted someUuid, notice 2]))
        (State.Measured (tight [accepted someUuid, notice 2]))
        (State.new (tight [accepted someUuid, notice 2])) (receiving (compact (notice 2)) 2) s ∧
      (0, Effect.write k (.recvAck msg)) ∈ s.log ∧
      (Json.serialize (fun _ => "0.0") (Wire.recvAck msg).value).utf8ByteSize ≤ 256 := by
  obtain ⟨s, h, ho⟩ := run_of_play (tight [accepted someUuid, notice 2])
    (fun _ => State.measured (tight [accepted someUuid, notice 2])) (State.measured_spec _)
    (receiving (compact (notice 2)) 2)
    (fun s => acknowledges s.log.getLast?) (by decide +kernel)
  unfold acknowledges at ho
  split at ho
  next k msg hlast =>
    have hmem := List.mem_of_getLast? hlast
    have hfits := ((size_ends_no_session rfl (by rfl)).1 _ s h).1 0 k (.recvAck msg) hmem
    exact ⟨s, k, msg, h, hmem, hfits⟩
  next => cases ho

/-- The last access ends the session because of a size. -/
def losesToSize : Option (RunId × Effect) → Bool
  | some (0, .lost 1 .messageTooLarge) => true
  | _ => false

/-- A message of at most 256 bytes, whose acknowledgement takes 262, ends the
session at the least limit. -/
theorem size_ends_session :
    (tight [accepted someUuid, notice 28]).options.validate = .ok () ∧
    (compact (notice 28)).utf8ByteSize ≤ 256 ∧
    ∃ s, Reaches (tight [accepted someUuid, notice 28]) (receiving (compact (notice 28)) 3) s ∧
      (0, Effect.lost 1 .messageTooLarge) ∈ s.log := by
  refine ⟨by rfl, by decide +kernel, ?_⟩
  obtain ⟨s, h, ho⟩ := reaches_of_play (tight [accepted someUuid, notice 28])
    (receiving (compact (notice 28)) 3)
    (fun s => losesToSize s.log.getLast?) (by decide +kernel)
  unfold losesToSize at ho
  split at ho
  next hlast => exact ⟨s, h, List.mem_of_getLast? hlast⟩
  next => cases ho

end WukongSdk
