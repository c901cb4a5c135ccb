import WukongSdk.Receipt

/-!
# Noise on a socket

A malformed frame takes a calm session once round its loop and back to where it
was; only the log tells. No step looks at the log, so a run with such frames
inserted anywhere does what the run without them does.
-/
namespace WukongSdk

/-- What the user or the server can see of an access, errors reported to the
user apart. -/
def Effect.audible : Effect → Bool
  | .skip | .receive _ _ | .emit (.error _) => false
  | _ => true

namespace State

def relog (s : State) (log : List (RunId × Effect)) : State := { s with log }

/-- The accesses of a log that are audible. -/
def heard (log : List (RunId × Effect)) : List (RunId × Effect) := log.filter fun x => x.2.audible

/-- The two states differ in their logs only, and not in what is audible of them. -/
structure Echoes (s s' : State) : Prop where
  same : s' = s.relog s'.log
  heard : heard s'.log = State.heard s.log

variable {cfg : Config} {s s' t : State} {r : RunId} {l : Label}

theorem Echoes.refl (s : State) : Echoes s s := ⟨rfl, rfl⟩

theorem worked_relog (log : List (RunId × Effect)) (w : Worker) (e : Effect) :
    (s.relog log).worked r w e = (s.worked r w e).relog (log ++ [(r, e)]) := rfl

/-- No step looks at the log; it only adds to it. -/
theorem step_relog (log : List (RunId × Effect)) (h : s.step cfg l = some t) :
    ∃ new, t.log = s.log ++ new ∧ (s.relog log).step cfg l = some (t.relog (log ++ new)) := by
  have quiet : ∀ f : State → State, (∀ s, (f s).log = s.log) →
      (∀ s log, f (s.relog log) = (f s).relog log) → t = f s →
      (s.relog log).step cfg l = some (f (s.relog log)) →
      ∃ new, t.log = s.log ++ new ∧ (s.relog log).step cfg l = some (t.relog (log ++ new)) := by
    rintro f hlog hrelog rfl hs
    exact ⟨[], by rw [hlog, List.append_nil], by rw [hs, hrelog, List.append_nil]⟩
  have moved : ∀ (r : RunId) (x : Worker × Effect), s.worked r x.1 x.2 = t →
      (s.relog log).step cfg l = some ((s.relog log).worked r x.1 x.2) →
      ∃ new, t.log = s.log ++ new ∧ (s.relog log).step cfg l = some (t.relog (log ++ new)) := by
    rintro r x rfl hs
    exact ⟨[(r, x.2)], rfl, by rw [hs, worked_relog]⟩
  cases l with
  | tick d => exact quiet (·.ticked d) (fun _ => rfl) (fun _ _ => rfl) (Option.some.inj h).symm rfl
  | begin op =>
    obtain ⟨hh, ht⟩ := Option.ite_none_right_eq_some.mp h
    exact quiet (·.called op) (fun _ => rfl) (fun _ _ => rfl) (Option.some.inj ht).symm (if_pos hh)
  | call c i =>
    obtain ⟨x, hx, ht⟩ := Option.map_eq_some_iff.mp h
    refine quiet (·.served c x.1 x.2) (fun _ => rfl) (fun _ _ => ?_) ht.symm
      (Option.map_eq_some_iff.mpr ⟨x, hx, rfl⟩)
    cases x.2 <;> rfl
  | poll r =>
    obtain ⟨x, hx, ht⟩ := Option.map_eq_some_iff.mp h
    exact moved r x ht (Option.map_eq_some_iff.mpr ⟨x, hx, rfl⟩)
  | suspend r =>
    obtain ⟨x, hx, ht⟩ := Option.map_eq_some_iff.mp h
    exact moved r x ht (Option.map_eq_some_iff.mpr ⟨x, hx, rfl⟩)
  | work r i =>
    obtain ⟨hp, h⟩ := Option.ite_none_right_eq_some.mp h
    obtain ⟨x, hx, ht⟩ := Option.map_eq_some_iff.mp h
    exact moved r x ht ((if_pos hp).trans (Option.map_eq_some_iff.mpr ⟨x, hx, rfl⟩))
  | dropClient =>
    obtain ⟨hh, ht⟩ := Option.ite_none_right_eq_some.mp h
    exact quiet (·.clientDropped) (fun _ => rfl) (fun _ _ => rfl) (Option.some.inj ht).symm
      (if_pos hh)

theorem Echoes.step (h : Echoes s s') (hs : s.step cfg l = some t) :
    ∃ t', s'.step cfg l = some t' ∧ Echoes t t' := by
  obtain ⟨new, hlog, hs'⟩ := step_relog s'.log hs
  refine ⟨t.relog (s'.log ++ new), by rw [h.same]; exact hs', rfl, ?_⟩
  change State.heard (s'.log ++ new) = State.heard t.log
  have hheard := h.heard
  simp only [State.heard] at hheard ⊢
  rw [hlog, List.filter_append, List.filter_append, hheard]

theorem Echoes.serving (h : Echoes s s') (hok : s.Serving cfg r l) : s'.Serving cfg r l := by
  rw [h.same]
  exact ⟨hok.inSession, hok.fits⟩

/-- The worker of run `r` has come to `w`, with `noise` in the log. -/
def drift (s : State) (r : RunId) (w : Worker) (noise : List (RunId × Effect)) : State :=
  { s with workers := Function.update s.workers r w, log := s.log ++ noise }

theorem drift_self (noise : List (RunId × Effect)) :
    s.drift r (s.workers r) noise = s.relog (s.log ++ noise) := by
  rw [drift, Function.update_eq_self]
  rfl

/-- The labels take the worker of run `r` from `w` to `w'` within its session, and
nothing else moves and nothing audible happens. -/
def Drifts (cfg : Config) (s : State) (r : RunId) (labels : List Label) (w w' : Worker) : Prop :=
  ∀ noise, ∃ new, heard new = [] ∧
    Run (State.step cfg) (State.Serving cfg r) (s.drift r w noise) labels
      (s.drift r w' (noise ++ new))

variable {w w' w'' : Worker} {labels labels' : List Label}

theorem Drifts.trans (h : Drifts cfg s r labels w w') (h' : Drifts cfg s r labels' w' w'') :
    Drifts cfg s r (labels ++ labels') w w'' := by
  intro noise
  obtain ⟨new, hnew, hrun⟩ := h noise
  obtain ⟨new', hnew', hrun'⟩ := h' (noise ++ new)
  refine ⟨new ++ new', ?_, ?_⟩
  · rw [heard, List.filter_append, ← heard, ← heard, hnew, hnew', List.append_nil]
  · rw [← List.append_assoc]
    exact hrun.append hrun'

/-- One silent access of a session that writes nothing and leaves the memory alone. -/
theorem Drifts.single {i : Input} {e : Effect} (hp : w.polling = true)
    (hin : w.phase.inSession = true) (hwrites : w.phase.writes = none)
    (hn : w.next cfg r s.mem i = some (w', e)) (hm : s.mem.work r e = s.mem)
    (he : e.audible = false) : Drifts cfg s r [.work r i] w w' := by
  intro noise
  have hworker : (s.drift r w noise).workers r = w := Function.update_self ..
  have hserving : (s.drift r w noise).Serving cfg r (.work r i) := by
    refine ⟨by rw [hworker, hin], fun wire hq => ?_⟩
    rw [hworker, hwrites] at hq
    cases hq
  refine ⟨[(r, e)], by simp [heard, he], Run.single hserving ?_⟩
  have hpolling : ((s.drift r w noise).workers r).polling = true := by rw [hworker, hp]
  have hnext : ((s.drift r w noise).workers r).next cfg r (s.drift r w noise).mem i
      = some (w', e) := by
    rw [hworker]
    exact hn
  rw [step, if_pos hpolling, hnext, Option.map_some, worked, drift, drift, hm]
  simp [Function.update_idem]

end State

/-- How many moves it takes the session to report a garbage frame. -/
def Session.echo (codec : Codec) (s : Session) : Incoming → ℕ
  | .text text =>
    match s.react codec text with
    | .emit _ => 1
    | _ => 0
  | _ => 1

/-- The session of run `r` waits for what comes next: no caller has dropped a
send, and no deadline has passed. -/
structure Calm (s : State) (r : RunId) : Prop where
  phase : (s.workers r).phase = .supervise (.session .select)
  polling : (s.workers r).polling = true
  dropping : (s.workers r).dropping = none
  wanted : ∀ p ∈ (s.workers r).session.pending, (s.mem.replies p.reply).abandoned = false
  early : ∀ p ∈ (s.workers r).session.pending, s.mem.clock < p.deadline

namespace Calm

variable {cfg : Config} {s : State} {r : RunId}

/-- With no send abandoned the retain loop removes nothing. -/
theorem retains (h : Calm s r) (d k : ℕ) (hk : k + d = (s.workers r).session.pending.length) :
    State.Drifts cfg s r (List.replicate (d + 1) (.work r .go))
      ((s.workers r).goSession (.retain s.mem.clock k)) ((s.workers r).goSession (.expire [])) := by
  have hdue : (s.workers r).session.due s.mem.clock = [] := by
    rw [Session.due, List.map_eq_nil_iff, List.filter_eq_nil_iff]
    intro p hp
    simpa using h.early p hp
  induction d generalizing k with
  | zero =>
    have hnone : (s.workers r).session.pending[k]? = none :=
      List.getElem?_eq_none_iff.mpr (by omega)
    refine .single (e := .skip) h.polling rfl rfl ?_ rfl rfl
    simp [Worker.next, h.dropping, Worker.superviseNext, Worker.sessionNext, hnone, hdue]
  | succ d ih =>
    have hlt : k < (s.workers r).session.pending.length := by omega
    have hsome := List.getElem?_eq_getElem hlt
    have hwanted := h.wanted _ (List.getElem_mem hlt)
    rw [List.replicate_succ]
    have hkept : State.Drifts cfg s r [.work r .go]
        ((s.workers r).goSession (.retain s.mem.clock k))
        ((s.workers r).goSession (.retain s.mem.clock (k + 1))) := by
      refine .single (e := .skip) h.polling rfl rfl ?_ rfl rfl
      simp [Worker.next, h.dropping, Worker.superviseNext, Worker.sessionNext, hsome, hwanted]
    exact hkept.trans (ih (k + 1) (by omega))

/-- From the head of the loop back to the select. -/
theorem rounds (h : Calm s r) :
    State.Drifts cfg s r
      (List.replicate ((s.workers r).session.pending.length + 3) (.work r .go))
      ((s.workers r).goSession .head) (s.workers r) := by
  have hback : (s.workers r).goSession .select = s.workers r := by
    rw [Worker.goSession, Worker.goSupervise, Worker.goto, ← h.phase]
  have hhead : State.Drifts cfg s r [.work r .go] ((s.workers r).goSession .head)
      ((s.workers r).goSession (.retain s.mem.clock 0)) := by
    refine .single (e := .skip) h.polling rfl rfl ?_ rfl rfl
    simp [Worker.next, h.dropping, Worker.superviseNext, Worker.sessionNext]
  have hexpire : State.Drifts cfg s r [.work r .go] ((s.workers r).goSession (.expire []))
      (s.workers r) := by
    refine .single (e := .skip) h.polling rfl rfl ?_ rfl rfl
    have hnext : ((s.workers r).goSession (.expire [])).next cfg r s.mem .go
        = some ((s.workers r).goSession .select, .skip) := by
      simp [Worker.next, h.dropping, Worker.superviseNext, Worker.sessionNext]
    rwa [hback] at hnext
  have hlabels : List.replicate ((s.workers r).session.pending.length + 3) (Label.work r .go)
      = [.work r .go] ++ (List.replicate ((s.workers r).session.pending.length + 1) (.work r .go)
        ++ [.work r .go]) := by
    rw [List.replicate_succ, ← List.replicate_succ', List.singleton_append]
  rw [hlabels]
  exact hhead.trans ((h.retains _ 0 (Nat.zero_add _)).trans hexpire)

/-- A frame the session reports or ignores takes it once round the loop. -/
theorem hears (h : Calm s r) {frame : Incoming}
    (hg : Garbage cfg.codec (s.workers r).session frame) :
    State.Drifts cfg s r (.work r (.message frame) ::
        List.replicate ((s.workers r).session.echo cfg.codec frame
          + ((s.workers r).session.pending.length + 3)) (.work r .go))
      (s.workers r) (s.workers r) := by
  -- the frame is taken from the socket
  have htaken : ∀ w', (s.workers r).onMessage cfg s.mem frame = w' →
      State.Drifts cfg s r [.work r (.message frame)] (s.workers r) w' := by
    rintro _ rfl
    refine .single (e := .receive (s.workers r).session.socket frame) h.polling ?_ ?_ ?_ rfl rfl
    · rw [h.phase]
      rfl
    · rw [h.phase]
      rfl
    · simp [Worker.next, h.dropping, h.phase, Worker.superviseNext, Worker.sessionNext]
  -- it is reported
  have hreported : ∀ error, State.Drifts cfg s r [.work r .go]
      ((s.workers r).goSession (.emit (.error error))) ((s.workers r).goSession .head) := by
    intro error
    refine .single (e := .emit (.error error)) h.polling rfl rfl ?_ rfl rfl
    simp [Worker.next, h.dropping, Worker.superviseNext, Worker.sessionNext]
  have hemit : ∀ error, (s.workers r).onMessage cfg s.mem frame
        = (s.workers r).goSession (.emit (.error error)) →
      (s.workers r).session.echo cfg.codec frame = 1 →
      State.Drifts cfg s r (.work r (.message frame) ::
        List.replicate ((s.workers r).session.echo cfg.codec frame
          + ((s.workers r).session.pending.length + 3)) (.work r .go))
      (s.workers r) (s.workers r) := by
    intro error hw hecho
    rw [hecho, List.replicate_add, ← List.singleton_append]
    exact (htaken _ hw).trans ((hreported error).trans h.rounds)
  cases frame with
  | text text =>
    rcases hg.react with ⟨error, hr⟩ | hr
    · exact hemit error (by rw [Worker.onMessage, hr]) (by rw [Session.echo, hr])
    · rw [Session.echo, hr, Nat.zero_add, ← List.singleton_append]
      exact (htaken _ (by rw [Worker.onMessage, hr])).trans h.rounds
  | binary => exact hemit _ rfl rfl
  | ping | pong | closed => cases hg

end Calm

/-- A garbage frame, with the moves that take a calm session past it. -/
def Litter (cfg : Config) (r : RunId) (s : State) (labels : List Label) : Prop :=
  Calm s r ∧ ∃ frame, Garbage cfg.codec (s.workers r).session frame ∧
    labels = .work r (.message frame) ::
      List.replicate ((s.workers r).session.echo cfg.codec frame
        + ((s.workers r).session.pending.length + 3)) (.work r .go)

theorem unnoticed (cfg : Config) (r : RunId) :
    Unnoticed (State.step cfg) (State.Serving cfg r) (Litter cfg r) State.Echoes where
  stepped _ _ _ _ hr hs := hr.step hs
  allowed _ _ _ hr hok := hr.serving hok
  taken s s' labels hr hd := by
    obtain ⟨hcalm, frame, hg, rfl⟩ := hd
    have hsame := hr.same
    have hcalm' : Calm s' r := by
      rw [hsame]
      exact ⟨hcalm.phase, hcalm.polling, hcalm.dropping, hcalm.wanted, hcalm.early⟩
    have hworkers : s'.workers = s.workers := by rw [hsame]; rfl
    have hg' : Garbage cfg.codec (s'.workers r).session frame := by rw [hworkers]; exact hg
    obtain ⟨new, hnew, hrun⟩ := hcalm'.hears hg' []
    rw [State.drift_self, State.drift_self, List.append_nil, List.nil_append] at hrun
    refine ⟨s'.relog (s'.log ++ new), by rw [← hworkers]; exact hrun, ?_, ?_⟩
    · rw [hsame]
      rfl
    · change State.heard (s'.log ++ new) = State.heard s.log
      rw [State.heard, List.filter_append, ← State.heard, ← State.heard, hnew, List.append_nil,
        hr.heard]

/-- What a message takes from parameters that are an object: its header, its
sequence number, and its id, where a number is written in decimal. -/
theorem recv_identity {codec : Codec} {fields : Fields} {m : RecvMessage}
    (h : Protocol.recv codec (.object fields) = .ok m) :
    (∃ v, (fields.lookup "messageId").or (fields.lookup "message_id") = some v ∧
      Protocol.decimal v = .string m.messageId) ∧
    (∃ v, (fields.lookup "messageSeq").or (fields.lookup "message_seq") = some v ∧
      v.asU64 = some m.messageSeq) ∧
    Protocol.defaulted {} (fun v => Protocol.readHeader (Protocol.normalize v))
      (fields.lookup "header") = some m.header := by
  obtain ⟨d, hd, -, -, rfl⟩ := Protocol.recv_ok.mp h
  obtain ⟨slot, hslot, hheader, hid, hseq, -⟩ :=
    Protocol.readRecvMessage_eq_some.mp (Protocol.decode_ok.mp hd)
  rw [Protocol.normalize_object, Protocol.slots, Option.some.injEq] at hslot
  subst hslot
  refine ⟨?_, ?_, ?_⟩
  · obtain ⟨v, hv, hstr⟩ := Option.bind_eq_some_iff.mp hid
    dsimp only at hv
    rw [Protocol.lookup_messageId, Protocol.spelled_camel (p := ("message_id", "messageId"))
      (by decide)] at hv
    obtain ⟨u, hu, rfl⟩ := Option.map_eq_some_iff.mp hv
    refine ⟨u, hu, ?_⟩
    cases hdecimal : Protocol.decimal u with
    | string id =>
      rw [hdecimal] at hstr
      exact congrArg Value.string (Option.some.inj hstr)
    | _ =>
      rw [hdecimal] at hstr
      cases hstr
  · obtain ⟨v, hv, hnum⟩ := Option.bind_eq_some_iff.mp hseq
    dsimp only at hv
    rw [Protocol.lookup_other fields (by decide) (by decide),
      Protocol.spelled_camel (p := ("message_seq", "messageSeq")) (by decide)] at hv
    exact ⟨v, hv, hnum⟩
  · dsimp only at hheader
    rw [Protocol.lookup_header] at hheader
    cases hl : fields.lookup "header" with
    | none =>
      rw [hl] at hheader
      exact hheader
    | some v =>
      rw [hl] at hheader
      exact hheader

/-- The frame acknowledges this message: a `recvack` notification with the header, the id
and the sequence number of the message. -/
structure Acknowledges (frame : Value) (m : RecvMessage) : Prop where
  version : frame.strField "jsonrpc" = some "2.0"
  notification : frame.get "id" = none
  method : frame.strField "method" = some "recvack"
  header : ∃ params header, frame.get "params" = some params ∧ params.get "header" = some header ∧
    Protocol.readHeader (Protocol.normalize header) = some m.header
  messageId : ∃ params, frame.get "params" = some params ∧
    params.strField "messageId" = some m.messageId
  messageSeq : ∃ params, frame.get "params" = some params ∧
    params.get "messageSeq" = some (.number (.posInt m.messageSeq))

theorem acknowledges_recvAck (m : RecvMessage) : Acknowledges (Wire.recvAck m).value m where
  version := rfl
  notification := rfl
  method := rfl
  header := ⟨_, _, rfl, rfl, Protocol.readHeader_headerValue m.header⟩
  messageId := ⟨_, rfl, rfl⟩
  messageSeq := ⟨_, rfl, rfl⟩

/-- What counts as the acknowledgement of a message writes it. -/
theorem written_of_ack {e : Effect} {m : RecvMessage} (h : e.receipt = some (.ack m)) :
    ∃ socket wire, e = .write socket wire ∧ Acknowledges wire.value m := by
  unfold Effect.receipt at h
  split at h
  · cases h
  · cases h
  next socket sent =>
    cases h
    exact ⟨socket, _, rfl, acknowledges_recvAck m⟩
  · cases h

/-- A session that is not disturbed stays open. As long as it is open, each text
that delivers a message is followed by that message's event and then by its
acknowledgement, in the order of the frames, and no other frame is; the frame
written carries the header, the id and the sequence number of the message.
Malformed frames inserted anywhere change nothing but the log, and there nothing
but the errors reported. -/
theorem exact_receipts {cfg : Config} {before : List Label} {s : State} {r : RunId}
    (h : Reaches cfg before s) (hin : (s.workers r).phase.inSession = true) :
    (∀ labels t, Run (State.step cfg) (State.Undisturbed cfg r) s labels t →
      Run (State.step cfg) (State.Serving cfg r) s labels t ∧
        t.Holds r (s.workers r).session.socket) ∧
    (∀ labels t, Run (State.step cfg) (State.Serving cfg r) s labels t →
      ∃ seg, t.trace r = s.trace r ++ seg ∧
        receipts seg ++ (t.workers r).phase.due
          = (s.workers r).phase.due ++ debts cfg.codec seg) ∧
    (∀ (e : Effect) m, e.receipt = some (.ack m) →
      ∃ socket wire, e = .write socket wire ∧ Acknowledges wire.value m) ∧
    (∀ labels labels' t, Run (State.step cfg) (State.Serving cfg r) s labels t →
      Padded (State.step cfg) (Litter cfg r) s labels labels' →
      ∃ t', Run (State.step cfg) (State.Serving cfg r) s labels' t' ∧ State.Echoes t t') ∧
    (∀ text m, delivered cfg.codec text = some m ↔
      ∃ v, Protocol.parse cfg.codec text = .ok v ∧ v.strField "id" = none ∧
        v.strField "method" = some "recv" ∧
        Protocol.recv cfg.codec ((v.get "params").getD .null) = .ok m) ∧
    ∀ fields m, Protocol.recv cfg.codec (.object fields) = .ok m →
      (∃ v, (fields.lookup "messageId").or (fields.lookup "message_id") = some v ∧
        Protocol.decimal v = .string m.messageId) ∧
      (∃ v, (fields.lookup "messageSeq").or (fields.lookup "message_seq") = some v ∧
        v.asU64 = some m.messageSeq) ∧
      Protocol.defaulted {} (fun v => Protocol.readHeader (Protocol.normalize v))
        (fields.lookup "header") = some m.header :=
  ⟨fun _ _ hrun => serving_of_undisturbed h ⟨hin, rfl⟩ hrun, fun _ _ hrun => paid_run h hrun,
    fun _ _ he => written_of_ack he, fun _ _ _ hrun hpadded => hpadded.run (unnoticed cfg r) hrun (.refl s),
    fun _ _ => delivered_eq_some, fun _ _ hm => recv_identity hm⟩

/-- `Undisturbed` for a run that is not polled anew and sends nothing, computed. -/
def State.undisturbed (cfg : Config) (r : RunId) (s : State) (l : Label) : Bool :=
  ((s.workers r).phase.writes.all fun wire =>
    decide ((cfg.codec.render wire.value).utf8ByteSize ≤ cfg.options.maxMessageSize)) &&
  (match (s.workers r).phase with
    | .supervise (.session .timer) => false
    | _ => true) &&
  match l with
  | .work _ (.io false) | .work _ (.message .closed) | .work _ .command | .poll _ => false
  | .work _ (.message (.text text)) =>
    match Protocol.parse cfg.codec text with
    | .ok v => (v.strField "id").isNone && v.strField "method" != some "disconnect"
    | .error _ => true
  | _ => true

theorem State.undisturbed_spec (cfg : Config) (r : RunId) (s : State) (l : Label)
    (h : s.undisturbed cfg r l = true) : s.Undisturbed cfg r l := by
  simp only [undisturbed, Bool.and_eq_true] at h
  obtain ⟨⟨hfits, htimer⟩, hl⟩ := h
  refine ⟨?_, fun wire hw => ?_, ?_, ?_, fun hp => ?_, ?_, ?_⟩
  · rintro rfl
    cases hl
  · rw [hw] at hfits
    simpa [Wire.Fits] using hfits
  · rintro rfl
    cases hl
  · rintro text rfl v hv
    dsimp only at hl
    rw [hv] at hl
    simp only [Bool.and_eq_true, Option.isNone_iff_eq_none, bne_iff_ne] at hl
    exact ⟨fun _ => hl.2, fun p _ hp => by simp [hl.1] at hp⟩
  · rw [hp] at htimer
    cases htimer
  · rintro rfl
    cases hl
  · rintro rfl
    cases hl

/-- A message is received, delivered and acknowledged. -/
def notified : List Label :=
  [.work 0 (.message (.text (compact (notice 2)))), .work 0 .go, .work 0 .go, .work 0 (.io true)]

/-- The worker waits for what comes next, with nothing outstanding. -/
def Worker.waits (w : Worker) : Bool :=
  w.polling && w.dropping.isNone && w.session.pending.isEmpty &&
  match w.phase with
  | .supervise (.session .select) => true
  | _ => false

theorem exact_receipts_binary :
    ∃ s t t', Reaches (sample [accepted "u0", notice 2]) opening s ∧
      (∃ seg, t.trace 0 = s.trace 0 ++ seg ∧
        receipts seg ++ (t.workers 0).phase.due
          = (s.workers 0).phase.due ++ debts (sample [accepted "u0", notice 2]).codec seg) ∧
      t.Holds 0 (s.workers 0).session.socket ∧
      Run (State.step (sample [accepted "u0", notice 2]))
        (State.Serving (sample [accepted "u0", notice 2]) 0) s
        (.work 0 (.message .binary) :: (List.replicate 4 (.work 0 .go) ++ notified)) t' ∧
      State.Echoes t t' := by
  obtain ⟨s, t, h, hrun, ho⟩ := runs_of_play (sample [accepted "u0", notice 2])
    (State.undisturbed (sample [accepted "u0", notice 2]) 0) (State.undisturbed_spec _ 0) opening
    notified
    (fun s _ => (s.workers 0).waits) (by decide +kernel)
  simp only [Worker.waits, Bool.and_eq_true, Option.isNone_iff_eq_none, List.isEmpty_iff] at ho
  obtain ⟨⟨⟨hpolling, hdropping⟩, hempty⟩, ho⟩ := ho
  split at ho
  next hphase =>
    have hcalm : Calm s 0 := by
      refine ⟨hphase, hpolling, hdropping, fun p hp => ?_, fun p hp => ?_⟩
      all_goals
        rw [hempty] at hp
        cases hp
    have hin : (s.workers 0).phase.inSession = true := by
      rw [hphase]
      rfl
    obtain ⟨hopen, hpaid, -, hnoise, -⟩ := exact_receipts h hin
    obtain ⟨hserving, hheld⟩ := hopen _ _ hrun
    have hlitter : Litter (sample [accepted "u0", notice 2]) 0 s
        (.work 0 (.message .binary) :: List.replicate 4 (.work 0 .go)) :=
      ⟨hcalm, .binary, .binary, by rw [hempty]; rfl⟩
    obtain ⟨t', hrun', hechoes⟩ := hnoise _ _ _ hserving (.detour hlitter (.refl hserving))
    exact ⟨s, t, t', h, hpaid _ _ hserving, hheld, hrun', hechoes⟩
  next => cases ho

end WukongSdk
