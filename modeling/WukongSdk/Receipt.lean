import WukongSdk.Detour
import WukongSdk.FrameSize
import WukongSdk.Reconnect

/-!
# Receipts

What a session owes for a frame: for a text that delivers a message, an event
and then an acknowledgement, and nothing for any other frame. A session that is
not disturbed pays every debt in the order of the frames, and stays open.
-/
namespace WukongSdk

/-- What the peer and the user see of a received message. -/
inductive Receipt where
  | arrived (frame : Incoming)
  | message (message : RecvMessage)
  | ack (message : RecvMessage)

/-- What is owed for a frame. -/
def owed (codec : Codec) : Incoming → List Receipt
  | .text text => (delivered codec text).elim [] fun m => [.message m, .ack m]
  | _ => []

/-- The frame an access takes from the socket. -/
def Effect.arrival : Effect → Option Incoming
  | .receive _ frame => some frame
  | _ => none

def Effect.receipt : Effect → Option Receipt
  | .receive _ frame => some (.arrived frame)
  | .emit (.message m) => some (.message m)
  | .write _ (.recvAck m) => some (.ack m)
  | _ => none

/-- What a phase still owes for the last frame. -/
def Phase.due : Phase → List Receipt
  | .supervise (.session (.deliver m)) => [.message m, .ack m]
  | .supervise (.session (.recvAck m)) => [.ack m]
  | _ => []

/-- What a reaction leaves to be done for the frame. -/
def Reaction.due : Reaction → List Receipt
  | .deliver m => [.message m, .ack m]
  | _ => []

/-- The frame a phase is about to write. -/
def Phase.writes : Phase → Option Wire
  | .supervise (.session (.ping id)) => some (.ping id)
  | .supervise (.session (.insert cmd)) => some (.send cmd)
  | .supervise (.session (.recvAck m)) => some (.recvAck m)
  | _ => none

/-- The text neither disconnects nor fails the outstanding ping. -/
def Harmless (codec : Codec) (s : Session) (text : String) : Prop :=
  ∀ v, Protocol.parse codec text = .ok v →
    (v.strField "id" = none → v.strField "method" ≠ some "disconnect") ∧
    ∀ p, s.ping = some p → v.strField "id" = some p.1 → ∃ result, Protocol.response v = .ok result

/-- The step does not disturb the session of run `r`: writes succeed, the socket
stays open, no text is harmful, the heartbeat's deadline is not reached, and
nobody cancels the run or leaves it without senders. -/
structure State.Undisturbed (cfg : Config) (r : RunId) (s : State) (l : Label) : Prop where
  written : l ≠ .work r (.io false)
  fits : ∀ wire, (s.workers r).phase.writes = some wire → wire.Fits cfg
  socket : l ≠ .work r (.message .closed)
  harmless : ∀ text, l = .work r (.message (.text text)) →
    Harmless cfg.codec (s.workers r).session text
  heartbeat : (s.workers r).phase = .supervise (.session .timer) →
    ∀ p, (s.workers r).session.ping = some p → s.mem.clock < p.2
  cancel : l = .poll r → (s.mem.cells r).cancelled = false
  senders : l = .work r .command →
    (s.mem.cells r).commands ≠ [] ∨ s.mem.running = some r

/-- The session of run `r` is open, and the frame it is about to write fits. -/
structure State.Serving (cfg : Config) (r : RunId) (s : State) (_ : Label) : Prop where
  inSession : (s.workers r).phase.inSession = true
  fits : ∀ wire, (s.workers r).phase.writes = some wire → wire.Fits cfg

/-- A harmless text does not end its session. -/
theorem not_fail_of_harmless {codec : Codec} {s : Session} {text : String} {e : Error}
    (h : Harmless codec s text) : s.react codec text ≠ .fail e := by
  intro hr
  cases hv : Protocol.parse codec text with
  | error e => simp [Session.react, hv] at hr
  | ok v =>
    obtain ⟨hdisconnect, hping⟩ := h v hv
    cases hid : v.strField "id" with
    | some id =>
      rw [react_response hv hid, Session.reactAnswer] at hr
      split at hr
      next hany =>
        obtain ⟨p, hp, heq⟩ := (Option.any_eq_true _ _).mp hany
        obtain ⟨result, hok⟩ := hping p hp (by rw [hid, of_decide_eq_true heq])
        rw [hok] at hr
        cases hr
      next => split at hr <;> cases hr
    | none =>
      cases hname : v.strField "method" with
      | none => simp [Session.react, hv, hid, hname] at hr
      | some name =>
        rw [react_notice hv hid hname, Session.reactNotice.eq_def] at hr
        split at hr
        · split at hr <;> cases hr
        · split at hr <;> cases hr
        · exact hdisconnect hid hname
        all_goals cases hr

/-- What an access adds to the debts. -/
def Effect.debt (codec : Codec) (e : Effect) : List Receipt :=
  e.arrival.elim [] fun frame => .arrived frame :: owed codec frame

namespace Worker

variable {cfg : Config} {r : RunId} {m : Memory} {w w' : Worker} {i : Input} {e : Effect} {l : Label}

attribute [local grind] Phase.inSession Phase.writes Wire.Fits

/-- An undisturbed session stays open. -/
theorem next_inSession (h : Access cfg r m w i w' e) (hin : w.phase.inSession = true)
    (hio : i ≠ .io false) (hfits : ∀ wire, w.phase.writes = some wire → wire.Fits cfg)
    (hsocket : i ≠ .message .closed)
    (hharmless : ∀ text e, i = .message (.text text) → w.session.react cfg.codec text ≠ .fail e)
    (hbeat : w.phase = .supervise (.session .timer) → ∀ p, w.session.ping = some p → m.clock < p.2)
    (hsenders : i = .command → (m.cells r).commands ≠ [] ∨ m.running = some r) :
    w'.phase.inSession = true ∧ w'.session.socket = w.session.socket := by
  cases h
  case pingTooLarge hd hp hl => exact absurd (hfits _ (by rw [hp]; rfl)) (not_le.mpr hl)
  case insertTooLarge hd hp _ hl => exact absurd (hfits _ (by rw [hp]; rfl)) (not_le.mpr hl)
  case recvAckTooLarge hd hp hl => exact absurd (hfits _ (by rw [hp]; rfl)) (not_le.mpr hl)
  all_goals grind -linarith

attribute [local grind] Phase.due Reaction.due Phase.relaying Effect.receipt Effect.arrival
  Effect.debt
attribute [local grind =] owed

theorem receipt_of_relayed {event : Event} (h : event.Relayed) :
    (Effect.emit event).receipt = none := by
  rcases h with ⟨_, -, rfl⟩ | ⟨_, rfl⟩ <;> rfl

/-- What is owed for a text is what the session makes of it. -/
theorem owed_of_react {codec : Codec} {s : Session} {text : String} {reaction : Reaction}
    (h : s.react codec text = reaction) : owed codec (.text text) = reaction.due := by
  rw [owed]
  cases hd : delivered codec text with
  | some m =>
    rw [react_deliver.mpr hd] at h
    rw [← h]
    rfl
  | none =>
    cases reaction with
    | deliver m =>
      rw [react_deliver.mp h] at hd
      cases hd
    | _ => rfl

/-- Every access pays what is due, or adds to it what is owed for a frame. -/
theorem next_receipts (h : Access cfg r m w i w' e) (hin : w.phase.inSession = true)
    (hfits : ∀ wire, w.phase.writes = some wire → wire.Fits cfg)
    (hr : ∀ event, w.phase.relaying = some event → event.Relayed) :
    e.receipt.toList ++ w'.phase.due = w.phase.due ++ e.debt cfg.codec := by
  cases h
  case heardEvent hr | heardPong hr | heardAck hr | heardError hr | heardRecv hr | heardOther hr
      | heardFail hr =>
    have howed := owed_of_react hr
    grind -linarith
  case recvAckTooLarge hd hp hl => exact absurd (hfits _ (by rw [hp]; rfl)) (not_le.mpr hl)
  case emit => grind -linarith [receipt_of_relayed]
  all_goals grind -linarith

end Worker

/-- The receipts of a trace, and what its frames call for. -/
def receipts (trace : List Effect) : List Receipt := trace.filterMap Effect.receipt

def debts (codec : Codec) (trace : List Effect) : List Receipt := trace.flatMap (Effect.debt codec)

section

variable {cfg : Config} {s t : State} {r : RunId} {labels labels' : List Label} {l : Label}

/-- The frames the session of run `r` has taken between two states are paid for,
but for what is still due. -/
def Paid (codec : Codec) (r : RunId) (s t : State) : Prop :=
  ∃ seg, t.trace r = s.trace r ++ seg ∧
    receipts seg ++ (t.workers r).phase.due = (s.workers r).phase.due ++ debts codec seg

theorem Paid.still {codec : Codec} (ht : t.trace r = s.trace r) (hw : t.workers r = s.workers r) :
    Paid codec r s t := by
  refine ⟨[], by simp [ht], ?_⟩
  simp [hw, receipts, debts]

theorem Paid.trans {codec : Codec} {u : State} (h : Paid codec r s t) (h' : Paid codec r t u) :
    Paid codec r s u := by
  obtain ⟨seg, htrace, hpaid⟩ := h
  obtain ⟨seg', htrace', hpaid'⟩ := h'
  refine ⟨seg ++ seg', by rw [htrace', htrace, List.append_assoc], ?_⟩
  calc receipts (seg ++ seg') ++ (u.workers r).phase.due
      = receipts seg ++ (receipts seg' ++ (u.workers r).phase.due) := by
        rw [receipts, List.filterMap_append, List.append_assoc, receipts, receipts]
    _ = (receipts seg ++ (t.workers r).phase.due) ++ debts codec seg' := by
        rw [hpaid', List.append_assoc]
    _ = (s.workers r).phase.due ++ debts codec (seg ++ seg') := by
        rw [hpaid, List.append_assoc, debts, debts, debts, List.flatMap_append]

/-- Nothing is due where a worker awaits. -/
theorem Worker.due_of_resting {w : Worker} (h : w.Resting) (hp : w.polling = false) :
    w.phase.due = [] := by
  rcases h hp with ha | ⟨htop, -⟩ | hover
  · cases Worker.awaiting_of_awaits ha
    all_goals simp [Phase.due, *]
  · rw [htop]
    rfl
  · rw [hover]
    rfl

/-- A serving session pays its debts, also with the step that ends it. -/
theorem paid_step (h : Reaches cfg labels s) (hok : s.Serving cfg r l)
    (hs : s.step cfg l = some t) : Paid cfg.codec r s t := by
  cases State.step_cases hs with
  | tick d => exact .still rfl rfl
  | begin op hh => exact .still rfl rfl
  | @call c i k a hx =>
    rcases s.spawnWorker_cases r a with hw | ⟨-, rfl, -⟩
    · exact .still rfl hw
    · have hin := hok.inSession
      rw [((Lifecycle.of_reaches h).fresh _ le_rfl).1] at hin
      cases hin
  | @worker r' l w e hx =>
    by_cases hr : r = r'
    · subst hr
      refine ⟨[e], by rw [State.trace_worked, if_pos rfl], ?_⟩
      have hsingle : receipts [e] = e.receipt.toList := by
        cases he : e.receipt <;> simp [receipts, he]
      rw [State.worked_workers, Function.update_self, hsingle, debts, List.flatMap_singleton]
      cases hx with
      | next hp hn =>
        exact Worker.next_receipts hn hok.inSession hok.fits ((Attested.of_reaches h).relaying r)
      | wake hp hq hc | resume hp hq => exact (List.append_nil _).symm
      | suspend hp hd ha => exact (List.append_nil _).symm
      | cancel hp hq hc =>
        rw [Worker.due_of_resting ((Staged.of_reaches h).resting r) hp]
        rfl
    · exact .still (by rw [State.trace_worked, if_neg hr]) (Function.update_of_ne hr _ _)
  | dropClient _ _ => exact .still rfl rfl

theorem paid_run (h : Reaches cfg labels s)
    (hrun : Run (State.step cfg) (State.Serving cfg r) s labels' t) : Paid cfg.codec r s t := by
  refine hrun.invariant_along (I := Paid cfg.codec r s) (.still rfl rfl)
    fun ls t l u htrun hpaid hok hs => ?_
  have hreach : Reaches cfg (labels ++ ls) t := h.append (htrun.weaken fun _ _ _ => trivial)
  exact hpaid.trans (paid_step hreach hok hs)

/-- The session of run `r` is open, on the given socket. -/
def State.Holds (s : State) (r : RunId) (socket : ℕ) : Prop :=
  (s.workers r).phase.inSession = true ∧ (s.workers r).session.socket = socket

theorem State.Holds.of_eq {n : ℕ} (h : s.Holds r n) (hw : t.workers r = s.workers r) :
    t.Holds r n := by
  rw [State.Holds, hw]
  exact h

/-- A step that does not disturb the session leaves it open. -/
theorem holds_step {n : ℕ} (h : Reaches cfg labels s) (hok : s.Undisturbed cfg r l)
    (hs : s.step cfg l = some t) (hin : s.Holds r n) : t.Holds r n := by
  cases State.step_cases hs with
  | tick d => exact hin
  | begin op hh => exact hin
  | @call c i k a hx =>
    rcases s.spawnWorker_cases r a with hw | ⟨-, rfl, -⟩
    · exact hin.of_eq hw
    · have hopen := hin.1
      rw [((Lifecycle.of_reaches h).fresh _ le_rfl).1] at hopen
      cases hopen
  | @worker r' l w e hx =>
    by_cases hr : r = r'
    · subst hr
      rw [State.Holds, State.worked_workers, Function.update_self, ← hin.2]
      cases hx with
      | next hp hn =>
        refine Worker.next_inSession hn hin.1 ?_ hok.fits ?_ ?_ hok.heartbeat ?_
        · rintro rfl
          exact hok.written rfl
        · rintro rfl
          exact hok.socket rfl
        · rintro text error rfl
          exact not_fail_of_harmless (hok.harmless text rfl)
        · rintro rfl
          exact hok.senders rfl
      | wake hp hq hc | resume hp hq => exact ⟨hin.1, rfl⟩
      | suspend hp hd ha => exact ⟨hin.1, rfl⟩
      | cancel hp hq hc =>
        rw [hok.cancel rfl] at hc
        cases hc
    · exact hin.of_eq (Function.update_of_ne hr _ _)
  | dropClient _ _ => exact hin

/-- A session that is never disturbed serves all along. -/
theorem serving_of_undisturbed {n : ℕ} (h : Reaches cfg labels s) (hin : s.Holds r n)
    (hrun : Run (State.step cfg) (State.Undisturbed cfg r) s labels' t) :
    Run (State.step cfg) (State.Serving cfg r) s labels' t ∧ t.Holds r n := by
  induction hrun with
  | nil => exact ⟨.nil _, hin⟩
  | snoc hrun hok hs ih =>
    obtain ⟨hserving, hheld⟩ := ih
    have hreach := h.append (hrun.weaken fun _ _ _ => trivial)
    exact ⟨hserving.snoc ⟨hheld.1, hok.fits⟩ hs, holds_step hreach hok hs hheld⟩

end

end WukongSdk
