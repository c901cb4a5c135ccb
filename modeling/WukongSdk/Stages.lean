import WukongSdk.Provenance

/-!
# The stages of a run

An abstract machine for what a run goes through, driven by the effects that
tell of it: attempts to authenticate, sessions, losses, and the events emitted.
Every worker follows it. What can be said about the order of events, and about
when a run goes on, is then said about this machine.
-/
namespace WukongSdk

/-- Attempt 0 is the first one; later ones count since the last session. -/
inductive Stage where
  | waiting (attempt : ℕ)
  | dialing (attempt : ℕ)
  | refused (attempt : ℕ) (error : Error)
  | admitted
  | live
  | dropped (error : Error)
  | parted (error : Error)
  | idle (attempts : ℕ)
  | cancelled
  | ended
  deriving DecidableEq

/-- The reason given for the loss of a session. -/
def Error.reason : Error → DisconnectReason
  | .server code => .server code
  | e => if e = .timeout then .heartbeatTimeout else .transport

def Error.isProtocol : Error → Bool
  | .protocol _ => true
  | _ => false

/-- Effects that do not move the stage. -/
def Effect.quiet : Effect → Bool
  | .emit _ | .dial | .authenticated _ | .rejected _ | .lost _ _ | .cancelled => false
  | _ => true

namespace Stage

/-- The stage after one more effect, where `limit` bounds the attempts. -/
def step (limit : ℕ) : Stage → Effect → Option Stage
  | .waiting n, .dial => some (.dialing n)
  | .waiting _, .cancelled => some .cancelled
  | .dialing _, .authenticated _ => some .admitted
  | .dialing n, .rejected e => if e = .reconnectExhausted then none else some (.refused n e)
  | .dialing _, .cancelled => some .cancelled
  | .refused n e, .emit (.error e') =>
    if e' = e then
      if n = 0 ∨ e.isTerminal = true then some .ended else some (.idle n)
    else none
  | .admitted, .emit (.connect _) => some .live
  | .live, .emit (.message _) => some .live
  | .live, .emit (.sendAck _) => some .live
  | .live, .emit (.customEvent _) => some .live
  | .live, .emit (.error e) => if e.isProtocol then some .live else none
  | .live, .lost _ e => if e = .reconnectExhausted then none else some (.dropped e)
  | .live, .cancelled => some .cancelled
  | .dropped e, .emit (.disconnect reason) =>
    if reason = e.reason then
      if e.isServer = true then some .ended else some (.parted e)
    else none
  | .parted e, .emit (.error e') => if e' = e then some (.idle 0) else none
  | .idle n, .emit (.reconnecting n' _) =>
    if n' = n + 1 ∧ n < limit then some (.waiting n') else none
  | .idle n, .emit (.error e) =>
    if e = .reconnectExhausted ∧ limit ≤ n then some .ended else none
  | .cancelled, .emit (.disconnect .manual) => some .ended
  | stage, e => if e.quiet then some stage else none

/-- What one effect can do to the stage. -/
inductive Turn (limit : ℕ) : Stage → Effect → Stage → Prop
  | dial (n) : Turn limit (.waiting n) .dial (.dialing n)
  | waitCancelled (n) : Turn limit (.waiting n) .cancelled .cancelled
  | authenticated (n result) : Turn limit (.dialing n) (.authenticated result) .admitted
  | rejected (n e) (he : e ≠ .reconnectExhausted) :
      Turn limit (.dialing n) (.rejected e) (.refused n e)
  | dialCancelled (n) : Turn limit (.dialing n) .cancelled .cancelled
  | failed (n e) (he : n = 0 ∨ e.isTerminal = true) :
      Turn limit (.refused n e) (.emit (.error e)) .ended
  | spared (n e) (hn : n ≠ 0) (he : e.isTerminal = false) :
      Turn limit (.refused n e) (.emit (.error e)) (.idle n)
  | connect (result) : Turn limit .admitted (.emit (.connect result)) .live
  | message (m) : Turn limit .live (.emit (.message m)) .live
  | sendAck (ack) : Turn limit .live (.emit (.sendAck ack)) .live
  | custom (event) : Turn limit .live (.emit (.customEvent event)) .live
  | garbage (e) (he : e.isProtocol = true) : Turn limit .live (.emit (.error e)) .live
  | lost (k e) (he : e ≠ .reconnectExhausted) : Turn limit .live (.lost k e) (.dropped e)
  | liveCancelled : Turn limit .live .cancelled .cancelled
  | dismissed (e) (he : e.isServer = true) :
      Turn limit (.dropped e) (.emit (.disconnect e.reason)) .ended
  | parted (e) (he : e.isServer = false) :
      Turn limit (.dropped e) (.emit (.disconnect e.reason)) (.parted e)
  | report (e) : Turn limit (.parted e) (.emit (.error e)) (.idle 0)
  | reconnecting (n delay) (hn : n < limit) :
      Turn limit (.idle n) (.emit (.reconnecting (n + 1) delay)) (.waiting (n + 1))
  | exhausted (n) (hn : limit ≤ n) : Turn limit (.idle n) (.emit (.error .reconnectExhausted)) .ended
  | manual : Turn limit .cancelled (.emit (.disconnect .manual)) .ended
  | quiet (stage e) (he : e.quiet = true) : Turn limit stage e stage

theorem turn_of_step {limit : ℕ} {stage stage' : Stage} {e : Effect}
    (h : step limit stage e = some stage') : Turn limit stage e stage' := by
  revert h
  fun_cases step limit stage e <;> grind [Turn]

/-- The trace leads the machine to this stage. -/
abbrev Follows (limit : ℕ) (trace : List Effect) (stage : Stage) : Prop :=
  Run (step limit) (fun _ _ => True) (.waiting 0) trace stage

/-- A session that is being given up was lost, and since then the run has told nothing. -/
theorem Follows.dropped {limit : ℕ} {trace : List Effect} {error : Error}
    (h : Follows limit trace (.dropped error)) :
    ∃ pre k mid, trace = pre ++ .lost k error :: mid ∧ ∀ e ∈ mid, e.quiet = true := by
  generalize hstage : Stage.dropped error = stage at h
  induction h with
  | nil => cases hstage
  | @snoc u v labels e _ _ hs ih =>
    subst hstage
    cases turn_of_step hs with
    | lost k => exact ⟨labels, k, [], rfl, by simp⟩
    | quiet _ _ hq =>
      obtain ⟨pre, k, mid, rfl, hmid⟩ := ih rfl
      refine ⟨pre, k, mid ++ [e], by simp, fun x hx => ?_⟩
      rcases List.mem_append.mp hx with hx | hx
      · exact hmid x hx
      · rwa [List.mem_singleton.mp hx]

end Stage

/-! ## A worker follows the machine -/

namespace Worker

/-- The stage a worker has reached. -/
def stage (w : Worker) : Stage :=
  match w.phase with
  | .supervise p =>
    match p with
    | .top => if w.attempt = 0 then .waiting 0 else .idle (w.attempt - 1)
    | .backoff _ | .sleeping _ => .waiting w.attempt
    | .dialing _ | .opened _ | .hello _ _ | .greeting _ _ | .awaiting _ _ | .flushing _ _ =>
      .dialing w.attempt
    | .bump _ | .raise _ | .ready _ | .first _ | .announce _ => .admitted
    | .begin | .session _ | .lost _ => .live
    | .unwind e | .lower e | .unready e | .sweep e | .swept e _ | .disconnected e => .dropped e
    | .report e => .parted e
    | .failed e => .refused w.attempt e
    | .budget => .idle w.attempt
  | .cancelled | .cancelLower | .manual => .cancelled
  | _ => .ended

/-- The attempt counter is reset by a session, and counts only once there was one. -/
def Paced (limit : ℕ) (w : Worker) : Prop :=
  match w.phase with
  | .supervise p =>
    match p with
    | .top | .backoff _ | .sleeping _ | .dialing _ | .opened _ | .hello _ _ | .greeting _ _
    | .awaiting _ _ | .flushing _ _ | .failed _ =>
      (w.established = true ↔ w.attempt ≠ 0) ∧ w.attempt ≤ limit
    | .budget => w.established = true ∧ w.attempt ≤ limit
    | .lost e => w.established = true ∧ w.attempt = 0 ∧ e ≠ .reconnectExhausted
    | _ => w.established = true ∧ w.attempt = 0
  | _ => True

variable {cfg : Config} {r : RunId} {m : Memory} {w w' : Worker} {i : Input} {e : Effect} {l : Label}

theorem response_terminal {value : Value} {e : Error} (h : Protocol.response value = .error e) :
    e.isTerminal = true := by
  unfold Protocol.response at h
  repeat' split at h
  all_goals cases h
  all_goals rfl

/-- An answer to the authentication request fails it for good. -/
theorem authReply_terminal {codec : Codec} {id text : String} {e : Error}
    (h : authReply codec id text = .error e) : e.isTerminal = true := by
  unfold authReply at h
  cases hp : Protocol.parse codec text with
  | error e' =>
    rw [hp] at h
    cases h
    obtain ⟨_, rfl⟩ := Protocol.parse_malformed hp
    rfl
  | ok value =>
    rw [hp] at h
    simp only [bind, Except.bind] at h
    split at h
    · cases h
      rfl
    · cases hr : Protocol.response value with
      | error e' =>
        rw [hr] at h
        cases h
        exact response_terminal hr
      | ok result =>
        rw [hr] at h
        obtain ⟨_, rfl⟩ := Protocol.decode_malformed h
        rfl

/-- A frame ends a session only with an error of the server or of the protocol. -/
theorem react_fail {s : Session} {codec : Codec} {text : String} {e : Error}
    (h : s.react codec text = .fail e) : e.isTerminal = true := by
  unfold Session.react at h
  split at h
  · cases h
  · split at h
    · unfold Session.reactAnswer at h
      split at h
      · split at h
        next e he =>
          cases h
          exact response_terminal he
        · cases h
      · split at h <;> cases h
    · unfold Session.reactNotice at h
      split at h
      · split at h <;> cases h
      · split at h <;> cases h
      · cases h
        rfl
      all_goals cases h
    · cases h

attribute [local grind] Paced stage
attribute [local grind =] Error.isTerminal
attribute [local grind →] react_fail authReply_terminal

theorem next_paced (h : Access cfg r m w i w' e)
    (hw : w.Paced cfg.options.maxReconnectAttempts) : w'.Paced cfg.options.maxReconnectAttempts := by
  cases h
  all_goals grind -linarith

attribute [local grind =] Stage.step Effect.quiet Error.reason Error.isServer Error.isProtocol
attribute [local grind] Phase.relaying

theorem live_relayed {limit : ℕ} {event : Event} (h : event.Relayed) :
    Stage.step limit .live (.emit event) = some .live := by
  rcases h with ⟨_, ⟨_, rfl⟩, rfl⟩ | ⟨_, rfl⟩ <;> rfl

theorem next_stage (h : Access cfg r m w i w' e)
    (hw : w.Paced cfg.options.maxReconnectAttempts)
    (hr : ∀ event, w.phase.relaying = some event → event.Relayed) :
    Stage.step cfg.options.maxReconnectAttempts w.stage e = some w'.stage := by
  cases h
  case emit hq => simpa [stage, hq] using live_relayed (hr _ (by rw [hq]; rfl))
  case disconnected error _ _ hq hs hreason => cases error <;> grind -linarith
  all_goals simp only [stage, goto, goSupervise, goSession, put, undrop, discard, settled, lose,
    setAttempt, *]
  all_goals first | rfl | grind -linarith

theorem next_polling (h : Access cfg r m w i w' e) : w'.polling = w.polling := by
  cases h
  all_goals grind -linarith

/-- A task that is not being polled awaits, or was never polled, or is over. -/
def Resting (w : Worker) : Prop :=
  w.polling = false →
    awaits w.phase = true ∨ (w.phase = .supervise .top ∧ w.attempt = 0) ∨ w.phase = .over

theorem Moves.resting (h : w.Moves cfg r m l w' e) : w'.Resting := by
  intro hasleep
  cases h with
  | next hp h =>
    rw [next_polling h, hp] at hasleep
    cases hasleep
  | wake hp hq hc | cancel hp hq hc | resume hp hq => cases hasleep
  | suspend hp hd ha => exact .inl ha

/-- A task is cancelled while it waits, dials or holds a session. -/
theorem stage_of_resting {limit : ℕ} (h : w.Resting) (hp : w.polling = false) {p : SupervisePhase}
    (hq : w.phase = .supervise p) : Stage.step limit w.stage .cancelled = some .cancelled := by
  rcases h hp with ha | ⟨htop, h0⟩ | hover
  · cases awaiting_of_awaits ha with
    | drain he => cases hq.symm.trans he
    | _ =>
      clear hq
      simp [stage, *, Stage.step]
  · simp [stage, htop, h0, Stage.step]
  · rw [hover] at hq
    cases hq

theorem Moves.stage (h : w.Moves cfg r m l w' e) (hw : w.Paced cfg.options.maxReconnectAttempts)
    (hs : w.Resting) (hr : ∀ event, w.phase.relaying = some event → event.Relayed) :
    Stage.step cfg.options.maxReconnectAttempts w.stage e = some w'.stage := by
  have still : Stage.step cfg.options.maxReconnectAttempts w.stage .skip = some w.stage := by
    cases hstage : w.stage <;> rfl
  cases h with
  | next hp h => exact next_stage h hw hr
  | wake hp hq hc | resume hp hq => exact still
  | cancel hp hq hc => exact stage_of_resting hs hp hq
  | suspend hp hd ha => exact still

theorem Moves.paced (h : w.Moves cfg r m l w' e) (hw : w.Paced cfg.options.maxReconnectAttempts) :
    w'.Paced cfg.options.maxReconnectAttempts := by
  cases h with
  | next hp h => exact next_paced h hw
  | wake hp hq hc | resume hp hq => exact hw
  | cancel hp hq hc => trivial
  | suspend hp hd ha => exact hw

end Worker

/-- Every worker is paced and follows the machine. -/
structure Staged (cfg : Config) (s : State) : Prop where
  paced : ∀ r, (s.workers r).Paced cfg.options.maxReconnectAttempts
  resting : ∀ r, (s.workers r).Resting
  follows : ∀ r : ℕ, r < s.mem.started →
    Stage.Follows cfg.options.maxReconnectAttempts (s.trace r) (s.workers r).stage

namespace Staged

variable {cfg : Config} {s t : State} {c : CallId} {i : CallInput} {k : Call} {a : Act} {r : RunId}
  {w : Worker} {e : Effect} {l : Label}

theorem worked (h : Staged cfg s) (ha : Attested cfg s)
    (hx : (s.workers r).Moves cfg r s.mem l w e) : Staged cfg (s.worked r w e) := by
  refine ⟨fun r' => ?_, fun r' => ?_, fun r' hr' => ?_⟩
  all_goals
    rw [State.worked_workers]
    by_cases hr : r' = r
  · subst hr
    rw [Function.update_self]
    exact hx.paced (h.paced r')
  · rw [Function.update_of_ne hr]
    exact h.paced r'
  · subst hr
    rw [Function.update_self]
    exact hx.resting
  · rw [Function.update_of_ne hr]
    exact h.resting r'
  · subst hr
    rw [Function.update_self, State.trace_worked, if_pos rfl]
    exact (h.follows r' (by simpa using hr')).snoc trivial
      (hx.stage (h.paced r') (h.resting r') (ha.relaying r'))
  · rw [Function.update_of_ne hr, State.trace_worked, if_neg hr]
    exact h.follows r' (by simpa using hr')

theorem served (h : Staged cfg s) (hl : Lifecycle s) : Staged cfg (s.served c k a) := by
  have spawned : ∀ r, s.spawnWorker a r = s.workers r ∨ s.spawnWorker a r = .spawned := fun r =>
    (s.spawnWorker_cases r a).imp_right fun hw => hw.2.2
  refine ⟨fun r => ?_, fun r => ?_, fun r hr => ?_⟩
  · rcases spawned r with hw | hw <;> rw [State.served_workers, hw]
    · exact h.paced r
    · exact ⟨by simp [Worker.spawned], Nat.zero_le _⟩
  · rcases spawned r with hw | hw <;> rw [State.served_workers, hw]
    · exact h.resting r
    · exact fun _ => .inr (.inl ⟨rfl, rfl⟩)
  · rw [State.trace_served]
    rcases s.served_run c k a hr with ⟨hlt, hw⟩ | ⟨-, rfl, hw⟩ <;> rw [hw]
    · exact h.follows r hlt
    · rw [(hl.fresh _ le_rfl).2.2]
      exact .nil _

theorem of_reaches {labels : List Label} (h : Reaches cfg labels s) : Staged cfg s := by
  refine h.invariant_along (I := Staged cfg) ⟨fun _ => trivial, fun _ _ => .inr (.inr rfl), nofun⟩
    fun _ s l t hr hi _ hs => ?_
  cases State.step_cases hs with
  | tick d => exact ⟨hi.paced, hi.resting, hi.follows⟩
  | begin op hh => exact ⟨hi.paced, hi.resting, hi.follows⟩
  | call hx => exact hi.served (.of_reaches hr)
  | worker hx => exact hi.worked (.of_reaches hr) hx
  | dropClient _ _ =>
    exact ⟨hi.paced, hi.resting, by simpa [s.clientDropped_mem] using hi.follows⟩

end Staged

end WukongSdk
