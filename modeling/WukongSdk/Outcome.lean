import WukongSdk.Reconnect

/-!
# Where the outcome of a connect comes from

What a call to `connect` returns was caused: a success by a reply to a login of
the run it waited for, an error by what ended that run or by the state of the
client. The cause is in the trace of the run and in the labels.
-/
namespace WukongSdk

/-- The result a phase is about to publish. -/
def Phase.publishing : Phase → Option ConnectResult
  | .supervise (.bump result) | .supervise (.raise result) | .supervise (.ready result)
  | .supervise (.first result) | .supervise (.announce result) => some result
  | _ => none

/-- The result an access publishes. -/
def Effect.grants : Effect → Option ConnectResult
  | .setStatus (.ready result) | .setFirst (.ok result) | .emit (.connect result) => some result
  | _ => none

/-- The request id a phase awaits the reply to. -/
def Phase.greeting : Phase → Option String
  | .supervise (.greeting _ id) | .supervise (.awaiting _ id) | .supervise (.flushing _ id) => some id
  | _ => none

/-- The error for which a session was lost, as long as it decides what follows. -/
def Phase.losing : Phase → Option Error
  | .supervise (.unwind e) | .supervise (.lower e) | .supervise (.unready e) | .supervise (.sweep e)
  | .supervise (.swept e _) | .supervise (.disconnected e) => some e
  | _ => none

/-- The error of a failed attempt. -/
def Phase.refused : Phase → Option Error
  | .supervise (.failed e) => some e
  | _ => none

/-- The run is on its way out by cancellation. -/
def Phase.torn : Phase → Bool
  | .cancelled | .cancelLower | .manual => true
  | _ => false

/-- The error a run is about to publish. -/
def Phase.blaming : Phase → Option Error
  | .lower e | .first e | .status e => some e
  | _ => none

/-- The error an access publishes. -/
def Effect.blames : Effect → Option Error
  | .setStatus (.failed e) | .setFirst (.error e) => some e
  | _ => none

namespace Worker

variable {cfg : Config} {r : RunId} {m : Memory} {w w' : Worker} {i : Input} {e : Effect} {l : Label}

/-- A step that publishes results as its phase holds them. -/
structure Carries (cfg : Config) (w w' : Worker) (e : Effect) : Prop where
  publishing : ∀ result, w'.phase.publishing = some result →
    w.phase.publishing = some result ∨ e = .authenticated result
  grants : ∀ result, e.grants = some result → w.phase.publishing = some result
  greeting : ∀ id, w'.phase.greeting = some id → w.phase.greeting = some id ∨
    ∃ timestamp, e = .login (Protocol.connect cfg.auth timestamp id)
  losing : ∀ error, w'.phase.losing = some error → w.phase.losing = some error ∨
    ∃ k, e = .lost k error
  refused : ∀ error, w'.phase.refused = some error → w.phase.refused = some error ∨ e = .rejected error
  torn : w'.phase.torn = true → w.phase.torn = true ∨ e = .cancelled
  blaming : ∀ error, w'.phase.blaming = some error → w.phase.blaming = some error ∨
    (w.phase.torn = true ∧ error = .disconnected) ∨ w.phase.refused = some error ∨
    (w.phase.losing = some error ∧ error.isServer = true) ∨
    (error = .reconnectExhausted ∧ e = .emit (.error .reconnectExhausted))
  blames : ∀ error, e.blames = some error → w.phase.blaming = some error

attribute [local grind] Phase.publishing Effect.grants Phase.greeting Phase.losing Phase.refused
  Phase.torn Phase.blaming Effect.blames Phase.relaying
attribute [local grind =] Error.isServer

theorem grants_of_relayed {event : Event} (h : event.Relayed) :
    (Effect.emit event).grants = none := by
  rcases h with ⟨_, -, rfl⟩ | ⟨_, rfl⟩ <;> rfl

theorem next_carries (h : Access cfg r m w i w' e)
    (hr : ∀ event, w.phase.relaying = some event → event.Relayed) : Carries cfg w w' e := by
  cases h
  case emit => constructor <;> grind -linarith [grants_of_relayed]
  case lost error hd hp =>
    refine ⟨?_, ?_, ?_, fun _ hl => .inr ⟨w.session.socket, ?_⟩, ?_, ?_, ?_, ?_⟩
    all_goals grind -linarith
  all_goals constructor <;> grind -linarith

theorem Carries.still (h : w'.phase = w.phase) : Carries cfg w w' .skip where
  publishing result hq := .inl (h ▸ hq)
  grants result hq := by cases hq
  greeting id hq := .inl (h ▸ hq)
  losing error hq := .inl (h ▸ hq)
  refused error hq := .inl (h ▸ hq)
  torn hq := .inl (h ▸ hq)
  blaming error hq := .inl (h ▸ hq)
  blames error hq := by cases hq

theorem Moves.carries (h : w.Moves cfg r m l w' e)
    (hr : ∀ event, w.phase.relaying = some event → event.Relayed) : Carries cfg w w' e := by
  cases h with
  | next hp h => exact next_carries h hr
  | wake hp hq hc | resume hp hq => exact .still rfl
  | cancel hp hq hc =>
    exact
      { publishing := by rintro _ ⟨⟩, grants := by rintro _ ⟨⟩, greeting := by rintro _ ⟨⟩,
        losing := by rintro _ ⟨⟩, refused := by rintro _ ⟨⟩, torn := fun _ => .inr rfl,
        blaming := by rintro _ ⟨⟩, blames := by rintro _ ⟨⟩ }
  | suspend hp hd ha => exact .still rfl

theorem next_authenticated {result : ConnectResult}
    (h : Access cfg r m w i w' (.authenticated result)) :
    ∃ deadline id text, w.phase = .supervise (.awaiting deadline id) ∧
      i = .message (.text text) ∧ authReply cfg.codec id text = .ok result := by
  cases h
  all_goals grind -linarith

end Worker

/-- What can make a run fail: its cancellation, a refused attempt, a session the server
ended, or the last of its attempts. -/
def Cause (trace : List Effect) (error : Error) : Prop :=
  (error = .disconnected ∧ .cancelled ∈ trace) ∨ .rejected error ∈ trace ∨
  (error.isServer = true ∧ ∃ k, .lost k error ∈ trace) ∨
  (error = .reconnectExhausted ∧ .emit (.error .reconnectExhausted) ∈ trace)

theorem Cause.mono {trace trace' : List Effect} {error : Error} (h : Cause trace error)
    (hsub : trace ⊆ trace') : Cause trace' error := by
  rcases h with ⟨heq, hmem⟩ | hmem | ⟨heq, k, hmem⟩ | ⟨heq, hmem⟩
  · exact .inl ⟨heq, hsub hmem⟩
  · exact .inr (.inl (hsub hmem))
  · exact .inr (.inr (.inl ⟨heq, k, hsub hmem⟩))
  · exact .inr (.inr (.inr ⟨heq, hsub hmem⟩))

theorem Cause.snoc {trace : List Effect} {error : Error} (h : Cause trace error) (e : Effect) :
    Cause (trace ++ [e]) error := h.mono (List.subset_append_left _ _)

/-- What a run has published, or is about to, has its cause in the trace. -/
structure Grounded (cfg : Config) (trace : List Effect) (w : Worker) : Prop where
  publishing : ∀ result, w.phase.publishing = some result → .authenticated result ∈ trace
  grants : ∀ e ∈ trace, ∀ result, e.grants = some result → .authenticated result ∈ trace
  greeting : ∀ id, w.phase.greeting = some id →
    ∃ timestamp, .login (Protocol.connect cfg.auth timestamp id) ∈ trace
  losing : ∀ error, w.phase.losing = some error → ∃ k, .lost k error ∈ trace
  refused : ∀ error, w.phase.refused = some error → .rejected error ∈ trace
  torn : w.phase.torn = true → .cancelled ∈ trace
  blaming : ∀ error, w.phase.blaming = some error → Cause trace error
  blames : ∀ e ∈ trace, ∀ error, e.blames = some error → Cause trace error

namespace Grounded

variable {cfg : Config} {trace : List Effect} {w w' : Worker} {e : Effect}

theorem fresh (hp : w.phase = .over ∨ w.phase = .supervise .top) : Grounded cfg [] w := by
  rcases hp with hp | hp
  all_goals
    exact
      { publishing := by rw [hp]; rintro _ ⟨⟩, grants := by rintro _ ⟨⟩,
        greeting := by rw [hp]; rintro _ ⟨⟩, losing := by rw [hp]; rintro _ ⟨⟩,
        refused := by rw [hp]; rintro _ ⟨⟩, torn := by rw [hp]; rintro ⟨⟩,
        blaming := by rw [hp]; rintro _ ⟨⟩, blames := by rintro _ ⟨⟩ }

theorem cause (h : Grounded cfg trace w) (hx : Worker.Carries cfg w w' e) {error : Error}
    (hb : w'.phase.blaming = some error) : Cause (trace ++ [e]) error := by
  rcases hx.blaming error hb with hold | ⟨ht, rfl⟩ | hrefused | ⟨hlost, hserver⟩ | ⟨rfl, rfl⟩
  · exact (h.blaming error hold).snoc e
  · exact .inl ⟨rfl, List.mem_append_left _ (h.torn ht)⟩
  · exact .inr (.inl (List.mem_append_left _ (h.refused error hrefused)))
  · obtain ⟨k, hmem⟩ := h.losing error hlost
    exact .inr (.inr (.inl ⟨hserver, k, List.mem_append_left _ hmem⟩))
  · exact .inr (.inr (.inr ⟨rfl, List.mem_append_right _ (List.mem_singleton_self _)⟩))

theorem snoc (h : Grounded cfg trace w) (hx : Worker.Carries cfg w w' e) :
    Grounded cfg (trace ++ [e]) w' := by
  have last : e ∈ trace ++ [e] := List.mem_append_right _ (List.mem_singleton_self _)
  have old : ∀ {x : Effect}, x ∈ trace → x ∈ trace ++ [e] := fun hx => List.mem_append_left _ hx
  refine ⟨fun result hq => ?_, fun x hmem result hq => ?_, fun id hq => ?_, fun error hq => ?_,
    fun error hq => ?_, fun hq => ?_, fun error hq => h.cause hx hq, fun x hmem error hq => ?_⟩
  · rcases hx.publishing result hq with hold | rfl
    · exact old (h.publishing result hold)
    · exact last
  · rcases List.mem_append.mp hmem with hmem | hmem
    · exact old (h.grants x hmem result hq)
    · obtain rfl := List.mem_singleton.mp hmem
      exact old (h.publishing result (hx.grants result hq))
  · rcases hx.greeting id hq with hold | ⟨timestamp, rfl⟩
    · obtain ⟨timestamp, hmem⟩ := h.greeting id hold
      exact ⟨timestamp, old hmem⟩
    · exact ⟨timestamp, last⟩
  · rcases hx.losing error hq with hold | ⟨k, rfl⟩
    · obtain ⟨k, hmem⟩ := h.losing error hold
      exact ⟨k, old hmem⟩
    · exact ⟨k, last⟩
  · rcases hx.refused error hq with hold | rfl
    · exact old (h.refused error hold)
    · exact last
  · rcases hx.torn hq with hold | rfl
    · exact old (h.torn hold)
    · exact last
  · rcases List.mem_append.mp hmem with hmem | hmem
    · exact (h.blames x hmem error hq).snoc e
    · obtain rfl := List.mem_singleton.mp hmem
      exact (h.blaming error (hx.blames error hq)).snoc x

end Grounded

theorem grounded_of_reaches {cfg : Config} {labels : List Label} {s : State}
    (h : Reaches cfg labels s) (r : RunId) : Grounded cfg (s.trace r) (s.workers r) := by
  refine h.invariant_along (I := fun s => ∀ r, Grounded cfg (s.trace r) (s.workers r))
    (fun r => .fresh (.inl rfl)) ?_ r
  intro _ s l t hreach hi _ hs r
  cases State.step_cases hs with
  | tick d => exact hi r
  | begin op hh => exact hi r
  | @call c i k a hx =>
    rw [State.served_workers, State.trace_served]
    rcases s.spawnWorker_cases r a with hw | ⟨-, rfl, hw⟩
    · rw [hw]
      exact hi r
    · rw [hw, ((Lifecycle.of_reaches hreach).fresh _ le_rfl).2.2]
      exact .fresh (.inr rfl)
  | @worker r' l w e hx =>
    rw [State.worked_workers, State.trace_worked]
    by_cases hr : r = r'
    · subst hr
      rw [if_pos rfl, Function.update_self]
      exact (hi r).snoc (hx.carries ((Attested.of_reaches hreach).relaying r))
    · rw [if_neg hr, Function.update_of_ne hr]
      exact hi r
  | dropClient _ _ => exact hi r

/-- Run `r` has read `result` from a text frame that answers a login of its own. -/
def Granted (cfg : Config) (labels : List Label) (r : RunId) (result : ConnectResult) : Prop :=
  ∃ before text after u deadline id timestamp,
    labels = before ++ .work r (.message (.text text)) :: after ∧ Reaches cfg before u ∧
      (u.workers r).phase = .supervise (.awaiting deadline id) ∧
      .login (Protocol.connect cfg.auth timestamp id) ∈ u.trace r ∧
      Worker.authReply cfg.codec id text = .ok result

theorem granted_of_authenticated {cfg : Config} {labels : List Label} {s : State} {r : RunId}
    {result : ConnectResult} (h : Reaches cfg labels s) (hr : .authenticated result ∈ s.trace r) :
    Granted cfg labels r result := by
  obtain ⟨before, l, after, u, v, rfl, hu, hnot, hs, hv, -⟩ :=
    h.crossing (P := fun s => .authenticated result ∈ s.trace r) (by simp [State.trace, State.new]) hr
  cases State.step_cases hs with
  | tick _ | begin _ _ | call _ | dropClient _ _ => exact absurd hv hnot
  | @worker r' l w e hx =>
    rw [State.trace_worked] at hv
    by_cases heq : r = r'
    · subst heq
      rw [if_pos rfl] at hv
      rcases List.mem_append.mp hv with hv | hv
      · exact absurd hv hnot
      · obtain rfl := List.mem_singleton.mp hv
        cases hx with
        | next hp hn =>
          obtain ⟨deadline, id, text, hq, rfl, hreply⟩ := Worker.next_authenticated hn
          obtain ⟨timestamp, hlogin⟩ :=
            (grounded_of_reaches hu r).greeting id (by rw [hq]; rfl)
          exact ⟨before, text, after, u, deadline, id, timestamp, rfl, hu, hq, hlogin, hreply⟩
    · rw [if_neg heq] at hv
      exact absurd hv hnot

/-- A connect call that joined no run was turned away for a reason that holds. -/
def Call.declined (m : Memory) : Call → Prop
  | .connect rt (.refused e) | .connect rt (.done none (.error e)) =>
    (e = .destroyed ∧ m.destroyed = true) ∨ (e = .runtimeUnavailable ∧ rt = false)
  | .connect _ (.done none (.ok _)) => False
  | _ => True

namespace Call

variable {cfg : Config} {c : CallId} {m : Memory} {i : CallInput} {k k' : Call} {a : Act}

attribute [local grind] declined
attribute [local grind =] Memory.serve Memory.modify Memory.freeSlot

theorem Moves.declined (h : k.Moves cfg c m i k' a) (hk : k.declined m) :
    k'.declined (m.serve c a) := by
  cases h with
  | send h => trivial
  | @connect rt p p' a h => revert h; fun_cases ConnectPhase.next m rt i p <;> grind -linarith
  | disconnect h => trivial

theorem declined_mono {m' : Memory} (hd : m.destroyed = true → m'.destroyed = true)
    (hk : k.declined m) : k.declined m' := by
  unfold Call.declined at hk ⊢
  grind -linarith

end Call

theorem declined_of_reaches {cfg : Config} {labels : List Label} {s : State}
    (h : Reaches cfg labels s) (c : CallId) : (s.calls c).declined s.mem := by
  refine h.invariant (I := fun s => ∀ c, (s.calls c).declined s.mem) (fun _ => trivial) ?_ c
  intro s l t hi _ hs c
  cases State.step_cases hs with
  | tick d => exact hi c
  | begin op hh =>
    by_cases hc : c = s.begun
    · simp only [State.called_calls, hc, Function.update_self]
      cases op <;> trivial
    · simpa [hc] using hi c
  | @call c' i k a hx =>
    by_cases hc : c = c'
    · subst hc
      simpa using hx.declined (hi c)
    · simpa [hc] using Call.declined_mono (s.mem.serve_destroyed c' a) (hi c)
  | worker hx => exact Call.declined_mono (by simp) (hi c)
  | dropClient _ _ => exact Call.declined_mono (by simp [s.clientDropped_mem]) (hi c)

/-- A `connect` that joined a run returns a success only if that run had logged in and read
the result from a frame that answers this login, and an error only if that run was cancelled,
refused, ended by the server, or out of attempts. One that joined none was turned away because
the client is destroyed or there is no runtime. Every `Connect` event has the same origin. -/
theorem connect_outcome {cfg : Config} {labels : List Label} {s : State} (h : Reaches cfg labels s) :
    (∀ c rt source result, s.calls c = .connect rt (.done source result) →
      (∃ r b, source = some (r, b) ∧
        (∀ accepted, result = .ok accepted → Granted cfg labels r accepted) ∧
        ∀ error, result = .error error → Cause (s.trace r) error) ∨
      (source = none ∧ ((result = .error .destroyed ∧ s.mem.destroyed = true) ∨
        (result = .error .runtimeUnavailable ∧ rt = false)))) ∧
    ∀ r result, .emit (.connect result) ∈ s.trace r → Granted cfg labels r result := by
  refine ⟨fun c rt source result hdone => ?_, fun r result hmem =>
    granted_of_authenticated h ((grounded_of_reaches h r).grants _ hmem result rfl)⟩
  cases source with
  | none =>
    have hk := declined_of_reaches h c
    rw [hdone] at hk
    cases result with
    | ok accepted => exact absurd hk id
    | error e =>
      refine .inr ⟨rfl, ?_⟩
      rcases hk with ⟨rfl, hd⟩ | ⟨rfl, hrt⟩
      · exact .inl ⟨rfl, hd⟩
      · exact .inr ⟨rfl, hrt⟩
  | some source =>
    obtain ⟨r, b⟩ := source
    have hrep := State.reported_of_verdict h (by rw [hdone]; rfl)
    have hg := grounded_of_reaches h r
    refine .inl ⟨r, b, rfl, ?_, ?_⟩
    · rintro accepted rfl
      refine granted_of_authenticated h ?_
      rcases hrep with hmem | hmem
      · exact hg.grants _ hmem accepted rfl
      · exact hg.grants _ hmem accepted rfl
    · rintro error rfl
      rcases hrep with hmem | hmem
      · exact hg.blames _ hmem error rfl
      · exact hg.blames _ hmem error rfl

/-- The first call has its result. -/
def connecting : List Label := List.flatten [opening, [.call 0 .go]]

def Call.connects : Call → Bool
  | .connect true (.done _ (.ok _)) => true
  | _ => false

theorem connect_outcome_connecting :
    ∃ s r b result, Reaches (sample [accepted "u0"]) connecting s ∧
      s.calls 0 = .connect true (.done (some (r, b)) (.ok result)) ∧
      Granted (sample [accepted "u0"]) connecting r result := by
  obtain ⟨s, h, ho⟩ := reaches_of_play (sample [accepted "u0"]) connecting
    (fun s => (s.calls 0).connects) (by decide +kernel)
  unfold Call.connects at ho
  split at ho
  next source result hc =>
    rcases (connect_outcome h).1 0 true source (.ok result) hc with
      ⟨r, b, rfl, hgranted, -⟩ | ⟨-, ⟨hx, -⟩ | ⟨hx, -⟩⟩
    · exact ⟨s, r, b, result, h, hc, hgranted result rfl⟩
    · cases hx
    · cases hx
  next => cases ho

end WukongSdk
