import WukongSdk.InFlight

/-!
# Retrying after a failure, and after an abandoned disconnect

A later `connect` may find the entry of a run that is failing or cancelled and
not yet finished. It then joins that run, and whether it can read its old result
depends on the point the run has reached.
-/
namespace WukongSdk

/-! ## Where a result comes from -/

/-- The run has published this result. -/
def Reported (trace : List Effect) : Except Error ConnectResult → Prop
  | .ok result => .setFirst (.ok result) ∈ trace ∨ .setStatus (.ready result) ∈ trace
  | .error e => .setFirst (.error e) ∈ trace ∨ .setStatus (.failed e) ∈ trace

/-- Statuses other than the initial one are written by the run. -/
def StatusWritten (s : State) : Prop :=
  ∀ r, (s.mem.cells r).status = .connecting ∨ .setStatus (s.mem.cells r).status ∈ s.trace r

namespace State

variable {cfg : Config} {s t : State} {c : CallId} {i : CallInput} {k : Call} {a : Act} {r : RunId}
  {w : Worker} {e : Effect} {l : Label} {b : Bool} {result : Except Error ConnectResult}

theorem statusWritten_step (h : StatusWritten s) (hs : s.step cfg l = some t) :
    StatusWritten t := by
  intro r
  cases State.step_cases hs with
  | tick d => exact h r
  | begin op hh => exact h r
  | @call c i k a hx =>
    rw [trace_served]
    rcases s.mem.serve_cells r c a with hm | ⟨-, -, hm⟩ | ⟨-, hm⟩ | ⟨cmd, -, hm⟩
    · rw [served_mem, hm]
      exact h r
    · rw [served_mem, hm]
      exact .inl rfl
    · rw [served_mem, hm]
      exact h r
    · rw [served_mem, hm]
      exact h r
  | @worker r' l w e hx =>
    rw [worked_mem, Memory.work_cells, trace_worked]
    by_cases hr : r = r'
    · subst hr
      rw [if_pos rfl, if_pos rfl]
      cases e with
      | setStatus status => exact .inr (List.mem_append_right _ (List.mem_singleton_self _))
      | _ => exact (h r).imp_right (List.mem_append_left _)
    · rw [if_neg hr, if_neg hr]
      exact h r
  | dropClient _ _ =>
    simp only [s.clientDropped_mem, trace_clientDropped]
    split <;> exact h r

theorem statusWritten_of_reaches {labels : List Label} (h : Reaches cfg labels s) :
    StatusWritten s :=
  h.invariant_along (fun _ => .inl rfl) fun _ _ _ _ _ hi _ hs =>
    statusWritten_step hi hs

theorem reported_of_observe {labels : List Label} (h : Reaches cfg labels s)
    (ho : ConnectPhase.observe (s.mem.cells r) b = some result) : Reported (s.trace r) result := by
  cases b with
  | true =>
    have hmem : result ∈ (s.trace r).filterMap Effect.firstWrite := by
      rw [(Published.of_reaches h).writes r]
      exact Option.mem_toList.mpr ho
    obtain ⟨e, he, hw⟩ := List.mem_filterMap.mp hmem
    cases e with
    | setFirst result' => cases hw; cases result <;> exact .inl he
    | _ => cases hw
  | false =>
    have hw := statusWritten_of_reaches h r
    cases hst : (s.mem.cells r).status with
    | connecting => simp [ConnectPhase.observe, hst] at ho
    | ready x =>
      obtain rfl : .ok x = result := by simpa [ConnectPhase.observe, hst] using ho
      exact .inr (hst ▸ hw.resolve_left (by simp [hst]))
    | failed e =>
      obtain rfl : .error e = result := by simpa [ConnectPhase.observe, hst] using ho
      exact .inr (hst ▸ hw.resolve_left (by simp [hst]))

theorem reported_append {trace : List Effect} (h : Reported trace result) (e : Effect) :
    Reported (trace ++ [e]) result := by
  cases result <;> exact h.imp (List.mem_append_left _) (List.mem_append_left _)

/-- A connect call returns what the run it waited for has published. -/
theorem reported_of_verdict {labels : List Label} (h : Reaches cfg labels s)
    (hv : (s.calls c).verdict = some (r, b, result)) : Reported (s.trace r) result := by
  refine h.invariant_along (I := fun s => ∀ c r b result,
    (s.calls c).verdict = some (r, b, result) → Reported (s.trace r) result)
    (fun c r b result hv => by cases hv) ?_ c r b result hv
  intro _ s l t hr hi _ hs c r b result hv
  cases State.step_cases hs with
  | tick d => exact hi c r b result hv
  | begin op hh =>
    by_cases hc : c = s.begun
    · simp only [called_calls, hc, Function.update_self] at hv
      cases op <;> cases hv
    · exact hi c r b result (by simpa [hc] using hv)
  | @call c' i k a hx =>
    rw [trace_served]
    by_cases hc : c = c'
    · subst hc
      obtain ⟨hk, ho | ⟨ho, hf⟩⟩ := hx.verdict (by simpa using hv)
      · exact reported_of_observe hr ho
      · have hp := Published.of_reaches hr
        obtain ⟨⟨first, hfirst⟩, e, he⟩ :=
          hp.finished (.of_reaches hr) r (hp.source c r b hk) hf
        cases b with
        | true => rw [ConnectPhase.observe, hfirst] at ho; cases ho
        | false => rw [ConnectPhase.observe, he] at ho; cases ho
    · exact hi c r b result (by simpa [hc] using hv)
  | @worker r' l w e hx =>
    have hold := hi c r b result hv
    rw [trace_worked]
    by_cases hr' : r = r'
    · subst hr'
      rw [if_pos rfl]
      exact reported_append hold e
    · rwa [if_neg hr']
  | dropClient _ _ => exact hi c r b result hv

end State

/-! ## A retry after a failure -/

/-- A connect call from `n` on decides by a run other than `r`, or by `r` once
its task has finished. -/
def State.DecidesAfter (r : RunId) (n : ℕ) (s : State) (l : Label) : Prop :=
  ∀ c i rt, l = .call c i → n ≤ c → s.calls c = .connect rt .decide →
    s.mem.running = some r → (s.mem.cells r).finished = true

/-- Where a connect call stands that has nothing to do with runs up to `r`. -/
def Call.beyond (r : ℕ) (m : Memory) : Call → Prop
  | .connect rt p =>
    match p with
    | .join r' | .unlock r' _ | .wait r' _ => r < r'
    | .refused e => (e = .destroyed ∧ m.destroyed = true) ∨ (e = .runtimeUnavailable ∧ rt = false)
    | .done source result =>
      (∃ r' b, source = some (r', b) ∧ r < r') ∨
        (source = none ∧ ((result = .error .destroyed ∧ m.destroyed = true) ∨
          (result = .error .runtimeUnavailable ∧ rt = false)))
    | _ => True
  | _ => True

namespace Call

variable {cfg : Config} {c : CallId} {m : Memory} {i : CallInput} {k k' : Call} {a : Act} {r : ℕ}

attribute [local grind] beyond
attribute [local grind =] Memory.serve Memory.modify Memory.freeSlot Option.filter_eq_some_iff

theorem Moves.beyond (h : k.Moves cfg c m i k' a) (hlt : r < m.started)
    (hrun : ∀ r' : ℕ, m.running = some r' → r' + 1 = m.started)
    (hdec : ∀ rt, k = .connect rt .decide → m.running = some r → (m.cells r).finished = true)
    (hk : k.beyond r m) : k'.beyond r (m.serve c a) := by
  cases h with
  | send h => trivial
  | @connect rt p p' a h => revert h; fun_cases ConnectPhase.next m rt i p <;> grind -linarith
  | disconnect h => trivial

theorem beyond_mono {m' : Memory} (hd : m.destroyed = true → m'.destroyed = true)
    (hk : k.beyond r m) : k.beyond r m' := by
  unfold Call.beyond at hk ⊢
  grind -linarith

end Call

namespace State

variable {cfg : Config} {s t : State} {c : CallId} {l : Label} {r : ℕ} {n : ℕ}

theorem beyond_step (hl : Lifecycle s) (hlt : r < s.mem.started)
    (hok : s.DecidesAfter r n l) (h : ∀ c, n ≤ c → (s.calls c).beyond r s.mem)
    (hs : s.step cfg l = some t) : ∀ c, n ≤ c → (t.calls c).beyond r t.mem := by
  intro c hc
  cases State.step_cases hs with
  | tick d => exact h c hc
  | begin op hh =>
    by_cases hcb : c = s.begun
    · simp only [called_calls, hcb, Function.update_self]
      cases op <;> trivial
    · simpa [hcb] using h c hc
  | @call c' i k a hx =>
    by_cases hcc : c = c'
    · subst hcc
      simpa using hx.beyond hlt hl.running (fun rt hk => hok c i rt rfl hc hk) (h c hc)
    · simpa [hcc] using Call.beyond_mono (s.mem.serve_destroyed c' a) (h c hc)
  | @worker r' l w e hx => exact Call.beyond_mono (by simp) (h c hc)
  | dropClient _ _ => exact Call.beyond_mono (by simp [s.clientDropped_mem]) (h c hc)

theorem started_step (hs : s.step cfg l = some t) : s.mem.started ≤ t.mem.started := by
  cases State.step_cases hs with
  | tick d => exact le_rfl
  | begin op hh => exact le_rfl
  | @call c i k a hx => rcases s.mem.serve_started c a with ha | ⟨-, ha⟩ <;> simp [ha]
  | worker hx => simp
  | dropClient _ _ => simp [s.clientDropped_mem]

end State

/-- A `connect` begun after another has returned an error of run `r`: if no
such call decides by `r` before its task has finished, what it returns is the
outcome of a run created after `r`, or says that the client is destroyed or
that there is no runtime to start a run on. -/
theorem retry_is_fresh {cfg : Config} {labels labels' : List Label} {s t : State} {c₀ c : CallId}
    {rt₀ b₀ rt : Bool} {r : ℕ} {e : Error} {source : Option (RunId × Bool)}
    {result : Except Error ConnectResult} (h : Reaches cfg labels s)
    (hfailed : s.calls c₀ = .connect rt₀ (.done (some (r, b₀)) (.error e)))
    (hrun : Run (State.step cfg) (State.DecidesAfter r s.begun) s labels' t)
    (hc : s.begun ≤ c) (hdone : t.calls c = .connect rt (.done source result)) :
    (∃ r' b, source = some (r', b) ∧ r < r' ∧ Reported (t.trace r') result) ∨
    (source = none ∧ ((result = .error .destroyed ∧ t.mem.destroyed = true) ∨
      (result = .error .runtimeUnavailable ∧ rt = false))) := by
  have hreach : Reaches cfg _ t := h.append (hrun.weaken fun _ _ _ => trivial)
  have hlt : r < s.mem.started :=
    (Published.of_reaches h).source c₀ r b₀ (by rw [hfailed]; rfl)
  have hinv : r < t.mem.started ∧ ∀ c, s.begun ≤ c → (t.calls c).beyond r t.mem := by
    refine hrun.invariant_with (I := fun t => r < t.mem.started ∧
      ∀ c, s.begun ≤ c → (t.calls c).beyond r t.mem) ⟨hlt, fun c hc => ?_⟩ (Lifecycle.of_reaches h)
      (fun _ _ _ hj hs => hj.step hs) fun u l v hi hl _ hok hs => ?_
    · rw [(Lifecycle.of_reaches h).idle c hc]
      trivial
    · exact ⟨hi.1.trans_le (State.started_step hs), State.beyond_step hl hi.1 hok hi.2 hs⟩
  have hbeyond := hinv.2 c hc
  rw [hdone] at hbeyond
  refine hbeyond.imp_left ?_
  rintro ⟨r', b, rfl, hr'⟩
  exact ⟨r', b, rfl, hr', State.reported_of_verdict hreach (by rw [hdone]; rfl)⟩

/-- `DecidesAfter`, computed. -/
def State.decidesAfter (r : RunId) (n : ℕ) (s : State) : Label → Bool
  | .call c _ =>
    match s.calls c with
    | .connect _ .decide =>
      decide (c < n) || s.mem.running ≠ some r || (s.mem.cells r).finished
    | _ => true
  | _ => true

theorem State.decidesAfter_spec (r : RunId) (n : ℕ) (s : State) (l : Label)
    (h : s.decidesAfter r n l = true) : s.DecidesAfter r n l := by
  rintro c i rt rfl hn hc hr
  simpa [decidesAfter, hc, hr, not_lt.mpr hn] using h

/-- The first attempt to connect fails and its caller is told. -/
def failing : List Label :=
  List.flatten [[.begin (.connect true)], List.replicate 4 (.call 0 .go),
    [.poll 0, .work 0 .go, .work 0 (.io false)], List.replicate 3 (.work 0 .go), [.call 0 .go]]

/-- The run ends, and only then a second call decides. -/
def retrying : List Label :=
  List.flatten [List.replicate 3 (.work 0 .go), [.begin (.connect true)],
    List.replicate 4 (.call 1 .go), [.poll 1, .work 1 .go, .work 1 (.io false)],
    List.replicate 3 (.work 1 .go), [.call 1 .go]]

/-- The connect that spawned run 0 has failed, and so has the one after it. -/
def State.retried (s t : State) : Bool :=
  match s.calls 0, t.calls 1 with
  | .connect true (.done (some (0, true)) (.error .transport)),
    .connect true (.done _ (.error .transport)) => true
  | _, _ => false

theorem retry_is_fresh_retrying :
    ∃ s t, Reaches (sample []) failing s ∧
      Run (State.step (sample [])) (State.DecidesAfter 0 1) s retrying t ∧
      ∃ r' b, t.calls 1 = .connect true (.done (some (r', b)) (.error .transport)) ∧ 0 < r' ∧
        Reported (t.trace r') (.error .transport) := by
  obtain ⟨s, t, h, hrun, ho⟩ := runs_of_play (sample []) (State.decidesAfter 0 1)
    (State.decidesAfter_spec 0 1) failing retrying
    (fun s t => s.begun = 1 && !t.mem.destroyed && s.retried t) (by decide +kernel)
  simp only [State.retried, Bool.and_eq_true, decide_eq_true_eq, Bool.not_eq_true'] at ho
  obtain ⟨⟨hb, hd⟩, ho⟩ := ho
  split at ho
  next source hs ht =>
    rcases retry_is_fresh h hs (by rwa [hb]) hb.le ht with ⟨r', b, rfl, hr', hrep⟩ | ⟨-, hx | hx⟩
    · exact ⟨s, t, h, hrun, r', b, ht, hr', hrep⟩
    · simp at hx
    · simp at hx
  next => cases ho

/-- A second call that joins the run about to finish. -/
def rejoining : List Label :=
  List.flatten [[.begin (.connect true)], List.replicate 5 (.call 1 .go),
    [.work 0 .go, .call 1 .go]]

/-- The connect that spawned run 0 has failed, and so has one that joined it. -/
def State.rejoined (s t : State) : Bool :=
  match s.calls 0, t.calls 1 with
  | .connect true (.done (some (0, true)) (.error .transport)),
    .connect true (.done (some (0, false)) (.error .transport)) => true
  | _, _ => false

theorem retry_joins_failed_run :
    ∃ s t, Reaches (sample []) failing s ∧
      s.calls 0 = .connect true (.done (some (0, true)) (.error .transport)) ∧ s.begun = 1 ∧
      Run (State.step (sample [])) (fun _ _ => True) s rejoining t ∧ t.mem.destroyed = false ∧
      t.calls 1 = .connect true (.done (some (0, false)) (.error .transport)) := by
  obtain ⟨s, t, h, hrun, ho⟩ := runs_of_play (sample []) (fun _ _ => true)
    (fun _ _ _ => trivial) failing rejoining
    (fun s t => s.begun = 1 && !t.mem.destroyed && s.rejoined t) (by decide +kernel)
  simp only [State.rejoined, Bool.and_eq_true, decide_eq_true_eq, Bool.not_eq_true'] at ho
  obtain ⟨⟨hb, hd⟩, ho⟩ := ho
  split at ho
  next hs ht => exact ⟨s, t, h, hs, hb, hrun, hd, ht⟩
  next => cases ho

/-! ## A connect after an abandoned disconnect -/

/-- The worker of a cancelled run can no longer authenticate: it looks at the
token before it dials again, or it is on its way to the end of the run. -/
def Worker.doomed (cfg : Config) (w : Worker) : Bool :=
  match w.phase with
  | .supervise p =>
    !w.polling ||
      match p with
      | .sweep e | .swept e _ | .disconnected e =>
        e.isServer || decide (cfg.options.maxReconnectAttempts ≤ w.attempt)
      | .report _ | .budget => decide (cfg.options.maxReconnectAttempts ≤ w.attempt)
      | .failed e =>
        !w.established || e.isTerminal || decide (cfg.options.maxReconnectAttempts ≤ w.attempt)
      | _ => false
  | _ => true

/-- A cancelled run that has nothing left to offer but an error. -/
structure Sealed (cfg : Config) (w : Worker) (x : Cells) : Prop where
  cancelled : x.cancelled = true
  status : ∀ result, x.status ≠ .ready result
  doomed : w.doomed cfg = true

/-- Who waits for a sealed run reads no success. -/
theorem Sealed.observe {cfg : Config} {w : Worker} {x : Cells} {b : Bool} {result : ConnectResult}
    (h : Sealed cfg w x) (hfirst : b = true → ∀ result, x.firstResult ≠ some (.ok result)) :
    ConnectPhase.observe x b ≠ some (.ok result) := by
  cases b with
  | true => exact hfirst rfl result
  | false =>
    have hs := h.status result
    cases hx : x.status <;> simp_all [ConnectPhase.observe]

namespace Worker

variable {cfg : Config} {r : RunId} {m : Memory} {w w' : Worker} {i : Input} {e : Effect} {l : Label}

attribute [local grind] doomed Effect.onCells
attribute [local grind =] Error.isTerminal Error.isServer

theorem next_sealed (h : Access cfg r m w i w' e) (hp : w.polling = true)
    (hx : Sealed cfg w (m.cells r)) :
    Sealed cfg w' (e.onCells (m.cells r)) ∧ ∀ result, e ≠ .setFirst (.ok result) := by
  obtain ⟨hc, hs, hd⟩ := hx
  cases h
  all_goals refine ⟨⟨?_, ?_, ?_⟩, ?_⟩ <;> grind -linarith

theorem Moves.sealed (h : w.Moves cfg r m l w' e) (hx : Sealed cfg w (m.cells r)) :
    Sealed cfg w' (e.onCells (m.cells r)) ∧ ∀ result, e ≠ .setFirst (.ok result) := by
  cases h with
  | next hp h => exact next_sealed h hp hx
  | wake hp hw hc =>
    have := hx.cancelled
    rw [hc] at this
    cases this
  | resume hp hw => exact ⟨⟨hx.cancelled, hx.status, by simp [doomed, hw]⟩, by rintro _ ⟨⟩⟩
  | cancel hp hw hc => exact ⟨⟨hc, hx.status, rfl⟩, nofun⟩
  | suspend hp hd ha =>
    refine ⟨⟨hx.cancelled, hx.status, ?_⟩, nofun⟩
    unfold doomed
    cases hw : w.phase <;> simp [hw]

end Worker

namespace Call

/-- The run this disconnect has cancelled. -/
def cancels : Call → Option RunId
  | .disconnect _ (.join r) | .disconnect _ (.dropped (some r)) => some r
  | _ => none

/-- A connect call owes nothing to run `r` unless it joined `r` once sealed. -/
def fenced (r : ℕ) (fate : Prop) (x : Cells) : Call → Prop
  | .connect _ p =>
    match p with
    | .join r' => r < r' ∨ (r' = r ∧ fate)
    | .unlock r' b | .wait r' b =>
      r < r' ∨ (r' = r ∧ fate ∧ (b = true → ∀ result, x.firstResult ≠ some (.ok result)))
    | .done source result => (∃ r' b, source = some (r', b) ∧ r < r') ∨ ∀ x, result ≠ .ok x
    | _ => True
  | _ => True

variable {cfg : Config} {c : CallId} {m : Memory} {i : CallInput} {k k' : Call} {a : Act} {r : ℕ}

attribute [local grind] cancels fenced
attribute [local grind =] Memory.serve Memory.modify Memory.freeSlot Option.filter_eq_some_iff
  Option.filter_eq_none_iff

theorem Moves.cancels {q : RunId} (h : k.Moves cfg c m i k' a) (hk : k'.cancels = some q) :
    k.cancels = some q ∨ (a = .cancel q ∧ m.running = some q) := by
  revert hk
  cases h with
  | send h => nofun
  | connect h => nofun
  | @disconnect d p p' a h => revert h; fun_cases DisconnectPhase.next m i p <;> grind -linarith

theorem Moves.fenced {w : Worker} (h : k.Moves cfg c m i k' a) (hlt : r < m.started)
    (hrun : ∀ r' : ℕ, m.running = some r' → r' + 1 = m.started)
    (hdec : ∀ rt, k = .connect rt .decide → m.running = some r → (m.cells r).finished = false →
      Sealed cfg w (m.cells r))
    (hk : k.fenced r (Sealed cfg w (m.cells r)) (m.cells r)) :
    k'.fenced r (Sealed cfg w (m.cells r)) (m.cells r) := by
  cases h with
  | send h => trivial
  | @connect rt p p' a h =>
    revert h
    fun_cases ConnectPhase.next m rt i p <;> grind -linarith [Sealed.observe]
  | disconnect h => trivial

theorem fenced_mono {fate fate' : Prop} {x x' : Cells} (hf : fate → fate')
    (hx : fate → (∀ result, x.firstResult ≠ some (.ok result)) →
      ∀ result, x'.firstResult ≠ some (.ok result))
    (hk : k.fenced r fate x) : k.fenced r fate' x' := by
  unfold Call.fenced at hk ⊢
  grind -linarith

end Call

/-- A connect call from `n` on that decides by run `r`, not yet finished, finds
it sealed. -/
def State.JoinsSealed (cfg : Config) (r : RunId) (n : ℕ) (s : State) (l : Label) : Prop :=
  ∀ c i rt, l = .call c i → n ≤ c → s.calls c = .connect rt .decide → s.mem.running = some r →
    (s.mem.cells r).finished = false → Sealed cfg (s.workers r) (s.mem.cells r)

namespace State

variable {cfg : Config} {s t : State} {c : CallId} {l : Label} {r : ℕ} {n : ℕ}

/-- The run that a disconnect waits for, or waited for, is cancelled. -/
theorem cancelled_of_cancels {labels : List Label} (h : Reaches cfg labels s)
    (hc : (s.calls c).cancels = some r) : r < s.mem.started ∧ (s.mem.cells r).cancelled = true := by
  refine h.invariant_along (I := fun s => ∀ c (r : ℕ), (s.calls c).cancels = some r →
    r < s.mem.started ∧ (s.mem.cells r).cancelled = true) nofun ?_ c r hc
  intro _ s l t hr hi _ hs c r hc
  have hl := Lifecycle.of_reaches hr
  cases State.step_cases hs with
  | tick d => exact hi c r hc
  | begin op hh =>
    by_cases hcb : c = s.begun
    · simp only [called_calls, hcb, Function.update_self] at hc
      cases op <;> cases hc
    · exact hi c r (by simpa [hcb] using hc)
  | @call c' i k a hx =>
    have old : r < s.mem.started ∧ (s.mem.cells r).cancelled = true →
        r < (s.mem.serve c' a).started ∧ ((s.mem.serve c' a).cells r).cancelled = true := by
      rintro ⟨hlt, hcan⟩
      refine ⟨hlt.trans_le (started_step hs), ?_⟩
      rcases s.mem.serve_cells r c' a with hm | ⟨-, hm, -⟩ | ⟨-, hm⟩ | ⟨cmd, -, hm⟩
      · rw [hm, hcan]
      · exact absurd hm hlt.ne
      · rw [hm]
      · rw [hm, hcan]
    by_cases hcc : c = c'
    · subst hcc
      rcases hx.cancels (by simpa using hc) with hk | ⟨rfl, hrun⟩
      · exact old (hi c r hk)
      · have := hl.running r hrun
        exact ⟨Nat.lt_of_lt_of_le (by omega) (started_step hs), by simp [Memory.serve, Memory.modify]⟩
    · exact old (hi c r (by simpa [hcc] using hc))
  | @worker r' l w e hx =>
    obtain ⟨hlt, hcan⟩ := hi c r hc
    refine ⟨by simpa using hlt, ?_⟩
    rw [worked_mem, Memory.work_cells]
    split
    next heq =>
      subst heq
      cases e <;> exact hcan
    · exact hcan
  | dropClient _ _ =>
    obtain ⟨hlt, hcan⟩ := hi c r hc
    refine ⟨by simpa [clientDropped_mem] using hlt, ?_⟩
    simp only [clientDropped_mem]
    split
    · rfl
    · exact hcan

theorem fenced_step (hl : Lifecycle s) (hlt : r < s.mem.started)
    (hok : s.JoinsSealed cfg r n l)
    (h : ∀ c, n ≤ c → (s.calls c).fenced r (Sealed cfg (s.workers r) (s.mem.cells r)) (s.mem.cells r))
    (hs : s.step cfg l = some t) :
    ∀ c, n ≤ c → (t.calls c).fenced r (Sealed cfg (t.workers r) (t.mem.cells r)) (t.mem.cells r) := by
  intro c hc
  cases State.step_cases hs with
  | tick d => exact h c hc
  | begin op hh =>
    by_cases hcb : c = s.begun
    · simp only [called_calls, hcb, Function.update_self]
      cases op <;> trivial
    · simpa [hcb] using h c hc
  | @call c' i k a hx =>
    have hw : s.spawnWorker a r = s.workers r := by
      rcases s.spawnWorker_cases r a with hw | ⟨-, hr, -⟩
      · exact hw
      · exact absurd hr hlt.ne
    have hmono : ∀ k : Call, k.fenced r (Sealed cfg (s.workers r) (s.mem.cells r)) (s.mem.cells r) →
        k.fenced r (Sealed cfg (s.spawnWorker a r) ((s.mem.serve c' a).cells r))
          ((s.mem.serve c' a).cells r) := by
      intro k hk
      rw [hw]
      rcases s.mem.serve_cells r c' a with hm | ⟨-, hm, -⟩ | ⟨-, hm⟩ | ⟨cmd, -, hm⟩
      · rwa [hm]
      · exact absurd hm hlt.ne
      · rw [hm]
        exact Call.fenced_mono (fun hx => ⟨rfl, hx.status, hx.doomed⟩) (fun _ hx => hx) hk
      · rw [hm]
        exact Call.fenced_mono (fun hx => ⟨hx.cancelled, hx.status, hx.doomed⟩) (fun _ hx => hx) hk
    by_cases hcc : c = c'
    · subst hcc
      rw [served_calls, Function.update_self]
      exact hmono k (hx.fenced hlt hl.running (fun rt hk => hok c i rt rfl hc hk) (h c hc))
    · simpa [hcc] using hmono _ (h c hc)
  | @worker r' l w e hx =>
    rw [worked_calls, worked_mem, worked_workers, Memory.work_cells]
    by_cases hr : r = r'
    · subst hr
      rw [if_pos rfl, Function.update_self]
      refine Call.fenced_mono (fun hf => (hx.sealed hf).1) (fun hf hfirst result => ?_) (h c hc)
      have hno := (hx.sealed hf).2
      cases e with
      | setFirst x => cases x with
        | ok y => exact absurd rfl (hno y)
        | error y => simp [Effect.onCells]
      | _ => exact hfirst result
    · rw [if_neg hr, Function.update_of_ne hr]
      exact h c hc
  | dropClient _ _ =>
    simp only [clientDropped_mem, clientDropped_calls, clientDropped_workers]
    split
    · exact Call.fenced_mono (fun hx => ⟨rfl, hx.status, hx.doomed⟩) (fun _ hx => hx) (h c hc)
    · exact h c hc

/-- A run that exists when a newer one does has finished. -/
theorem finished_of_newer {labels : List Label} (h : Reaches cfg labels s) {r' : ℕ} (hr : r < r')
    (hr' : r' < s.mem.started) : (s.mem.cells r).finished = true := by
  have hl := Lifecycle.of_reaches h
  refine (hl.finished r).2 (by_contra fun halive => ?_)
  have := (hl.alive r halive).1
  omega

end State

/-- A `disconnect` whose future was dropped after it cancelled run `r` still
fences later connects, if none of them joins `r` before it is sealed: a success
is then that of a run that exists only once `r` has finished. -/
theorem abandoned_disconnect_fences {cfg : Config} {labels labels' : List Label} {s t : State}
    {c₀ c : CallId} {destroy rt : Bool} {r : ℕ} {source : Option (RunId × Bool)}
    {result : ConnectResult} (h : Reaches cfg labels s)
    (hdropped : s.calls c₀ = .disconnect destroy (.dropped (some r)))
    (hrun : Run (State.step cfg) (State.JoinsSealed cfg r s.begun) s labels' t)
    (hc : s.begun ≤ c) (hdone : t.calls c = .connect rt (.done source (.ok result))) :
    ∃ r' b, source = some (r', b) ∧ r < r' ∧ Reported (t.trace r') (.ok result) ∧
      ∀ labels u, Reaches cfg labels u → r' < u.mem.started →
        (u.mem.cells r).finished = true := by
  have hreach : Reaches cfg _ t := h.append (hrun.weaken fun _ _ _ => trivial)
  have hlt : r < s.mem.started :=
    (State.cancelled_of_cancels (c := c₀) h (by rw [hdropped]; rfl)).1
  have hinv := hrun.invariant_with (I := fun t => r < t.mem.started ∧ ∀ c, s.begun ≤ c →
      (t.calls c).fenced r (Sealed cfg (t.workers r) (t.mem.cells r)) (t.mem.cells r))
    ⟨hlt, fun c hc => by rw [(Lifecycle.of_reaches h).idle c hc]; trivial⟩ (Lifecycle.of_reaches h)
    (fun _ _ _ hj hs => hj.step hs) fun u l v hi hl _ hok hs =>
      ⟨hi.1.trans_le (State.started_step hs), State.fenced_step hl hi.1 hok hi.2 hs⟩
  have hfenced := hinv.2 c hc
  rw [hdone] at hfenced
  obtain ⟨r', b, rfl, hr'⟩ := hfenced.resolve_right fun hx => hx _ rfl
  exact ⟨r', b, rfl, hr', State.reported_of_verdict hreach (by rw [hdone]; rfl),
    fun _ _ hu hs => State.finished_of_newer hu hr' hs⟩

/-- `Sealed`, computed. -/
def Sealed.check (cfg : Config) (w : Worker) (x : Cells) : Bool :=
  x.cancelled && (match x.status with | .ready _ => false | _ => true) && w.doomed cfg

/-- `JoinsSealed`, computed. -/
def State.joinsSealed (cfg : Config) (r : RunId) (n : ℕ) (s : State) : Label → Bool
  | .call c _ =>
    match s.calls c with
    | .connect _ .decide =>
      decide (c < n) || s.mem.running ≠ some r || (s.mem.cells r).finished ||
        Sealed.check cfg (s.workers r) (s.mem.cells r)
    | _ => true
  | _ => true

theorem State.joinsSealed_spec (cfg : Config) (r : RunId) (n : ℕ) (s : State) (l : Label)
    (h : s.joinsSealed cfg r n l = true) : s.JoinsSealed cfg r n l := by
  rintro c i rt rfl hn hc hr hf
  have hx : Sealed.check cfg (s.workers r) (s.mem.cells r) = true := by
    simpa [joinsSealed, hc, hr, hf, not_lt.mpr hn] using h
  simp only [Sealed.check, Bool.and_eq_true] at hx
  exact ⟨hx.1.1, fun result hs => by simp [hs] at hx, hx.2⟩

/-- A `disconnect` cancels the run of the opening, suspended in its session, and
its future is dropped. -/
def leaving : List Label :=
  List.flatten [opening, [.suspend 0, .begin .disconnect], List.replicate 2 (.call 1 .go),
    [.call 1 .drop]]

/-- The worker ends; then a call connects anew. -/
def returning : List Label :=
  List.flatten [[.poll 0], List.replicate 8 (.work 0 .go), [.begin (.connect true)],
    List.replicate 4 (.call 2 .go),
    [.poll 1, .work 1 .go, .work 1 (.io true), .work 1 (.uuid "u2"), .work 1 (.stamp 0),
      .work 1 (.io true), .work 1 (.message (.text (compact (accepted "u2"))))],
    List.replicate 4 (.work 1 .go), [.call 2 .go]]

/-- The user has dropped a disconnect of run 0 and connected again. -/
def State.returned (s t : State) : Bool :=
  match s.calls 1, t.calls 2 with
  | .disconnect false (.dropped (some 0)), .connect true (.done _ (.ok _)) => true
  | _, _ => false

theorem abandoned_disconnect_fences_returning :
    ∃ s t, Reaches (sample [accepted "u0", accepted "u2"]) leaving s ∧
      Run (State.step (sample [accepted "u0", accepted "u2"]))
        (State.JoinsSealed (sample [accepted "u0", accepted "u2"]) 0 2) s returning t ∧
      ∃ r' b result, t.calls 2 = .connect true (.done (some (r', b)) (.ok result)) ∧ 0 < r' ∧
        Reported (t.trace r') (.ok result) := by
  obtain ⟨s, t, h, hrun, ho⟩ := runs_of_play (sample [accepted "u0", accepted "u2"])
    (State.joinsSealed (sample [accepted "u0", accepted "u2"]) 0 2)
    (State.joinsSealed_spec _ 0 2) leaving returning
    (fun s t => s.begun = 2 && s.returned t) (by decide +kernel)
  simp only [State.returned, Bool.and_eq_true, decide_eq_true_eq] at ho
  obtain ⟨hb, ho⟩ := ho
  split at ho
  next source result hs ht =>
    obtain ⟨r', b, rfl, hr', hrep, -⟩ :=
      abandoned_disconnect_fences h hs (by rwa [hb]) hb.le ht
    exact ⟨s, t, h, hrun, r', b, result, ht, hr', hrep⟩
  next => cases ho

/-- A call that connects before the worker is polled again. -/
def overtaking : List Label :=
  List.flatten [[.begin (.connect true)], List.replicate 6 (.call 2 .go)]

/-- The user has dropped a disconnect of run 0 and joined that run again. -/
def State.overtook (s t : State) : Bool :=
  match s.calls 1, t.calls 2 with
  | .disconnect false (.dropped (some 0)), .connect true (.done (some (0, false)) (.ok _)) => true
  | _, _ => false

theorem abandoned_disconnect_overtaken :
    ∃ s t, Reaches (sample [accepted "u0"]) leaving s ∧
      s.calls 1 = .disconnect false (.dropped (some 0)) ∧ (s.mem.cells 0).cancelled = true ∧
      s.begun = 2 ∧ Run (State.step (sample [accepted "u0"])) (fun _ _ => True) s overtaking t ∧
      ∃ result, t.calls 2 = .connect true (.done (some (0, false)) (.ok result)) := by
  obtain ⟨s, t, h, hrun, ho⟩ := runs_of_play (sample [accepted "u0"]) (fun _ _ => true)
    (fun _ _ _ => trivial) leaving overtaking
    (fun s t => s.begun = 2 && (s.mem.cells 0).cancelled && s.overtook t) (by decide +kernel)
  simp only [State.overtook, Bool.and_eq_true, decide_eq_true_eq] at ho
  obtain ⟨⟨hb, hcan⟩, ho⟩ := ho
  split at ho
  next result hs ht => exact ⟨s, t, h, hs, hcan, hb, hrun, result, ht⟩
  next => cases ho

end WukongSdk
