import WukongSdk.Lifecycle

/-!
# What a run publishes

A run tells its callers how it fares through its first result, its status and
the closing of its command channel. `Coupled` ties these cells to the point the
worker has reached.
-/
namespace WukongSdk

namespace Phase

/-- The first result has been set. -/
def published : Phase → Bool
  | .status _ | .close _ | .drain _ | .drained _ _ | .over => true
  | _ => false

/-- The status is final. -/
def failed : Phase → Bool
  | .close _ | .drain _ | .drained _ _ | .over => true
  | _ => false

/-- The command channel is closed. -/
def closed : Phase → Bool
  | .drain _ | .drained _ _ | .over => true
  | _ => false

end Phase

/-- The cells of a run agree with the point its worker has reached. -/
structure Coupled (w : Worker) (x : Cells) : Prop where
  first : w.phase.published = true → x.firstResult ≠ none
  status : w.phase.failed = true → ∃ e, x.status = .failed e
  closed : x.closed = w.phase.closed
  drained : w.phase = .over → x.commands = []

/-- The value an access writes to the first-result channel. -/
def Effect.firstWrite : Effect → Option (Except Error ConnectResult)
  | .setFirst result => some result
  | _ => none

namespace Worker

variable {cfg : Config} {r : RunId} {m : Memory} {w w' : Worker} {i : Input} {e : Effect} {l : Label}
  {result : Except Error ConnectResult}

attribute [local grind] Phase.published Phase.failed Phase.closed Effect.onCells
attribute [local grind =] Option.isNone_iff_eq_none

theorem next_coupled (h : Access cfg r m w i w' e) (hx : Coupled w (m.cells r)) :
    Coupled w' (e.onCells (m.cells r)) := by
  obtain ⟨hf, hs, hc, hd⟩ := hx
  cases h
  case failStatus error _ hp => refine ⟨?_, fun _ => ⟨error, rfl⟩, ?_, ?_⟩ <;> grind -linarith
  all_goals constructor <;> grind -linarith

theorem Moves.coupled (h : w.Moves cfg r m l w' e) (hx : Coupled w (m.cells r)) :
    Coupled w' (e.onCells (m.cells r)) := by
  cases h with
  | next hp h => exact next_coupled h hx
  | wake hp hw hc | resume hp hw => exact ⟨hx.first, hx.status, hx.closed, hx.drained⟩
  | cancel hp hw hc =>
    have hclosed := hx.closed
    rw [hw] at hclosed
    exact ⟨nofun, nofun, hclosed, nofun⟩
  | suspend hp hd ha => exact ⟨hx.first, hx.status, hx.closed, hx.drained⟩

/-- The channel of the first result is written only while it is empty. -/
theorem next_setFirst (h : Access cfg r m w i w' (.setFirst result)) :
    (m.cells r).firstResult = none := by
  cases h
  all_goals grind -linarith

theorem Moves.setFirst (h : w.Moves cfg r m l w' (.setFirst result)) :
    (m.cells r).firstResult = none := by
  cases h with
  | next hp h => exact next_setFirst h

end Worker

namespace Call

/-- The run whose channels a connect call reads, and which of them. -/
def source : Call → Option (RunId × Bool)
  | .connect _ (.unlock r b) | .connect _ (.wait r b)
  | .connect _ (.done (some (r, b)) _) => some (r, b)
  | _ => none

/-- The result of a finished connect call, with the run it was read from. -/
def verdict : Call → Option (RunId × Bool × Except Error ConnectResult)
  | .connect _ (.done (some (r, b)) result) => some (r, b, result)
  | _ => none

attribute [local grind] source verdict entry
attribute [local grind =] Memory.serve Memory.modify Memory.freeSlot ConnectPhase.observe
    Option.filter_eq_none_iff Option.filter_eq_some_iff

variable {cfg : Config} {c : CallId} {m : Memory} {i : CallInput} {k k' : Call} {a : Act}
    {r : RunId} {b : Bool}
  {result : Except Error ConnectResult}

theorem Moves.source (h : k.Moves cfg c m i k' a) (hs : k'.source = some (r, b)) :
    k.source = some (r, b) ∨ k.entry = some r ∨ (a = .spawn ∧ r = m.started) := by
  revert hs
  cases h with
  | @send args p p' a h => revert h; fun_cases SendPhase.next cfg c m args i p <;> grind -linarith
  | @connect rt p p' a h => revert h; fun_cases ConnectPhase.next m rt i p <;> grind -linarith
  | @disconnect d p p' a h => revert h; fun_cases DisconnectPhase.next m i p <;> grind -linarith

theorem Moves.verdict (h : k.Moves cfg c m i k' a) (hs : k'.verdict = some (r, b, result)) :
    k.source = some (r, b) ∧ (ConnectPhase.observe (m.cells r) b = some result ∨
      (ConnectPhase.observe (m.cells r) b = none ∧ (m.cells r).finished = true)) := by
  revert hs
  cases h with
  | @send args p p' a h => revert h; fun_cases SendPhase.next cfg c m args i p <;> grind -linarith
  | @connect rt p p' a h => revert h; fun_cases ConnectPhase.next m rt i p <;> grind -linarith
  | @disconnect d p p' a h => revert h; fun_cases DisconnectPhase.next m i p <;> grind -linarith

theorem source_of_verdict (h : k.verdict = some (r, b, result)) : k.source = some (r, b) := by
  unfold Call.verdict at h
  split at h <;> simp_all [Call.source]

theorem Moves.enqueue {cmd : Command} (h : k.Moves cfg c m i k' (.enqueue r cmd)) :
    m.running = some r ∧ (m.cells r).closed = false ∧
      (m.cells r).commands.length < cfg.options.maxInFlight := by
  cases h with
  | @send args p p' a h => revert h; fun_cases SendPhase.next cfg c m args i p <;> grind -linarith
  | @connect rt p p' a h => revert h; fun_cases ConnectPhase.next m rt i p <;> grind -linarith
  | @disconnect d p p' a h => revert h; fun_cases DisconnectPhase.next m i p <;> grind -linarith

end Call

structure Published (s : State) : Prop where
  coupled : ∀ r : ℕ, r < s.mem.started → Coupled (s.workers r) (s.mem.cells r)
  writes : ∀ r, (s.trace r).filterMap Effect.firstWrite = (s.mem.cells r).firstResult.toList
  source : ∀ c (r : ℕ) b, (s.calls c).source = some (r, b) → r < s.mem.started
  verdict : ∀ c r result, (s.calls c).verdict = some (r, true, result) →
      (s.mem.cells r).firstResult = some result

namespace Published

variable {cfg : Config} {s t : State} {c : CallId} {i : CallInput} {k : Call} {a : Act} {r : RunId}
  {w : Worker} {e : Effect} {l : Label}

theorem new (cfg : Config) : Published (State.new cfg) where
  coupled r hr := by simp [State.new] at hr
  writes r := by simp [State.new, State.trace]
  source c r b hc := by simp [State.new, Call.source] at hc
  verdict c r b hc := by simp [State.new, Call.verdict] at hc

theorem served_coupled (h : Published s) (hx : (s.calls c).Moves cfg c s.mem i k a) (r : RunId)
    (hr : r < (s.served c k a).mem.started) :
    Coupled ((s.served c k a).workers r) ((s.served c k a).mem.cells r) := by
  by_cases hs : a = .spawn ∧ r = s.mem.started
  · obtain ⟨rfl, rfl⟩ := hs
    simp only [State.served_workers, State.spawnWorker, State.served_mem, Memory.serve,
        Function.update_self]
    exact ⟨nofun, nofun, rfl, nofun⟩
  · have hlt : (r : ℕ) < s.mem.started := by
      rcases s.mem.serve_started c a with ha | ⟨ha, hn⟩
      · simpa [ha] using hr
      · simp only [State.served_mem, hn] at hr
        by_contra hge
        exact hs ⟨ha, le_antisymm (Nat.lt_succ_iff.mp hr) (not_lt.mp hge)⟩
    have hold := h.coupled r hlt
    rcases s.spawnWorker_cases r a with hw | ⟨h₁, h₂, -⟩
    · rcases s.mem.serve_cells r c a with ha | ⟨rfl, rfl, -⟩ | ⟨rfl, ha⟩ | ⟨cmd, rfl, ha⟩
      · simpa [hw, ha] using hold
      · simp at hs
      · simp only [State.served_workers, hw, State.served_mem, ha]
        exact ⟨hold.first, hold.status, hold.closed, hold.drained⟩
      · simp only [State.served_workers, hw, State.served_mem, ha]
        obtain ⟨-, hc, -⟩ := hx.enqueue
        refine ⟨hold.first, hold.status, hold.closed, fun ho => ?_⟩
        have := hold.closed
        rw [hc, ho] at this
        cases this
    · exact absurd ⟨h₁, h₂⟩ hs

theorem served_firstResult (r : ℕ) (hr : r < s.mem.started ∨ (s.mem.cells r).firstResult = none) :
    ((s.served c k a).mem.cells r).firstResult = (s.mem.cells r).firstResult := by
  rcases s.mem.serve_cells r c a with ha | ⟨rfl, rfl, ha⟩ | ⟨rfl, ha⟩ | ⟨cmd, rfl, ha⟩
  · rw [State.served_mem, ha]
  · rw [State.served_mem, ha]
    exact (hr.resolve_left (lt_irrefl _)).symm
  · rw [State.served_mem, ha]
  · rw [State.served_mem, ha]

theorem served (h : Published s) (hl : Lifecycle s) (hx : (s.calls c).Moves cfg c s.mem i k a) :
    Published (s.served c k a) where
  coupled := h.served_coupled hx
  writes r := by
    rw [State.trace_served, h.writes r, served_firstResult r]
    by_cases hr : (r : ℕ) < s.mem.started
    · exact .inl hr
    · exact .inr (by rw [(hl.fresh r (not_lt.mp hr)).2.1])
  source c' r b hs := by
    have hmono : s.mem.started ≤ (s.served c k a).mem.started := by
      rcases s.mem.serve_started c a with ha | ⟨-, ha⟩ <;> simp [ha]
    by_cases hc : c' = c
    · subst hc
      rcases hx.source (by simpa using hs) with hk | hk | ⟨rfl, rfl⟩
      · exact (h.source c' r b hk).trans_le hmono
      · have := hl.running r (hl.entry c' r hk)
        omega
      · simp [Memory.serve]
    · exact (h.source c' r b (by simpa [hc] using hs)).trans_le hmono
  verdict c' r result hs := by
    by_cases hc : c' = c
    · subst hc
      obtain ⟨hk, ho⟩ := hx.verdict (by simpa using hs)
      have hlt := h.source c' r true hk
      rw [served_firstResult r (.inl hlt)]
      rcases ho with ho | ⟨ho, hf⟩
      · exact ho
      · have := (h.coupled r hlt).first (by rw [(hl.finished r).1 hf]; rfl)
        exact absurd ho this
    · have hs' : (s.calls c').verdict = some (r, true, result) := by simpa [hc] using hs
      rw [served_firstResult r (.inl (h.source c' r true (Call.source_of_verdict hs')))]
      exact h.verdict c' r result hs'

/-- A first result stays: its channel is written only while it is empty. -/
theorem worked_firstResult {result : Except Error ConnectResult} {r' : RunId}
    (hx : (s.workers r).Moves cfg r s.mem l w e)
    (h : (s.mem.cells r').firstResult = some result) :
    ((s.worked r w e).mem.cells r').firstResult = some result := by
  rw [State.worked_mem, Memory.work_cells]
  by_cases hr : r' = r
  · subst hr
    cases e with
    | setFirst _ => rw [hx.setFirst] at h; cases h
    | _ => simpa [Effect.onCells] using h
  · simpa [hr] using h

theorem worked (h : Published s) (hx : (s.workers r).Moves cfg r s.mem l w e) :
    Published (s.worked r w e) where
  coupled r' hr := by
    have hold := h.coupled r' (by simpa using hr)
    by_cases hr' : r' = r
    · subst hr'
      simpa [Memory.work_cells] using hx.coupled hold
    · simpa [Memory.work_cells, hr'] using hold
  writes r' := by
    have hw := h.writes r'
    by_cases hr : r' = r
    · subst hr
      rw [State.trace_worked, if_pos rfl, List.filterMap_append, hw, State.worked_mem,
        Memory.work_cells, if_pos rfl]
      cases e with
      | setFirst result => rw [hx.setFirst]; rfl
      | _ => simp [Effect.onCells, Effect.firstWrite]
    · simpa [State.trace_worked, Memory.work_cells, hr] using hw
  source c r' b hc := by simpa using h.source c r' b hc
  verdict c r' result hc := worked_firstResult hx (h.verdict c r' result hc)

theorem clientDropped (h : Published s) : Published s.clientDropped := by
  have hm := s.clientDropped_mem
  have hf : ∀ r, (s.clientDropped.mem.cells r).firstResult = (s.mem.cells r).firstResult := fun r => by
    simp only [hm]
    split <;> rfl
  refine ⟨fun r hr => ?_, fun r => ?_, fun c r b hc => ?_, fun c r result hc => ?_⟩
  · have hold := h.coupled r (by simpa [hm] using hr)
    simp only [hm, State.clientDropped_workers]
    split
    · exact ⟨hold.first, hold.status, hold.closed, hold.drained⟩
    · exact hold
  · rw [hf]
    exact h.writes r
  · simpa [hm] using h.source c r b hc
  · rw [hf]
    exact h.verdict c r result hc

theorem begin (h : Published s) (op : Operation) :
    Published (s.called op) := by
  have ho : op.call.source = none ∧ op.call.verdict = none := by cases op <;> exact ⟨rfl, rfl⟩
  refine { h with source := fun c r b hc => ?_, verdict := fun c r result hc => ?_ }
  · by_cases hcs : c = s.begun
    · simp [hcs, ho] at hc
    · exact h.source c r b (by simpa [hcs] using hc)
  · by_cases hcs : c = s.begun
    · simp [hcs, ho] at hc
    · exact h.verdict c r result (by simpa [hcs] using hc)

theorem step (h : Published s) (hl : Lifecycle s) (hs : s.step cfg l = some t) : Published t := by
  cases State.step_cases hs with
  | tick d => exact { h with }
  | begin op hh => exact h.begin op
  | call hx => exact h.served hl hx
  | worker hx => exact h.worked hx
  | dropClient _ hall => exact h.clientDropped

theorem of_reaches {labels : List Label} (h : Reaches cfg labels s) : Published s :=
  h.invariant_with (new cfg) (Lifecycle.new cfg) (fun _ _ _ hi hs => hi.step hs)
    fun _ _ _ hi hj _ _ hs => hi.step hj hs

/-- Whatever happens next, a first result stays what it is. -/
theorem firstResult_step {result : Except Error ConnectResult} {r : RunId} (hl : Lifecycle s)
    (hr : (s.mem.cells r).firstResult = some result) (hs : s.step cfg l = some t) :
    (t.mem.cells r).firstResult = some result := by
  have hlt : (r : ℕ) < s.mem.started := by
    by_contra hge
    rw [(hl.fresh r (not_lt.mp hge)).2.1] at hr
    cases hr
  cases State.step_cases hs with
  | tick d => exact hr
  | begin op hh => exact hr
  | call hx => rw [served_firstResult r (.inl hlt), hr]
  | worker hx => exact worked_firstResult hx hr
  | dropClient _ hall =>
    simp only [s.clientDropped_mem]
    split <;> exact hr

theorem firstResult_run {result : Except Error ConnectResult} {labels : List Label} (hl : Lifecycle s)
    (hr : (s.mem.cells r).firstResult = some result)
    (hrun : Run (State.step cfg) (fun _ _ => True) s labels t) :
    (t.mem.cells r).firstResult = some result :=
  hrun.invariant_with (I := fun s => (s.mem.cells r).firstResult = some result) hr hl
    (fun _ _ _ hj hs => hj.step hs) fun _ _ _ hi hj _ _ hs => firstResult_step hj hi hs

/-- Once the task has finished, both channels hold their last values. -/
theorem finished (h : Published s) (hl : Lifecycle s) (r : ℕ) (hr : r < s.mem.started)
    (hf : (s.mem.cells r).finished = true) :
    (∃ result, (s.mem.cells r).firstResult = some result) ∧
      ∃ e, (s.mem.cells r).status = .failed e := by
  have hover := (hl.finished r).1 hf
  have hc := h.coupled r hr
  exact ⟨Option.ne_none_iff_exists'.mp (hc.first (by rw [hover]; rfl)), hc.status (by rw [hover]; rfl)⟩

/-- A caller that waits on a finished run returns by its next step. -/
theorem wait_returns (h : Published s) (hl : Lifecycle s) {rt b : Bool} {r : ℕ}
    (hc : s.calls c = .connect rt (.wait r b)) (hf : (s.mem.cells r).finished = true) :
    ∃ result t, s.step cfg (.call c .go) = some t ∧
      t.calls c = .connect rt (.done (some (r, b)) result) := by
  obtain ⟨⟨first, hfirst⟩, e, he⟩ := h.finished hl r (h.source c r b (by rw [hc]; rfl)) hf
  cases b with
  | true =>
    refine ⟨first, s.served c (.connect rt (.done (some (r, true)) first)) .skip, ?_, by simp⟩
    simp [State.step, hc, Call.next, ConnectPhase.next, ConnectPhase.observe, hfirst]
  | false =>
    refine ⟨.error e, s.served c (.connect rt (.done (some (r, false)) (.error e))) .skip, ?_, by simp⟩
    simp [State.step, hc, Call.next, ConnectPhase.next, ConnectPhase.observe, he]

end Published

/-- Single flight: one worker at a time; a first result is written at most
once, is never replaced and is what every caller that waited for it returns;
and a finished run has published both its first result and its failure, so
that no caller keeps waiting. -/
theorem connect_single_flight {cfg : Config} {labels : List Label} {s : State}
    (h : Reaches cfg labels s) :
    (∀ r r', s.alive r → s.alive r' → r = r') ∧
    (∀ r, (s.trace r).filterMap Effect.firstWrite = (s.mem.cells r).firstResult.toList) ∧
    (∀ labels' t r result, Run (State.step cfg) (fun _ _ => True) s labels' t →
      (s.mem.cells r).firstResult = some result → (t.mem.cells r).firstResult = some result) ∧
    (∀ c rt r result, s.calls c = .connect rt (.done (some (r, true)) result) →
      (s.mem.cells r).firstResult = some result) ∧
    (∀ r : ℕ, r < s.mem.started → (s.mem.cells r).finished = true →
      (∃ result, (s.mem.cells r).firstResult = some result) ∧
        ∃ e, (s.mem.cells r).status = .failed e) ∧
    (∀ c rt r b, s.calls c = .connect rt (.wait r b) → (s.mem.cells r).finished = true →
      ∃ result t, s.step cfg (.call c .go) = some t ∧
        t.calls c = .connect rt (.done (some (r, b)) result)) := by
  have hl := Lifecycle.of_reaches h
  have hp := Published.of_reaches h
  refine ⟨fun r r' hr hr' => ?_, hp.writes, fun _ _ _ _ hrun hr => Published.firstResult_run hl hr hrun,
    fun c rt r result hc => hp.verdict c r result (by rw [hc]; rfl), hp.finished hl,
    fun c rt r b hc hf => hp.wait_returns hl hc hf⟩
  exact Nat.succ_injective ((hl.alive r hr).1.trans (hl.alive r' hr').1.symm)

theorem connect_single_flight_opening :
    ∃ s, Reaches (sample [accepted "u0"]) opening s ∧ s.alive 0 ∧ (∀ r, s.alive r → r = 0) ∧
      (s.trace 0).filterMap Effect.firstWrite = [.ok { reasonCode := 1 }] := by
  obtain ⟨s, hs, ho⟩ := reaches_of_play (sample [accepted "u0"]) opening
    (fun s => !(s.workers 0).phase.closed &&
      (s.mem.cells 0).firstResult = some (.ok { reasonCode := 1 })) (by decide +kernel)
  simp only [Bool.and_eq_true, Bool.not_eq_true', decide_eq_true_eq] at ho
  have halive : s.alive 0 := fun h => by simp [h, Phase.closed] at ho
  obtain ⟨h₁, h₂, -⟩ := connect_single_flight hs
  exact ⟨s, hs, halive, fun r hr => h₁ r 0 hr halive, by rw [h₂, ho.2]; rfl⟩

end WukongSdk
