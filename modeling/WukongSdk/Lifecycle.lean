import WukongSdk.Moves

/-!
# Life of the runs

Who holds the mutex, which run its entry names, and which worker is alive. A
run is replaced only under the mutex and only once its task has finished, so
the newest run alone can have a worker.
-/
namespace WukongSdk

namespace Call

/-- Points at which a call holds the mutex. -/
def holdsLock : Call → Bool
  | .send _ (.recheck _) | .send _ (.enqueue _) | .send _ (.abortLocked _)
  | .send _ (.refused _) | .send _ (.unlock _ _) => true
  | .connect _ .checkDestroyed | .connect _ .decide | .connect _ (.join _)
  | .connect _ (.unlock _ _) | .connect _ (.refused _) => true
  | .disconnect _ .cancel | .disconnect _ (.join _) => true
  | _ => false

/-- The run a call holding the mutex has read from it. -/
def entry : Call → Option RunId
  | .connect _ (.join r) | .connect _ (.unlock r _) => some r
  | .disconnect _ (.join r) => some r
  | .send _ (.unlock r _) => some r
  | _ => none

attribute [local grind =] Option.filter_eq_none_iff Option.filter_eq_some_iff
  Option.isNone_iff_eq_none Memory.serve Memory.modify Memory.freeSlot
attribute [local grind] holdsLock entry settled

variable {cfg : Config} {c : CallId} {m : Memory} {i : CallInput} {k k' : Call} {a : Act} {r : RunId}

theorem Moves.lock (h : k.Moves cfg c m i k' a) :
    (a = .lock ∧ m.lock = none ∧ k.holdsLock = false ∧ k'.holdsLock = true) ∨
    ((a = .unlock ∨ a = .clear) ∧ k.holdsLock = true ∧ k'.holdsLock = false) ∨
    ((m.serve c a).lock = m.lock ∧ k'.holdsLock = k.holdsLock) := by
  cases h with
  | @send args p p' a h => revert h; fun_cases SendPhase.next cfg c m args i p <;> grind -linarith
  | @connect rt p p' a h => revert h; fun_cases ConnectPhase.next m rt i p <;> grind -linarith
  | @disconnect d p p' a h => revert h; fun_cases DisconnectPhase.next m i p <;> grind -linarith

theorem Moves.running (h : k.Moves cfg c m i k' a) (he : ∀ r, k.entry = some r → m.running = some r) :
    ((a = .spawn ∨ a = .clear) ∧ k.holdsLock = true ∧
      ∀ r, m.running = some r → (m.cells r).finished) ∨
    ((m.serve c a).running = m.running ∧ (m.serve c a).started = m.started ∧ a ≠ .spawn) := by
  cases h with
  | @send args p p' a h => revert h; fun_cases SendPhase.next cfg c m args i p <;> grind -linarith
  | @connect rt p p' a h => revert h; fun_cases ConnectPhase.next m rt i p <;> grind -linarith
  | @disconnect d p p' a h => revert h; fun_cases DisconnectPhase.next m i p <;> grind -linarith

theorem Moves.entry (h : k.Moves cfg c m i k' a) (he : ∀ r, k.entry = some r → m.running = some r)
    (hr : k'.entry = some r) : (m.serve c a).running = some r := by
  revert hr
  cases h with
  | @send args p p' a h => revert h; fun_cases SendPhase.next cfg c m args i p <;> grind -linarith
  | @connect rt p p' a h => revert h; fun_cases ConnectPhase.next m rt i p <;> grind -linarith
  | @disconnect d p p' a h => revert h; fun_cases DisconnectPhase.next m i p <;> grind -linarith

theorem Moves.target (h : k.Moves cfg c m i k' a)
    (ha : a = .cancel r ∨ ∃ cmd, a = .enqueue r cmd) : m.running = some r := by
  revert ha
  cases h with
  | @send args p p' a h => revert h; fun_cases SendPhase.next cfg c m args i p <;> grind -linarith
  | @connect rt p p' a h => revert h; fun_cases ConnectPhase.next m rt i p <;> grind -linarith
  | @disconnect d p p' a h => revert h; fun_cases DisconnectPhase.next m i p <;> grind -linarith

theorem Moves.unsettled (h : k.Moves cfg c m i k' a) : k.settled = false := by
  cases h with
  | @send args p p' a h => revert h; fun_cases SendPhase.next cfg c m args i p <;> simp [settled]
  | @connect rt p p' a h => revert h; fun_cases ConnectPhase.next m rt i p <;> simp [settled]
  | @disconnect d p p' a h => revert h; fun_cases DisconnectPhase.next m i p <;> simp [settled]

theorem holdsLock_of_entry (h : k.entry = some r) : k.holdsLock = true := by
  unfold entry at h; split at h <;> simp_all [holdsLock]

theorem holdsLock_of_settled (h : k.settled = true) : k.holdsLock = false := by
  unfold settled at h; split at h <;> simp_all [holdsLock]

end Call

namespace Worker

variable {cfg : Config} {r : RunId} {m : Memory} {w w' : Worker} {i : Input} {e : Effect} {l : Label}

theorem next_finish (h : Access cfg r m w i w' e) (ho : w.phase = .over → w.dropping = none) :
    w.phase ≠ .over ∧ (e = .finish ↔ w'.phase = .over) ∧ (w'.phase = .over → w'.dropping = none) := by
  cases h
  all_goals grind -linarith

theorem Moves.finish (h : w.Moves cfg r m l w' e) (ho : w.phase = .over → w.dropping = none) :
    w.phase ≠ .over ∧ (e = .finish ↔ w'.phase = .over) ∧ (w'.phase = .over → w'.dropping = none) := by
  cases h with
  | next hp h => exact next_finish h ho
  | wake hp hw hc => simp [hw]
  | cancel hp hw hc => simp [hw]
  | resume hp hw => simp [hw]
  | suspend hp hd ha =>
    have hw : w.phase ≠ .over := fun hw => by simp [hw, awaits] at ha
    simp [hw]
end Worker

structure Lifecycle (s : State) : Prop where
  lock : ∀ c, s.mem.lock = some c ↔ (s.calls c).holdsLock = true
  entry : ∀ c r, (s.calls c).entry = some r → s.mem.running = some r
  idle : ∀ c, s.begun ≤ c → s.calls c = .idle
  handles : s.handles = false → ∀ c, (s.calls c).settled = true
  running : ∀ r : ℕ, s.mem.running = some r → r + 1 = s.mem.started
  alive : ∀ r : ℕ, s.alive r → r + 1 = s.mem.started ∧ (s.mem.running = some r ∨ s.handles = false)
  finished : ∀ r, (s.mem.cells r).finished = true ↔ (s.workers r).phase = .over
  ended : ∀ r, (s.workers r).phase = .over → (s.workers r).dropping = none
  fresh : ∀ r : ℕ, s.mem.started ≤ r →
    s.workers r = {} ∧ s.mem.cells r = { finished := true } ∧ s.trace r = []

namespace Lifecycle

variable {cfg : Config} {s t : State} {c : CallId} {i : CallInput} {k : Call} {a : Act} {r : RunId}
  {w : Worker} {e : Effect} {l : Label}

attribute [local grind =] Function.update_apply
attribute [local grind =] Memory.serve Memory.modify Memory.freeSlot State.spawnWorker

theorem new (cfg : Config) : Lifecycle (State.new cfg) where
  lock c := by simp [State.new, Call.holdsLock]
  entry c r := by simp [State.new, Call.entry]
  idle c _ := rfl
  handles := by simp [State.new]
  running r := by simp [State.new]
  alive r h := absurd rfl h
  finished r := by simp [State.new]
  ended r _ := rfl
  fresh r _ := ⟨rfl, rfl, rfl⟩

theorem begin (h : Lifecycle s) (op : Operation) (hh : s.handles = true) :
    Lifecycle (s.called op) := by
  have ho : op.call.holdsLock = false ∧ op.call.entry = none := by
    cases op <;> exact ⟨rfl, rfl⟩
  have hi : (s.calls s.begun).holdsLock = false := by rw [h.idle s.begun le_rfl]; rfl
  refine { h with lock := ?_, entry := ?_, idle := ?_, handles := ?_ }
  · have hl := h.lock
    simp only [State.called_mem, State.called_calls]
    grind -linarith
  · have he := h.entry
    simp only [State.called_mem, State.called_calls]
    grind -linarith
  · have hi := h.idle
    simp only [State.called_begun, State.called_calls]
    grind -linarith
  · simp [hh]

theorem served_lock (h : Lifecycle s) (hx : (s.calls c).Moves cfg c s.mem i k a) (c' : CallId) :
    (s.served c k a).mem.lock = some c' ↔ ((s.served c k a).calls c').holdsLock = true := by
  have hl := h.lock
  simp only [State.served_mem, State.served_calls]
  rcases hx.lock with ⟨rfl, hn, hk, hk'⟩ | ⟨rfl | rfl, hk, hk'⟩ | ⟨ha, hk⟩ <;> grind -linarith

/-- Only the holder of the mutex can have a run to join, so replacing or
clearing the entry disturbs no other call. -/
theorem served_entry (h : Lifecycle s) (hx : (s.calls c).Moves cfg c s.mem i k a) (c' : CallId)
    (r : RunId) (hr : ((s.served c k a).calls c').entry = some r) :
    (s.served c k a).mem.running = some r := by
  by_cases hc : c' = c
  · subst hc
    exact hx.entry (h.entry c') (by simpa using hr)
  · have hr' : (s.calls c').entry = some r := by simpa [hc] using hr
    have hold : s.mem.lock = some c' := (h.lock c').2 (Call.holdsLock_of_entry hr')
    rcases hx.running (h.entry c) with ⟨-, hk, -⟩ | ⟨ha, -⟩
    · have := hold.symm.trans ((h.lock c).2 hk)
      exact absurd (Option.some.inj this) hc
    · simpa [ha] using h.entry c' r hr'

theorem served_alive (h : Lifecycle s) (hx : (s.calls c).Moves cfg c s.mem i k a) (r : RunId)
    (hr : (s.served c k a).alive r) :
    r + 1 = (s.served c k a).mem.started ∧ (s.served c k a).mem.running = some r := by
  have hh : s.handles ≠ false := fun hf => by
    have := h.handles hf c
    rw [hx.unsettled] at this
    cases this
  rcases hx.running (h.entry c) with ⟨ha, -, hf⟩ | ⟨ha, hb, hc⟩
  · have none_alive : ∀ r, ¬ s.alive r := by
      intro r hr
      obtain ⟨-, hr' | hr'⟩ := h.alive r hr
      · exact hr ((h.finished r).1 (hf r hr'))
      · exact hh hr'
    rcases ha with rfl | rfl
    · by_cases hr' : r = s.mem.started
      · subst hr'
        exact ⟨rfl, rfl⟩
      · exact absurd (by simpa [State.alive, State.spawnWorker, hr'] using hr) (none_alive r)
    · exact absurd hr (none_alive r)
  · have hw : s.alive r := by
      cases a <;> simp_all [State.alive, State.spawnWorker]
    obtain ⟨h₁, h₂ | h₂⟩ := h.alive r hw
    · exact ⟨by simpa [hb] using h₁, by simpa [ha] using h₂⟩
    · exact absurd h₂ hh

theorem served_running (h : Lifecycle s) (hx : (s.calls c).Moves cfg c s.mem i k a) (r : RunId)
    (hr : (s.served c k a).mem.running = some r) : r + 1 = (s.served c k a).mem.started := by
  rcases hx.running (h.entry c) with ⟨rfl | rfl, -, -⟩ | ⟨ha, hb, -⟩
  · have : s.mem.started = r := by simpa [Memory.serve] using hr
    simp [Memory.serve, this]
  · simp [Memory.serve] at hr
  · simpa [hb] using h.running r (by simpa [ha] using hr)

theorem served_finished (h : Lifecycle s) (r : RunId) :
    ((s.served c k a).mem.cells r).finished = true ↔ ((s.served c k a).workers r).phase = .over := by
  have hf := h.finished r
  rcases s.mem.serve_cells r c a with ha | ⟨rfl, rfl, ha⟩ | ⟨rfl, ha⟩ | ⟨cmd, rfl, ha⟩
  · rcases s.spawnWorker_cases r a with hw | ⟨rfl, rfl, hw⟩
    · simpa [ha, hw] using hf
    · simp [Memory.serve] at ha
      simp [Memory.serve, hw, Worker.spawned]
  · simp [ha, State.spawnWorker, Worker.spawned]
  · simpa [ha, State.spawnWorker] using hf
  · simpa [ha, State.spawnWorker] using hf

theorem served (h : Lifecycle s) (hx : (s.calls c).Moves cfg c s.mem i k a) :
    Lifecycle (s.served c k a) where
  lock := h.served_lock hx
  entry := h.served_entry hx
  idle c' hle := by
    have hne : c' ≠ c := by
      rintro rfl
      have := hx.unsettled
      rw [h.idle c' hle] at this
      cases this
    simpa [hne] using h.idle c' hle
  handles hf := by
    have := h.handles hf c
    rw [hx.unsettled] at this
    cases this
  running := h.served_running hx
  alive r hr := (h.served_alive hx r hr).imp_right .inl
  finished := h.served_finished
  ended r hr := by
    rcases s.spawnWorker_cases r a with hw | ⟨-, -, hw⟩
    · simp only [State.served_workers, hw] at hr ⊢
      exact h.ended r hr
    · simp only [State.served_workers, hw] at hr ⊢
      rfl
  fresh r hr := by
    have hle : s.mem.started ≤ (s.served c k a).mem.started := by
      cases a <;> simp [Memory.serve, Memory.freeSlot, Memory.modify]
    have hold := h.fresh r (hle.trans hr)
    have target : ¬ (a = .cancel r ∨ ∃ cmd, a = .enqueue r cmd) := fun ha => by
      have := h.running r (hx.target ha)
      have := hle.trans hr
      omega
    have hspawn : a = .spawn → r ≠ s.mem.started := by
      rintro rfl rfl
      simp only [State.served_mem, Memory.serve] at hr
      omega
    refine ⟨?_, ?_, hold.2.2⟩
    · rcases s.spawnWorker_cases r a with hw | ⟨ha, hr', -⟩
      · exact hw.trans hold.1
      · exact absurd hr' (hspawn ha)
    · rcases s.mem.serve_cells r c a with hm | ⟨ha, hr', -⟩ | ⟨ha, -⟩ | ⟨cmd, ha, -⟩
      · exact hm.trans hold.2.1
      · exact absurd hr' (hspawn ha)
      · exact absurd (.inl ha) target
      · exact absurd (.inr ⟨cmd, ha⟩) target

/-- Only the newest run has a worker, and it moves alone. -/
theorem worked (h : Lifecycle s) (hx : (s.workers r).Moves cfg r s.mem l w e) :
    Lifecycle (s.worked r w e) where
  lock := by simpa using h.lock
  entry := by simpa using h.entry
  idle := by simpa using h.idle
  handles := by simpa using h.handles
  running := by simpa using h.running
  alive r' hr := by
    have hold : s.alive r' := by
      by_cases hr' : r' = r
      · exact hr' ▸ (hx.finish (h.ended r)).1
      · simpa [State.alive, hr'] using hr
    simpa using h.alive r' hold
  finished r' := by
    have hfin := hx.finish (h.ended r)
    by_cases hr' : r' = r
    · subst hr'
      rw [State.worked_mem, Memory.work_cells]
      simp
      have := h.finished r'
      cases e <;> simp_all [Effect.onCells]
    · simpa [Memory.work_cells, hr'] using h.finished r'
  ended r' hr := by
    by_cases hr' : r' = r
    · subst hr'
      simpa using (hx.finish (h.ended r')).2.2 (by simpa using hr)
    · simpa [hr'] using h.ended r' (by simpa [hr'] using hr)
  fresh r' hr := by
    have hne : r' ≠ r := by
      rintro rfl
      have := h.fresh r' (by simpa using hr)
      exact (hx.finish (h.ended r')).1 (by rw [this.1])
    simpa [hne, Memory.work_cells, State.trace, hne.symm] using h.fresh r' (by simpa using hr)

theorem clientDropped (h : Lifecycle s) (hs : ∀ c < s.begun, (s.calls c).settled = true) :
    Lifecycle s.clientDropped := by
  have all_settled : ∀ c, (s.calls c).settled = true := fun c => by
    by_cases hc : c < s.begun
    · exact hs c hc
    · rw [h.idle c (Nat.le_of_not_lt hc)]; rfl
  have no_entry : ∀ c, (s.calls c).entry = none := fun c =>
    Option.eq_none_iff_forall_ne_some.mpr fun r hr => by
      have := Call.holdsLock_of_settled (all_settled c)
      rw [Call.holdsLock_of_entry hr] at this
      cases this
  have hm := s.clientDropped_mem
  refine
    { idle := h.idle, ended := h.ended, handles := fun _ => all_settled,
      lock := ?_, entry := ?_, running := ?_, alive := ?_, finished := ?_, fresh := ?_ }
  · simpa [hm] using h.lock
  · intro c r hc
    rw [State.clientDropped_calls, no_entry c] at hc
    cases hc
  · simp [hm]
  · intro r hr
    exact ⟨by simpa [hm] using (h.alive r hr).1, .inr rfl⟩
  · intro r
    have hf := h.finished r
    simp only [hm, State.clientDropped_workers]
    split <;> exact hf
  · intro r hle
    have hle' : s.mem.started ≤ r := by simpa [hm] using hle
    have hne : s.mem.running ≠ some r := fun hr => by
      have := h.running r hr
      omega
    simpa [hm, hne] using h.fresh r hle'

theorem step (h : Lifecycle s) (hs : s.step cfg l = some t) : Lifecycle t := by
  cases State.step_cases hs with
  | tick d => exact { h with }
  | begin op hh => exact h.begin op hh
  | call hx => exact h.served hx
  | worker hx => exact h.worked hx
  | dropClient _ hall => exact h.clientDropped hall

theorem of_reaches {labels : List Label} (h : Reaches cfg labels s) : Lifecycle s :=
  h.invariant (new cfg) fun _ _ _ hi _ hs => hi.step hs

/-- At most one worker is alive. -/
theorem alone {r' : RunId} (h : Lifecycle s) (hr : s.alive r) (hr' : s.alive r') : r = r' :=
  Nat.succ_injective ((h.alive r hr).1.trans (h.alive r' hr').1.symm)

end Lifecycle
end WukongSdk
