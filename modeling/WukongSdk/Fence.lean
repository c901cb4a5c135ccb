import WukongSdk.Results

/-!
# Teardown

`connected` is up only while a worker is before the end of its run, and a
`disconnect` returns only when no worker is left. So between that moment and
the next spawn nothing is emitted or written, and after a `destroy` nothing
ever is.
-/
namespace WukongSdk

/-- Points of `run` after `connected` is lowered for the last time. -/
def Phase.lowered : Phase → Bool
  | .first _ | .status _ | .close _ | .drain _ | .drained _ _ | .over => true
  | _ => false

namespace Worker

variable {cfg : Config} {r : RunId} {m : Memory} {w w' : Worker} {i : Input} {e : Effect} {l : Label}

attribute [local grind] Phase.lowered

theorem next_lowered (h : Access cfg r m w i w' e) :
    (w'.phase.lowered = true → w.phase.lowered = true ∨ e = .setConnected false) ∧
    (e = .setConnected true → w'.phase.lowered = false) := by
  cases h
  all_goals grind -linarith

theorem Moves.lowered (h : w.Moves cfg r m l w' e) :
    (w'.phase.lowered = true → w.phase.lowered = true ∨ e = .setConnected false) ∧
    (e = .setConnected true → w'.phase.lowered = false) := by
  cases h with
  | next hp h => exact next_lowered h
  | wake hp hw hc | resume hp hw => exact ⟨.inl, nofun⟩
  | cancel hp hw hc => exact ⟨nofun, nofun⟩
  | suspend hp hd ha => exact ⟨.inl, nofun⟩

end Worker

/-- `connected` is up only in the middle of a run. -/
def Upheld (s : State) : Prop :=
  s.mem.connected = true → ∃ r, (s.workers r).phase.lowered = false

namespace State

variable {cfg : Config} {s t : State} {c : CallId} {i : CallInput} {k : Call} {a : Act} {r : RunId}
  {w : Worker} {e : Effect} {l : Label}

theorem alive_of_not_lowered (h : (s.workers r).phase.lowered = false) : s.alive r := by
  intro ho
  rw [ho] at h
  cases h

theorem work_connected (m : Memory) (r : RunId) (e : Effect) :
    (m.work r e).connected = true → e = .setConnected true ∨
        (m.connected = true ∧ e ≠ .setConnected false) := by
  cases e with
  | setConnected b => cases b <;> simp [Memory.work]
  | _ => simp [Memory.work, Memory.freeSlot, Memory.setSender, Memory.modify]

theorem upheld_step (hu : Upheld s) (hl : Lifecycle s) (hs : s.step cfg l = some t) : Upheld t := by
  cases State.step_cases hs with
  | tick d => exact hu
  | begin op hh => exact hu
  | @call c i k a hx =>
    intro hc
    obtain ⟨r, hr⟩ := hu (by simpa using hc)
    refine ⟨r, ?_⟩
    rcases s.spawnWorker_cases r a with hw | ⟨-, -, hw⟩
    · rw [served_workers, hw, hr]
    · rw [served_workers, hw]; rfl
  | @worker r l w e hx =>
    intro hc
    refine ⟨r, ?_⟩
    rw [worked_workers, Function.update_self]
    rcases work_connected _ _ _ hc with he | ⟨hc, he⟩
    · exact hx.lowered.2 he
    · obtain ⟨r', hr'⟩ := hu hc
      have heq : r' = r := by
        have h₁ := (hl.alive r' (alive_of_not_lowered hr')).1
        have h₂ := (hl.alive r (hx.finish (hl.ended r)).1).1
        exact Nat.succ_injective (h₁.trans h₂.symm)
      subst heq
      by_contra hne
      rcases hx.lowered.1 (by simpa using hne) with hw | he'
      · rw [hr'] at hw; cases hw
      · exact he he'
  | dropClient _ _ =>
    intro hc
    exact hu (by simpa [clientDropped_mem] using hc)

theorem upheld_of_reaches {labels : List Label} (h : Reaches cfg labels s) : Upheld s :=
  h.invariant_with (I := Upheld) nofun (Lifecycle.new cfg) (fun _ _ _ hi hs => hi.step hs)
    fun _ _ _ hi hj _ _ hs => upheld_step hi hj hs

/-- Accesses of workers after `s` are those of the newest run or of later ones. -/
theorem log_step (hl : Lifecycle s) (hs : s.step cfg l = some t) :
    s.mem.started ≤ t.mem.started ∧
    (t.log = s.log ∨ ∃ r e, t.log = s.log ++ [(r, e)] ∧ s.alive r) := by
  cases State.step_cases hs with
  | tick d => exact ⟨le_rfl, .inl rfl⟩
  | begin op hh => exact ⟨le_rfl, .inl rfl⟩
  | @call c i k a hx =>
    refine ⟨?_, .inl rfl⟩
    rcases s.mem.serve_started c a with ha | ⟨-, ha⟩ <;> simp [ha]
  | @worker r l w e hx =>
    exact ⟨by simp, .inr ⟨r, e, rfl, (hx.finish (hl.ended r)).1⟩⟩
  | dropClient _ _ => exact ⟨by simp [clientDropped_mem], .inl rfl⟩

/-- No run but the newest, and those that follow it, ever acts again. -/
theorem log_run {labels : List Label} (hl : Lifecycle s)
    (hrun : Run (State.step cfg) (fun _ _ => True) s labels t) :
    s.mem.started ≤ t.mem.started ∧
    ∃ rest, t.log = s.log ++ rest ∧ ∀ x ∈ rest, s.mem.started ≤ x.1 + 1 := by
  refine hrun.relation (R := fun s t => s.mem.started ≤ t.mem.started ∧
    ∃ rest, t.log = s.log ++ rest ∧ ∀ x ∈ rest, s.mem.started ≤ x.1 + 1) hl
        (fun _ _ _ hj hs => hj.step hs)
    ⟨le_rfl, [], by simp, by simp⟩ ?_
  rintro t l u ⟨hle, rest, hlog, hrest⟩ hlt hs
  obtain ⟨hle', hcase⟩ := log_step hlt hs
  refine ⟨hle.trans hle', ?_⟩
  rcases hcase with heq | ⟨r, e, heq, hr⟩
  · exact ⟨rest, heq.trans hlog, hrest⟩
  · refine ⟨rest ++ [(r, e)], by rw [heq, hlog, List.append_assoc], ?_⟩
    intro x hx
    rcases List.mem_append.mp hx with hx | hx
    · exact hrest x hx
    · obtain rfl := List.mem_singleton.mp hx
      rw [(hlt.alive r hr).1]
      exact hle

/-- A worker comes alive only by a spawn. -/
theorem alive_step (hl : Lifecycle s) (hs : s.step cfg l = some t) (hr : t.alive r) :
    s.alive r ∨ s.mem.started < t.mem.started := by
  cases State.step_cases hs with
  | tick d => exact .inl hr
  | begin op hh => exact .inl hr
  | @call c i k a hx =>
    rcases s.spawnWorker_cases r a with hw | ⟨rfl, -, -⟩
    · left
      simpa [alive, hw] using hr
    · right
      simp [Memory.serve]
  | @worker r' l w e hx =>
    left
    by_cases hr' : r = r'
    · exact hr' ▸ (hx.finish (hl.ended r')).1
    · simpa [alive, hr'] using hr
  | dropClient _ _ => exact .inl hr

/-- While no worker is left and none is spawned, nothing is logged; what is
logged later belongs to runs spawned later. -/
theorem torn_run {labels : List Label} (hl : Lifecycle s) (htorn : ∀ r, ¬ s.alive r)
    (hrun : Run (State.step cfg) (fun _ _ => True) s labels t) :
    (t.mem.started = s.mem.started → (∀ r, ¬ t.alive r) ∧ t.log = s.log) ∧
    ∃ rest, t.log = s.log ++ rest ∧ ∀ x ∈ rest, s.mem.started ≤ x.1 := by
  have hall : s.mem.started ≤ t.mem.started ∧
      (t.mem.started = s.mem.started → (∀ r, ¬ t.alive r) ∧ t.log = s.log) ∧
      ∃ rest, t.log = s.log ++ rest ∧ ∀ x ∈ rest, s.mem.started ≤ x.1 := by
    refine hrun.relation (R := fun s t => s.mem.started ≤ t.mem.started ∧
      (t.mem.started = s.mem.started → (∀ r, ¬ t.alive r) ∧ t.log = s.log) ∧
      ∃ rest, t.log = s.log ++ rest ∧ ∀ x ∈ rest, s.mem.started ≤ x.1) hl
      (fun _ _ _ hj hs => hj.step hs) ⟨le_rfl, fun _ => ⟨htorn, rfl⟩, [], by simp, by simp⟩ ?_
    rintro t l u ⟨hle, hquiet, rest, hlog, hrest⟩ hlt hs
    obtain ⟨hle', hcase⟩ := log_step hlt hs
    refine ⟨hle.trans hle', fun heq => ?_, ?_⟩
    · obtain ⟨hnone, hsame⟩ := hquiet (by omega)
      refine ⟨fun r hr => ?_, ?_⟩
      · rcases alive_step hlt hs hr with hr | hlt
        · exact hnone r hr
        · omega
      · rcases hcase with hl' | ⟨r, e, -, hr⟩
        · exact hl'.trans hsame
        · exact absurd hr (hnone r)
    · rcases hcase with heq | ⟨r, e, heq, hr⟩
      · exact ⟨rest, heq.trans hlog, hrest⟩
      · refine ⟨rest ++ [(r, e)], by rw [heq, hlog, List.append_assoc], ?_⟩
        intro x hx
        rcases List.mem_append.mp hx with hx | hx
        · exact hrest x hx
        · obtain rfl := List.mem_singleton.mp hx
          have halive := (hlt.alive r hr).1
          by_contra hlt'
          have hsame : t.mem.started = s.mem.started := by
            have : (r : ℕ) < s.mem.started := not_le.mp hlt'
            omega
          exact (hquiet hsame).1 r hr
  exact hall.2

end State

namespace Call

attribute [local grind =] Memory.serve Memory.modify Memory.freeSlot
variable {cfg : Config} {c : CallId} {m : Memory} {i : CallInput} {k k' : Call} {a : Act}
    {r : RunId} {d : Bool}

/-- The last step of a disconnect clears the entry and frees the mutex. -/
theorem Moves.disconnected (h : k.Moves cfg c m i k' a) (hk : k' = .disconnect d .done) :
    a = .clear := by
  revert hk
  cases h with
  | @send args p p' a h => nofun
  | @connect rt p p' a h => nofun
  | @disconnect d p p' a h => revert h; fun_cases DisconnectPhase.next m i p <;> grind -linarith

end Call

namespace State

variable {cfg : Config} {s t : State} {c : CallId} {l : Label} {d : Bool}

/-- The step by which a `disconnect`, or a `destroy`, returns leaves no worker,
no entry and no holder of the mutex. -/
theorem disconnect_returns (hl : Lifecycle s) (hs : s.step cfg l = some t)
    (hbefore : s.calls c ≠ .disconnect d .done) (hafter : t.calls c = .disconnect d .done) :
    (∀ r, ¬ t.alive r) ∧ t.mem.running = none ∧ t.mem.lock = none := by
  have hlt := hl.step hs
  have hclear : t.mem.running = none ∧ t.mem.lock = none ∧ t.handles ≠ false := by
    cases State.step_cases hs with
    | tick _ => exact absurd hafter hbefore
    | begin op _ =>
      by_cases hc : c = s.begun
      · simp only [called_calls, hc, Function.update_self] at hafter
        cases op <;> cases hafter
      · exact absurd (by simpa [hc] using hafter) hbefore
    | @call c' i k a hx =>
      by_cases hc : c = c'
      · subst hc
        obtain rfl := hx.disconnected (d := d) (by simpa using hafter)
        refine ⟨rfl, rfl, fun hf => ?_⟩
        have := hl.handles hf c
        rw [hx.unsettled] at this
        cases this
      · exact absurd (by simpa [hc] using hafter) hbefore
    | worker _ => exact absurd hafter hbefore
    | dropClient _ _ => exact absurd hafter hbefore
  refine ⟨fun r hr => ?_, hclear.1, hclear.2.1⟩
  rcases (hlt.alive r hr).2 with h | h
  · rw [hclear.1] at h
    cases h
  · exact hclear.2.2 h

end State

/-! ## After a destroy -/

/-- What a call begun after a `destroy` can have come to. -/
def Call.turnedAway : Call → Prop
  | .send _ p =>
    match p with
    | .start | .dropped => True
    | .done result => result = .error .destroyed
    | _ => False
  | .connect _ p =>
    match p with
    | .lock | .checkDestroyed | .dropped => True
    | .refused e => e = .destroyed
    | .done source result => source = none ∧ result = .error .destroyed
    | _ => False
  | _ => True

/-- A destroyed client after the teardown; `n` calls had begun by then. -/
structure Gone (n : ℕ) (s : State) : Prop where
  destroyed : s.mem.destroyed = true
  running : s.mem.running = none
  torn : ∀ r, ¬ s.alive r
  decide : ∀ c rt, s.calls c ≠ .connect rt .decide
  late : ∀ c, n ≤ c → (s.calls c).turnedAway

namespace Call

attribute [local grind =] Memory.serve Memory.modify Memory.freeSlot
attribute [local grind] turnedAway
variable {cfg : Config} {c : CallId} {m : Memory} {i : CallInput} {k k' : Call} {a : Act}
    {r : RunId} {d : Bool}

theorem Moves.turnedAway (h : k.Moves cfg c m i k' a) (hd : m.destroyed = true) (hk : k.turnedAway) :
    k'.turnedAway := by
  cases h with
  | @send args p p' a h => revert h; fun_cases SendPhase.next cfg c m args i p <;> grind -linarith
  | @connect rt p p' a h => revert h; fun_cases ConnectPhase.next m rt i p <;> grind -linarith
  | @disconnect d p p' a h => trivial

/-- A `destroy` that is past its first step. -/
def destroying : Call → Bool
  | .disconnect true .mark | .disconnect true (.dropped none) => false
  | .disconnect true _ => true
  | _ => false

attribute [local grind] destroying

theorem Moves.destroying (h : k.Moves cfg c m i k' a) (hk : k'.destroying = true) :
    (m.serve c a).destroyed = true ∨ k.destroying = true := by
  revert hk
  cases h with
  | @send args p p' a h => nofun
  | @connect rt p p' a h => nofun
  | @disconnect d p p' a h =>
    cases d <;> revert h <;> fun_cases DisconnectPhase.next m i p <;> grind -linarith

theorem Moves.not_decide (h : k.Moves cfg c m i k' a) (hd : m.destroyed = true) (rt : Bool) :
    k' ≠ .connect rt .decide := by
  cases h with
  | @send args p p' a h => rintro ⟨⟩
  | @connect rt p p' a h => revert h; fun_cases ConnectPhase.next m rt i p <;> grind -linarith
  | @disconnect d p p' a h => rintro ⟨⟩

theorem Moves.spawned (h : k.Moves cfg c m i k' .spawn) : ∃ rt, k = .connect rt .decide := by
  cases h with
  | @send args p p' a h => revert h; fun_cases SendPhase.next cfg c m args i p <;> grind -linarith
  | @connect rt p p' a h => revert h; fun_cases ConnectPhase.next m rt i p <;> grind -linarith
  | @disconnect d p p' a h => revert h; fun_cases DisconnectPhase.next m i p <;> grind -linarith
end Call

/-- A `destroy` past its first step has set the flag. -/
def DestroyMarked (s : State) : Prop :=
  ∀ c, (s.calls c).destroying = true → s.mem.destroyed = true

namespace DestroyMarked

variable {cfg : Config} {s t : State} {l : Label}

theorem step (h : DestroyMarked s) (hs : s.step cfg l = some t) : DestroyMarked t := by
  intro c hc
  cases State.step_cases hs with
  | tick d => exact h c hc
  | begin op hh =>
    by_cases hcb : c = s.begun
    · simp only [State.called_calls, hcb, Function.update_self] at hc
      cases op <;> cases hc
    · exact h c (by simpa [hcb] using hc)
  | @call c' i k a hx =>
    by_cases hcc : c = c'
    · subst hcc
      rcases hx.destroying (by simpa using hc) with hd | hd
      · exact hd
      · exact s.mem.serve_destroyed c a (h c hd)
    · exact s.mem.serve_destroyed c' a (h c (by simpa [hcc] using hc))
  | worker hx => simpa using h c hc
  | dropClient _ _ => simpa [s.clientDropped_mem] using h c hc

theorem of_reaches {labels : List Label} (h : Reaches cfg labels s) : DestroyMarked s :=
  h.invariant (fun c hc => by simp [State.new, Call.destroying] at hc) fun _ _ _ hi _ hs => hi.step hs

end DestroyMarked

namespace Gone

variable {cfg : Config} {s t : State} {c : CallId} {l : Label} {d : Bool} {n : ℕ}

theorem step (h : Gone n s) (hl : Lifecycle s) (hs : s.step cfg l = some t) :
    Gone n t ∧ t.mem.started = s.mem.started := by
  cases State.step_cases hs with
  | tick d => exact ⟨{ h with }, rfl⟩
  | begin op hh =>
    refine ⟨{ h with decide := fun c rt => ?_, late := fun c hc => ?_ }, rfl⟩
    · by_cases hcb : c = s.begun
      · simp only [State.called_calls, hcb, Function.update_self]
        cases op <;> nofun
      · simpa [hcb] using h.decide c rt
    · by_cases hcb : c = s.begun
      · simp only [State.called_calls, hcb, Function.update_self]
        cases op <;> trivial
      · simpa [hcb] using h.late c hc
  | @call c' i k a hx =>
    have hspawn : a ≠ .spawn := by
      rintro rfl
      obtain ⟨rt, hk⟩ := hx.spawned
      exact h.decide c' rt hk
    have hstarted : (s.mem.serve c' a).started = s.mem.started :=
      (s.mem.serve_started c' a).resolve_right fun h => hspawn h.1
    refine ⟨⟨s.mem.serve_destroyed c' a h.destroyed, ?_, fun r hr => ?_, fun c rt => ?_,
      fun c hc => ?_⟩, hstarted⟩
    · have := h.running
      cases a <;> simp_all [Memory.serve, Memory.freeSlot, Memory.modify]
    · rcases State.alive_step hl hs hr with hr | hlt
      · exact h.torn r hr
      · simp [hstarted] at hlt
    · by_cases hc : c = c'
      · subst hc
        simpa using hx.not_decide h.destroyed rt
      · simpa [hc] using h.decide c rt
    · by_cases hcc : c = c'
      · subst hcc
        simpa using hx.turnedAway h.destroyed (h.late c hc)
      · simpa [hcc] using h.late c hc
  | @worker r l w e hx => exact absurd (hx.finish (hl.ended r)).1 (h.torn r)
  | dropClient _ _ =>
    have hm := s.clientDropped_mem
    exact ⟨⟨by simpa [hm] using h.destroyed, by simp [hm], h.torn, h.decide, h.late⟩, by simp [hm]⟩

theorem run {labels : List Label} (h : Gone n s) (hl : Lifecycle s)
    (hrun : Run (State.step cfg) (fun _ _ => True) s labels t) :
    Gone n t ∧ t.mem.started = s.mem.started :=
  hrun.relation (R := fun s t => Gone n t ∧ t.mem.started = s.mem.started) hl
    (fun _ _ _ hj hs => hj.step hs) ⟨h, rfl⟩
    fun t l u hr ht hs => by
      obtain ⟨hg, heq⟩ := hr.1.step ht hs
      exact ⟨hg, heq.trans hr.2⟩

variable (cfg) in
/-- The run of a script of steps `go` of one call. -/
theorem go {k : Call} {a : Act} (h : (s.calls c).next cfg c s.mem .go = some (k, a)) :
    Run (State.step cfg) (fun _ _ => True) s [.call c .go] (s.served c k a) :=
  .single trivial (by simp [State.step, h])

variable (cfg) in
/-- A call that holds the mutex frees it by steps of its own. -/
theorem releases (h : Gone n s) (hl : Lifecycle s) (hu : Upheld s) (hc : s.mem.lock = some c) :
    ∃ labels t, Run (State.step cfg) (fun _ _ => True) s labels t ∧ t.mem.lock = none ∧
      ∀ c', c' ≠ c → t.calls c' = s.calls c' := by
  have hholds := (hl.lock c).1 hc
  have hentry : (s.calls c).entry = none := Option.eq_none_iff_forall_ne_some.mpr fun r hr => by
    have := hl.entry c r hr
    rw [h.running] at this
    cases this
  have hdown : s.mem.connected = false := by
    by_contra hup
    obtain ⟨r, hr⟩ := hu (by simpa using hup)
    exact h.torn r (State.alive_of_not_lowered hr)
  have once : ∀ {k}, (s.calls c).next cfg c s.mem .go = some (k, .unlock) ∨
      (s.calls c).next cfg c s.mem .go = some (k, .clear) →
      ∃ labels t, Run (State.step cfg) (fun _ _ => True) s labels t ∧ t.mem.lock = none ∧
        ∀ c', c' ≠ c → t.calls c' = s.calls c' := by
    rintro k (hn | hn)
    · exact ⟨_, _, go cfg hn, rfl, fun c' hne => by simp [hne]⟩
    · exact ⟨_, _, go cfg hn, rfl, fun c' hne => by simp [hne]⟩
  have twice : ∀ {k k'}, (s.calls c).next cfg c s.mem .go = some (k, .skip) →
      k.next cfg c s.mem .go = some (k', .unlock) →
      ∃ labels t, Run (State.step cfg) (fun _ _ => True) s labels t ∧ t.mem.lock = none ∧
        ∀ c', c' ≠ c → t.calls c' = s.calls c' := by
    intro k k' hn hn'
    exact ⟨_, _, (go cfg hn).append (go cfg (c := c) (k := k') (a := .unlock)
        (by simpa [Memory.serve] using hn')),
      rfl,
      fun c' hne => by simp [hne]⟩
  have hrun := h.running
  have hdes := h.destroyed
  cases hk : s.calls c with
  | idle => simp [hk, Call.holdsLock] at hholds
  | send args p =>
    cases p with
    | recheck cmd =>
      exact twice (k := .send args (.abortLocked .notConnected))
          (by simp [hk, Call.next, SendPhase.next, hdown]) rfl
    | enqueue cmd =>
      exact twice (k := .send args (.abortLocked .notConnected))
          (by simp [hk, Call.next, SendPhase.next, hrun]) rfl
    | abortLocked e => exact once (.inl (by rw [hk]; rfl))
    | refused e => exact once (.inl (by rw [hk]; rfl))
    | unlock r cmd => exact once (.inl (by rw [hk]; rfl))
    | _ => simp [hk, Call.holdsLock] at hholds
  | connect rt p =>
    cases p with
    | checkDestroyed =>
      exact twice (k := .connect rt (.refused .destroyed))
          (by simp [hk, Call.next, ConnectPhase.next, hdes]) rfl
    | decide => exact absurd hk (h.decide c rt)
    | join r => simp [hk, Call.entry] at hentry
    | unlock r b => exact once (.inl (by rw [hk]; rfl))
    | refused e => exact once (.inl (by rw [hk]; rfl))
    | _ => simp [hk, Call.holdsLock] at hholds
  | disconnect d p =>
    cases p with
    | cancel =>
      exact once (k := .disconnect d .done)
        (.inr (by simp [hk, Call.next, DisconnectPhase.next, hrun]))
    | join r => simp [hk, Call.entry] at hentry
    | _ => simp [hk, Call.holdsLock] at hholds

variable (cfg) in
/-- A connect call that has the mutex free to it returns `Destroyed`. -/
theorem refuses (h : Gone n s) {rt : Bool} (hfree : s.mem.lock = none)
    (hc : s.calls c = .connect rt .lock) :
    ∃ labels t, Run (State.step cfg) (fun _ _ => True) s labels t ∧
      t.calls c = .connect rt (.done none (.error .destroyed)) := by
  have hdes := h.destroyed
  have h₁ := go cfg (c := c) (k := .connect rt .checkDestroyed) (a := .lock) (s := s)
    (by simp [hc, Call.next, ConnectPhase.next, hfree])
  have h₂ := h₁.append (go cfg (c := c) (k := .connect rt (.refused .destroyed)) (a := .skip)
    (by simp [Call.next, ConnectPhase.next, Memory.serve, hdes]))
  have h₃ := h₂.append (go cfg (c := c) (k := .connect rt (.done none (.error .destroyed)))
    (a := .unlock) (by simp [Call.next, ConnectPhase.next]))
  exact ⟨_, _, h₃, by simp⟩

/-- Whatever point a late connect call is at, it can return `Destroyed`. -/
theorem connect_returns (h : Gone n s) (hl : Lifecycle s) (hu : Upheld s) (hn : n ≤ c) {rt : Bool}
    {p : ConnectPhase} (hc : s.calls c = .connect rt p) (hp : p ≠ .dropped) :
    ∃ labels t, Run (State.step cfg) (fun _ _ => True) s labels t ∧
      t.calls c = .connect rt (.done none (.error .destroyed)) := by
  have hlate := h.late c hn
  have hdes := h.destroyed
  rw [hc] at hlate
  cases p with
  | lock =>
    cases hfree : s.mem.lock with
    | none => exact h.refuses cfg hfree hc
    | some c' =>
      obtain ⟨labels, t, hrun, hfree', hframe⟩ := h.releases cfg hl hu hfree
      have hne : c ≠ c' := by
        rintro rfl
        have := (hl.lock c).1 hfree
        simp [hc, Call.holdsLock] at this
      obtain ⟨labels', t', hrun', ht'⟩ :=
        (h.run hl hrun).1.refuses cfg hfree' ((hframe c hne).trans hc)
      exact ⟨_, t', hrun.append hrun', ht'⟩
  | checkDestroyed =>
    have h₁ := go cfg (c := c) (k := .connect rt (.refused .destroyed)) (a := .skip) (s := s)
      (by simp [hc, Call.next, ConnectPhase.next, hdes])
    have h₂ := h₁.append (go cfg (c := c) (k := .connect rt (.done none (.error .destroyed)))
      (a := .unlock) (by simp [Call.next, ConnectPhase.next]))
    exact ⟨_, _, h₂, by simp⟩
  | refused e =>
    obtain rfl : e = .destroyed := hlate
    exact ⟨_, _, go cfg (c := c) (k := .connect rt (.done none (.error .destroyed)))
      (a := .unlock) (by simp [hc, Call.next, ConnectPhase.next]), by simp⟩
  | done source result =>
    obtain ⟨rfl, rfl⟩ : source = none ∧ result = .error .destroyed := hlate
    exact ⟨[], s, .nil s, hc⟩
  | dropped => exact absurd rfl hp
  | _ => exact hlate.elim

/-- The step by which a `destroy` returns leaves its client in this state. -/
theorem of_destroy (hl : Lifecycle s) (hd : DestroyMarked s) (hs : s.step cfg l = some t)
    (hbefore : s.calls c ≠ .disconnect true .done) (hafter : t.calls c = .disconnect true .done) :
    Gone t.begun t := by
  obtain ⟨htorn, hrunning, hlock⟩ := State.disconnect_returns hl hs hbefore hafter
  have hlt := hl.step hs
  refine ⟨?_, hrunning, htorn, fun c' rt hc => ?_, fun c' hc => ?_⟩
  · exact hd.step hs c (by rw [hafter]; rfl)
  · have := (hlt.lock c').2 (by rw [hc]; rfl)
    rw [hlock] at this
    cases this
  · rw [hlt.idle c' hc]
    trivial

end Gone

theorem teardown_fence {cfg : Config} {labels : List Label} {s : State}
    (h : Reaches cfg labels s) :
    (∀ labels' t, Run (State.step cfg) (fun _ _ => True) s labels' t →
      ∃ rest, t.log = s.log ++ rest ∧ ∀ x ∈ rest, s.mem.started ≤ x.1 + 1) ∧
    ∀ l s' c destroy, s.step cfg l = some s' → s.calls c ≠ .disconnect destroy .done →
      s'.calls c = .disconnect destroy .done →
      ∀ labels' t, Run (State.step cfg) (fun _ _ => True) s' labels' t →
        (t.mem.started = s'.mem.started → t.mem.connected = false ∧ t.log = s'.log) ∧
        (∃ rest, t.log = s'.log ++ rest ∧ ∀ x ∈ rest, s'.mem.started ≤ x.1) ∧
        (destroy = true → t.mem.connected = false ∧ t.log = s'.log ∧
          (∀ c' args result, s'.begun ≤ c' → t.calls c' = .send args (.done result) →
            result = .error .destroyed) ∧
          (∀ c' args, s'.begun ≤ c' → t.calls c' = .send args .start →
            ∃ u, t.step cfg (.call c' .go) = some u ∧
              u.calls c' = .send args (.done (.error .destroyed))) ∧
          (∀ c' rt source result, s'.begun ≤ c' → t.calls c' = .connect rt (.done source result) →
            result = .error .destroyed) ∧
          (∀ c' rt p, s'.begun ≤ c' → t.calls c' = .connect rt p → p ≠ .dropped →
            ∃ labels u, Run (State.step cfg) (fun _ _ => True) t labels u ∧
              u.calls c' = .connect rt (.done none (.error .destroyed)))) := by
  have hl := Lifecycle.of_reaches h
  refine ⟨fun labels' t hrun => (State.log_run hl hrun).2, ?_⟩
  intro l s' c destroy hs hbefore hafter labels' t hrun
  have hls := hl.step hs
  have hreach : Reaches cfg _ t := (h.snoc trivial hs).append hrun
  have hlt := Lifecycle.of_reaches hreach
  have hut := State.upheld_of_reaches hreach
  obtain ⟨htorn, -⟩ := State.disconnect_returns hl hs hbefore hafter
  obtain ⟨hquiet, hlater⟩ := State.torn_run hls htorn hrun
  have hdown : (∀ r, ¬ t.alive r) → t.mem.connected = false := fun hnone => by
    by_contra hup
    obtain ⟨r, hr⟩ := hut (by simpa using hup)
    exact hnone r (State.alive_of_not_lowered hr)
  refine ⟨fun heq => ⟨hdown (hquiet heq).1, (hquiet heq).2⟩, hlater, ?_⟩
  rintro rfl
  have hmarked := DestroyMarked.of_reaches h
  obtain ⟨hgone, heq⟩ := (Gone.of_destroy hl hmarked hs hbefore hafter).run hls hrun
  refine ⟨hdown (hquiet heq).1, (hquiet heq).2, fun c' args result hc hk => ?_,
    fun c' args hc hk => ?_, fun c' rt source result hc hk => ?_,
    fun c' rt p hc hk hp => hgone.connect_returns hlt hut hc hk hp⟩
  · have := hgone.late c' hc
    rw [hk] at this
    exact this
  · have hdes := hgone.destroyed
    exact ⟨t.served c' (.send args (.done (.error .destroyed))) .skip,
      by simp [State.step, hk, Call.next, SendPhase.next, hdes], by simp⟩
  · have := hgone.late c' hc
    rw [hk] at this
    exact this.2

/-- The opening, then a `destroy` up to the end of the worker it waits for. -/
def teardownScript : List Label :=
  List.flatten [opening, [.suspend 0, .begin .destroy], List.replicate 3 (.call 1 .go), [.poll 0],
    List.replicate 8 (.work 0 .go)]

/-- The destroy waits for run 0 to end. -/
def Call.joining : Call → Bool
  | .disconnect true (.join 0) => true
  | _ => false

theorem teardown_fence_destroying :
    ∃ s s', Reaches (sample [accepted "u0"]) teardownScript s ∧
      s.step (sample [accepted "u0"]) (.call 1 .go) = some s' ∧
      s'.calls 1 = .disconnect true .done ∧
      ∀ labels t, Run (State.step (sample [accepted "u0"])) (fun _ _ => True) s' labels t →
        t.mem.connected = false ∧ t.log = s'.log := by
  obtain ⟨s, h, ho⟩ := reaches_of_play (sample [accepted "u0"]) teardownScript
    (fun s => (s.calls 1).joining && (s.mem.cells 0).finished) (by decide +kernel)
  obtain ⟨hjoining, hfin⟩ := Bool.and_eq_true_iff.mp ho
  have hcall : s.calls 1 = .disconnect true (.join 0) := by
    unfold Call.joining at hjoining
    split at hjoining
    · assumption
    · cases hjoining
  have hs : s.step (sample [accepted "u0"]) (.call 1 .go) =
      some (s.served 1 (.disconnect true .done) .clear) := by
    simp [State.step, hcall, Call.next, DisconnectPhase.next, hfin]
  refine ⟨s, _, h, hs, by simp, fun labels t hrun => ?_⟩
  obtain ⟨-, -, hd⟩ := (teardown_fence h).2 _ _ 1 true hs (by simp [hcall]) (by simp) labels t hrun
  exact ⟨(hd rfl).1, (hd rfl).2.1⟩

end WukongSdk
