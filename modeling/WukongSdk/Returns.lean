import WukongSdk.Teardown

/-!
# Every call can return

No call waits for ever on another one. Whoever holds the mutex gives it up, a
cancelled run ends, and a run that hears nothing from its peer fails by its own
timers, so every call returns even when the peer stays silent.
-/
namespace WukongSdk

/-! ## Calls -/

namespace Call

/-- Steps a call has left at most. -/
def rank : Call → ℕ
  | .idle => 0
  | .send _ p =>
    match p with
    | .start => 11
    | .checkConnected => 10
    | .readGeneration => 9
    | .acquire _ => 8
    | .prepare _ => 7
    | .lock _ => 6
    | .recheck _ => 5
    | .enqueue _ => 4
    | .unlock _ _ | .abortLocked _ => 3
    | .wait _ _ | .abort _ | .refused _ => 1
    | .done _ | .dropped => 0
  | .connect _ p =>
    match p with
    | .lock => 6
    | .checkDestroyed => 5
    | .decide => 4
    | .join _ => 3
    | .unlock _ _ => 2
    | .wait _ _ | .refused _ => 1
    | .done _ _ | .dropped => 0
  | .disconnect _ p =>
    match p with
    | .mark => 4
    | .lock => 3
    | .cancel => 2
    | .join _ => 1
    | .done | .dropped _ => 0

/-- The call waits for the mutex. -/
def queues : Call → Bool
  | .send _ (.lock _) | .connect _ .lock | .disconnect _ .lock => true
  | _ => false

/-- The call waits for a run, or for its reply before the deadline. -/
def Blocked (c : CallId) (m : Memory) : Call → Prop
  | .send _ (.wait _ cmd) => (m.replies c).sender = .live ∧ m.clock < cmd.deadline
  | .connect _ (.wait r b) =>
    ConnectPhase.observe (m.cells r) b = none ∧ (m.cells r).finished = false
  | .disconnect _ (.join r) => (m.cells r).finished = false
  | _ => False

end Call

/-- The future is not dropped. -/
def CallInput.patient : CallInput → Bool
  | .drop => false
  | _ => true

/-- No new operation begins, no future is dropped, and the peer stays silent: no
socket makes progress and no message arrives. -/
def Label.patient : Label → Bool
  | .tick _ | .poll _ | .suspend _ => true
  | .work _ i => i.unaided || match i with | .timer => true | _ => false
  | .call _ i => i.patient
  | .begin _ | .dropClient => false

namespace Call

variable {cfg : Config} {c : CallId} {m : Memory} {i : CallInput} {k k' : Call} {a : Act} {r : RunId}

attribute [local simp] rank

theorem Moves.rank (h : k.Moves cfg c m i k' a) : k'.rank < k.rank := by
  cases h with
  | @send args p p' a h =>
    revert h
    fun_cases SendPhase.next cfg c m args i p
    all_goals first | (rintro ⟨⟩; done) | (rintro ⟨⟩; simp)
  | @connect rt p p' a h =>
    revert h
    fun_cases ConnectPhase.next m rt i p
    all_goals first | (rintro ⟨⟩; done) | (rintro ⟨⟩; simp)
  | @disconnect d p p' a h =>
    revert h
    fun_cases DisconnectPhase.next m i p
    all_goals first | (rintro ⟨⟩; done) | (rintro ⟨⟩; simp)

theorem not_holdsLock_of_queues (h : k.queues = true) : k.holdsLock = false := by
  unfold queues at h
  split at h <;> first | rfl | cases h

/-- A call that waits for nobody has a step to take. -/
theorem next_enabled (hk : k.settled = false) (hb : ¬ k.Blocked c m)
    (hq : k.queues = true → m.lock = none) (ids : List String) :
    ∃ i, i.patient = true ∧ (Label.call c i).spares ids ∧ (k.next cfg c m i).isSome = true := by
  cases k with
  | idle => cases hk
  | send args p =>
    cases p with
    | prepare g =>
      obtain ⟨id, hid⟩ := Worker.exists_fresh (m.uuids ++ ids)
      obtain ⟨hid, hspare⟩ := not_or.mp (List.mem_append.not.mp hid)
      refine ⟨.ids id "", rfl, hspare, ?_⟩
      simp only [next, SendPhase.next, hid, if_false]
      split <;> rfl
    | lock cmd => exact ⟨.go, rfl, trivial, by simp [next, SendPhase.next, hq rfl]⟩
    | wait r cmd =>
      cases hs : (m.replies c).sender with
      | live =>
        have hdue : cmd.deadline ≤ m.clock := not_lt.mp fun hlt => hb ⟨hs, hlt⟩
        exact ⟨.timer, rfl, trivial, by simp [next, SendPhase.next, hs, hdue]⟩
      | _ => exact ⟨.go, rfl, trivial, by simp [next, SendPhase.next, hs]⟩
    | done _ | dropped => cases hk
    | _ =>
      refine ⟨.go, rfl, trivial, ?_⟩
      simp only [next, SendPhase.next]
      repeat' split
      all_goals rfl
  | connect rt p =>
    cases p with
    | lock => exact ⟨.go, rfl, trivial, by simp [next, ConnectPhase.next, hq rfl]⟩
    | wait r b =>
      refine ⟨.go, rfl, trivial, ?_⟩
      simp only [next, ConnectPhase.next]
      split
      · rfl
      · rename_i hnone
        have hf : (m.cells r).finished = true := by
          by_contra hf
          exact hb ⟨hnone, eq_false_of_ne_true hf⟩
        rw [if_pos hf]
        rfl
    | done _ _ | dropped => cases hk
    | _ =>
      refine ⟨.go, rfl, trivial, ?_⟩
      simp only [next, ConnectPhase.next]
      repeat' split
      all_goals rfl
  | disconnect d p =>
    cases p with
    | lock => exact ⟨.go, rfl, trivial, by simp [next, DisconnectPhase.next, hq rfl]⟩
    | join r =>
      have hf : (m.cells r).finished = true := by
        by_contra hf
        exact hb (eq_false_of_ne_true hf)
      exact ⟨.go, rfl, trivial, by simp [next, DisconnectPhase.next, hf]⟩
    | done | dropped _ => cases hk
    | _ =>
      refine ⟨.go, rfl, trivial, ?_⟩
      simp only [next, DisconnectPhase.next]
      repeat' split
      all_goals rfl

end Call

/-! ## Workers -/

namespace Worker

/-- Attempts the run has left, with its progress on the current one. -/
def patience (limit : ℕ) (w : Worker) : ℕ :=
  match w.phase with
  | .supervise p =>
    match p with
    | .top | .backoff _ | .sleeping _ => 3 * (limit - w.attempt) + 3
    | .dialing _ | .opened _ | .hello _ _ | .greeting _ _ | .awaiting _ _ | .flushing _ _ =>
      3 * (limit - w.attempt) + 2
    | .failed _ | .budget => 3 * (limit - w.attempt) + 1
    | _ => 3 * limit + 2
  | _ => 0

/-- The instant at which an await outside a session gives up. -/
def alarm (w : Worker) : Option ℕ :=
  match w.phase with
  | .supervise (.sleeping wake) => some wake
  | .supervise (.dialing deadline) | .supervise (.greeting deadline _)
  | .supervise (.awaiting deadline _) | .supervise (.flushing deadline _) => some deadline
  | _ => none

variable {cfg : Config} {r : RunId} {m : Memory} {w w' : Worker} {i : Input} {e : Effect} {l : Label}

attribute [local simp] patience

/-- A run on its own does not gain attempts. -/
theorem next_patience (h : Access cfg r m w i w' e) (hrests : w.rests = false) :
    w'.patience cfg.options.maxReconnectAttempts ≤ w.patience cfg.options.maxReconnectAttempts := by
  cases h
  all_goals try (simp [rests, awaits, *] at hrests; done)
  all_goals simp [*]
  all_goals try omega

/-- An await outside a session ends when its time has come, and an attempt with it. -/
theorem next_alarm {d : ℕ} (ha : w.alarm = some d) (hd : w.dropping = none) (hle : d ≤ m.clock) :
    ∃ w' e, w.next cfg r m .timer = some (w', e) ∧
      w'.patience cfg.options.maxReconnectAttempts < w.patience cfg.options.maxReconnectAttempts := by
  unfold alarm at ha
  split at ha
  all_goals first | (cases ha; done) | skip
  all_goals
    cases ha
    rename_i hp
    simp [next, hd, hp, superviseNext, bounded, hle]

end Worker

/-- The run is about to announce its result, or has a session. -/
def Phase.announcing : Phase → Bool
  | .supervise (.announce _) | .supervise .begin | .supervise (.session _) => true
  | _ => false

/-- The status of the run tells of its authentication. -/
def Phase.readied : Phase → Bool
  | .supervise (.first _) => true
  | p => p.announcing

/-- A run with a session has an answer for whoever waits on it. -/
structure Greeted (w : Worker) (x : Cells) : Prop where
  status : w.phase.readied = true → ∃ result, x.status = .ready result
  first : w.phase.announcing = true → x.firstResult ≠ none

theorem Phase.readied_of_announcing {p : Phase} (h : p.announcing = true) : p.readied = true := by
  unfold Phase.readied
  split
  · rfl
  · exact h

theorem Greeted.vacuous {w : Worker} {x : Cells} (h : w.phase.readied = false) : Greeted w x where
  status hr := by
    rw [h] at hr
    cases hr
  first ha := by
    rw [Phase.readied_of_announcing ha] at h
    cases h

theorem Greeted.observe {w : Worker} {x : Cells} (h : Greeted w x)
    (hw : w.phase.announcing = true) (b : Bool) : ConnectPhase.observe x b ≠ none := by
  cases b with
  | true => exact h.first hw
  | false =>
    obtain ⟨result, hs⟩ := h.status (Phase.readied_of_announcing hw)
    simp [ConnectPhase.observe, hs]

namespace Worker

variable {cfg : Config} {r : RunId} {m : Memory} {w w' : Worker} {i : Input} {e : Effect} {l : Label}

attribute [local grind] Phase.readied Phase.announcing Effect.onCells
attribute [local grind =] Option.isNone_iff_eq_none

theorem next_greeted (h : Access cfg r m w i w' e) (hx : Greeted w (m.cells r)) :
    Greeted w' (e.onCells (m.cells r)) := by
  obtain ⟨hs, hf⟩ := hx
  cases h
  case ready result _ hp => exact ⟨fun _ => ⟨result, rfl⟩, by rintro ⟨⟩⟩
  all_goals constructor <;> grind -linarith

theorem Moves.greeted (h : w.Moves cfg r m l w' e) (hx : Greeted w (m.cells r)) :
    Greeted w' (e.onCells (m.cells r)) := by
  cases h with
  | next hp h => exact next_greeted h hx
  | wake hp hw hc | resume hp hw => exact ⟨hx.status, hx.first⟩
  | cancel hp hw hc => exact .vacuous rfl
  | suspend hp hd ha => exact ⟨hx.status, hx.first⟩

end Worker

theorem greeted_of_reaches {cfg : Config} {labels : List Label} {s : State}
    (h : Reaches cfg labels s) : ∀ r, Greeted (s.workers r) (s.mem.cells r) := by
  refine h.invariant_along (I := fun s => ∀ r, Greeted (s.workers r) (s.mem.cells r))
    (fun r => .vacuous rfl) ?_
  intro _ s l t hr hi _ hs r
  cases State.step_cases hs with
  | tick d => exact hi r
  | begin op hh => exact hi r
  | @call c i k a hx =>
    rcases s.spawnWorker_cases r a with hw | ⟨-, -, hw⟩
    · rw [State.served_workers, hw, State.served_mem]
      rcases s.mem.serve_cells r c a with hm | ⟨rfl, rfl, -⟩ | ⟨-, hm⟩ | ⟨cmd, -, hm⟩
      · rw [hm]
        exact hi r
      · rw [((Lifecycle.of_reaches hr).fresh _ le_rfl).1]
        exact .vacuous rfl
      · rw [hm]
        exact ⟨(hi r).status, (hi r).first⟩
      · rw [hm]
        exact ⟨(hi r).status, (hi r).first⟩
    · rw [State.served_workers, hw]
      exact .vacuous rfl
  | @worker r' l w e hx =>
    rw [State.worked_workers, State.worked_mem, Memory.work_cells]
    by_cases hr' : r = r'
    · subst hr'
      rw [if_pos rfl, Function.update_self]
      exact hx.greeted (hi r)
    · rw [if_neg hr', Function.update_of_ne hr']
      exact hi r
  | dropClient _ _ =>
    simp only [s.clientDropped_mem, State.clientDropped_workers]
    split
    · exact ⟨(hi r).status, (hi r).first⟩
    · exact hi r

/-- An await is that of an attempt, with its deadline, that of a session, or that of the
final drain. -/
theorem Worker.alarm_of_awaits {w : Worker} (h : awaits w.phase = true) :
    (∃ d, w.alarm = some d) ∨ w.phase.announcing = true ∨ ∃ e, w.phase = .drain e := by
  cases awaiting_of_awaits h
  all_goals simp [alarm, Phase.announcing, *]

/-! ## The system -/

/-- Labels that move no call and need no peer. -/
def Label.unattended (l : Label) : Bool := l.internal && l.patient

theorem Label.unattended_of_unaided {r : RunId} {l : Label} (h : l.unaided r = true) :
    l.unattended = true := by
  rw [unattended, internal_of_unaided h, Bool.true_and]
  cases l with
  | poll _ | suspend _ => rfl
  | work r' i => simp [unaided] at h; simp [patient, h.2]
  | _ => cases h

theorem Label.internal_of_unattended {l : Label} (h : l.unattended = true) : l.internal = true :=
  (Bool.and_eq_true_iff.mp h).1

theorem Label.patient_of_unattended {l : Label} (h : l.unattended = true) : l.patient = true :=
  (Bool.and_eq_true_iff.mp h).2

namespace State

variable {cfg : Config} {s t : State} {c : CallId} {r : RunId} {l : Label} {b : Bool}
  {ids : List String}

/-- Who waits for run `r` has something to read, or the run is over. -/
def Answers (r : RunId) (b : Bool) (s : State) : Prop :=
  ConnectPhase.observe (s.mem.cells r) b ≠ none ∨ (s.mem.cells r).finished = true

/-- Attempts left to run `r`, then accesses left in its poll. -/
def wait (cfg : Config) (r : RunId) (s : State) : ℕ ×ₗ ℕ :=
  toLex ((s.workers r).patience cfg.options.maxReconnectAttempts,
    2 * s.effort r + if (s.workers r).polling = true then 0 else 1)

/-- Past its last status a run has answered whoever waits for it. -/
theorem answers_of_draining {labels : List Label} {e : Error} (h : Reaches cfg labels s)
    (ho : s.alive r) (hw : (s.workers r).phase = .drain e) (b : Bool) : s.Answers r b := by
  have hlt : (r : ℕ) < s.mem.started := Nat.lt_of_succ_le ((Lifecycle.of_reaches h).alive r ho).1.le
  have hx := (Published.of_reaches h).coupled r hlt
  cases b with
  | true => exact .inl (hx.first (by rw [hw]; rfl))
  | false =>
    obtain ⟨e', hs⟩ := hx.status (by rw [hw]; rfl)
    exact .inl (by simp [ConnectPhase.observe, hs])

theorem wait_of_patience
    (h : (t.workers r).patience cfg.options.maxReconnectAttempts
      < (s.workers r).patience cfg.options.maxReconnectAttempts) : t.wait cfg r < s.wait cfg r :=
  Prod.Lex.toLex_lt_toLex.mpr (.inl h)

theorem Busy.patience {i : Input} (hb : s.Busy r l) (hs : s.step cfg (.work r i) = some t) :
    (t.workers r).patience cfg.options.maxReconnectAttempts
      ≤ (s.workers r).patience cfg.options.maxReconnectAttempts := by
  rw [step, if_pos hb.1] at hs
  obtain ⟨⟨w, e⟩, hn, rfl⟩ := Option.map_eq_some_iff.mp hs
  rw [worked_workers, Function.update_self]
  exact Worker.next_patience (Worker.access_of_next hn) hb.2

/-- A run that nobody cancels and nobody answers comes closer to its end. -/
theorem waits_less (h : Reachable cfg s) (hc : (s.mem.cells r).cancelled = false)
    (hnone : ¬ s.Answers r b) :
    Attains (step cfg) (fun _ l => l.unattended = true ∧ l.spares ids)
      (fun t => t.wait cfg r < s.wait cfg r) s := by
  obtain ⟨labels, hreach⟩ := h
  obtain ⟨hobs, hfin⟩ := not_or.mp hnone
  have ho : s.alive r := fun hover => hfin (((Lifecycle.of_reaches hreach).finished r).2 hover)
  cases hp : (s.workers r).polling with
  | false =>
    have hs : s.step cfg (.poll r) = some (s.worked r ((s.workers r).setPolling true) .skip) := by
      rcases (Staged.of_reaches hreach).resting r hp with ha | ⟨htop, -⟩ | hover
      · cases Worker.awaiting_of_awaits ha
        all_goals simp [step, Worker.poll, *]
      · simp [step, Worker.poll, *]
      · exact absurd hover ho
    refine .single (l := .poll r) ⟨rfl, trivial⟩ hs (Prod.Lex.toLex_lt_toLex.mpr (.inr ?_))
    simp [Worker.patience, effort, Worker.effort, Memory.work_cells, Effect.onCells, hp]
  | true =>
    cases hrests : (s.workers r).rests with
    | false =>
      have hb : s.Busy r (.poll r) := ⟨hp, hrests⟩
      have hready : ∃ i t, i.unaided = true ∧ (Label.work r i).spares ids ∧
          s.step cfg (.work r i) = some t := hb.enabled ho ids
      obtain ⟨i, t, hi, hspare, hs⟩ := hready
      have hown : (Label.work r i).unaided r = true := by simp [Label.unaided, hi]
      refine .single ⟨Label.unattended_of_unaided hown, hspare⟩ hs ?_
      obtain ⟨hp', heffort⟩ := hb.access hs
      rcases (hb.patience hs).lt_or_eq with hless | heq
      · exact wait_of_patience hless
      · refine Prod.Lex.toLex_lt_toLex.mpr (.inr ⟨heq, ?_⟩)
        rw [if_pos hp, if_pos hp']
        omega
    | true =>
      rw [Worker.rests, Bool.and_eq_true, Option.isNone_iff_eq_none] at hrests
      obtain ⟨ha, hd⟩ := hrests
      rcases Worker.alarm_of_awaits ha with ⟨d, halarm⟩ | hsession | ⟨e, hdrain⟩
      · have hle : d ≤ (s.ticked (d - s.mem.clock)).mem.clock := by
          simp [ticked]
          omega
        obtain ⟨w, e, hn, hless⟩ := @Worker.next_alarm cfg r _ _ d halarm hd hle
        have hs : (s.ticked (d - s.mem.clock)).step cfg (.work r .timer) =
            some ((s.ticked (d - s.mem.clock)).worked r w e) := by
          rw [step, ticked_workers, if_pos hp, hn, Option.map_some]
        refine .of_step (l := .tick (d - s.mem.clock)) ⟨rfl, trivial⟩ rfl
          (.single (l := .work r .timer) ⟨rfl, trivial⟩ hs (wait_of_patience ?_))
        rw [worked_workers, Function.update_self]
        exact hless
      · exact absurd ((greeted_of_reaches hreach r).observe hsession b) hobs
      · exact absurd (answers_of_draining hreach ho hdrain b) hnone

/-- What is reachable stays so, and the calls where they are, while none of them moves. -/
theorem reachable_aside_step {u v : State} (h : Reachable cfg u ∧ s.Aside u)
    (hl : l.unattended = true ∧ l.spares ids) (hs : u.step cfg l = some v) :
    Reachable cfg v ∧ s.Aside v :=
  ⟨h.1.step hs, h.2.trans (.step hs (Label.internal_of_unattended hl.1))⟩

theorem cancelled_run_finishes (h : Reachable cfg s) (hc : (s.mem.cells r).cancelled = true) :
    Attains (step cfg) (fun _ l => l.unattended = true ∧ l.spares ids)
      (fun t => s.Aside t ∧ (t.mem.cells r).finished = true) s := by
  by_cases ho : s.alive r
  · have hends : Attains (step cfg) (fun _ l => l.unattended = true ∧ l.spares ids)
        (fun t => (t.workers r).phase = .over) s :=
      (cancelled_run_ends h hc ho ids).weaken
        fun _ _ hok => ⟨Label.unattended_of_unaided hok.1, hok.2⟩
    refine (hends.keep (I := fun t => Reachable cfg t ∧ s.Aside t) ⟨h, .refl s⟩
      fun _ _ _ => reachable_aside_step).mono ?_
    rintro t ⟨hover, ⟨labels, ht⟩, haside⟩
    exact ⟨haside, ((Lifecycle.of_reaches ht).finished r).2 hover⟩
  · obtain ⟨labels, h⟩ := h
    exact .refl ⟨.refl s, ((Lifecycle.of_reaches h).finished r).2 (not_not.mp ho)⟩

/-- Whoever waits for a run is answered, even if its peer is not heard of. -/
theorem answers_come (h : Reachable cfg s) (r : RunId) (b : Bool) :
    Attains (step cfg) (fun _ l => l.unattended = true ∧ l.spares ids)
      (fun t => s.Aside t ∧ t.Answers r b) s := by
  cases hc : (s.mem.cells r).cancelled with
  | true => exact (cancelled_run_finishes h hc).mono fun t ht => ⟨ht.1, .inr ht.2⟩
  | false =>
    refine (Attains.of_measure (P := fun t => Reachable cfg t ∧ s.Aside t)
      (Q := fun t => t.Answers r b) (wait cfg r) (fun t ht hnone => ?_) ⟨h, .refl s⟩).mono
      fun t ht => ⟨ht.1.2, ht.2⟩
    refine ((waits_less ht.1 ?_ hnone).keep ht fun _ _ _ => reachable_aside_step).mono
      fun u hu => ⟨hu.2, hu.1⟩
    rw [ht.2.cancelled, hc]

/-- What a call waits for comes about without any call. -/
theorem unblocks (h : Reachable cfg s) (c : CallId) :
    Attains (step cfg) (fun _ l => l.unattended = true ∧ l.spares ids)
      (fun t => s.Aside t ∧ ¬ (s.calls c).Blocked c t.mem) s := by
  by_cases hb : (s.calls c).Blocked c s.mem
  swap
  · exact .refl ⟨.refl s, hb⟩
  cases hk : s.calls c with
  | idle => exact .refl ⟨.refl s, id⟩
  | send args p =>
    rw [hk] at hb
    cases p with
    | wait r cmd =>
      have hs : s.step cfg (.tick (cmd.deadline - s.mem.clock)) =
        some (s.ticked (cmd.deadline - s.mem.clock)) := rfl
      refine .single (l := .tick (cmd.deadline - s.mem.clock)) ⟨rfl, trivial⟩ hs
        ⟨.step hs rfl, fun hlate => ?_⟩
      have hlt := hlate.2
      simp only [ticked] at hlt
      omega
    | _ => exact absurd hb id
  | connect rt p =>
    rw [hk] at hb
    cases p with
    | wait r b =>
      refine (answers_come h r b).mono fun t ht => ⟨ht.1, fun hnone => ?_⟩
      rcases ht.2 with hobs | hfin
      · exact hobs hnone.1
      · rw [hnone.2] at hfin
        cases hfin
    | _ => exact absurd hb id
  | disconnect d p =>
    rw [hk] at hb
    cases p with
    | join r =>
      obtain ⟨labels, hreach⟩ := id h
      have hc := (cancelled_of_cancels (r := r) (c := c) hreach (by rw [hk]; rfl)).2
      refine (cancelled_run_finishes h hc).mono fun t ht => ⟨ht.1, fun hnot => ?_⟩
      rw [Call.Blocked, ht.2] at hnot
      cases hnot
    | _ => exact absurd hb id

/-- A call that does not wait for the mutex takes a step, and no other call has moved
meanwhile. If it held the mutex it holds it still or has released it. -/
theorem advances (h : Reachable cfg s) (hk : (s.calls c).settled = false)
    (hq : (s.calls c).queues = true → s.mem.lock = none) :
    Attains (step cfg) (fun _ l => l.patient = true ∧ l.spares ids)
      (fun t => (t.calls c).rank < (s.calls c).rank ∧ (∀ c' ≠ c, t.calls c' = s.calls c') ∧
        (s.mem.lock = some c → t.mem.lock = none ∨ t.mem.lock = some c)) s := by
  refine ((unblocks h c).weaken fun _ _ hok => ⟨Label.patient_of_unattended hok.1, hok.2⟩).bind
    fun t ht => ?_
  obtain ⟨haside, hb⟩ := ht
  have hready : ∃ i, i.patient = true ∧ (Label.call c i).spares ids ∧
      ((s.calls c).next cfg c t.mem i).isSome = true :=
    Call.next_enabled hk hb (fun hx => by rw [haside.lock, hq hx]) ids
  obtain ⟨i, hi, hspare, hn⟩ := hready
  obtain ⟨⟨k, a⟩, hn⟩ := Option.isSome_iff_exists.mp hn
  have hs : t.step cfg (.call c i) = some (t.served c k a) := by
    rw [step, haside.calls, hn, Option.map_some]
  have hx := Call.next_cases hn
  refine .single ⟨show Label.patient (.call c i) = true from hi, hspare⟩ hs
    ⟨?_, fun c' hc => ?_, fun hlock => ?_⟩
  · rw [served_calls, Function.update_self]
    exact hx.rank
  · rw [served_calls, Function.update_of_ne hc, haside.calls]
  · have hold : t.mem.lock = some c := haside.lock.trans hlock
    rcases hx.lock with ⟨-, hn, -⟩ | ⟨rfl | rfl, -⟩ | ⟨ha, -⟩
    · rw [hold] at hn
      cases hn
    · exact .inl rfl
    · exact .inl rfl
    · exact .inr (by rw [served_mem, ha, hold])

/-- The holder of the mutex gives it up, and only it and the workers move. -/
theorem unlocks (h : Reachable cfg s) {c₀ : CallId} (hlock : s.mem.lock = some c₀) :
    Attains (step cfg) (fun _ l => l.patient = true ∧ l.spares ids)
      (fun t => Reachable cfg t ∧ t.mem.lock = none ∧ ∀ c ≠ c₀, t.calls c = s.calls c) s := by
  refine (Attains.of_measure (P := fun t => Reachable cfg t ∧
      (t.mem.lock = none ∨ t.mem.lock = some c₀) ∧ ∀ c ≠ c₀, t.calls c = s.calls c)
    (Q := fun t => t.mem.lock = none) (fun t => (t.calls c₀).rank) (fun t ht hheld => ?_)
    ⟨h, .inr hlock, fun _ _ => rfl⟩).mono fun t ht => ⟨ht.1.1, ht.2, ht.1.2.2⟩
  obtain ⟨hreach, hlock, hothers⟩ := ht
  have hlock := hlock.resolve_left hheld
  obtain ⟨labels, hr⟩ := id hreach
  have hholds := ((Lifecycle.of_reaches hr).lock c₀).1 hlock
  have hk : (t.calls c₀).settled = false := by
    by_contra hsettled
    rw [Call.holdsLock_of_settled (eq_true_of_ne_false hsettled)] at hholds
    cases hholds
  have hq : (t.calls c₀).queues = true → t.mem.lock = none := fun hq => by
    rw [Call.not_holdsLock_of_queues hq] at hholds
    cases hholds
  refine ((advances hreach hk hq).keep (I := Reachable cfg) hreach
    fun _ _ _ hi _ hs => hi.step hs).mono ?_
  rintro u ⟨⟨hless, hsame, hkept⟩, hu⟩
  exact ⟨⟨hu, hkept hlock, fun c hc => (hsame c hc).trans (hothers c hc)⟩, hless⟩

/-- A call that has not returned takes a step sooner or later. -/
theorem moves_on (h : Reachable cfg s) (hk : (s.calls c).settled = false) :
    Attains (step cfg) (fun _ l => l.patient = true ∧ l.spares ids)
      (fun t => (t.calls c).rank < (s.calls c).rank) s := by
  by_cases hq : (s.calls c).queues = true → s.mem.lock = none
  · exact (advances h hk hq).mono fun t ht => ht.1
  · obtain ⟨hq, hlock⟩ := Classical.not_imp.mp hq
    obtain ⟨c₀, hlock⟩ := Option.ne_none_iff_exists'.mp hlock
    have hne : c ≠ c₀ := by
      rintro rfl
      obtain ⟨labels, hr⟩ := h
      have hholds := ((Lifecycle.of_reaches hr).lock c).1 hlock
      rw [Call.not_holdsLock_of_queues hq] at hholds
      cases hholds
    refine (unlocks h hlock).bind fun t ht => ?_
    obtain ⟨hreach, hfree, hothers⟩ := ht
    rw [← hothers c hne] at hk ⊢
    exact (advances hreach hk fun _ => hfree).mono fun u hu => hu.1

/-- Steps that all calls together have left at most. -/
def outstanding (s : State) : ℕ := ∑ c ∈ Finset.range s.begun, (s.calls c).rank

/-- In patience no call is begun and none goes back. -/
theorem patient_step (hl : l.patient = true) (hs : s.step cfg l = some t) :
    t.begun = s.begun ∧ ∀ c, (t.calls c).rank ≤ (s.calls c).rank := by
  cases State.step_cases hs with
  | tick d => exact ⟨rfl, fun _ => le_rfl⟩
  | begin _ _ | dropClient _ _ => cases hl
  | @call c' i k a hx =>
    refine ⟨rfl, fun c => ?_⟩
    by_cases hc : c = c'
    · subst hc
      rw [served_calls, Function.update_self]
      exact hx.rank.le
    · rw [served_calls, Function.update_of_ne hc]
  | worker hx => exact ⟨rfl, fun _ => le_rfl⟩

/-- All calls return together, and none of `ids` is drawn meanwhile. -/
theorem calls_return (h : Reachable cfg s) :
    Attains (step cfg) (fun _ l => l.patient = true ∧ l.spares ids)
      (fun t => ∀ c, (t.calls c).settled = true) s := by
  refine (Attains.of_measure (P := Reachable cfg) outstanding (fun u hu hsome => ?_)
    h).mono fun t ht => ht.2
  obtain ⟨c, hc⟩ := not_forall.mp hsome
  have hk : (u.calls c).settled = false := eq_false_of_ne_true hc
  have hbegun : c < u.begun := by
    obtain ⟨labels, hr⟩ := hu
    by_contra hge
    rw [(Lifecycle.of_reaches hr).idle c (not_lt.mp hge)] at hk
    cases hk
  refine ((moves_on hu hk).keep (I := fun t => Reachable cfg t ∧ t.begun = u.begun ∧
    ∀ c, (t.calls c).rank ≤ (u.calls c).rank) ⟨hu, rfl, fun _ => le_rfl⟩ ?_).mono ?_
  · intro t l v hi hok hs
    obtain ⟨hb, hr⟩ := patient_step hok.1 hs
    exact ⟨hi.1.step hs, hb.trans hi.2.1, fun c => (hr c).trans (hi.2.2 c)⟩
  · rintro t ⟨hless, ht, hb, hle⟩
    refine ⟨ht, ?_⟩
    rw [outstanding, outstanding, hb]
    exact Finset.sum_lt_sum (fun c _ => hle c) ⟨c, Finset.mem_range.mpr hbegun, hless⟩

end State

/-- From every reachable state all calls can return together, with no future dropped
and nothing heard from any peer: the workers' timers and the calls' own steps suffice,
so no call depends on another one that waits for it. -/
theorem every_call_can_return {cfg : Config} {labels : List Label} {s : State}
    (h : Reaches cfg labels s) :
    Attains (State.step cfg) (fun _ l => l.patient = true)
      (fun t => ∀ c, (t.calls c).settled = true) s := by
  have hreturn := @State.calls_return cfg s [] ⟨labels, h⟩
  exact hreturn.weaken fun _ _ hok => hok.1

/-- A disconnect waits for the run of a first call, with another call behind it. -/
def queueing : List Label :=
  List.flatten [[.begin (.connect true)], List.replicate 4 (.call 0 .go), [.begin .disconnect],
    List.replicate 2 (.call 1 .go), [.begin (.connect true)]]

theorem every_call_can_return_queueing :
    ∃ s, Reaches (sample []) queueing s ∧ (s.calls 0).settled = false ∧ s.mem.lock = some 1 ∧
      (s.calls 2).settled = false ∧
      Attains (State.step (sample [])) (fun _ l => l.patient = true)
        (fun t => ∀ c, (t.calls c).settled = true) s := by
  obtain ⟨s, h, ho⟩ := reaches_of_play (sample []) queueing
    (fun s => !(s.calls 0).settled && s.mem.lock = some 1 && !(s.calls 2).settled) (by decide +kernel)
  simp only [Bool.and_eq_true, Bool.not_eq_true', decide_eq_true_eq] at ho
  exact ⟨s, h, ho.1.1, ho.1.2, ho.2, every_call_can_return h⟩

end WukongSdk
