import WukongSdk.Effort
import WukongSdk.Presence

/-!
# Teardown of a cancelled run

A task whose token is cancelled gives up whatever it awaits at its next poll.
From there it asks nothing of the peer, the timers or the callers, and a known
number of accesses brings it to its end.
-/
namespace WukongSdk

/-- Past the cancellation of the run, or past the return of `supervise`. -/
def Phase.ending : Phase → Bool
  | .supervise _ => false
  | _ => true

/-- The last event of a run that is cancelled, as long as it is still to come. -/
def Phase.farewell : Phase → List Event
  | .supervise _ | .cancelled | .cancelLower | .manual => [.disconnect .manual]
  | _ => []

theorem farewell_of_not_ending {p : Phase} (h : p.ending = false) :
    p.farewell = [.disconnect .manual] := by
  cases p <;> first | rfl | cases h

/-- What a run does once it is cancelled. -/
def Effect.tearing : Effect → Bool
  | .skip | .cancelled | .release _ | .drop _ | .dequeue | .close | .finish
  | .setConnected false | .answer _ (.error _) | .setFirst (.error _) | .setStatus (.failed _)
  | .emit (.disconnect .manual) => true
  | _ => false

namespace Worker

variable {cfg : Config} {r : RunId} {m : Memory} {w w' : Worker} {i : Input} {e : Effect} {l : Label}

/-- Accesses to the end of the run, from its cancellation at the latest: those the
cancellation costs, or those that are left. -/
def toll (q : ℕ) (w : Worker) : ℕ :=
  if w.phase.ending = true then w.effort q else 2 * w.session.pending.length + 3 * q + 8

/-- The run is past its cancellation, or its next poll finds it cancelled. -/
def Parting (w : Worker) (x : Cells) : Prop :=
  (w.polling = false ∧ x.cancelled = true) ∨ w.phase.ending = true

theorem toll_succ (q : ℕ) (w : Worker) : w.toll (q + 1) ≤ w.toll q + 3 := by
  have := effort_succ q w
  unfold toll
  split <;> omega

attribute [local simp] Phase.ending Phase.farewell Effect.tearing Effect.event Phase.effort effort
  Effect.onCells

/-- Every access of a run that ends is one less to come. -/
theorem next_ending (h : Access cfg r m w i w' e) (hend : w.phase.ending = true) :
    w'.phase.ending = true ∧ e.tearing = true ∧
      e.event.toList ++ w'.phase.farewell = w.phase.farewell ∧
      w'.effort (e.onCells (m.cells r)).commands.length + 1
        = w.effort (m.cells r).commands.length := by
  cases h
  case release c hd => simpa [hd] using hend
  all_goals try (simp [*] at hend; done)
  all_goals simp [*]
  all_goals omega

/-- A run that ends is never blocked. -/
theorem next_go_of_ending (hend : w.phase.ending = true)
    (hpos : 0 < w.effort (m.cells r).commands.length) : (w.next cfg r m .go).isSome = true := by
  cases hd : w.dropping with
  | some c => simp [next, hd]
  | none =>
    unfold next
    rw [hd]
    cases hp : w.phase with
    | supervise p => simp [hp] at hend
    | cancelled => cases w.session.pending <;> rfl
    | drain error => cases (m.cells r).commands <;> rfl
    | _ => first | rfl | simp [hd, hp] at hpos

/-- Whatever a run does from its cancellation on is one access less, and part of its
teardown. -/
theorem Moves.parting (hx : w.Moves cfg r m l w' e) (h : w.Parting (m.cells r)) (ht : Tidy w) :
    w'.phase.ending = true ∧ e.tearing = true ∧
      e.event.toList ++ w'.phase.farewell = w.phase.farewell ∧
      (if l.works r = true then 1 else 0) + w'.toll (e.onCells (m.cells r)).commands.length
        = w.toll (m.cells r).commands.length := by
  cases hx with
  | next hp hn =>
    have hend := h.resolve_left fun ⟨hp', _⟩ => by simp [hp] at hp'
    obtain ⟨hend', htear, hev, heffort⟩ := next_ending hn hend
    refine ⟨hend', htear, hev, ?_⟩
    rw [toll, toll, if_pos hend, if_pos hend', Label.works, if_pos (by simp)]
    omega
  | wake hp hq hc =>
    rcases h with ⟨-, hcan⟩ | hend
    · simp [hc] at hcan
    · simp [hq] at hend
  | cancel hp hq hc => simp [hq, toll, Label.works, (ht.asleep hp).1]
  | resume hp hq => simp [hq, toll, Label.works]
  | suspend hp hd ha =>
    have hend := h.resolve_left fun ⟨hp', _⟩ => by simp [hp] at hp'
    exact ⟨hend, rfl, rfl, Nat.zero_add _⟩

theorem over_of_ending {q : ℕ} (hp : w.phase.ending = true) (h : w.effort q = 0) :
    w.phase = .over := by
  by_contra ho
  cases hw : w.phase <;> simp_all

end Worker

/-! ## The run that ends -/

/-- Some run of the client leads to this state. -/
def Reachable (cfg : Config) (s : State) : Prop := ∃ labels, Reaches cfg labels s

theorem Reachable.step {cfg : Config} {s t : State} {l : Label} (h : Reachable cfg s)
    (hs : s.step cfg l = some t) : Reachable cfg t :=
  h.imp' (· ++ [l]) fun _ h => h.snoc trivial hs

/-- Labels that move no call: the passing of time and the accesses of workers. -/
def Label.internal : Label → Bool
  | .tick _ | .poll _ | .suspend _ | .work _ _ => true
  | _ => false

theorem Label.internal_of_unaided {r : RunId} {l : Label} (h : l.unaided r = true) :
    l.internal = true := by
  cases l <;> first | rfl | cases h

/-- What time and the workers leave alone. -/
structure State.Aside (s t : State) : Prop where
  calls : t.calls = s.calls
  lock : t.mem.lock = s.mem.lock
  running : t.mem.running = s.mem.running
  started : t.mem.started = s.mem.started
  cancelled : ∀ r, (t.mem.cells r).cancelled = (s.mem.cells r).cancelled

namespace State.Aside

variable {cfg : Config} {s t u : State} {l : Label}

theorem refl (s : State) : s.Aside s := ⟨rfl, rfl, rfl, rfl, fun _ => rfl⟩

theorem trans (h : s.Aside t) (h' : t.Aside u) : s.Aside u where
  calls := h'.calls.trans h.calls
  lock := h'.lock.trans h.lock
  running := h'.running.trans h.running
  started := h'.started.trans h.started
  cancelled r := (h'.cancelled r).trans (h.cancelled r)

theorem step (hs : s.step cfg l = some t) (hl : l.internal = true) : s.Aside t := by
  cases State.step_cases hs with
  | tick d => exact ⟨rfl, rfl, rfl, rfl, fun _ => rfl⟩
  | begin _ _ | call _ | dropClient _ _ => cases hl
  | @worker r l w e hx =>
    refine ⟨rfl, by simp, by simp, by simp, fun r' => ?_⟩
    rw [State.worked_mem, Memory.work_cells]
    split
    next hr =>
      subst hr
      cases e <;> rfl
    · rfl

/-- Only the newest run can be alive, and it is still the same. -/
theorem none_alive {r : RunId} (h : s.Aside t) (hl : Lifecycle s) (hl' : Lifecycle t) (hr : s.alive r)
    (hover : (t.workers r).phase = .over) (r' : RunId) : ¬ t.alive r' := by
  intro hr'
  have hnew := (hl'.alive r' hr').1.trans h.started
  obtain rfl : r' = r := Nat.succ_injective (hnew.trans (hl.alive r hr).1.symm)
  exact hr' hover

end State.Aside

/-- Whatever the others do meanwhile, run `r` has done nothing but tear down since `s`. -/
structure State.Tearing (r : RunId) (s t : State) : Prop where
  parting : (t.workers r).Parting (t.mem.cells r)
  told : ∃ effects, t.trace r = s.trace r ++ effects ∧ (∀ e ∈ effects, e.tearing = true) ∧
    events effects ++ (t.workers r).phase.farewell = (s.workers r).phase.farewell

namespace State

variable {cfg : Config} {s t u : State} {r : RunId} {l : Label} {labels : List Label}

/-- Accesses to the end of run `r`, from its cancellation at the latest. -/
def toll (r : RunId) (s : State) : ℕ := (s.workers r).toll (s.mem.cells r).commands.length

theorem Tearing.still (h : s.Tearing r t) (hw : u.workers r = t.workers r)
    (ht : u.trace r = t.trace r)
    (hc : (t.mem.cells r).cancelled = true → (u.mem.cells r).cancelled = true) : s.Tearing r u where
  parting := by
    rw [hw]
    exact h.parting.imp_left fun hp => ⟨hp.1, hc hp.2⟩
  told := by
    rw [hw, ht]
    exact h.told

theorem Tearing.moves {w : Worker} {e : Effect} (h : s.Tearing r t) (ht : (t.workers r).Tidy)
    (hx : (t.workers r).Moves cfg r t.mem l w e) : s.Tearing r (t.worked r w e) := by
  obtain ⟨hend, htear, hev, -⟩ := hx.parting h.parting ht
  obtain ⟨effects, htr, hall, htold⟩ := h.told
  refine ⟨.inr (by rwa [worked_workers, Function.update_self]), effects ++ [e], ?_, fun x hx => ?_, ?_⟩
  · rw [trace_worked, if_pos rfl, htr, List.append_assoc]
  · rcases List.mem_append.mp hx with hx | hx
    · exact hall x hx
    · rwa [List.mem_singleton.mp hx]
  · rw [worked_workers, Function.update_self, events_append, events_single, List.append_assoc, hev,
      htold]

theorem tearing_step (hlt : r < t.mem.started) (ht : (t.workers r).Tidy) (h : s.Tearing r t)
    (hs : t.step cfg l = some u) : s.Tearing r u := by
  cases State.step_cases hs with
  | tick d => exact h.still rfl rfl id
  | begin op hh => exact h.still rfl rfl id
  | @call c i k a hx =>
    have hw : t.spawnWorker a r = t.workers r :=
      (t.spawnWorker_cases r a).resolve_right fun hspawn => hlt.ne hspawn.2.1
    refine h.still hw rfl fun hc => ?_
    rcases t.mem.serve_cells r c a with hm | ⟨-, hr, -⟩ | ⟨-, hm⟩ | ⟨cmd, -, hm⟩
    · rwa [served_mem, hm]
    · exact absurd hr hlt.ne
    · rw [served_mem, hm]
    · rwa [served_mem, hm]
  | @worker r' l w e hx =>
    by_cases hr : r = r'
    · subst hr
      exact h.moves ht hx
    · refine h.still ?_ ?_ fun hc => ?_
      · rw [worked_workers, Function.update_of_ne hr]
      · rw [trace_worked, if_neg hr]
      · rwa [worked_mem, Memory.work_cells, if_neg hr]
  | dropClient _ _ =>
    refine h.still rfl rfl fun hc => ?_
    simp only [clientDropped_mem]
    split
    · rfl
    · exact hc

/-- What is left of the teardown grows only with the commands handed to the run. -/
theorem toll_step (hlt : r < s.mem.started) (ht : (s.workers r).Tidy)
    (hp : (s.workers r).Parting (s.mem.cells r)) (hs : s.step cfg l = some t) :
    (if l.works r = true then 1 else 0) + t.toll r ≤ s.toll r + 3 * (s.handed r t).length :=
  spend_step Worker.toll_succ hlt (fun _ _ hx => (hx.parting hp ht).2.2.2.le) hs

/-- From its cancellation on, a run that ends needs as many accesses as are left. -/
theorem ends_by_itself (hp : (s.workers r).polling = true)
    (hend : (s.workers r).phase.ending = true) :
    ∃ t, Run (step cfg) (fun _ _ => True) s (List.replicate (s.effort r) (.work r .go)) t ∧
      (t.workers r).phase = .over := by
  induction hn : s.effort r generalizing s with
  | zero => exact ⟨s, .nil s, Worker.over_of_ending hend hn⟩
  | succ n ih =>
    have hready : ((s.workers r).next cfg r s.mem .go).isSome = true :=
      Worker.next_go_of_ending hend (Nat.lt_of_sub_eq_succ hn)
    obtain ⟨⟨w, e⟩, hx⟩ := Option.isSome_iff_exists.mp hready
    obtain ⟨hend', -, -, heffort⟩ := Worker.next_ending (Worker.access_of_next hx) hend
    have hs : s.step cfg (.work r .go) = some (s.worked r w e) := by
      rw [step, if_pos hp, hx, Option.map_some]
    obtain ⟨t, hrun, ho⟩ := ih (s := s.worked r w e)
      (by rw [worked_workers, Function.update_self, Worker.next_polling (Worker.access_of_next hx), hp])
      (by rw [worked_workers, Function.update_self, hend']) (by
        rw [effort, worked_workers, worked_mem, Function.update_self, Memory.work_cells, if_pos rfl]
        exact Nat.succ_injective (heffort.trans hn))
    exact ⟨t, (Run.single trivial hs).append hrun, ho⟩

/-- A cancelled run that is not being polled ends with one poll, if its drain does not
yield. -/
theorem ends_when_polled (h : Reaches cfg labels s) (hc : (s.mem.cells r).cancelled = true)
    (ho : s.alive r) (hp : (s.workers r).polling = false) :
    ∃ t, Run (step cfg) (fun _ _ => True) s
      (.poll r :: List.replicate (s.toll r) (.work r .go)) t ∧ (t.workers r).phase = .over := by
  have hpoll : ∃ x, (s.workers r).poll r s.mem = some x ∧ x.1.polling = true := by
    rcases (Staged.of_reaches h).resting r hp with ha | ⟨htop, -⟩ | hover
    · cases Worker.awaiting_of_awaits ha
      all_goals simp [Worker.poll, *]
    · simp [Worker.poll, *]
    · exact absurd hover ho
  obtain ⟨x, hx, hpolling⟩ := hpoll
  have hs : s.step cfg (.poll r) = some (s.worked r x.1 x.2) := by rw [step, hx, Option.map_some]
  have hmoves : (s.workers r).Moves cfg r s.mem (.poll r) x.1 x.2 := Worker.moves_of_poll hx
  obtain ⟨hend, -, -, htoll⟩ := hmoves.parting (.inl ⟨hp, hc⟩) (tidy_of_reaches h r)
  obtain ⟨t, hrun, hover⟩ := @ends_by_itself cfg (s.worked r x.1 x.2) r
    (by rwa [worked_workers, Function.update_self]) (by rwa [worked_workers, Function.update_self])
  have heffort : (s.worked r x.1 x.2).effort r = s.toll r := by
    rw [toll, ← htoll, effort, Worker.toll, worked_workers, worked_mem, Function.update_self,
      Memory.work_cells, if_pos rfl, if_pos hend]
    simp [Label.works]
  rw [heffort] at hrun
  exact ⟨t, (Run.single trivial hs).append hrun, hover⟩

/-- The labels with which a worker ends by itself are its own. -/
theorem unaided_of_replicate {n : ℕ} {l : Label}
    (h : l ∈ Label.poll r :: List.replicate n (.work r .go)) (ids : List String) :
    l.unaided r = true ∧ l.spares ids := by
  rcases List.mem_cons.mp h with rfl | h
  · simp [Label.unaided, Label.spares]
  · rw [List.eq_of_mem_replicate h]
    simp [Label.unaided, Input.unaided, Label.spares]

/-- A cancelled run ends on its own, wherever its task stands. -/
theorem cancelled_run_ends (h : Reachable cfg s) (hc : (s.mem.cells r).cancelled = true)
    (ho : s.alive r) (ids : List String) :
    Attains (step cfg) (fun _ l => l.unaided r = true ∧ l.spares ids)
      (fun t => (t.workers r).phase = .over) s := by
  have asleep : ∀ {s : State}, Reachable cfg s → (s.mem.cells r).cancelled = true → s.alive r →
      (s.workers r).polling = false →
      Attains (step cfg) (fun _ l => l.unaided r = true ∧ l.spares ids)
        (fun t => (t.workers r).phase = .over) s := by
    rintro s ⟨labels, h⟩ hc ho hp
    obtain ⟨t, hrun, hover⟩ := ends_when_polled h hc ho hp
    exact ⟨_, t, hrun.confine fun _ hl => unaided_of_replicate hl ids, hover⟩
  cases hp : (s.workers r).polling with
  | false => exact asleep h hc ho hp
  | true =>
    have hrest := ((@comes_to_rest cfg s r hp ids).weaken fun _ _ hok => hok.2).keep
      (I := fun t => Reachable cfg t ∧ (t.mem.cells r).cancelled = true) ⟨h, hc⟩
      fun t l u hi hok hs => ⟨hi.1.step hs, by
        rw [(Aside.step hs (Label.internal_of_unaided hok.1)).cancelled, hi.2]⟩
    refine hrest.bind ?_
    rintro t ⟨⟨hp, hrest⟩, ht, hc⟩
    by_cases ho : t.alive r
    · have hw := hrest.resolve_right (not_not.mpr ho)
      rw [Worker.rests, Bool.and_eq_true] at hw
      have hs : t.step cfg (.suspend r) = some (t.worked r ((t.workers r).setPolling false) .skip) := by
        simp [step, Worker.suspend, hp, hw.1, hw.2]
      refine .of_step (by simp [Label.unaided, Label.spares]) hs (asleep (ht.step hs) ?_ ?_ ?_)
      · rwa [(Aside.step hs rfl).cancelled]
      · rw [alive, worked_workers, Function.update_self]
        exact ho
      · rw [worked_workers, Function.update_self]
        rfl
    · exact .refl (not_not.mp ho)

end State

/-- Once its token is cancelled a run ends, whatever it was waiting for. A task that is
not being polled does nothing but tear down from then on, however the others move: it
emits one event, `Disconnect(Manual)`, unless it is past its events, and it makes no more
accesses than are known beforehand and three for each command it is still handed, however
often its drain yields. Polled once it ends with just as many, if the drain does not yield.
From any other point its own accesses end it too, with nothing read from the peer and no
timer awaited, and then no caller is left waiting on it. -/
theorem teardown_terminates {cfg : Config} {labels : List Label} {s : State} {r : RunId}
    (h : Reaches cfg labels s) (hc : (s.mem.cells r).cancelled = true) (ho : s.alive r) :
    ((s.workers r).polling = false →
      (∀ labels' t, Run (State.step cfg) (fun _ _ => True) s labels' t →
        labels'.countP (Label.works r) + t.toll r
          ≤ s.toll r + 3 * (record (State.step cfg) (State.handed r) s labels').length ∧
        ∃ effects, t.trace r = s.trace r ++ effects ∧ (∀ e ∈ effects, e.tearing = true) ∧
          events effects ++ (t.workers r).phase.farewell = (s.workers r).phase.farewell) ∧
      ∃ t, Run (State.step cfg) (fun _ _ => True) s
          (.poll r :: List.replicate (s.toll r) (.work r .go)) t ∧ ¬ t.alive r) ∧
    Attains (State.step cfg) (fun _ l => l.unaided r = true)
      (fun t => (t.mem.cells r).finished = true ∧ t.mem.connected = false ∧ t.held r = []) s := by
  refine ⟨fun hp => ⟨fun labels' t hrun => ?_, ?_⟩, ?_⟩
  · have hlt : (r : ℕ) < s.mem.started :=
      Nat.lt_of_succ_le ((Lifecycle.of_reaches h).alive r ho).1.le
    have htidy : ∀ {ls u}, Run (State.step cfg) (fun _ _ => True) s ls u → (u.workers r).Tidy :=
      fun hu => tidy_of_reaches (h.append hu) r
    have htear : ∀ {ls u}, Run (State.step cfg) (fun _ _ => True) s ls u →
        r < u.mem.started ∧ s.Tearing r u := fun hu =>
      hu.invariant_along (I := fun u => r < u.mem.started ∧ s.Tearing r u)
        ⟨hlt, .inl ⟨hp, hc⟩, [], (List.append_nil _).symm, by simp, rfl⟩
        fun _ u l v hu hi _ hs =>
          ⟨hi.1.trans_le (State.started_step hs), State.tearing_step hi.1 (htidy hu) hi.2 hs⟩
    exact ⟨hrun.countP_le fun ls u l v hu _ hs =>
      State.toll_step (htear hu).1 (htidy hu) (htear hu).2.parting hs, (htear hrun).2.told⟩
  · obtain ⟨t, hrun, hover⟩ := State.ends_when_polled h hc ho hp
    exact ⟨t, hrun, not_not.mpr hover⟩
  · have hends := (State.cancelled_run_ends ⟨labels, h⟩ hc ho []).weaken fun _ _ hok => hok.1
    refine (hends.keep (I := fun t => Reachable cfg t ∧ s.Aside t) ⟨⟨labels, h⟩, .refl s⟩
      fun _ _ _ hi hok hs =>
        ⟨hi.1.step hs, hi.2.trans (.step hs (Label.internal_of_unaided hok))⟩).mono ?_
    rintro t ⟨hover, ⟨labels', h'⟩, haside⟩
    have hl := Lifecycle.of_reaches h'
    have hf := (hl.finished r).2 hover
    exact ⟨hf, State.not_connected_of_torn h' (haside.none_alive (.of_reaches h) hl ho hover),
      Admission.finished_holds_nothing hl (.of_reaches h') (tidy_of_reaches h') hf⟩

/-- The session of the opening, whose run a disconnect has cancelled, ends in nine steps. -/
theorem teardown_terminates_leaving :
    ∃ s t, Reaches (sample [accepted "u0"]) leaving s ∧
      Run (State.step (sample [accepted "u0"])) (fun _ _ => True) s
        (.poll 0 :: List.replicate 8 (.work 0 .go)) t ∧ ¬ t.alive 0 ∧
      ∃ effects, t.trace 0 = s.trace 0 ++ effects ∧ events effects = [.disconnect .manual] := by
  obtain ⟨s, h, ho⟩ := reaches_of_play (sample [accepted "u0"]) leaving
    (fun s => (s.mem.cells 0).cancelled && !(s.workers 0).polling && !(s.workers 0).phase.lowered &&
      (!(s.workers 0).phase.ending && s.toll 0 = 8))
    (by decide +kernel)
  simp only [Bool.and_eq_true, Bool.not_eq_true', decide_eq_true_eq] at ho
  obtain ⟨⟨⟨hc, hp⟩, hlow⟩, hend, htoll⟩ := ho
  obtain ⟨hall, t, hrun, hover⟩ :=
    (teardown_terminates h hc (State.alive_of_not_lowered hlow)).1 hp
  obtain ⟨-, effects, htr, -, hev⟩ := hall _ t hrun
  rw [not_not.mp hover, farewell_of_not_ending hend] at hev
  rw [htoll] at hrun
  exact ⟨s, t, h, hrun, hover, effects, htr, by simpa [Phase.farewell] using hev⟩

/-! ## The last handle -/

namespace State

variable {cfg : Config} {s t : State} {r : RunId} {l : Label} {labels : List Label}

/-- With no handle left only time and the workers move. -/
theorem internal_of_unhandled (h : Reaches cfg labels s) (hd : s.handles = false)
    (hs : s.step cfg l = some t) : l.internal = true ∧ t.handles = false := by
  have hl := Lifecycle.of_reaches h
  cases State.step_cases hs with
  | tick d => exact ⟨rfl, hd⟩
  | begin op hh =>
    rw [hd] at hh
    cases hh
  | @call c i k a hx =>
    have hsettled := hl.handles hd c
    rw [hx.unsettled] at hsettled
    cases hsettled
  | worker hx =>
    refine ⟨?_, hd⟩
    cases hx <;> rfl
  | dropClient hh _ =>
    rw [hd] at hh
    cases hh

/-- Dropping the last handle cancels the run that is alive. -/
theorem cancelled_of_unhandled (h : Reaches cfg labels s) (hd : s.handles = false) (hr : s.alive r) :
    (s.mem.cells r).cancelled = true := by
  refine h.invariant_along
    (I := fun s => s.handles = false → ∀ r, s.alive r → (s.mem.cells r).cancelled = true)
    (by rintro ⟨⟩) ?_ hd r hr
  intro _ s l t hreach hi _ hs hd r hr
  have hl := Lifecycle.of_reaches hreach
  by_cases hgone : s.handles = false
  · have hin := (internal_of_unhandled hreach hgone hs).1
    rw [(Aside.step hs hin).cancelled]
    refine hi hgone r ?_
    cases State.step_cases hs with
    | tick d => exact hr
    | begin _ _ | call _ | dropClient _ _ => cases hin
    | @worker r' l w e hx =>
      by_cases heq : r = r'
      · rw [heq]
        exact (hx.finish (hl.ended r')).1
      · rwa [alive, worked_workers, Function.update_of_ne heq] at hr
  · cases State.step_cases hs with
    | tick _ | begin _ _ | call _ | worker _ => exact absurd hd hgone
    | dropClient hh _ =>
      have hrun := (hl.alive r hr).2.resolve_right hgone
      rw [s.clientDropped_mem, hrun]
      simp

/-- With no call in progress and no task alive every permit is free. -/
theorem slots_of_settled (h : Reaches cfg labels s) (hset : ∀ c, (s.calls c).settled = true)
    (hnone : ∀ r, ¬ s.alive r) : s.mem.slots = cfg.options.maxInFlight := by
  have hl := Lifecycle.of_reaches h
  have ha := Admission.of_reaches h
  have hempty : s.mem.permits = ∅ := by
    refine Finset.eq_empty_of_forall_notMem fun c hc => ?_
    rcases (ha.place c).1 hc with hholds | ⟨r, hheld⟩
    · have hsettled := hset c
      unfold Call.settled at hsettled
      split at hsettled <;> simp_all [Call.holdsPermit]
    · have hf := (hl.finished r).2 (not_not.mp (hnone r))
      rw [Admission.finished_holds_nothing hl (.of_reaches h) (tidy_of_reaches h) hf] at hheld
      cases hheld
  have hcount := ha.count
  rwa [hempty, Finset.card_empty, Nat.add_zero] at hcount

end State

/-- When the last handle is dropped no call is in progress, the run that is alive is
cancelled, and from then on no call and no run begins. A worker's own accesses, with nothing
from the peer, a timer or the queue to wait for, bring the client to a state with no task
alive, not connected, and with every permit free. -/
theorem last_handle_ends_all {cfg : Config} {labels : List Label} {s : State}
    (h : Reaches cfg labels s) (hd : s.handles = false) :
    (∀ c, (s.calls c).settled = true) ∧ (∀ r, s.alive r → (s.mem.cells r).cancelled = true) ∧
    (∀ labels' t, Run (State.step cfg) (fun _ _ => True) s labels' t → s.Aside t) ∧
    Attains (State.step cfg) (fun _ l => ∃ r, l.unaided r = true)
      (fun t => (∀ r, ¬ t.alive r) ∧ t.mem.connected = false ∧
        t.mem.slots = cfg.options.maxInFlight) s := by
  have hl := Lifecycle.of_reaches h
  have free : ∀ {labels t}, Reaches cfg labels t → s.Aside t → (∀ r, ¬ t.alive r) →
      t.mem.connected = false ∧ t.mem.slots = cfg.options.maxInFlight := by
    intro labels t ht haside hnone
    refine ⟨State.not_connected_of_torn ht hnone, State.slots_of_settled ht (fun c => ?_) hnone⟩
    rw [haside.calls]
    exact hl.handles hd c
  refine ⟨hl.handles hd, fun r => State.cancelled_of_unhandled h hd, fun labels' t hrun => ?_, ?_⟩
  · have hinv := hrun.invariant (I := fun t => Reachable cfg t ∧ t.handles = false ∧ s.Aside t)
      ⟨⟨labels, h⟩, hd, .refl s⟩ fun u l v hi _ hs => by
        obtain ⟨hin, hd'⟩ := State.internal_of_unhandled hi.1.choose_spec hi.2.1 hs
        exact ⟨hi.1.step hs, hd', hi.2.2.trans (.step hs hin)⟩
    exact hinv.2.2
  · by_cases hsome : ∃ r, s.alive r
    · obtain ⟨r, hr⟩ := hsome
      have hends := State.cancelled_run_ends ⟨labels, h⟩ (State.cancelled_of_unhandled h hd hr) hr []
      refine ((hends.weaken fun _ _ hok => ⟨r, hok.1⟩).keep
        (I := fun t => Reachable cfg t ∧ s.Aside t) ⟨⟨labels, h⟩, .refl s⟩
        fun _ _ _ hi hok hs => ⟨hi.1.step hs, hi.2.trans
          (.step hs (Label.internal_of_unaided hok.choose_spec))⟩).mono ?_
      rintro t ⟨hover, ⟨labels', ht⟩, haside⟩
      have hnone := haside.none_alive hl (.of_reaches ht) hr hover
      exact ⟨hnone, free ht haside hnone⟩
    · have hnone := not_exists.mp hsome
      exact .refl ⟨hnone, free h (.refl s) hnone⟩

/-- The session of the opening is suspended when the last handle goes. -/
def forsaking : List Label := List.flatten [opening, [.call 0 .go, .suspend 0, .dropClient]]

theorem last_handle_ends_all_forsaking :
    ∃ s, Reaches (sample [accepted "u0"]) forsaking s ∧ s.mem.connected = true ∧
      Attains (State.step (sample [accepted "u0"])) (fun _ l => ∃ r, l.unaided r = true)
        (fun t => (∀ r, ¬ t.alive r) ∧ t.mem.connected = false ∧
          t.mem.slots = Options.default.maxInFlight) s := by
  obtain ⟨s, h, ho⟩ := reaches_of_play (sample [accepted "u0"]) forsaking
    (fun s => s.mem.connected && !s.handles) (by decide +kernel)
  simp only [Bool.and_eq_true, Bool.not_eq_true'] at ho
  exact ⟨s, h, ho.1, (last_handle_ends_all h ho.2).2.2.2⟩

end WukongSdk
