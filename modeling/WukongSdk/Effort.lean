import WukongSdk.Progress
import WukongSdk.Reconnect

/-!
# From one await to the next

The accesses a worker has left until its next await or its end, bounded by the
entries of its map and the commands in its queue. Every access away from an
await spends some of them, and one is always possible, so a task that is polled
always comes to an await and never gets stuck on the way. There the poll ends, or
goes on with what is ready.
-/
namespace WukongSdk

/-- Accesses left in a session with `n` entries and `q` queued commands. -/
def SessionPhase.effort (n q : ℕ) : SessionPhase → ℕ
  | .select | .writing _ | .flushing => 0
  | .expire ids => 3 * ids.length + 1
  | .expired ids _ => 3 * ids.length + 3
  | .retain _ k => 2 * (n - k) + 3 * n + 2
  | .head => 5 * n + 3
  | .emit _ => 5 * n + 4
  | .refuse _ _ | .answer _ _ => 5 * n + 5
  | .sendAck _ _ => 5 * n + 6
  | .ping _ | .recvAck _ => 5 * n + 3 * q + 14
  | .pingDue | .deliver _ => 5 * n + 3 * q + 15
  | .timer => 5 * n + 3 * q + 16
  | .insert _ => 5 * n + 3 * q + 20
  | .timely _ => 5 * n + 3 * q + 21
  | .fresh _ => 5 * n + 3 * q + 22
  | .received _ => 5 * n + 3 * q + 23

def SupervisePhase.effort (n q : ℕ) : SupervisePhase → ℕ
  | .sleeping _ | .dialing _ | .greeting _ _ | .awaiting _ _ | .flushing _ _ => 0
  | .backoff _ => 1
  | .top => 2
  | .session p => p.effort n q
  | .begin => 5 * n + 4
  | .announce _ => 5 * n + 5
  | .first _ => 5 * n + 6
  | .ready _ => 5 * n + 7
  | .raise _ => 5 * n + 8
  | .bump _ => 5 * n + 9
  | .budget => 3 * q + 6
  | .report _ | .failed _ => 3 * q + 7
  | .disconnected _ | .hello _ _ => 3 * q + 8
  | .sweep _ | .opened _ => 3 * q + 9
  | .unready _ => 3 * q + 10
  | .swept _ _ | .lower _ => 3 * q + 11
  | .unwind _ => 2 * n + 3 * q + 12
  | .lost _ => 2 * n + 3 * q + 13

def Phase.effort (n q : ℕ) : Phase → ℕ
  | .supervise p => p.effort n q
  | .over => 0
  | .drain _ => 3 * q + 1
  | .close _ => 3 * q + 2
  | .drained _ _ | .status _ => 3 * q + 3
  | .first _ => 3 * q + 4
  | .lower _ => 3 * q + 5
  | .manual => 3 * q + 6
  | .cancelLower => 3 * q + 7
  | .cancelled => 2 * n + 3 * q + 8

/-- Inputs that come neither from a peer nor from a timer nor from the queue. -/
def Input.unaided : Input → Bool
  | .go | .random _ | .uuid _ | .stamp _ => true
  | _ => false

namespace Worker

/-- The task can be suspended: it awaits, with no permit left to release. -/
def rests (w : Worker) : Bool := awaits w.phase && w.dropping.isNone

/-- Accesses the worker has left before it rests or, once it ends, before it is over. -/
def effort (q : ℕ) (w : Worker) : ℕ :=
  w.phase.effort w.session.pending.length q + if w.dropping.isSome then 1 else 0

variable {cfg : Config} {r : RunId} {m : Memory} {w w' : Worker} {i : Input} {e : Effect} {l : Label}

theorem due_length (s : Session) (now : ℕ) : (s.due now).length ≤ s.pending.length := by
  rw [Session.due, List.length_map]
  exact List.length_filter_le ..

theorem length_forget {s : Session} {id : String} {p : Pending}
    (h : s.pending.find? (fun p => p.id = id) = some p) :
    (s.forget id).pending.length + 1 = s.pending.length := by
  have hmem := List.mem_of_find?_eq_some h
  have hp : p.id = id := by simpa using List.find?_some h
  have hpos : 0 < s.pending.length := List.length_pos_of_mem hmem
  rw [Session.forget, Session.withPending, List.length_eraseP_of_mem hmem (by simpa using hp)]
  omega

attribute [local simp] SessionPhase.effort SupervisePhase.effort Phase.effort awaits effort
  Effect.onCells

theorem not_awaits_of_kept (h : w.rests = false) (hd : w.dropping = none) :
    awaits w.phase = false := by
  simpa [rests, hd] using h

/-- An access of a worker that does not rest leaves fewer to come. -/
theorem next_effort (h : Access cfg r m w i w' e) (hrests : w.rests = false) :
    w'.effort (e.onCells (m.cells r)).commands.length < w.effort (m.cells r).commands.length := by
  cases h
  case retainEnd now k hd hp hk =>
    have hdue := due_length w.session now
    simp [hp, hd]
    omega
  case retainDrop now k p hd hp hk _ =>
    have hlt := (List.getElem?_eq_some_iff.mp hk).1
    have hlen := List.length_eraseIdx_of_lt hlt
    simp [hp, hd, hlen]
    omega
  case retainKeep now k p hd hp hk _ =>
    have hlt := (List.getElem?_eq_some_iff.mp hk).1
    simp [hp, hd]
    omega
  case expireFound id ids p hd hp hfind =>
    have hlen := length_forget hfind
    simp [hp, hd] at hlen ⊢
    omega
  case replace cmd p hd hp hfind =>
    have hlen := length_forget hfind
    simp [hp, hd] at hlen ⊢
    omega
  all_goals try (simp [rests, *] at hrests; done)
  all_goals simp [*]
  all_goals try omega

/-- A UUID can always be drawn. -/
theorem exists_fresh (ids : List String) : ∃ id, id ∉ ids := by
  obtain ⟨n, hn⟩ := Infinite.exists_notMem_finset (ids.map String.length).toFinset
  refine ⟨String.ofList (List.replicate n 'a'), fun hmem => hn ?_⟩
  rw [List.mem_toFinset, List.mem_map]
  exact ⟨_, hmem, by simp⟩

/-- One more command in the queue costs at most three accesses. -/
theorem effort_succ (q : ℕ) (w : Worker) : w.effort (q + 1) ≤ w.effort q + 3 := by
  have hphase : w.phase.effort w.session.pending.length (q + 1)
      ≤ w.phase.effort w.session.pending.length q + 3 := by
    cases w.phase with
    | supervise p =>
      cases p with
      | session p =>
        cases p
        all_goals
          simp only [Phase.effort, SupervisePhase.effort, SessionPhase.effort]
          omega
      | _ =>
        simp only [Phase.effort, SupervisePhase.effort]
        omega
    | _ =>
      simp only [Phase.effort]
      omega
  rw [effort, effort]
  omega

/-- What a phase that does not await is to be given. -/
def prompt (id : String) : Phase → Input
  | .supervise .top => .random 0
  | .supervise (.opened _) | .supervise (.session .pingDue) => .uuid id
  | .supervise (.hello _ _) => .stamp 0
  | _ => .go

theorem prompt_unaided (id : String) (p : Phase) : (prompt id p).unaided = true := by
  unfold prompt
  split <;> rfl

/-- A worker that neither rests nor is over has an access to make. -/
theorem next_enabled {id : String} (hid : id ∉ m.uuids) (hrests : w.rests = false)
    (ho : w.phase ≠ .over) : (w.next cfg r m (prompt id w.phase)).isSome = true := by
  cases hd : w.dropping with
  | some c => simp [next, hd]
  | none =>
    have ha := not_awaits_of_kept hrests hd
    unfold next
    rw [hd]
    cases hp : w.phase with
    | supervise p =>
      rw [hp] at ha
      cases p with
      | session q =>
        cases q
        all_goals first | (cases ha; done) | (unfold superviseNext sessionNext; grind [prompt])
      | _ => first | (cases ha; done) | (unfold superviseNext; grind [prompt])
    | _ => first | exact absurd hp ho | grind

end Worker

/-- The label is an access of the worker of run `r`. -/
def Label.works (r : RunId) : Label → Bool
  | .work r' _ => r' = r
  | _ => false

/-- Labels of the worker of run `r` alone. -/
def Label.unaided (r : RunId) : Label → Bool
  | .poll r' | .suspend r' => r' = r
  | .work r' i => r' = r && i.unaided
  | _ => false

/-- None of `ids` is drawn. -/
def Label.spares (ids : List String) : Label → Prop
  | .work _ (.uuid id) | .call _ (.ids id _) => id ∉ ids
  | _ => True

theorem Worker.prompt_spares {ids : List String} {id : String} {r : RunId} (p : Phase)
    (h : id ∉ ids) : (Label.work r (prompt id p)).spares ids := by
  unfold prompt
  split <;> first | exact h | trivial

namespace State

/-- What is left to do for the worker of run `r`. -/
def effort (r : RunId) (s : State) : ℕ :=
  (s.workers r).effort (s.mem.cells r).commands.length

/-- The commands the callers hand to run `r` with a step. -/
def handed (r : RunId) (s t : State) : List Command :=
  (t.mem.cells r).commands.drop (s.mem.cells r).commands.length

/-- The worker of run `r` is in the middle of a poll. -/
def Busy (r : RunId) (s : State) (_ : Label) : Prop :=
  (s.workers r).polling = true ∧ (s.workers r).rests = false

variable {cfg : Config} {s t : State} {r : RunId} {l : Label}

/-- A worker in the middle of a poll is one of a run that was started. -/
theorem Busy.started {labels : List Label} (h : Reaches cfg labels s) (hb : s.Busy r l) :
    r < s.mem.started := by
  by_contra hge
  have hpolling := hb.1
  rw [((Lifecycle.of_reaches h).fresh r (not_lt.mp hge)).1] at hpolling
  cases hpolling

/-- What is counted of run `r` by its worker and its queue grows only with the commands handed
to the run, where the worker's own moves spend it. -/
theorem spend_step {μ : ℕ → Worker → ℕ} (hμ : ∀ q w, μ (q + 1) w ≤ μ q w + 3)
    (hlt : r < s.mem.started) (hspend : ∀ w e, (s.workers r).Moves cfg r s.mem l w e →
      (if l.works r = true then 1 else 0) + μ (e.onCells (s.mem.cells r)).commands.length w
        ≤ μ (s.mem.cells r).commands.length (s.workers r))
    (hs : s.step cfg l = some t) :
    (if l.works r = true then 1 else 0) + μ (t.mem.cells r).commands.length (t.workers r)
      ≤ μ (s.mem.cells r).commands.length (s.workers r) + 3 * (s.handed r t).length := by
  have still : ∀ {t : State}, t.workers r = s.workers r →
      (t.mem.cells r).commands = (s.mem.cells r).commands →
      μ (t.mem.cells r).commands.length (t.workers r)
        ≤ μ (s.mem.cells r).commands.length (s.workers r) + 3 * (s.handed r t).length := by
    intro t hw hc
    rw [hw, hc]
    omega
  cases State.step_cases hs with
  | tick d => simpa [Label.works] using still (t := s.ticked d) rfl rfl
  | begin op hh => simp [Label.works]
  | @call c i k a hx =>
    have hw : (s.served c k a).workers r = s.workers r :=
      (s.spawnWorker_cases r a).resolve_right fun hspawn => hlt.ne hspawn.2.1
    have hwork : (Label.call c i).works r = false := rfl
    rw [hwork, if_neg Bool.false_ne_true, Nat.zero_add]
    rcases s.mem.serve_cells r c a with hc | ⟨-, hr, -⟩ | ⟨-, hc⟩ | ⟨cmd, -, hc⟩
    · exact still hw (by rw [served_mem, hc])
    · exact absurd hr hlt.ne
    · exact still hw (by rw [served_mem, hc])
    · have hmore := hμ (s.mem.cells r).commands.length (s.workers r)
      rw [handed, hw, served_mem, hc, List.drop_left, List.length_append, List.length_singleton]
      omega
  | @worker r' l w e hx =>
    by_cases hr : r' = r
    · subst hr
      have hless := hspend w e hx
      rw [worked_mem, worked_workers, Function.update_self, Memory.work_cells, if_pos rfl]
      omega
    · have hwork : l.works r = false := by
        cases hx <;> simp [Label.works, hr]
      rw [hwork, if_neg Bool.false_ne_true, Nat.zero_add]
      refine still ?_ ?_
      · rw [worked_workers, Function.update_of_ne (Ne.symm hr)]
      · rw [worked_mem, Memory.work_cells, if_neg (Ne.symm hr)]
  | dropClient _ _ =>
    have hc : (s.clientDropped.mem.cells r).commands = (s.mem.cells r).commands := by
      rw [clientDropped_mem]
      dsimp only
      split <;> rfl
    simpa [Label.works] using still (t := s.clientDropped) rfl hc

/-- During a poll every access of the worker takes from what is left to do. -/
theorem effort_step {labels : List Label} (h : Reaches cfg labels s) (hb : s.Busy r l)
    (hs : s.step cfg l = some t) :
    (if l.works r = true then 1 else 0) + t.effort r ≤ s.effort r + 3 * (s.handed r t).length := by
  refine spend_step Worker.effort_succ (hb.started h) (fun w e hx => ?_) hs
  cases hx with
  | next hp hn =>
    have hless := Worker.next_effort hn hb.2
    rw [Label.works, if_pos (by simp)]
    omega
  | wake hp _ _ | cancel hp _ _ | resume hp _ =>
    rw [hb.1] at hp
    cases hp
  | suspend _ hd ha =>
    have hrests := hb.2
    rw [Worker.rests, ha, hd] at hrests
    cases hrests

/-- In the middle of a poll the worker has an access to make, and nobody to wait for. -/
theorem Busy.enabled (hb : s.Busy r l) (ho : s.alive r) (ids : List String) :
    ∃ i t, i.unaided = true ∧ (Label.work r i).spares ids ∧ s.step cfg (.work r i) = some t := by
  obtain ⟨id, hid⟩ := Worker.exists_fresh (s.mem.uuids ++ ids)
  obtain ⟨hid, hspare⟩ := not_or.mp (List.mem_append.not.mp hid)
  have hready : ((s.workers r).next cfg r s.mem (Worker.prompt id (s.workers r).phase)).isSome = true :=
    Worker.next_enabled hid hb.2 ho
  obtain ⟨x, hx⟩ := Option.isSome_iff_exists.mp hready
  exact ⟨_, s.worked r x.1 x.2, Worker.prompt_unaided id _, Worker.prompt_spares _ hspare,
    by rw [step, if_pos hb.1, hx, Option.map_some]⟩

/-- Every access in the middle of a poll takes from what is left, and the poll goes on. -/
theorem Busy.access {i : Input} (hb : s.Busy r l) (hs : s.step cfg (.work r i) = some t) :
    (t.workers r).polling = true ∧ t.effort r < s.effort r := by
  rw [step, if_pos hb.1] at hs
  obtain ⟨⟨w, e⟩, hn, rfl⟩ := Option.map_eq_some_iff.mp hs
  refine ⟨?_, ?_⟩
  · rw [worked_workers, Function.update_self, Worker.next_polling (Worker.access_of_next hn), hb.1]
  · rw [effort, effort, worked_mem, worked_workers, Function.update_self, Memory.work_cells,
      if_pos rfl]
    exact Worker.next_effort (Worker.access_of_next hn) hb.2

/-- On its own a poll comes to an await or to the end of the task. -/
theorem comes_to_rest (hp : (s.workers r).polling = true) (ids : List String) :
    Attains (step cfg) (fun s l => s.Busy r l ∧ l.unaided r = true ∧ l.spares ids)
      (fun t => (t.workers r).polling = true ∧ ((t.workers r).rests = true ∨ ¬ t.alive r)) s := by
  refine Attains.of_measure (P := fun u => (u.workers r).polling = true) (effort r)
    (fun u hu hq => ?_) hp
  obtain ⟨hwait, ho⟩ := not_or.mp hq
  have hb : u.Busy r (.poll r) := ⟨hu, Bool.not_eq_true _ ▸ hwait⟩
  have hready : ∃ i t, i.unaided = true ∧ (Label.work r i).spares ids ∧
      u.step cfg (.work r i) = some t := hb.enabled (not_not.mp ho) ids
  obtain ⟨i, t, hi, hspare, ht⟩ := hready
  exact .single ⟨⟨hb.1, hb.2⟩, by simp [Label.unaided, hi], hspare⟩ ht (hb.access ht)

end State

/-- Between two awaits a worker makes at most as many accesses as are left at the
start, and three more for each command handed to the run meanwhile, whoever else
moves. It never gets stuck there, and on its own it comes to an await or to the end. -/
theorem every_stretch_ends {cfg : Config} {labels : List Label} {s : State}
    (h : Reaches cfg labels s) (r : RunId) :
    (∀ labels' t, Run (State.step cfg) (State.Busy r) s labels' t →
      labels'.countP (Label.works r) + t.effort r
        ≤ s.effort r + 3 * (record (State.step cfg) (State.handed r) s labels').length) ∧
    (∀ l, s.Busy r l → s.alive r → ∃ i t, i.unaided = true ∧ s.step cfg (.work r i) = some t) ∧
    ((s.workers r).polling = true →
      Attains (State.step cfg) (fun s l => s.Busy r l ∧ l.unaided r = true)
        (fun t => (t.workers r).rests = true ∨ ¬ t.alive r) s) := by
  refine ⟨fun labels' t hrun => ?_, fun l hb ho => ?_, fun hp => ?_⟩
  · refine hrun.countP_le fun ls u l v hu hb hs => ?_
    exact State.effort_step (h.append (hu.weaken fun _ _ _ => trivial)) hb hs
  · have hready : ∃ i t, i.unaided = true ∧ (Label.work r i).spares [] ∧
        s.step cfg (.work r i) = some t := hb.enabled ho []
    obtain ⟨i, t, hi, -, hs⟩ := hready
    exact ⟨i, t, hi, hs⟩
  · exact ((State.comes_to_rest hp []).weaken fun _ _ hok => ⟨hok.1, hok.2.1⟩).mono fun t ht => ht.2

/-- The opening, and a binary frame that its session has just read. -/
def reading : List Label := List.flatten [opening, [.work 0 (.message .binary)]]

theorem every_stretch_ends_reading :
    ∃ s, Reaches (sample [accepted "u0"]) reading s ∧ s.effort 0 = 4 ∧
      Attains (State.step (sample [accepted "u0"])) (fun s l => s.Busy 0 l ∧ l.unaided 0 = true)
        (fun t => (t.workers 0).rests = true ∨ ¬ t.alive 0) s := by
  obtain ⟨s, h, ho⟩ := reaches_of_play (sample [accepted "u0"]) reading
    (fun s => s.effort 0 = 4 && (s.workers 0).polling) (by decide +kernel)
  simp only [Bool.and_eq_true, decide_eq_true_eq] at ho
  exact ⟨s, h, ho.1, (every_stretch_ends h 0).2.2 ho.2⟩

end WukongSdk
