import WukongSdk.Client
import WukongSdk.Access

/-!
# What a step can do

Inversion of the step function by the party that moves, and of a worker's step
by the function that takes it. Everything proved about runs starts from here.
-/
namespace WukongSdk

/-- What an access of its worker does to the cells of a run. -/
def Effect.onCells (x : Cells) : Effect → Cells
  | .setStatus status => { x with status }
  | .setFirst result => { x with firstResult := some result }
  | .dequeue => { x with commands := x.commands.tail }
  | .close => { x with closed := true }
  | .finish => { x with finished := true }
  | _ => x

namespace Memory

variable (m : Memory) (r : RunId) (e : Effect) (c : CallId) (a : Act)

@[simp] theorem work_clock : (m.work r e).clock = m.clock := by cases e <;> rfl

@[simp] theorem work_destroyed : (m.work r e).destroyed = m.destroyed := by cases e <;> rfl

@[simp] theorem work_lock : (m.work r e).lock = m.lock := by cases e <;> rfl

@[simp] theorem work_running : (m.work r e).running = m.running := by cases e <;> rfl

@[simp] theorem work_started : (m.work r e).started = m.started := by cases e <;> rfl

@[simp] theorem serve_clock : (m.serve c a).clock = m.clock := by cases a <;> rfl

@[simp] theorem serve_connected : (m.serve c a).connected = m.connected := by cases a <;> rfl

@[simp] theorem serve_generation : (m.serve c a).generation = m.generation := by cases a <;> rfl

@[simp] theorem serve_sockets : (m.serve c a).sockets = m.sockets := by cases a <;> rfl

theorem serve_destroyed (h : m.destroyed = true) : (m.serve c a).destroyed = true := by
  cases a <;> first | rfl | exact h

theorem serve_started :
    (m.serve c a).started = m.started ∨ (a = .spawn ∧ (m.serve c a).started = m.started + 1) := by
  cases a <;> simp [serve, freeSlot, modify]

theorem work_cells (r' : RunId) :
    (m.work r e).cells r' = if r' = r then e.onCells (m.cells r) else m.cells r' := by
  by_cases h : r' = r
  · subst h
    cases e <;> simp [work, modify, Effect.onCells, freeSlot, setSender]
  · cases e <;> simp [work, modify, freeSlot, setSender, h]

/-- The cells of a run as a call leaves them. -/
theorem serve_cells :
    (m.serve c a).cells r = m.cells r ∨
    (a = .spawn ∧ r = m.started ∧ (m.serve c a).cells r = {}) ∨
    (a = .cancel r ∧ (m.serve c a).cells r = { m.cells r with cancelled := true }) ∨
    (∃ cmd, a = .enqueue r cmd ∧
      (m.serve c a).cells r = { m.cells r with commands := (m.cells r).commands ++ [cmd] }) := by
  cases a with
  | spawn =>
    by_cases hr : r = m.started
    · exact .inr (.inl ⟨rfl, hr, by simp [serve, hr]⟩)
    · exact .inl (by simp [serve, hr])
  | cancel q =>
    by_cases hr : r = q
    · exact .inr (.inr (.inl ⟨by rw [hr], by simp [serve, modify, hr]⟩))
    · exact .inl (by simp [serve, modify, hr])
  | enqueue q cmd =>
    by_cases hr : r = q
    · exact .inr (.inr (.inr ⟨cmd, by rw [hr], by simp [serve, modify, hr]⟩))
    · exact .inl (by simp [serve, modify, hr])
  | _ => exact .inl rfl

end Memory

namespace State

variable (s : State) (r : RunId) (w : Worker) (e : Effect) (c : CallId) (k : Call) (a : Act)

@[simp] theorem ticked_workers (d : ℕ) : (s.ticked d).workers = s.workers := rfl

@[simp] theorem ticked_calls (d : ℕ) : (s.ticked d).calls = s.calls := rfl

@[simp] theorem called_mem (op : Operation) : (s.called op).mem = s.mem := rfl

@[simp] theorem called_workers (op : Operation) : (s.called op).workers = s.workers := rfl

@[simp] theorem called_calls (op : Operation) :
    (s.called op).calls = Function.update s.calls s.begun op.call := rfl

@[simp] theorem called_handles (op : Operation) : (s.called op).handles = s.handles := rfl

@[simp] theorem called_begun (op : Operation) : (s.called op).begun = s.begun + 1 := rfl

@[simp] theorem worked_mem : (s.worked r w e).mem = s.mem.work r e := rfl

@[simp] theorem worked_workers : (s.worked r w e).workers = Function.update s.workers r w := rfl

@[simp] theorem worked_calls : (s.worked r w e).calls = s.calls := rfl

@[simp] theorem worked_begun : (s.worked r w e).begun = s.begun := rfl

@[simp] theorem worked_handles : (s.worked r w e).handles = s.handles := rfl

@[simp] theorem worked_log : (s.worked r w e).log = s.log ++ [(r, e)] := rfl

@[simp] theorem served_mem : (s.served c k a).mem = s.mem.serve c a := rfl

@[simp] theorem served_workers : (s.served c k a).workers = s.spawnWorker a := rfl

@[simp] theorem served_calls : (s.served c k a).calls = Function.update s.calls c k := rfl

@[simp] theorem served_begun : (s.served c k a).begun = s.begun := rfl

@[simp] theorem served_handles : (s.served c k a).handles = s.handles := rfl

@[simp] theorem served_log : (s.served c k a).log = s.log := rfl

/-- A worker is the one it was, or newly spawned. -/
theorem spawnWorker_cases :
    s.spawnWorker a r = s.workers r ∨
    (a = .spawn ∧ r = s.mem.started ∧ s.spawnWorker a r = .spawned) := by
  by_cases ha : a = .spawn ∧ r = s.mem.started
  · obtain ⟨rfl, rfl⟩ := ha
    exact .inr ⟨rfl, rfl, Function.update_self ..⟩
  · left
    cases a <;> simp_all [spawnWorker]

/-- A run that exists after a call's step existed before, or is newly spawned. -/
theorem served_run {r : ℕ} (h : r < (s.served c k a).mem.started) :
    (r < s.mem.started ∧ (s.served c k a).workers r = s.workers r) ∨
    (a = .spawn ∧ r = s.mem.started ∧ (s.served c k a).workers r = .spawned) := by
  by_cases ha : a = .spawn ∧ r = s.mem.started
  · obtain ⟨rfl, rfl⟩ := ha
    exact .inr ⟨rfl, rfl, Function.update_self ..⟩
  · refine .inl ⟨?_, (s.spawnWorker_cases r a).resolve_right fun hw => ha ⟨hw.1, hw.2.1⟩⟩
    rcases s.mem.serve_started c a with hs | ⟨rfl, hs⟩
    · simpa [hs] using h
    · have hlt : r < s.mem.started + 1 := by simpa [hs] using h
      exact lt_of_le_of_ne (Nat.lt_succ_iff.mp hlt) fun heq => ha ⟨rfl, heq⟩

@[simp] theorem clientDropped_workers : s.clientDropped.workers = s.workers := rfl

@[simp] theorem clientDropped_calls : s.clientDropped.calls = s.calls := rfl

@[simp] theorem clientDropped_log : s.clientDropped.log = s.log := rfl

/-- Dropping the last clone only cancels the current run and forgets it. -/
theorem clientDropped_mem :
    s.clientDropped.mem = { s.mem with
      running := none
      cells := fun r =>
        if s.mem.running = some r then { s.mem.cells r with cancelled := true }
        else s.mem.cells r } := by
  unfold clientDropped
  cases hr : s.mem.running with
  | none => cases hm : s.mem with | mk => simp_all
  | some q =>
    simp only [Memory.modify, Option.some.injEq, Memory.mk.injEq, true_and, and_true]
    funext r
    by_cases hq : r = q
    · simp [hq]
    · simp [hq, Ne.symm hq]

theorem trace_worked (r' : RunId) :
    (s.worked r w e).trace r' = if r' = r then s.trace r ++ [e] else s.trace r' := by
  by_cases h : r' = r
  · simp [trace, h]
  · simp [trace, h, Ne.symm h]

@[simp] theorem trace_called (op : Operation) (r' : RunId) : (s.called op).trace r' = s.trace r' := rfl

@[simp] theorem trace_ticked (d : ℕ) (r' : RunId) : (s.ticked d).trace r' = s.trace r' := rfl

@[simp] theorem trace_served (r' : RunId) : (s.served c k a).trace r' = s.trace r' := rfl

@[simp] theorem trace_clientDropped (r' : RunId) : s.clientDropped.trace r' = s.trace r' := rfl

end State

namespace Worker

/-- The moves of the worker of run `r`, with the label that calls for each. -/
inductive Moves (cfg : Config) (r : RunId) (m : Memory) (w : Worker) :
    Label → Worker → Effect → Prop
  | next {i : Input} {w' : Worker} {e : Effect} (hp : w.polling = true)
      (h : Access cfg r m w i w' e) : Moves cfg r m w (.work r i) w' e
  | wake {p : SupervisePhase} (hp : w.polling = false) (hw : w.phase = .supervise p)
      (hc : (m.cells r).cancelled = false) :
      Moves cfg r m w (.poll r) (w.setPolling true) .skip
  | cancel {p : SupervisePhase} (hp : w.polling = false) (hw : w.phase = .supervise p)
      (hc : (m.cells r).cancelled = true) :
      Moves cfg r m w (.poll r) ((w.goto .cancelled).setPolling true) .cancelled
  | resume {error : Error} (hp : w.polling = false) (hw : w.phase = .drain error) :
      Moves cfg r m w (.poll r) (w.setPolling true) .skip
  | suspend (hp : w.polling = true) (hd : w.dropping = none) (ha : awaits w.phase = true) :
      Moves cfg r m w (.suspend r) (w.setPolling false) .skip

theorem moves_of_poll {cfg : Config} {r : RunId} {m : Memory} {w w' : Worker} {e : Effect}
    (h : w.poll r m = some (w', e)) : Moves cfg r m w (.poll r) w' e := by
  unfold poll at h
  split at h
  next p hp hw =>
    split at h
    next hc => cases h; exact .cancel hp hw hc
    next hc => cases h; exact .wake hp hw (by simpa using hc)
  next error hp hw => cases h; exact .resume hp hw
  next => cases h

end Worker

namespace Call

/-- The moves of call `c`, by operation. -/
inductive Moves (cfg : Config) (c : CallId) (m : Memory) (i : CallInput) :
    Call → Call → Act → Prop
  | send {args : SendArgs} {p p' : SendPhase} {a : Act}
      (h : p.next cfg c m args i = some (p', a)) : Moves cfg c m i (.send args p) (.send args p') a
  | connect {rt : Bool} {p p' : ConnectPhase} {a : Act} (h : p.next m rt i = some (p', a)) :
      Moves cfg c m i (.connect rt p) (.connect rt p') a
  | disconnect {d : Bool} {p p' : DisconnectPhase} {a : Act} (h : p.next m i = some (p', a)) :
      Moves cfg c m i (.disconnect d p) (.disconnect d p') a

theorem next_cases {cfg : Config} {c : CallId} {m : Memory} {i : CallInput} {k k' : Call} {a : Act}
    (h : k.next cfg c m i = some (k', a)) : k.Moves cfg c m i k' a := by
  cases k with
  | idle => simp only [next, reduceCtorEq] at h
  | send args p =>
    simp only [next, Option.map_eq_some_iff] at h
    obtain ⟨⟨p', a'⟩, hx, he⟩ := h
    cases he
    exact .send hx
  | connect rt p =>
    simp only [next, Option.map_eq_some_iff] at h
    obtain ⟨⟨p', a'⟩, hx, he⟩ := h
    cases he
    exact .connect hx
  | disconnect d p =>
    simp only [next, Option.map_eq_some_iff] at h
    obtain ⟨⟨p', a'⟩, hx, he⟩ := h
    cases he
    exact .disconnect hx

end Call

namespace State

/-- The steps of the system from `s`. -/
inductive Steps (cfg : Config) (s : State) : Label → State → Prop
  | tick (d : ℕ) : Steps cfg s (.tick d) (s.ticked d)
  | begin (op : Operation) (h : s.handles = true) : Steps cfg s (.begin op) (s.called op)
  | call {c : CallId} {i : CallInput} {k : Call} {a : Act}
      (h : (s.calls c).Moves cfg c s.mem i k a) :
      Steps cfg s (.call c i) (s.served c k a)
  | worker {r : RunId} {l : Label} {w : Worker} {e : Effect}
      (h : (s.workers r).Moves cfg r s.mem l w e) : Steps cfg s l (s.worked r w e)
  | dropClient (h : s.handles = true) (hs : ∀ c < s.begun, (s.calls c).settled = true) :
      Steps cfg s .dropClient s.clientDropped

variable {cfg : Config} {s t : State} {l : Label}

theorem step_cases (h : step cfg s l = some t) : Steps cfg s l t := by
  cases l with
  | tick d => simp only [step, Option.some.injEq] at h; exact h ▸ .tick d
  | begin op =>
    simp only [step, Option.ite_none_right_eq_some, Option.some.injEq] at h
    exact h.2 ▸ .begin op h.1
  | call c i =>
    simp only [step, Option.map_eq_some_iff] at h
    obtain ⟨⟨k, a⟩, hx, rfl⟩ := h
    exact .call (Call.next_cases hx)
  | poll r =>
    simp only [step, Option.map_eq_some_iff] at h
    obtain ⟨⟨w, e⟩, hx, rfl⟩ := h
    exact .worker (Worker.moves_of_poll hx)
  | suspend r =>
    simp only [step, Option.map_eq_some_iff] at h
    obtain ⟨⟨w, e⟩, hx, rfl⟩ := h
    simp only [Worker.suspend, Option.ite_none_right_eq_some, Bool.and_eq_true,
      Option.isNone_iff_eq_none, Option.some.injEq, Prod.mk.injEq] at hx
    obtain ⟨⟨⟨hp, hd⟩, ha⟩, rfl, rfl⟩ := hx
    exact .worker (.suspend hp hd ha)
  | work r i =>
    simp only [step, Option.ite_none_right_eq_some, Option.map_eq_some_iff] at h
    obtain ⟨hp, ⟨w, e⟩, hx, rfl⟩ := h
    exact .worker (.next hp (Worker.access_of_next hx))
  | dropClient =>
    simp only [step, Option.ite_none_right_eq_some, Option.some.injEq] at h
    exact h.2 ▸ .dropClient h.1.1 h.1.2

end State

end WukongSdk
