import WukongSdk.Heartbeat
import WukongSdk.Progress

/-!
# Delays and timeouts of connecting

A run dials at once when it starts, and after that only when it has waited out
the delay it has announced. An attempt that is given up for its timeout was
given the whole of `connect_timeout`, from its dialing on.
-/
namespace WukongSdk

/-- The deadline of the attempt a phase is in. -/
def Phase.attempting : Phase → Option ℕ
  | .supervise (.dialing d) | .supervise (.opened d) | .supervise (.hello d _)
  | .supervise (.greeting d _) | .supervise (.awaiting d _) | .supervise (.flushing d _) => some d
  | _ => none

/-- The delay a phase is about to wait out. -/
def Phase.backing : Phase → Option ℕ
  | .supervise (.backoff d) => some d
  | _ => none

/-- The instant a phase sleeps until. -/
def Phase.sleeping : Phase → Option ℕ
  | .supervise (.sleeping wake) => some wake
  | _ => none

def Effect.dials : Effect → Bool
  | .dial => true
  | _ => false

/-- The access neither dials nor announces a delay. -/
def Effect.pauses : Effect → Bool
  | .dial | .emit (.reconnecting _ _) => false
  | _ => true

namespace Worker

variable {cfg : Config} {r : RunId} {m : Memory} {w w' : Worker} {i : Input} {e : Effect} {l : Label}

/-- The run has not made its first attempt. -/
def untried (w : Worker) : Prop := w.phase = .supervise .top ∧ w.attempt = 0

/-- What a step does to the waits of its worker. -/
structure Waits (cfg : Config) (clock : ℕ) (w w' : Worker) (e : Effect) : Prop where
  backing : ∀ d, w'.phase.backing = some d →
    (w.phase.backing = some d ∧ e.pauses = true) ∨ ∃ n, e = .emit (.reconnecting n d)
  sleeping : ∀ wake, w'.phase.sleeping = some wake → e.pauses = true ∧
    (w.phase.sleeping = some wake ∨ ∃ d, w.phase.backing = some d ∧ wake = clock + d)
  attempting : ∀ deadline, w'.phase.attempting = some deadline →
    (w.phase.attempting = some deadline ∧ e.dials = false) ∨
      (e.dials = true ∧ deadline = clock + cfg.options.connectTimeout)
  untried : w'.untried → w.untried ∧ e.dials = false
  dials : e.dials = true → w.untried ∨
    (w.phase.sleeping ≠ none ∧ ∀ wake, w.phase.sleeping = some wake → wake ≤ clock)
  rejected : e = .rejected .timeout →
    w.phase.attempting ≠ none ∧ ∀ deadline, w.phase.attempting = some deadline → deadline ≤ clock

attribute [local grind] Phase.attempting Phase.backing Phase.sleeping Effect.dials Effect.pauses
  untried
attribute [local grind =] Error.isTerminal
attribute [local grind →] authReply_terminal

theorem next_waits (h : Access cfg r m w i w' e) : Waits cfg m.clock w w' e := by
  cases h
  all_goals constructor <;> grind -linarith

theorem Moves.waits (h : w.Moves cfg r m l w' e) : Waits cfg m.clock w w' e := by
  have still : ∀ {w' : Worker}, w'.phase = w.phase → w'.attempt = w.attempt →
      Waits cfg m.clock w w' .skip := fun {w'} hq ha =>
    { backing := fun d hd => .inl ⟨hq ▸ hd, rfl⟩
      sleeping := fun wake hd => ⟨rfl, .inl (hq ▸ hd)⟩
      attempting := fun deadline hd => .inl ⟨hq ▸ hd, rfl⟩
      untried := fun hu => ⟨⟨hq ▸ hu.1, ha ▸ hu.2⟩, rfl⟩
      dials := by rintro ⟨⟩
      rejected := by rintro ⟨⟩ }
  cases h with
  | next hp h => exact next_waits h
  | wake hp hq hc | resume hp hq | suspend hp hd ha => exact still rfl rfl
  | cancel hp hq hc =>
    exact ⟨by rintro _ ⟨⟩, by rintro _ ⟨⟩, by rintro _ ⟨⟩, by rintro ⟨⟨⟩, -⟩, by rintro ⟨⟩,
      by rintro ⟨⟩⟩

end Worker

/-- The access does not dial. -/
def Moment.undialed (x : Moment) : Bool := !x.effect.dials

/-- The delay announced last was announced at or before `wake` less that delay, with no
dialing since. -/
def Announced (trace : List Moment) (wake : ℕ) : Prop :=
  ∃ before x n d, Since (fun y => y.effect.pauses) x before trace ∧
    x.effect = .emit (.reconnecting n d) ∧ x.clock + d ≤ wake

/-- The attempt dialed last began `connect_timeout` before `deadline`. -/
def Dialed (cfg : Config) (trace : List Moment) (deadline : ℕ) : Prop :=
  ∃ before x, Since Moment.undialed x before trace ∧ x.effect = .dial ∧
    x.clock + cfg.options.connectTimeout = deadline

/-- What a worker waits for is what it has done. -/
structure Waiting (cfg : Config) (clock : ℕ) (trace : List Moment) (w : Worker) : Prop where
  backing : ∀ d, w.phase.backing = some d → Announced trace (clock + d)
  sleeping : ∀ wake, w.phase.sleeping = some wake → Announced trace wake
  attempting : ∀ deadline, w.phase.attempting = some deadline → Dialed cfg trace deadline
  untried : w.untried → ∀ x ∈ trace, x.undialed = true

namespace Waiting

variable {cfg : Config} {clock clock' : ℕ} {trace : List Moment} {w w' : Worker} {e : Effect}

theorem later (h : Waiting cfg clock trace w) (hle : clock ≤ clock') :
    Waiting cfg clock' trace w where
  backing d hd := by
    obtain ⟨before, x, n, d', hsince, hx, hwake⟩ := h.backing d hd
    exact ⟨before, x, n, d', hsince, hx, hwake.trans (Nat.add_le_add_right hle d)⟩
  sleeping := h.sleeping
  attempting := h.attempting
  untried := h.untried

theorem announced_snoc {wake : ℕ} {x : Moment} (h : Announced trace wake)
    (hx : x.effect.pauses = true) : Announced (trace ++ [x]) wake := by
  obtain ⟨before, y, n, d, hsince, hy, hwake⟩ := h
  exact ⟨before, y, n, d, hsince.snoc hx, hy, hwake⟩

theorem snoc (h : Waiting cfg clock trace w) (hx : Worker.Waits cfg clock w w' e) :
    Waiting cfg clock (trace ++ [⟨clock, w.phase, e⟩]) w' := by
  refine ⟨fun d hd => ?_, fun wake hd => ?_, fun deadline hd => ?_, fun hu x hmem => ?_⟩
  · rcases hx.backing d hd with ⟨hold, hquiet⟩ | ⟨n, rfl⟩
    · exact announced_snoc (h.backing d hold) hquiet
    · exact ⟨trace, _, n, d, .start _ _ _, rfl, le_rfl⟩
  · obtain ⟨hquiet, hold | ⟨d, hback, rfl⟩⟩ := hx.sleeping wake hd
    · exact announced_snoc (h.sleeping wake hold) hquiet
    · exact announced_snoc (h.backing d hback) hquiet
  · rcases hx.attempting deadline hd with ⟨hold, hquiet⟩ | ⟨hdial, rfl⟩
    · obtain ⟨before, y, hsince, hy, hdue⟩ := h.attempting deadline hold
      exact ⟨before, y, hsince.snoc (by simp [Moment.undialed, hquiet]), hy, hdue⟩
    · cases e with
      | dial => exact ⟨trace, _, .start _ _ _, rfl, rfl⟩
      | _ => cases hdial
  · obtain ⟨hold, hquiet⟩ := hx.untried hu
    rcases List.mem_append.mp hmem with hmem | hmem
    · exact h.untried hold x hmem
    · rw [List.mem_singleton.mp hmem, Moment.undialed, hquiet]
      rfl

end Waiting

section

variable {cfg : Config} {labels : List Label} {s : State}

theorem waiting_of_reaches (h : Reaches cfg labels s) (r : RunId) :
    Waiting cfg s.mem.clock (chronicle cfg r labels) (s.workers r) := by
  have vacuous : ∀ {trace : List Moment} {w : Worker} {clock : ℕ},
      (w.phase = .over ∨ (w.phase = .supervise .top ∧ trace = [])) → Waiting cfg clock trace w := by
    intro trace w clock hw
    rcases hw with hq | ⟨hq, rfl⟩
    · exact ⟨by rw [hq]; rintro _ ⟨⟩, by rw [hq]; rintro _ ⟨⟩, by rw [hq]; rintro _ ⟨⟩,
        fun hu => by rw [Worker.untried, hq] at hu; cases hu.1⟩
    · exact ⟨by rw [hq]; rintro _ ⟨⟩, by rw [hq]; rintro _ ⟨⟩, by rw [hq]; rintro _ ⟨⟩,
        by rintro - _ ⟨⟩⟩
  refine h.invariant_record (f := State.moments r)
    (I := fun s trace => Waiting cfg s.mem.clock trace (s.workers r)) (vacuous (.inl rfl)) ?_
  intro ls s l t hrun hi _ hs
  cases State.step_cases hs with
  | tick d =>
    rw [State.moments_ticked, List.append_nil]
    exact hi.later (Nat.le_add_right ..)
  | begin op hh =>
    rw [State.moments_called, List.append_nil]
    exact hi
  | @call c i k a hx =>
    rw [State.moments_served, List.append_nil, State.served_mem, Memory.serve_clock,
      State.served_workers]
    rcases s.spawnWorker_cases r a with hw | ⟨-, rfl, hw⟩
    · rw [hw]
      exact hi
    · rw [hw]
      have hnone : (chronicle cfg s.mem.started ls).map Moment.effect = [] := by
        rw [chronicle_effects hrun, ((Lifecycle.of_reaches hrun).fresh _ le_rfl).2.2]
      exact vacuous (.inr ⟨rfl, List.map_eq_nil_iff.mp hnone⟩)
  | @worker r' l w e hx =>
    rw [State.moments_worked, State.worked_mem, Memory.work_clock, State.worked_workers]
    by_cases hr : r' = r
    · subst hr
      rw [if_pos rfl, Function.update_self]
      exact hi.snoc hx.waits
    · rw [if_neg hr, List.append_nil, Function.update_of_ne (Ne.symm hr)]
      exact hi
  | dropClient _ _ =>
    rw [State.moments_clientDropped, List.append_nil, State.clientDropped_mem]
    exact hi

end

/-- A run dials for the first time, or after the delay announced last has passed in full; and
an attempt is given up for its timeout no earlier than `connect_timeout` after it dialed. -/
theorem delays_kept {cfg : Config} {labels : List Label} {s : State} {r : RunId}
    {pre post : List Moment} {x : Moment} (h : Reaches cfg labels s)
    (hsplit : chronicle cfg r labels = pre ++ x :: post) :
    (x.effect = .dial → (∀ y ∈ pre, y.undialed = true) ∨ Announced pre x.clock) ∧
    (x.effect = .rejected .timeout → ∃ deadline ≤ x.clock, Dialed cfg pre deadline) := by
  obtain ⟨ls, u, l, w, hu, rfl, hclock, hx⟩ := chronicle_split h hsplit
  have hwait := waiting_of_reaches hu r
  refine ⟨fun hdial => ?_, fun hrejected => ?_⟩
  · rcases hx.waits.dials (by rw [hdial]; rfl) with huntried | ⟨hsome, hdue⟩
    · exact .inl (hwait.untried huntried)
    · obtain ⟨wake, hwake⟩ := Option.ne_none_iff_exists'.mp hsome
      obtain ⟨before, y, n, d, hsince, hy, hle⟩ := hwait.sleeping wake hwake
      exact .inr ⟨before, y, n, d, hsince, hy, hle.trans (hclock ▸ hdue wake hwake)⟩
  · obtain ⟨hsome, hdue⟩ := hx.waits.rejected hrejected
    obtain ⟨deadline, hd⟩ := Option.ne_none_iff_exists'.mp hsome
    exact ⟨deadline, hclock ▸ hdue deadline hd, hwait.attempting deadline hd⟩

/-- The socket of the opening is closed, and the run dials anew. -/
def redialing : List Label :=
  List.flatten [opening, [.work 0 (.message .closed)], List.replicate 8 (.work 0 .go),
    [.work 0 (.random 0), .work 0 .go, .tick (60 * second), .work 0 .timer]]

theorem delays_kept_redialing :
    ∃ s pre x, Reaches (sample [accepted "u0"]) redialing s ∧
      chronicle (sample [accepted "u0"]) 0 redialing = pre ++ [x] ∧ x.effect = .dial ∧
      ((∀ y ∈ pre, y.undialed = true) ∨ Announced pre x.clock) := by
  obtain ⟨s, h, ho⟩ := reaches_of_play (sample [accepted "u0"]) redialing
    (fun s => (s.trace 0).getLast?.any Effect.dials) (by decide +kernel)
  obtain ⟨e, hlast, hdials⟩ := (Option.any_eq_true _ _).mp ho
  have hdial : e = .dial := by cases e <;> first | rfl | cases hdials
  obtain ⟨l, hl⟩ := List.getLast?_eq_some_iff.mp hlast
  have hmap := chronicle_effects h 0
  rw [hl, hdial] at hmap
  obtain ⟨pre, post, heq, -, hpost⟩ := List.map_eq_append_iff.mp hmap
  obtain ⟨x, rfl, hx⟩ := List.map_eq_singleton_iff.mp hpost
  exact ⟨s, pre, x, h, heq, hx, (delays_kept h heq).1 hx⟩

end WukongSdk
