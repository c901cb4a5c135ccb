import WukongSdk.Events

/-!
# The event stream of a client

A client has one broadcast channel for all its runs. What is sent into it is the
events of one run after the other, so the order within a run is the order
of the whole stream, and wherever the worker awaits, `is_connected` says what
the stream said last.
-/
namespace WukongSdk

namespace State

/-- The events of the client, in the order in which they are broadcast. -/
def stream (s : State) : List Event := s.log.filterMap fun x => x.2.event

/-- The events of the first `n` runs, run by run. -/
def told (s : State) (n : ℕ) : List Event := (List.range n).flatMap fun r => events (s.trace r)

theorem told_succ (s : State) (n : ℕ) : s.told (n + 1) = s.told n ++ events (s.trace n) := by
  simp [told, List.range_succ]

theorem told_congr {s t : State} {n : ℕ} (h : ∀ r < n, t.trace r = s.trace r) :
    t.told n = s.told n := by
  rw [told, told, List.flatMap_congr fun r hr => ?_]
  rw [h r (List.mem_range.mp hr)]

end State

/-- What is closed before does not count for what follows. -/
theorem sessionOpen_append {evs evs' : List Event} (h : sessionOpen evs = false) :
    sessionOpen (evs ++ evs') = sessionOpen evs' := by
  rw [sessionOpen, List.foldl_append, ← sessionOpen, h, sessionOpen]

/-- What `connected` is at a phase, where the run alone decides it. -/
def Phase.flag : Phase → Option Bool
  | .supervise p =>
    match p with
    | .ready _ | .first _ | .announce _ | .begin | .session _ | .lost _ | .unwind _ | .lower _ =>
      some true
    | _ => some false
  | .cancelled | .cancelLower => none
  | _ => some false

/-- The flag is what the phase of the worker says. -/
def Worker.Flagged (w : Worker) (connected : Bool) : Prop := ∀ b, w.phase.flag = some b → connected = b

namespace Worker

variable {cfg : Config} {r : RunId} {m : Memory} {w w' : Worker} {i : Input} {e : Effect} {l : Label}

attribute [local grind] Phase.flag Flagged
attribute [local grind =] Memory.work Memory.modify Memory.setSender
  Memory.freeSlot

theorem next_flagged (h : Access cfg r m w i w' e) (hw : w.Flagged m.connected) :
    w'.Flagged (m.work r e).connected := by
  cases h
  all_goals grind -linarith

theorem Moves.flagged (h : w.Moves cfg r m l w' e) (hw : w.Flagged m.connected) :
    w'.Flagged (m.work r e).connected := by
  cases h with
  | next hp h => exact next_flagged h hw
  | wake hp hq hc | resume hp hq => exact hw
  | cancel hp hq hc => exact fun b hb => by cases hb
  | suspend hp hd ha => exact hw

end Worker

namespace State

variable {cfg : Config} {s t : State} {r : RunId} {l : Label} {labels : List Label}

/-- With no worker alive the client is not connected. -/
theorem not_connected_of_torn (h : Reaches cfg labels s) (hnone : ∀ r, ¬ s.alive r) :
    s.mem.connected = false := by
  by_contra hup
  obtain ⟨r, hr⟩ := upheld_of_reaches h (eq_true_of_ne_false hup)
  exact hnone r (alive_of_not_lowered hr)

/-- A run is only spawned when no other one is alive. -/
theorem torn_of_spawn {c : CallId} {i : CallInput} {k : Call} (hl : Lifecycle s)
    (hs : s.step cfg (.call c i) = some (s.served c k .spawn)) (r : RunId) : ¬ s.alive r := by
  intro hr
  have hnew := (hl.alive r hr).1
  have hne : r ≠ s.mem.started := fun heq => Nat.succ_ne_self r (hnew.trans heq.symm)
  have halive : (s.served c k .spawn).alive r := by
    rwa [alive, served_workers, spawnWorker, Function.update_of_ne hne]
  exact Nat.succ_ne_self _ (((hl.step hs).alive r halive).1.symm.trans hnew)

/-- Only the newest run writes the flag, and it begins with the flag down. -/
theorem flagged_of_reaches (h : Reaches cfg labels s) (hr : s.alive r) :
    (s.workers r).Flagged s.mem.connected := by
  refine h.invariant_along (I := fun s => ∀ r, s.alive r → (s.workers r).Flagged s.mem.connected)
    (fun r hr => absurd rfl hr) ?_ r hr
  intro _ s l t hreach hi _ hs r hr
  have hl := Lifecycle.of_reaches hreach
  cases State.step_cases hs with
  | tick d => exact hi r hr
  | begin op hh => exact hi r hr
  | @call c i k a hx =>
    rw [served_mem, Memory.serve_connected, served_workers]
    rcases s.spawnWorker_cases r a with hw | ⟨rfl, rfl, hw⟩
    · rw [hw]
      exact hi r (by rwa [alive, served_workers, hw] at hr)
    · rw [hw, not_connected_of_torn hreach (torn_of_spawn hl hs)]
      exact fun b hb => Option.some.inj hb
  | @worker r' l w e hx =>
    have hr' : s.alive r' := (hx.finish (hl.ended r')).1
    by_cases heq : r = r'
    · subst heq
      rw [worked_mem, worked_workers, Function.update_self]
      exact hx.flagged (hi r hr')
    · rw [alive, worked_workers, Function.update_of_ne heq] at hr
      exact absurd (hl.alone hr hr') heq
  | dropClient _ _ => simpa [clientDropped_mem] using hi r hr

/-- Runs broadcast one after the other. -/
theorem stream_eq_told (h : Reaches cfg labels s) : s.stream = s.told s.mem.started := by
  refine h.invariant_along (I := fun s => s.stream = s.told s.mem.started) rfl ?_
  intro _ s l t hreach hi _ hs
  have hl := Lifecycle.of_reaches hreach
  cases State.step_cases hs with
  | tick d => exact hi
  | begin op hh => exact hi
  | @call c i k a hx =>
    rcases s.mem.serve_started c a with hs | ⟨-, hs⟩
    · rw [served_mem, hs]
      exact hi
    · rw [served_mem, hs, told_succ, trace_served, (hl.fresh _ le_rfl).2.2, events_nil,
        List.append_nil]
      exact hi
  | @worker r l w e hx =>
    have hnew : r + 1 = s.mem.started := (hl.alive r (hx.finish (hl.ended r)).1).1
    have hold : (s.worked r w e).told r = s.told r := told_congr fun r' hr' => by
      rw [trace_worked, if_neg hr'.ne]
    rw [worked_mem, Memory.work_started, ← hnew, told_succ, hold, trace_worked, if_pos rfl,
      events_append, events_single, ← List.append_assoc, ← told_succ, hnew, ← hi, stream, worked_log,
      List.filterMap_append]
    cases he : e.event <;> simp [stream, he]
  | dropClient _ _ =>
    rw [s.clientDropped_mem]
    exact hi

/-- A run that is over has closed every session it opened. -/
theorem closed_of_over (h : Reaches cfg labels s) {r : ℕ} (hr : r < s.mem.started)
    (ho : ¬ s.alive r) : sessionOpen (events (s.trace r)) = false := by
  have hfollows := (Staged.of_reaches h).follows r hr
  rw [show (s.workers r).stage = .ended by rw [Worker.stage, not_not.mp ho]] at hfollows
  exact Stage.Follows.history hfollows

/-- Only the newest run can have a session open. -/
theorem told_closed (h : Reaches cfg labels s) {n : ℕ} (hn : n < s.mem.started) :
    sessionOpen (s.told n) = false := by
  induction n with
  | zero => rfl
  | succ n ih =>
    rw [told_succ, sessionOpen_append (ih (by omega))]
    refine closed_of_over h (by omega) fun halive => ?_
    have := ((Lifecycle.of_reaches h).alive n halive).1
    omega

/-- An event of the stream is an event of one run, after all the runs before it. -/
theorem told_split {n : ℕ} {pre post : List Event} {e : Event} (h : s.told n = pre ++ e :: post) :
    ∃ r < n, ∃ pre' post', events (s.trace r) = pre' ++ e :: post' ∧ pre = s.told r ++ pre' := by
  induction n generalizing post with
  | zero => simp [told] at h
  | succ n ih =>
    rw [told_succ] at h
    rcases List.append_eq_append_iff.mp h with ⟨mid, rfl, hmid⟩ | ⟨mid, htold, hmid⟩
    · exact ⟨n, Nat.lt_succ_self n, mid, post, hmid, rfl⟩
    · cases mid with
      | nil =>
        refine ⟨n, Nat.lt_succ_self n, [], post, hmid.symm, ?_⟩
        rw [htold, List.append_nil, List.append_nil]
      | cons x mid =>
        obtain ⟨rfl, rfl⟩ := List.cons.inj hmid
        obtain ⟨r, hr, hsplit⟩ := ih htold
        exact ⟨r, hr.trans (Nat.lt_succ_self n), hsplit⟩

end State

/-- What a worker at rest holds of its session is what its events say. -/
theorem Worker.flag_of_resting {limit : ℕ} {evs : List Event} {w : Worker} (h : w.Resting)
    (hp : w.polling = false) (ho : w.phase ≠ .over) (ht : Stage.History limit evs w.stage) :
    w.phase.flag = some (sessionOpen evs) := by
  have idle : ∀ {n : ℕ}, Attempted limit n evs → some false = some (sessionOpen evs) := fun hn => by
    rw [hn.sessionOpen]
  rcases h hp with ha | ⟨htop, hzero⟩ | hover
  · cases awaiting_of_awaits ha with
    | sleeping hq | dialing hq | greeting hq | awaiting hq | flushing hq =>
      rw [stage, hq] at ht
      rw [hq]
      exact idle ht
    | select hq | writing hq | sessionFlushing hq =>
      rw [stage, hq] at ht
      rw [hq, show sessionOpen evs = true from ht]
      rfl
    | drain hq =>
      rw [stage, hq] at ht
      rw [hq, show sessionOpen evs = false from ht]
      rfl
  · simp only [stage, htop, hzero, if_true] at ht
    rw [htop]
    exact idle ht
  · exact absurd hover ho

/-- The stream of a client is that of its runs one after the other, and over the whole
of it sessions are bracketed: what belongs to a session comes while one is open, only
one is open at a time, and none is reported lost or replaced but the one that is. A
client none of whose workers is in the middle of a poll is connected if and only if
the last word of the stream is a `Connect`. -/
theorem stream_tells_presence {cfg : Config} {labels : List Label} {s : State}
    (h : Reaches cfg labels s) :
    s.stream = s.told s.mem.started ∧
    (∀ pre e post, s.stream = pre ++ e :: post →
      (e.ofSession = true → sessionOpen pre = true) ∧
      (∀ result, e = .connect result → sessionOpen pre = false) ∧
      (∀ n delay, e = .reconnecting n delay → sessionOpen pre = false) ∧
      (∀ reason, e = .disconnect reason → sessionOpen pre = false → reason = .manual)) ∧
    ((∀ r, s.alive r → (s.workers r).polling = false) →
      s.mem.connected = sessionOpen s.stream) := by
  have hstream := State.stream_eq_told h
  have hstaged := Staged.of_reaches h
  refine ⟨hstream, fun pre e post hsplit => ?_, fun hrest => ?_⟩
  · rw [hstream] at hsplit
    obtain ⟨r, hr, pre', post', hev, rfl⟩ := State.told_split hsplit
    rw [sessionOpen_append (State.told_closed h hr)]
    have hgrammar : EventGrammar _ (s.trace r) False False :=
      Stage.Follows.grammar (hstaged.follows r hr) False.elim False.elim
    refine ⟨fun hin => hgrammar.inside pre' e post' hev hin, ?_, ?_, ?_⟩
    · rintro result rfl
      exact hgrammar.opens pre' result post' hev
    · rintro n delay rfl
      obtain ⟨k, -, -, hfailing⟩ := hgrammar.numbered pre' n delay post' hev
      exact hfailing.sessionOpen
    · rintro reason rfl hclosed
      exact (hgrammar.unopened pre' reason post' hev hclosed).1
  · by_cases hnone : ∀ r, ¬ s.alive r
    · rw [State.not_connected_of_torn h hnone, hstream]
      cases hn : s.mem.started with
      | zero => rfl
      | succ n =>
        rw [State.told_succ, sessionOpen_append (State.told_closed h (by omega)),
          State.closed_of_over h (by omega) (hnone n)]
    · push Not at hnone
      obtain ⟨r, hr⟩ := hnone
      have hnew := ((Lifecycle.of_reaches h).alive r hr).1
      have hlt : r < s.mem.started := Nat.lt_of_succ_le hnew.le
      rw [hstream, ← hnew, State.told_succ, sessionOpen_append (State.told_closed h hlt)]
      exact State.flagged_of_reaches h hr _ (Worker.flag_of_resting (hstaged.resting r) (hrest r hr) hr
        (Stage.Follows.history (hstaged.follows r hlt)))

/-- The opening, up to the suspension of its session, then a disconnect and a second run. -/
def reopening : List Label :=
  List.flatten [opening, [.suspend 0, .begin .disconnect], List.replicate 2 (.call 1 .go),
    [.poll 0], List.replicate 8 (.work 0 .go), [.call 1 .go, .begin (.connect true)],
    List.replicate 4 (.call 2 .go),
    [.poll 1, .work 1 .go, .work 1 (.io true), .work 1 (.uuid "u2"), .work 1 (.stamp 0),
      .work 1 (.io true), .work 1 (.message (.text (compact (accepted "u2"))))],
    List.replicate 9 (.work 1 .go), [.suspend 1]]

theorem stream_tells_presence_reopening :
    ∃ s, Reaches (sample [accepted "u0", accepted "u2"]) reopening s ∧ s.mem.started = 2 ∧
      s.stream.length = 3 ∧ sessionOpen s.stream = true := by
  obtain ⟨s, h, ho⟩ := reaches_of_play (sample [accepted "u0", accepted "u2"]) reopening
    (fun s => s.mem.started = 2 && s.stream.length = 3 && s.mem.connected && !(s.workers 1).polling)
    (by decide +kernel)
  simp only [Bool.and_eq_true, Bool.not_eq_true', decide_eq_true_eq] at ho
  obtain ⟨⟨⟨hstarted, hlen⟩, hup⟩, hp⟩ := ho
  refine ⟨s, h, hstarted, hlen, ?_⟩
  rw [← (stream_tells_presence h).2.2 fun r hr => ?_, hup]
  have hnew := ((Lifecycle.of_reaches h).alive r hr).1
  rw [hstarted] at hnew
  rw [Nat.succ_injective hnew, hp]

end WukongSdk
