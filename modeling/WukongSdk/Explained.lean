import WukongSdk.Deadlines
import WukongSdk.Established

/-!
# Where the outcome of a send comes from

Every result of `send` has a cause the client has passed through. The errors of
the caller hold when the call meets them, and those of the worker come from a
frame, from an expired deadline, from the loss of the connection the call was
for, or from the end of the run.
-/
namespace WukongSdk

/-- The generation a send in progress has read. -/
def Call.aims : Call → Option UInt64
  | .send _ (.acquire g) | .send _ (.prepare g) => some g
  | .send _ (.lock cmd) | .send _ (.recheck cmd) | .send _ (.enqueue cmd)
  | .send _ (.unlock _ cmd) | .send _ (.wait _ cmd) => some cmd.generation
  | _ => none

/-- The connection of generation `g` is up. -/
def State.online (s : State) (g : UInt64) : Prop :=
  s.newest.phase.seated = true ∧ s.mem.generation = g

/-- What can be behind the result of send `c` in a state the labels lead to. -/
inductive Explained (cfg : Config) (labels : List Label) (s : State) (c : CallId) :
    Except Error SendResult → Prop
  /-- The result is what the first response to the request says. -/
  | heard {r : RunId} {result : Except Error SendResult}
      (h : Backed cfg.codec (s.trace r) c result) : Explained cfg labels s c result
  /-- `request_timeout` has passed since the call fixed its deadline. -/
  | expired (h : Once (State.step cfg) (fun _ _ => True) (State.new cfg) labels fun u =>
      (u.calls c).preparing = true ∧ u.mem.clock + cfg.options.requestTimeout ≤ s.mem.clock) :
      Explained cfg labels s c (.error .timeout)
  /-- The connection the call was for was not up at some instant of the call. -/
  | adrift (h : Once (State.step cfg) (fun _ _ => True) (State.new cfg) labels fun u =>
      ∃ g, (u.calls c).aims = some g ∧ ¬ u.online g) : Explained cfg labels s c (.error .disconnected)
  /-- The run that held the command has ended with this error. -/
  | ended {r : RunId} {e : Error} (hf : e.isFinal = true) (h : Cause (s.trace r) e)
      (ha : .answer c (.error e) ∈ s.trace r) : Explained cfg labels s c (.error e)
  | destroyed (h : s.mem.destroyed = true) : Explained cfg labels s c (.error .destroyed)
  | unconnected (h : Once (State.step cfg) (fun _ _ => True) (State.new cfg) labels fun u =>
      (u.calls c).settled = false ∧ u.mem.connected = false) :
      Explained cfg labels s c (.error .notConnected)
  /-- Every permit was taken when the call asked for one. -/
  | full (h : Once (State.step cfg) (fun _ _ => True) (State.new cfg) labels fun u =>
      (∃ args g, u.calls c = .send args (.acquire g)) ∧
        u.mem.permits.card = cfg.options.maxInFlight) : Explained cfg labels s c (.error .backpressure)
  /-- The arguments are refused, or the frame is too large. -/
  | unbuilt {e : Error} (h : Once (State.step cfg) (fun _ _ => True) (State.new cfg) labels fun u =>
      ∃ args g id msgNo, u.calls c = .send args (.prepare g) ∧
        SendPhase.build cfg u.mem args c g id msgNo = .error e) : Explained cfg labels s c (.error e)

/-! ## What the caller does -/

namespace Call

variable {cfg : Config} {c : CallId} {m : Memory} {i : CallInput} {k k' : Call} {a : Act} {r : RunId}
  {result : Except Error SendResult}

/-- The result a send has, or is about to have. -/
def bound : Call → Option (Except Error SendResult)
  | .send _ (.abortLocked e) | .send _ (.abort e) | .send _ (.refused e) => some (.error e)
  | .send _ (.done result) => some result
  | _ => none

/-- Why a send comes to its result. -/
inductive Reason (cfg : Config) (c : CallId) (m : Memory) : Call → Except Error SendResult → Prop
  | destroyed {args : SendArgs} (h : m.destroyed = true) :
      Reason cfg c m (.send args .start) (.error .destroyed)
  | unconnected {args : SendArgs} (h : m.connected = false) :
      Reason cfg c m (.send args .checkConnected) (.error .notConnected)
  | full {args : SendArgs} {g : UInt64} (h : m.slots = 0) :
      Reason cfg c m (.send args (.acquire g)) (.error .backpressure)
  | unbuilt {args : SendArgs} {g : UInt64} {id msgNo : String} {e : Error}
      (h : SendPhase.build cfg m args c g id msgNo = .error e) :
      Reason cfg c m (.send args (.prepare g)) (.error e)
  | lost {args : SendArgs} {cmd : Command} (h : m.connected = false) :
      Reason cfg c m (.send args (.recheck cmd)) (.error .notConnected)
  | cleared {args : SendArgs} {cmd : Command} (h : m.running = none) :
      Reason cfg c m (.send args (.enqueue cmd)) (.error .notConnected)
  | closed {args : SendArgs} {cmd : Command} {r : RunId} (hr : m.running = some r)
      (h : (m.cells r).closed = true) :
      Reason cfg c m (.send args (.enqueue cmd)) (.error .disconnected)
  | crowded {args : SendArgs} {cmd : Command} {r : RunId}
      (h : cfg.options.maxInFlight ≤ (m.cells r).commands.length) :
      Reason cfg c m (.send args (.enqueue cmd)) (.error .backpressure)
  | expired {args : SendArgs} {r : RunId} {cmd : Command} (h : cmd.deadline ≤ m.clock) :
      Reason cfg c m (.send args (.wait r cmd)) (.error .timeout)
  | sent {args : SendArgs} {r : RunId} {cmd : Command} {result : Except Error SendResult}
      (h : (m.replies c).sender = .sent result) : Reason cfg c m (.send args (.wait r cmd)) result
  | gone {args : SendArgs} {r : RunId} {cmd : Command} (h : (m.replies c).sender = .gone) :
      Reason cfg c m (.send args (.wait r cmd)) (.error .disconnected)

attribute [local grind] bound
attribute [local grind intro] Reason

theorem Moves.reason (h : k.Moves cfg c m i k' a) (hk : k'.bound = some result) :
    k.bound = some result ∨ Reason cfg c m k result := by
  revert hk
  cases h with
  | @send args p p' a h =>
    revert h
    fun_cases SendPhase.next cfg c m args i p <;> grind -linarith
  | connect h => rintro ⟨⟩
  | disconnect h => rintro ⟨⟩

attribute [local grind] sentTo settled aims passed Call.command

/-- A call that has handed its command to a run stays with it until it is settled. -/
theorem Moves.tracks {cmd : Command} (h : k.Moves cfg c m i k' a) :
    (k.sentTo = some (r, cmd) → k'.sentTo = some (r, cmd) ∨ k'.settled = true) ∧
      (a = .enqueue r cmd → k'.sentTo = some (r, cmd)) := by
  cases h with
  | @send args p p' a h =>
    revert h
    fun_cases SendPhase.next cfg c m args i p <;> grind -linarith
  | @connect rt p p' a h => revert h; fun_cases ConnectPhase.next m rt i p <;> grind -linarith
  | @disconnect d p p' a h => revert h; fun_cases DisconnectPhase.next m i p <;> grind -linarith

theorem aims_of_sentTo {cmd : Command} (h : k.sentTo = some (r, cmd)) :
    k.aims = some cmd.generation := by
  unfold sentTo at h
  split at h <;> cases h <;> rfl

theorem settled_of_gaveUp (h : k.gaveUp = true) : k.settled = true := by
  unfold gaveUp at h
  split at h <;> first | rfl | cases h

/-- A call that has parted with its permit aims at a connection or is settled. -/
theorem aims_of_passed (h : k.passed = true) : k.settled = true ∨ ∃ g, k.aims = some g := by
  unfold passed at h
  split at h
  · exact .inr ⟨_, rfl⟩
  · exact .inr ⟨_, rfl⟩
  · exact .inl rfl
  · exact .inl rfl
  · cases h

end Call

/-! ## What the worker does -/

/-- A command refused because its connection is gone. -/
def Phase.staleCommand : Phase → Option Command
  | .supervise (.session (.refuse cmd .disconnected)) => some cmd
  | _ => none

/-- The error a run has published last. -/
def Phase.draining : Phase → Option Error
  | .close e | .drain e | .drained e _ => some e
  | _ => none

namespace Worker

variable {cfg : Config} {r : RunId} {m : Memory} {w w' : Worker} {i : Input} {e : Effect} {l : Label}
  {c : CallId}

attribute [local grind] Phase.staleCommand Phase.draining Phase.late Phase.answering Phase.refusing
  Phase.seated announced

theorem next_staleCommand {cmd : Command} (h : Access cfg r m w i w' e)
    (hw : w'.phase.staleCommand = some cmd) :
    e ≠ .bump ∧ (w.phase.staleCommand = some cmd ∨ cmd.generation ≠ m.generation) := by
  cases h
  all_goals grind -linarith

theorem Moves.staleCommand {cmd : Command} (h : w.Moves cfg r m l w' e)
    (hw : w'.phase.staleCommand = some cmd) :
    e ≠ .bump ∧ (w.phase.staleCommand = some cmd ∨ cmd.generation ≠ m.generation) := by
  cases h with
  | next hp h => exact next_staleCommand h hw
  | wake hp hq hc | resume hp hq | suspend hp hd ha => exact ⟨by rintro ⟨⟩, .inl hw⟩
  | cancel hp hq hc => cases hw

theorem next_draining {error : Error} (h : Access cfg r m w i w' e)
    (hw : w'.phase.draining = some error) :
    w.phase.draining = some error ∨ e = .setStatus (.failed error) := by
  cases h
  all_goals grind -linarith

theorem Moves.draining {error : Error} (h : w.Moves cfg r m l w' e)
    (hw : w'.phase.draining = some error) :
    w.phase.draining = some error ∨ e = .setStatus (.failed error) := by
  cases h with
  | next hp h => exact next_draining h hw
  | wake hp hq hc | resume hp hq | suspend hp hd ha => exact .inl hw
  | cancel hp hq hc => cases hw

/-- What a worker answers was heard, has expired, is for a connection that is gone, or is
the error of the run. -/
theorem next_answered {result : Except Error SendResult}
    (h : Access cfg r m w i w' (.answer c result))
    (hr : ∀ e, w.phase.refusing = some e → e = .disconnected ∨ e = .timeout) :
    (∃ p, w.phase.answering = some (p, result, announced result) ∧ p.reply = c) ∨
    (w.phase.late = some c ∧ result = .error .timeout) ∨
    (∃ cmd, w.phase.staleCommand = some cmd ∧ cmd.reply = c ∧ result = .error .disconnected) ∨
    (w.phase.seated = false ∧ result = .error .disconnected) ∨
    ∃ e cmd, w.phase = .drained e cmd ∧ cmd.reply = c ∧ result = .error e := by
  cases h
  case refuse cmd e hd hp =>
    rcases hr e (by rw [hp]; rfl) with rfl | rfl
    · exact .inr (.inr (.inl ⟨cmd, by rw [hp]; rfl, rfl, rfl⟩))
    · exact .inr (.inl ⟨by rw [hp]; rfl, rfl⟩)
  all_goals grind -linarith

/-- A worker drops a reply that nobody waits for, or outside of a session, or for a
command of the same id. -/
theorem next_dropped (h : Access cfg r m w i w' (.drop c)) :
    (m.replies c).abandoned = true ∨ w.phase.seated = false ∨
    ∃ cmd, w.phase = .supervise (.session (.insert cmd)) ∧
      ∃ p ∈ w.session.pending, p.id = cmd.id := by
  cases h
  case replace cmd p hd hp hfind =>
    have hid : p.id = cmd.id := by simpa using List.find?_some hfind
    exact .inr (.inr ⟨cmd, hp, p, List.mem_of_find?_eq_some hfind, hid⟩)
  all_goals grind -linarith

end Worker

/-- Commands are where their calls have left them, and a worker's reasons are known. -/
structure Placed (s : State) : Prop where
  tracked : ∀ r, ∀ cmd ∈ s.unwritten r,
    (s.calls cmd.reply).sentTo = some (r, cmd) ∨ (s.calls cmd.reply).settled = true
  staleCommand : ∀ r cmd, (s.workers r).phase.staleCommand = some cmd → cmd.generation ≠ s.mem.generation
  draining : ∀ r e, (s.workers r).phase.draining = some e → .setStatus (.failed e) ∈ s.trace r

namespace Placed

variable {cfg : Config} {s t : State} {c : CallId} {i : CallInput} {k : Call} {a : Act} {r : RunId}
  {w : Worker} {e : Effect} {l : Label} {labels : List Label}

theorem served (h : Placed s) (ha : Admission cfg s)
    (hx : (s.calls c).Moves cfg c s.mem i k a) : Placed (s.served c k a) := by
  refine ⟨fun r cmd hcmd => ?_, fun r cmd hq => ?_, fun r e hq => ?_⟩
  · have stays : ∀ c', (s.calls c').sentTo = some (r, cmd) ∨ (s.calls c').settled = true →
        ((s.served c k a).calls c').sentTo = some (r, cmd) ∨
          ((s.served c k a).calls c').settled = true := fun c' hc => by
      by_cases hcc : c' = c
      · subst hcc
        rw [State.served_calls, Function.update_self]
        rcases hc with hc | hc
        · exact hx.tracks.1 hc
        · rw [hx.unsettled] at hc
          cases hc
      · rwa [State.served_calls, Function.update_of_ne hcc]
    rcases State.unwritten_served hcmd with hcmd | rfl
    · exact stays _ (h.tracked r cmd hcmd)
    · rw [ha.reply c cmd hx.handed.2, State.served_calls, Function.update_self]
      exact .inl (hx.tracks.2 rfl)
  · rw [State.served_workers] at hq
    rcases s.spawnWorker_cases r a with hw | ⟨-, -, hw⟩
    · rw [State.served_mem, Memory.serve_generation]
      exact h.staleCommand r cmd (hw ▸ hq)
    · rw [hw] at hq
      cases hq
  · rw [State.served_workers] at hq
    rcases s.spawnWorker_cases r a with hw | ⟨-, -, hw⟩
    · rw [State.trace_served]
      exact h.draining r e (hw ▸ hq)
    · rw [hw] at hq
      cases hq

theorem worked (h : Placed s) (hl : Lifecycle s) (hx : (s.workers r).Moves cfg r s.mem l w e) :
    Placed (s.worked r w e) := by
  have halive := (hx.finish (hl.ended r)).1
  refine ⟨fun r' cmd hcmd => h.tracked r' cmd (State.unwritten_worked hx hcmd), fun r' cmd hq => ?_,
    fun r' error hq => ?_⟩
  · by_cases hr : r' = r
    · subst hr
      rw [State.worked_workers, Function.update_self] at hq
      obtain ⟨hne, hcase⟩ := hx.staleCommand hq
      have hsame : (s.mem.work r' e).generation = s.mem.generation := by
        cases e <;> first | rfl | exact absurd rfl hne
      rw [State.worked_mem, hsame]
      exact hcase.elim (h.staleCommand r' cmd) id
    · rw [State.worked_workers, Function.update_of_ne hr] at hq
      have hover : s.alive r' := fun hover => by
        rw [hover] at hq
        cases hq
      exact absurd (hl.alone hover halive) hr
  · by_cases hr : r' = r
    · subst hr
      rw [State.worked_workers, Function.update_self] at hq
      rw [State.trace_worked, if_pos rfl]
      rcases hx.draining hq with hold | rfl
      · exact List.mem_append_left _ (h.draining r' error hold)
      · exact List.mem_append_right _ (List.mem_singleton_self _)
    · rw [State.worked_workers, Function.update_of_ne hr] at hq
      rw [State.trace_worked, if_neg hr]
      exact h.draining r' error hq

theorem of_reaches (h : Reaches cfg labels s) : Placed s := by
  refine h.invariant_along (I := Placed)
    ⟨by rintro _ _ ⟨⟩, by rintro _ _ ⟨⟩, by rintro _ _ ⟨⟩⟩ ?_
  intro _ s l t hreach hi _ hs
  have hl := Lifecycle.of_reaches hreach
  have ha := Admission.of_reaches hreach
  cases State.step_cases hs with
  | tick d => exact ⟨hi.tracked, hi.staleCommand, hi.draining⟩
  | begin op hh =>
    refine ⟨fun r cmd hcmd => ?_, hi.staleCommand, hi.draining⟩
    have hpassed := ha.passed cmd.reply r (State.held_of_unwritten hcmd)
    have hne : cmd.reply ≠ s.begun := fun heq => by
      rw [heq, hl.idle _ le_rfl] at hpassed
      cases hpassed
    rw [State.called_calls, Function.update_of_ne hne]
    exact hi.tracked r cmd hcmd
  | call hx => exact hi.served ha hx
  | worker hx => exact hi.worked hl hx
  | dropClient _ _ =>
    refine ⟨fun r cmd hcmd => hi.tracked r cmd (by simpa using hcmd), fun r cmd hq => ?_, hi.draining⟩
    rw [s.clientDropped_mem]
    exact hi.staleCommand r cmd hq

end Placed

/-! ## The outcomes -/

section

variable {cfg : Config} {s t : State} {c : CallId} {i : CallInput} {k : Call} {a : Act} {r : RunId}
  {w : Worker} {e : Effect} {l : Label} {labels : List Label} {result : Except Error SendResult}

theorem trace_step (hl : Lifecycle s) (hs : s.step cfg l = some t) (r : RunId) :
    ∃ rest, t.trace r = s.trace r ++ rest := by
  rcases (State.log_step hl hs).2 with heq | ⟨r', e, heq, -⟩
  · exact ⟨[], by rw [State.trace, heq, List.append_nil, ← State.trace]⟩
  · exact ⟨_, by rw [State.trace, heq, List.filterMap_append, ← State.trace]⟩

theorem clock_step (hs : s.step cfg l = some t) : s.mem.clock ≤ t.mem.clock := by
  cases State.step_cases hs with
  | tick d => exact Nat.le_add_right _ d
  | begin op hh => exact le_rfl
  | call hx => simp
  | worker hx => simp
  | dropClient _ _ => simp [s.clientDropped_mem]

theorem destroyed_step (hd : s.mem.destroyed = true) (hs : s.step cfg l = some t) :
    t.mem.destroyed = true := by
  cases State.step_cases hs with
  | tick d => exact hd
  | begin op hh => exact hd
  | call hx => exact s.mem.serve_destroyed _ _ hd
  | worker hx => simpa using hd
  | dropClient _ _ => simpa [s.clientDropped_mem] using hd

/-- What explains a result goes on to explain it. -/
theorem Explained.later (h : Explained cfg labels s c result) (hl : Lifecycle s)
    (hs : s.step cfg l = some t) : Explained cfg (labels ++ [l]) t c result := by
  cases h with
  | @heard r result hb =>
    obtain ⟨rest, hrest⟩ := trace_step hl hs r
    exact .heard (hrest ▸ hb.append rest)
  | expired ho =>
    exact .expired ((ho.later l).imp fun u hu => ⟨hu.1, hu.2.trans (clock_step hs)⟩)
  | adrift ho => exact .adrift (ho.later l)
  | @ended r e hf hc ha =>
    obtain ⟨rest, hrest⟩ := trace_step hl hs r
    have hsub : s.trace r ⊆ t.trace r := hrest ▸ List.subset_append_left _ _
    exact .ended hf (hc.mono hsub) (hsub ha)
  | destroyed hd => exact .destroyed (destroyed_step hd hs)
  | unconnected ho => exact .unconnected (ho.later l)
  | full ho => exact .full (ho.later l)
  | unbuilt ho => exact .unbuilt (ho.later l)

/-- A run that is not in a session has no connection up. -/
theorem offline_of_alive (hl : Lifecycle s) (hr : s.alive r)
    (hq : (s.workers r).phase.seated = false) (g : UInt64) : ¬ s.online g := by
  rintro ⟨hup, -⟩
  rw [State.newest_of_alive hl hr, hq] at hup
  cases hup

/-- What callers have, or can still read, is explained. -/
structure Accounted (cfg : Config) (labels : List Label) (s : State) : Prop where
  bound : ∀ c result, (s.calls c).bound = some result → Explained cfg labels s c result
  sent : ∀ c result, (s.mem.replies c).sender = .sent result →
    (s.calls c).settled = true ∨ Explained cfg labels s c result
  gone : ∀ c, (s.mem.replies c).sender = .gone →
    (s.calls c).settled = true ∨ Explained cfg labels s c (.error .disconnected)

/-- Every reason of a caller is an explanation. -/
theorem Accounted.of_reason (h : Accounted cfg labels s) (hreach : Reaches cfg labels s)
    (hk : (s.calls c).settled = false) (hreason : (s.calls c).Reason cfg c s.mem result) :
    Explained cfg labels s c result := by
  have hl := Lifecycle.of_reaches hreach
  have ha := Admission.of_reaches hreach
  generalize hcall : s.calls c = k at hreason
  cases hreason with
  | destroyed hd => exact .destroyed hd
  | unconnected hd => exact .unconnected (.now hreach ⟨hk, hd⟩)
  | @full args g hslots =>
    have hcount := ha.count
    rw [hslots, Nat.zero_add] at hcount
    exact .full (.now hreach ⟨⟨args, g, hcall⟩, hcount⟩)
  | @unbuilt args g id msgNo e hbuild =>
    exact .unbuilt (.now hreach ⟨args, g, id, msgNo, hcall, hbuild⟩)
  | lost hd => exact .unconnected (.now hreach ⟨hk, hd⟩)
  | cleared hnone =>
    refine .unconnected (.now hreach ⟨hk, State.not_connected_of_torn hreach fun r hr => ?_⟩)
    rcases (hl.alive r hr).2 with hrun | hgone
    · rw [hnone] at hrun
      cases hrun
    · rw [hl.handles hgone c] at hk
      cases hk
  | @closed args cmd r hrun hclosed =>
    have hnew := hl.running r hrun
    have hcoupled := (Published.of_reaches hreach).coupled r (Nat.lt_of_succ_le hnew.le)
    rw [hcoupled.closed] at hclosed
    refine .adrift (.now hreach ⟨cmd.generation, by rw [hcall]; rfl, fun hup => ?_⟩)
    have hseated := hup.1
    rw [State.newest, ← hnew, Nat.add_sub_cancel] at hseated
    unfold Phase.closed at hclosed
    split at hclosed
    case h_4 => cases hclosed
    all_goals simp [Phase.seated, *] at hseated
  | @crowded args cmd r hfull =>
    exact absurd (ha.queue_has_room (by rw [hcall]; rfl) r) (not_lt.mpr hfull)
  | @expired args r cmd hdue =>
    refine .expired (((Punctual.of_reaches hreach).command c cmd (by rw [hcall]; rfl)).imp ?_)
    rintro u ⟨hp, hd⟩
    exact ⟨hp, hd ▸ hdue⟩
  | sent hsent => exact (h.sent c _ hsent).resolve_left (by rw [hk]; exact Bool.false_ne_true)
  | gone hgone => exact (h.gone c hgone).resolve_left (by rw [hk]; exact Bool.false_ne_true)

/-- What an access settles is held by the run. -/
theorem stock_of_settles (ht : (s.workers r).Tidy) (hx : (s.workers r).Moves cfg r s.mem l w e)
    (hc : e.settles c = true) : ∃ id, (c, id) ∈ s.stock r := by
  have hcustody := hx.custody ht
  cases e with
  | drop d | answer d result =>
    obtain rfl : d = c := of_decide_eq_true hc
    obtain ⟨-, -, id, hp⟩ := hcustody
    exact ⟨id, List.mem_append_right _ (hp.mem_iff.2 (List.mem_cons_self ..))⟩
  | _ => cases hc

/-- A reply that is settled outside of a session had lost its connection. -/
theorem adrift_of_offline (hreach : Reaches cfg labels s) (hx : (s.workers r).Moves cfg r s.mem l w e)
    (hc : e.settles c = true) (hq : (s.workers r).phase.seated = false) :
    (s.calls c).settled = true ∨ Explained cfg labels s c (.error .disconnected) := by
  have hl := Lifecycle.of_reaches hreach
  have ha := Admission.of_reaches hreach
  obtain ⟨id, hstock⟩ := stock_of_settles (tidy_of_reaches hreach r) hx hc
  rcases Call.aims_of_passed (ha.passed c r (Owed.mem_held hstock)) with hsettled | ⟨g, hg⟩
  · exact .inl hsettled
  · have halive := (hx.finish (hl.ended r)).1
    exact .inr (.adrift (.now hreach ⟨g, hg, offline_of_alive hl halive hq g⟩))

/-- What a worker answers is explained, or nobody waits for it. -/
theorem explained_of_answer (hreach : Reaches cfg labels s) (hs : s.step cfg l = some t)
    (hx : (s.workers r).Moves cfg r s.mem l w (.answer c result))
    (ht : t = s.worked r w (.answer c result)) :
    (s.calls c).settled = true ∨ Explained cfg (labels ++ [l]) t c result := by
  have hl := Lifecycle.of_reaches hreach
  have hat := Attested.of_reaches hreach
  have hplaced := Placed.of_reaches hreach
  have halive := (hx.finish (hl.ended r)).1
  have htrace : t.trace r = s.trace r ++ [.answer c result] := by
    rw [ht, State.trace_worked, if_pos rfl]
  have hlast : .answer c result ∈ t.trace r :=
    htrace ▸ List.mem_append_right _ (List.mem_singleton_self _)
  cases hx with
  | next hp hn =>
    have hmoves := Worker.Moves.next hp hn
    rcases Worker.next_answered hn (hat.witnessed r).refusing with
      ⟨p, hans, hreply⟩ | ⟨hlate, rfl⟩ | ⟨cmd, hstale, rfl, rfl⟩ | ⟨hq, rfl⟩ | ⟨e, cmd, hq, rfl, rfl⟩
    · obtain ⟨-, pre, hpre, hheard⟩ := (hat.witnessed r).answering p _ _ hans
      exact .inr (.heard ⟨pre, p, [], by rw [htrace, hpre], hreply, hheard⟩)
    · obtain ⟨d, hbooked, hdue⟩ := ((Punctual.of_reaches hreach).timely r).late c hlate
      right
      refine Explained.later (.expired (hbooked.imp ?_)) hl hs
      rintro u ⟨hprep, hd⟩
      exact ⟨hprep, hd ▸ hdue⟩
    · have hmem : cmd ∈ s.unwritten r := by
        refine List.mem_append_right _ (Option.mem_toList.mpr ?_)
        unfold Phase.staleCommand at hstale
        split at hstale
        · next hq =>
          rw [hq]
          exact hstale
        · cases hstale
      rcases hplaced.tracked r cmd hmem with hsent | hsettled
      · right
        refine Explained.later (.adrift (.now hreach
          ⟨cmd.generation, Call.aims_of_sentTo hsent, fun hup => ?_⟩)) hl hs
        exact hplaced.staleCommand r cmd hstale hup.2.symm
      · exact .inl hsettled
    · refine (adrift_of_offline hreach hmoves (by simp [Effect.settles]) hq).imp_right fun h => ?_
      exact h.later hl hs
    · have hestablished : (s.workers r).established = true := by
        by_contra hnot
        have hnone := (Established.of_reaches hreach).empty r (Bool.eq_false_iff.mpr hnot)
        simp [State.unwritten, hq, Phase.command] at hnone
      have hfinal := ((Established.of_reaches hreach).flags r).parting hestablished e (by rw [hq]; rfl)
      have hcause : Cause (s.trace r) e := (grounded_of_reaches hreach r).blames _
        (hplaced.draining r e (by rw [hq]; rfl)) e rfl
      exact .inr (.ended hfinal (hcause.mono (htrace ▸ List.subset_append_left _ _)) hlast)

/-- A reply is dropped where nobody waits for it, or with its connection. -/
theorem explained_of_drop (hreach : Reaches cfg labels s) (hs : s.step cfg l = some t)
    (hx : (s.workers r).Moves cfg r s.mem l w (.drop c)) :
    (s.calls c).settled = true ∨ Explained cfg (labels ++ [l]) t c (.error .disconnected) := by
  cases hx with
  | next hp hn =>
    have hmoves := Worker.Moves.next hp hn
    rcases Worker.next_dropped hn with habandoned | hq | ⟨cmd, hq, p, hmem, hid⟩
    · exact .inl (Call.settled_of_gaveUp ((Settled.of_reaches hreach).abandoned c habandoned))
    · refine (adrift_of_offline hreach hmoves (by simp [Effect.settles]) hq).imp_right fun h => ?_
      exact h.later (Lifecycle.of_reaches hreach) hs
    · -- the ids of the hand and of the map are distinct
      have hids := (Distinct.of_reaches hreach).nodup_ids (.of_reaches hreach) r
      simp only [State.stock, Worker.carried, hq, Phase.hand, SessionPhase.hand, List.map_append,
        List.map_map] at hids
      have hnew := (List.nodup_cons.mp (List.nodup_append.mp hids).2.1).1
      exact absurd (List.mem_map.mpr ⟨p, hmem, hid⟩) hnew

theorem Accounted.worked (h : Accounted cfg labels s) (hreach : Reaches cfg labels s)
    (hs : s.step cfg l = some (s.worked r w e)) (hx : (s.workers r).Moves cfg r s.mem l w e) :
    Accounted cfg (labels ++ [l]) (s.worked r w e) := by
  have hl := Lifecycle.of_reaches hreach
  refine ⟨fun c result hc => (h.bound c result hc).later hl hs, fun c result hc => ?_, fun c hc => ?_⟩
  · by_cases hsettles : e.settles c = true
    · cases e with
      | drop d =>
        obtain rfl : d = c := of_decide_eq_true hsettles
        simp [Memory.work, Memory.setSender] at hc
      | answer d result' =>
        obtain rfl : d = c := of_decide_eq_true hsettles
        obtain rfl : result' = result := by simpa [Memory.work, Memory.setSender] using hc
        exact explained_of_answer (s := s) hreach hs hx rfl
      | _ => cases hsettles
    · rw [State.worked_mem, Settled.work_replies _ _ (by simpa using hsettles)] at hc
      exact (h.sent c result hc).imp_right fun hex => hex.later hl hs
  · by_cases hsettles : e.settles c = true
    · cases e with
      | drop d =>
        obtain rfl : d = c := of_decide_eq_true hsettles
        exact explained_of_drop (s := s) hreach hs hx
      | answer d result' =>
        obtain rfl : d = c := of_decide_eq_true hsettles
        simp [Memory.work, Memory.setSender] at hc
      | _ => cases hsettles
    · rw [State.worked_mem, Settled.work_replies _ _ (by simpa using hsettles)] at hc
      exact (h.gone c hc).imp_right fun hex => hex.later hl hs

theorem Accounted.served (h : Accounted cfg labels s) (hreach : Reaches cfg labels s)
    (hs : s.step cfg l = some (s.served c k a)) (hx : (s.calls c).Moves cfg c s.mem i k a) :
    Accounted cfg (labels ++ [l]) (s.served c k a) := by
  have hl := Lifecycle.of_reaches hreach
  have stays : ∀ c', (s.calls c').settled = true → ((s.served c k a).calls c').settled = true :=
    fun c' hc => by
      have hcc : c' ≠ c := fun heq => by
        rw [heq, hx.unsettled] at hc
        cases hc
      rwa [State.served_calls, Function.update_of_ne hcc]
  refine ⟨fun c' result hc => ?_, fun c' result hc => ?_, fun c' hc => ?_⟩
  · by_cases hcc : c' = c
    · subst hcc
      rcases hx.reason (by simpa using hc) with hold | hreason
      · exact (h.bound c' result hold).later hl hs
      · exact (h.of_reason hreach hx.unsettled hreason).later hl hs
    · exact (h.bound c' result (by simpa [hcc] using hc)).later hl hs
  · exact (h.sent c' result (by simpa using hc)).imp (stays c') fun hex => hex.later hl hs
  · exact (h.gone c' (by simpa using hc)).imp (stays c') fun hex => hex.later hl hs

theorem Accounted.of_reaches (h : Reaches cfg labels s) : Accounted cfg labels s := by
  induction h with
  | nil => exact ⟨by rintro _ _ ⟨⟩, by rintro _ _ ⟨⟩, by rintro _ ⟨⟩⟩
  | @snoc s t labels l hreach _ hs hi =>
    have hl := Lifecycle.of_reaches hreach
    have later : ∀ {c result}, Explained cfg labels s c result →
        Explained cfg (labels ++ [l]) t c result := fun hex => hex.later hl hs
    cases State.step_cases hs with
    | tick d =>
      exact ⟨fun c result hc => later (hi.bound c result hc),
        fun c result hc => (hi.sent c result hc).imp_right later,
        fun c hc => (hi.gone c hc).imp_right later⟩
    | begin op hh =>
      -- no reply of a call that begins is settled
      have hlive := (Owed.of_reaches hreach).fresh s.begun (by rw [hl.idle _ le_rfl]; rfl)
      have stays : ∀ c, c ≠ s.begun → (s.called op).calls c = s.calls c :=
        fun c hc => Function.update_of_ne hc _ _
      refine ⟨fun c result hc => ?_, fun c result hc => ?_, fun c hc => ?_⟩
      all_goals
        by_cases hcb : c = s.begun
      · rw [hcb, State.called_calls, Function.update_self] at hc
        cases op <;> cases hc
      · exact later (hi.bound c result (stays c hcb ▸ hc))
      · rw [hcb, State.called_mem, hlive] at hc
        cases hc
      · rw [stays c hcb]
        exact (hi.sent c result hc).imp_right later
      · rw [hcb, State.called_mem, hlive] at hc
        cases hc
      · rw [stays c hcb]
        exact (hi.gone c hc).imp_right later
    | call hx => exact hi.served hreach hs hx
    | worker hx => exact hi.worked hreach hs hx
    | dropClient _ _ =>
      have hm : s.clientDropped.mem.replies = s.mem.replies := by rw [s.clientDropped_mem]
      refine ⟨fun c result hc => later (hi.bound c result hc), fun c result hc => ?_, fun c hc => ?_⟩
      · rw [hm] at hc
        exact (hi.sent c result hc).imp_right later
      · rw [hm] at hc
        exact (hi.gone c hc).imp_right later

end

/-- What `send` returns has a cause in the run so far: an acknowledgement is what the first
response to its own frame says, and so is a rejection by the server, unless it is the error
that the run has ended with; `Timeout` comes no earlier than
`request_timeout` after the deadline was fixed; `Disconnected` means that the connection
whose generation the call had read was not up, and any other error of a worker is the one an
established run ended with; `Backpressure` means that all permits were taken, never that the
queue was full; the other errors hold as the call meets them. -/
theorem send_outcome {cfg : Config} {labels : List Label} {s : State} {c : CallId} {args : SendArgs}
    {result : Except Error SendResult} (h : Reaches cfg labels s)
    (hc : s.calls c = .send args (.done result)) : Explained cfg labels s c result :=
  (Accounted.of_reaches h).bound c result (by rw [hc]; rfl)

/-- The reply does not come in time. -/
def expiring : List Label :=
  List.flatten [sending, [.tick Options.default.requestTimeout, .call 1 .timer]]

theorem send_outcome_expiring :
    ∃ s args, Reaches (sample [accepted "u0"]) expiring s ∧
      s.calls 1 = .send args (.done (.error .timeout)) ∧
      Explained (sample [accepted "u0"]) expiring s 1 (.error .timeout) := by
  obtain ⟨s, h, ho⟩ := reaches_of_play (sample [accepted "u0"]) expiring
    (fun s => (s.calls 1).outcome = some (.error .timeout)) (by decide +kernel)
  have hout : (s.calls 1).outcome = some (.error .timeout) := of_decide_eq_true ho
  unfold Call.outcome at hout
  split at hout
  · next args result hc =>
    cases hout
    exact ⟨s, args, h, hc, send_outcome h hc⟩
  · cases hout

end WukongSdk
