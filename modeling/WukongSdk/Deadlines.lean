import WukongSdk.Dispatch
import WukongSdk.InFlight
import WukongSdk.Progress

/-!
# Deadlines of sends

A call fixes its deadline when it has its permit. The deadline travels with the
command and with the entry in the map, so what the worker takes to have expired
has, and every deadline is `request_timeout` after an instant of its own call.
-/
namespace WukongSdk

/-- The call is about to fix its deadline. -/
def Call.preparing : Call → Bool
  | .send _ (.prepare _) => true
  | _ => false

/-- Call `c` has fixed the deadline `d`. -/
def Booked (cfg : Config) (labels : List Label) (c : CallId) (d : ℕ) : Prop :=
  Once (State.step cfg) (fun _ _ => True) (State.new cfg) labels fun u =>
    (u.calls c).preparing = true ∧ d = u.mem.clock + cfg.options.requestTimeout

/-- The caller a phase is about to tell that its time is up. -/
def Phase.late : Phase → Option CallId
  | .supervise (.session (.expired _ p)) => some p.reply
  | .supervise (.session (.refuse cmd .timeout)) => some cmd.reply
  | _ => none

/-- The deadlines in a worker's hands are those of their callers, and what it takes to
have expired has. -/
structure Worker.Timely (P : CallId → ℕ → Prop) (clock : ℕ) (w : Worker) : Prop where
  pending : ∀ p ∈ w.session.pending, P p.reply p.deadline
  retain : ∀ now, w.phase.retaining = some now → now ≤ clock
  expiring : ∀ id ∈ w.phase.expiring, ∀ p ∈ w.session.pending, p.id = id → p.deadline ≤ clock
  late : ∀ c, w.phase.late = some c → ∃ d, P c d ∧ d ≤ clock

namespace Worker

variable {cfg : Config} {r : RunId} {m : Memory} {w w' : Worker} {i : Input} {e : Effect} {l : Label}
  {P : CallId → ℕ → Prop} {clock : ℕ}

theorem Timely.quiet (ht : w.Timely P clock) (hs : w'.session.pending ⊆ w.session.pending)
    (hr : w'.phase.retaining = none) (he : w'.phase.expiring = []) (hl : w'.phase.late = none) :
    w'.Timely P clock where
  pending p hp := ht.pending p (hs hp)
  retain now h := by rw [hr] at h; cases h
  expiring id h := by rw [he] at h; cases h
  late c h := by rw [hl] at h; cases h

/-- Where the phase stays, entries may leave the map. -/
theorem Timely.fewer (ht : w.Timely P clock) (hs : w'.session.pending ⊆ w.session.pending)
    (hq : w'.phase = w.phase) : w'.Timely P clock where
  pending p hp := ht.pending p (hs hp)
  retain now h := ht.retain now (hq ▸ h)
  expiring id h p hp := ht.expiring id (hq ▸ h) p (hs hp)
  late c h := ht.late c (hq ▸ h)

theorem Timely.mono {P' : CallId → ℕ → Prop} {clock' : ℕ} (ht : w.Timely P clock)
    (hP : ∀ c d, P c d → P' c d) (hle : clock ≤ clock') : w.Timely P' clock' where
  pending p hp := hP _ _ (ht.pending p hp)
  retain now h := (ht.retain now h).trans hle
  expiring id h p hp heq := (ht.expiring id h p hp heq).trans hle
  late c h := by
    obtain ⟨d, hd, hdue⟩ := ht.late c h
    exact ⟨d, hP c d hd, hdue.trans hle⟩

theorem next_timely (hids : (w.session.pending.map Pending.id).Nodup)
    (hcmd : ∀ cmd, w.phase.command = some cmd → P cmd.reply cmd.deadline)
    (ht : w.Timely P m.clock) (h : Access cfg r m w i w' e) : w'.Timely P m.clock := by
  obtain ⟨hp, hr, hx, -⟩ := id ht
  have same : w.session.pending ⊆ w.session.pending := List.Subset.refl _
  have added : ∀ cmd, w.phase.command = some cmd →
      ∀ p ∈ w.session.pending ++ [cmd.entry], P p.reply p.deadline := fun cmd hq p hmem => by
    rcases List.mem_append.mp hmem with hmem | hmem
    · exact hp p hmem
    · rw [List.mem_singleton.mp hmem]
      exact hcmd cmd hq
  cases h
  all_goals try exact ht.quiet same rfl rfl rfl
  case release => exact ht.fewer same rfl
  case head =>
    refine ⟨hp, fun now h => ?_, by rintro _ ⟨⟩, by rintro _ ⟨⟩⟩
    cases h
    exact le_rfl
  case retainEnd now k hd hq _ =>
    refine ⟨hp, by rintro _ ⟨⟩, fun id hid p hmem heq => ?_, by rintro _ ⟨⟩⟩
    obtain ⟨p', hp', rfl⟩ := List.mem_map.mp hid
    obtain ⟨hp', hdue⟩ := List.mem_filter.mp hp'
    obtain rfl := List.inj_on_of_nodup_map hids hmem hp' heq
    exact (of_decide_eq_true hdue).trans (hr now (by rw [hq]; rfl))
  case retainDrop => exact ht.fewer List.eraseIdx_subset rfl
  case retainKeep now k _ hd hq _ _ =>
    refine ⟨hp, fun now' h => ?_, by rintro _ ⟨⟩, by rintro _ ⟨⟩⟩
    cases h
    exact hr now (by rw [hq]; rfl)
  case expireFound id ids p hd hq hfind =>
    rw [hq] at hx
    have hid : p.id = id := by simpa using List.find?_some hfind
    have hmem := List.mem_of_find?_eq_some hfind
    refine ⟨fun p' h => hp p' (List.mem_of_mem_eraseP h), by rintro _ ⟨⟩, fun id' h p' hp' => ?_,
      fun c h => ?_⟩
    · exact hx id' (List.mem_cons_of_mem _ h) p' (List.mem_of_mem_eraseP hp')
    · cases h
      exact ⟨p.deadline, hp p hmem, hx id (List.mem_cons_self ..) p hmem hid⟩
  case expireGone id ids hd hq _ =>
    rw [hq] at hx
    exact ⟨hp, by rintro _ ⟨⟩, fun id' h => hx id' (List.mem_cons_of_mem _ h), by rintro _ ⟨⟩⟩
  case expired ids p hd hq =>
    rw [hq] at hx
    exact ⟨hp, by rintro _ ⟨⟩, hx, by rintro _ ⟨⟩⟩
  case heardAck | heardError => exact ht.quiet List.eraseP_subset rfl rfl rfl
  case late cmd hd hq hdue =>
    refine ⟨hp, by rintro _ ⟨⟩, by rintro _ ⟨⟩, fun c h => ?_⟩
    cases h
    exact ⟨cmd.deadline, hcmd cmd (by rw [hq]; rfl), hdue⟩
  case replace => exact ht.fewer List.eraseP_subset rfl
  case insert cmd hd hq _ _ | insertTooLarge cmd hd hq _ _ =>
    exact ⟨added cmd (by rw [hq]; rfl), by rintro _ ⟨⟩, by rintro _ ⟨⟩, by rintro _ ⟨⟩⟩
  case bump => exact ht.quiet (List.nil_subset _) rfl rfl rfl
  case unwind p rest hd hq hpending =>
    exact ht.fewer (hpending ▸ List.subset_cons_self p rest) rfl
  case cancelledDrop p rest hd hq hpending =>
    exact ht.fewer (hpending ▸ List.subset_cons_self p rest) rfl

theorem Moves.timely (h : w.Moves cfg r m l w' e) (hids : (w.session.pending.map Pending.id).Nodup)
    (hcmd : ∀ cmd, w.phase.command = some cmd → P cmd.reply cmd.deadline)
    (ht : w.Timely P m.clock) : w'.Timely P m.clock := by
  have same : w.session.pending ⊆ w.session.pending := List.Subset.refl _
  cases h with
  | next hp h => exact next_timely hids hcmd ht h
  | wake hp hq hc | resume hp hq | suspend hp hd ha => exact ht.fewer same rfl
  | cancel hp hq hc => exact ht.quiet same rfl rfl rfl

end Worker

namespace Call

variable {cfg : Config} {c : CallId} {m : Memory} {i : CallInput} {k k' : Call} {a : Act}

theorem build_deadline {args : SendArgs} {g : UInt64} {id msgNo : String} {cmd : Command}
    (h : SendPhase.build cfg m args c g id msgNo = .ok cmd) :
    cmd.deadline = m.clock + cfg.options.requestTimeout := by
  unfold SendPhase.build at h
  cases hp : Protocol.send cfg.codec args.channel args.channelType args.payload args.options msgNo with
  | error e =>
    rw [hp] at h
    cases h
  | ok params =>
    rw [hp] at h
    simp only [bind, Except.bind, throw, throwThe, MonadExceptOf.throw, pure, Except.pure] at h
    split at h <;> cases h
    rfl

attribute [local grind] Call.command preparing
attribute [local grind =] Memory.serve Memory.modify Memory.freeSlot

theorem Moves.booked {cmd : Command} (h : k.Moves cfg c m i k' a) (hk : k'.command = some cmd) :
    k.command = some cmd ∨
      (k.preparing = true ∧ cmd.deadline = m.clock + cfg.options.requestTimeout) := by
  revert hk
  cases h with
  | @send args p p' a h =>
    revert h
    fun_cases SendPhase.next cfg c m args i p <;> grind -linarith [→ build_deadline]
  | connect h => rintro ⟨⟩
  | disconnect h => rintro ⟨⟩

end Call

/-- Every deadline in the client is the one its call has fixed. -/
structure Punctual (cfg : Config) (labels : List Label) (s : State) : Prop where
  command : ∀ c cmd, (s.calls c).command = some cmd → Booked cfg labels c cmd.deadline
  unwritten : ∀ r, ∀ cmd ∈ s.unwritten r, Booked cfg labels cmd.reply cmd.deadline
  timely : ∀ r, (s.workers r).Timely (Booked cfg labels) s.mem.clock

namespace Punctual

variable {cfg : Config} {s t : State} {c : CallId} {i : CallInput} {k : Call} {a : Act} {r : RunId}
  {w : Worker} {e : Effect} {l : Label} {labels : List Label}

/-- The ids in the map of a session are distinct. -/
theorem nodup_pending (h : Reaches cfg labels s) (r : RunId) :
    ((s.workers r).session.pending.map Pending.id).Nodup := by
  have hids := (Distinct.of_reaches h).nodup_ids (.of_reaches h) r
  simp only [State.stock, Worker.carried, List.map_append, List.map_map] at hids
  exact (List.nodup_append.mp (List.nodup_append.mp hids).2.1).2.1

theorem of_reaches (h : Reaches cfg labels s) : Punctual cfg labels s := by
  induction h with
  | nil =>
    exact ⟨by rintro _ _ ⟨⟩, by rintro _ _ ⟨⟩,
      fun _ => ⟨by rintro _ ⟨⟩, by rintro _ ⟨⟩, by rintro _ ⟨⟩, by rintro _ ⟨⟩⟩⟩
  | @snoc s t labels l hreach _ hs hi =>
    have keep : ∀ c d, Booked cfg labels c d → Booked cfg (labels ++ [l]) c d :=
      fun c d hd => hd.later l
    have ha := Admission.of_reaches hreach
    cases State.step_cases hs with
    | tick d =>
      exact ⟨fun c cmd hc => keep _ _ (hi.command c cmd hc),
        fun r cmd hc => keep _ _ (hi.unwritten r cmd hc),
        fun r => (hi.timely r).mono keep (Nat.le_add_right _ d)⟩
    | begin op hh =>
      refine ⟨fun c cmd hc => ?_, fun r cmd hc => keep _ _ (hi.unwritten r cmd hc),
        fun r => (hi.timely r).mono keep le_rfl⟩
      by_cases hcb : c = s.begun
      · subst hcb
        simp only [State.called_calls, Function.update_self] at hc
        cases op <;> cases hc
      · exact keep _ _ (hi.command c cmd (by simpa [hcb] using hc))
    | @call c i k a hx =>
      refine ⟨fun c' cmd hc => ?_, fun r cmd hc => ?_, fun r => ?_⟩
      · by_cases hcc : c' = c
        · subst hcc
          rcases hx.booked (by simpa using hc) with hc | ⟨hp, hd⟩
          · exact keep _ _ (hi.command c' cmd hc)
          · exact keep _ _ (.now hreach ⟨hp, hd⟩)
        · exact keep _ _ (hi.command c' cmd (by simpa [hcc] using hc))
      · rcases State.unwritten_served hc with hc | rfl
        · exact keep _ _ (hi.unwritten r cmd hc)
        · obtain ⟨-, hk⟩ := hx.handed
          rw [ha.reply c cmd hk]
          exact keep _ _ (hi.command c cmd hk)
      · rw [State.served_mem, Memory.serve_clock, State.served_workers]
        rcases s.spawnWorker_cases r a with hw | ⟨-, -, hw⟩
        · rw [hw]
          exact (hi.timely r).mono keep le_rfl
        · rw [hw]
          exact ⟨by rintro _ ⟨⟩, by rintro _ ⟨⟩, by rintro _ ⟨⟩, by rintro _ ⟨⟩⟩
    | @worker r l w e hx =>
      refine ⟨fun c cmd hc => keep _ _ (hi.command c cmd hc),
        fun r' cmd hc => keep _ _ (hi.unwritten r' cmd (State.unwritten_worked hx hc)), fun r' => ?_⟩
      rw [State.worked_mem, Memory.work_clock, State.worked_workers]
      by_cases hr : r' = r
      · subst hr
        rw [Function.update_self]
        refine (hx.timely (nodup_pending hreach r') (fun cmd hc => ?_) (hi.timely r')).mono keep le_rfl
        exact hi.unwritten r' cmd (List.mem_append_right _ (Option.mem_toList.mpr hc))
      · rw [Function.update_of_ne hr]
        exact (hi.timely r').mono keep le_rfl
    | dropClient _ _ =>
      refine ⟨fun c cmd hc => keep _ _ (hi.command c cmd hc), fun r cmd hc => ?_, fun r => ?_⟩
      · exact keep _ _ (hi.unwritten r cmd (by simpa using hc))
      · rw [s.clientDropped_mem]
        exact (hi.timely r).mono keep le_rfl

end Punctual

end WukongSdk
