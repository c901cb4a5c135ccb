import WukongSdk.Drive
import WukongSdk.Reconnect

/-!
# Dispatch of a SEND

A command travels from its caller through the queue to the worker's hand and is
written at most once, on a socket of the generation its caller read. The
generation is a 64-bit counter, so it tells sockets apart as long as it does not
wrap.
-/
namespace WukongSdk

/-- The command a phase has dequeued and not yet written. -/
def Phase.command : Phase → Option Command
  | .supervise (.session (.received cmd)) | .supervise (.session (.fresh cmd))
  | .supervise (.session (.timely cmd)) | .supervise (.session (.insert cmd))
  | .supervise (.session (.refuse cmd _)) | .supervise (.swept _ cmd) | .drained _ cmd => some cmd
  | _ => none

/-- The command a phase has found to be of the current generation. -/
def Phase.checked : Phase → Option Command
  | .supervise (.session (.timely cmd)) | .supervise (.session (.insert cmd)) => some cmd
  | _ => none

/-- Points from the raised generation to the end of the session. -/
def Phase.seated : Phase → Bool
  | .supervise (.raise _) | .supervise (.ready _) | .supervise (.first _)
  | .supervise (.announce _) | .supervise .begin | .supervise (.session _) => true
  | _ => false

/-- The access writes the SEND of call `c`. -/
def Effect.sends (c : CallId) : Effect → Bool
  | .write _ (.send cmd) => cmd.reply = c
  | _ => false

/-- Errors a send returns without a frame having been written. -/
def Error.isEarly : Error → Bool
  | .destroyed | .notConnected | .backpressure | .invalidInput _ | .messageTooLarge => true
  | _ => false

namespace Worker

variable {cfg : Config} {r : RunId} {m : Memory} {w w' : Worker} {i : Input} {e : Effect} {l : Label}

attribute [local grind] Phase.command Phase.checked Phase.seated

theorem next_command {cmd : Command} (h : Access cfg r m w i w' e)
    (hw : w'.phase.command = some cmd) :
    (w.phase.command = some cmd ∧ e ≠ .dequeue ∧ ∀ k wire, e ≠ .write k wire) ∨
      (e = .dequeue ∧ (m.cells r).commands.head? = some cmd) := by
  cases h
  all_goals grind -linarith

theorem next_send {cmd : Command} {k : ℕ} (h : Access cfg r m w i w' (.write k (.send cmd))) :
    w.phase.checked = some cmd ∧ w.phase.command = some cmd ∧ w.phase.seated = true ∧
      k = w.session.socket := by
  cases h
  all_goals grind -linarith

theorem next_seated (h : Access cfg r m w i w' e) (hw : w'.phase.seated = true) :
    (e = .bump ∧ w'.session.socket = m.sockets + 1) ∨
      (e ≠ .bump ∧ w.phase.seated = true ∧ w'.session.socket = w.session.socket) := by
  cases h
  all_goals grind -linarith

theorem next_checked {cmd : Command} (h : Access cfg r m w i w' e)
    (hw : w'.phase.checked = some cmd) :
    e ≠ .bump ∧ (w.phase.checked = some cmd ∨ cmd.generation = m.generation) := by
  cases h
  all_goals grind -linarith

/-- A command in the worker's hand was there before, or has just been dequeued. -/
theorem Moves.command {cmd : Command} (h : w.Moves cfg r m l w' e)
    (hw : w'.phase.command = some cmd) :
    (w.phase.command = some cmd ∧ e ≠ .dequeue ∧ ∀ k wire, e ≠ .write k wire) ∨
      (e = .dequeue ∧ (m.cells r).commands.head? = some cmd) := by
  cases h with
  | next hp h => exact next_command h hw
  | wake hp hq hc | resume hp hq => exact .inl ⟨hw, by simp, by simp⟩
  | cancel hp hq hc => cases hw
  | suspend hp hd ha => exact .inl ⟨hw, by simp, by simp⟩

/-- A SEND that is written was in the worker's hand, of the current generation. -/
theorem Moves.send {cmd : Command} {k : ℕ} (h : w.Moves cfg r m l w' (.write k (.send cmd))) :
    w.phase.checked = some cmd ∧ w.phase.command = some cmd ∧ w.phase.seated = true ∧
      k = w.session.socket := by
  cases h with
  | next hp h => exact next_send h

theorem Moves.seated (h : w.Moves cfg r m l w' e) (hw : w'.phase.seated = true) :
    (e = .bump ∧ w'.session.socket = m.sockets + 1) ∨
      (e ≠ .bump ∧ w.phase.seated = true ∧ w'.session.socket = w.session.socket) := by
  cases h with
  | next hp h => exact next_seated h hw
  | wake hp hq hc | resume hp hq => exact .inr ⟨nofun, hw, rfl⟩
  | cancel hp hq hc => cases hw
  | suspend hp hd ha => exact .inr ⟨nofun, hw, rfl⟩

theorem Moves.checked {cmd : Command} (h : w.Moves cfg r m l w' e)
    (hw : w'.phase.checked = some cmd) :
    e ≠ .bump ∧ (w.phase.checked = some cmd ∨ cmd.generation = m.generation) := by
  cases h with
  | next hp h => exact next_checked h hw
  | wake hp hq hc | resume hp hq => exact ⟨nofun, .inl hw⟩
  | cancel hp hq hc => cases hw
  | suspend hp hd ha => exact ⟨nofun, .inl hw⟩

theorem command_hand {cmd : Command} {p : Phase} (h : p.command = some cmd) : p.hand = [cmd.tag] := by
  unfold Phase.command at h
  split at h <;> cases h <;> rfl

end Worker

namespace Call

variable {cfg : Config} {c : CallId} {m : Memory} {i : CallInput} {k k' : Call} {a : Act} {r : RunId}

/-- The generation a send call has read, until the queue takes its command. -/
def generation : Call → Option UInt64
  | .send _ (.acquire g) | .send _ (.prepare g) => some g
  | .send _ (.lock cmd) | .send _ (.recheck cmd) | .send _ (.enqueue cmd) => some cmd.generation
  | _ => none

attribute [local grind] generation outcome passed holdsPermit Call.command
attribute [local grind =] Memory.serve Memory.modify Memory.freeSlot

theorem Moves.generation {g : UInt64} (h : k.Moves cfg c m i k' a)
    (hk : k'.generation = some g) :
    k.generation = some g ∨ ∃ args, k = .send args .readGeneration ∧ g = m.generation := by
  revert hk
  cases h with
  | @send args p p' a h =>
    revert h
    fun_cases SendPhase.next cfg c m args i p <;> grind -linarith [→ build_spec]
  | connect h => rintro ⟨⟩
  | disconnect h => rintro ⟨⟩

theorem Moves.enqueued {cmd : Command} (h : k.Moves cfg c m i k' (.enqueue r cmd)) :
    k.generation = some cmd.generation := by
  cases h with
  | @send args p p' a h =>
    revert h
    fun_cases SendPhase.next cfg c m args i p <;> grind -linarith
  | @connect rt p p' a h => revert h; fun_cases ConnectPhase.next m rt i p <;> grind -linarith
  | @disconnect d p p' a h => revert h; fun_cases DisconnectPhase.next m i p <;> grind -linarith

/-- A send returns of itself, or with what became of its reply. -/
theorem Moves.returned {result : Except Error SendResult} (h : k.Moves cfg c m i k' a)
    (hk : k'.outcome = some result) :
    (k.passed = false ∨ (m.replies c).sender = .sent result ∨ result = .error .timeout ∨
      result = .error .disconnected) ∧ ∀ r cmd, a ≠ .enqueue r cmd := by
  revert hk
  cases h with
  | @send args p p' a h => revert h; fun_cases SendPhase.next cfg c m args i p <;> grind -linarith
  | connect h => rintro ⟨⟩
  | disconnect h => rintro ⟨⟩

end Call

namespace State

variable {cfg : Config} {s t : State} {c : CallId} {i : CallInput} {k : Call} {a : Act} {r : RunId}
  {w : Worker} {e : Effect} {l : Label}

/-- Commands a run has been handed and has not written. -/
def unwritten (s : State) (r : RunId) : List Command :=
  (s.mem.cells r).commands ++ (s.workers r).phase.command.toList

/-- The writes of the SEND of call `c`. -/
def writes (s : State) (c : CallId) : List (RunId × Effect) := s.log.filter fun x => x.2.sends c

theorem tag_of_unwritten {cmd : Command} (h : cmd ∈ s.unwritten r) : cmd.tag ∈ s.stock r := by
  rcases List.mem_append.mp h with h | h
  · exact List.mem_append_left _ (List.mem_map_of_mem h)
  · refine List.mem_append_right _ (List.mem_append_left _ ?_)
    rw [Worker.command_hand (Option.mem_toList.mp h)]
    exact List.mem_singleton_self _

theorem held_of_unwritten {cmd : Command} (h : cmd ∈ s.unwritten r) : cmd.reply ∈ s.held r :=
  List.mem_append_left _ (List.mem_map.mpr ⟨cmd.tag, tag_of_unwritten h, rfl⟩)

theorem unwritten_worked {r' : RunId} {cmd : Command} (hx : (s.workers r).Moves cfg r s.mem l w e)
    (h : cmd ∈ (s.worked r w e).unwritten r') : cmd ∈ s.unwritten r' := by
  by_cases hr : r' = r
  · subst hr
    simp only [unwritten, worked_mem, Memory.work_cells, worked_workers,
      Function.update_self, List.mem_append, Option.mem_toList] at h ⊢
    rcases h with h | h
    · left
      cases e with
      | dequeue => exact List.mem_of_mem_tail h
      | _ => exact h
    · rcases hx.command h with ⟨h, -⟩ | ⟨-, h⟩
      · exact .inr h
      · exact .inl (List.mem_of_mem_head? h)
  · simpa [unwritten, Memory.work_cells, hr] using h

theorem unwritten_served {r' : RunId} {cmd : Command}
    (h : cmd ∈ (s.served c k a).unwritten r') : cmd ∈ s.unwritten r' ∨ a = .enqueue r' cmd := by
  have hhand : ((s.served c k a).workers r').phase.command = some cmd → cmd ∈ s.unwritten r' := by
    intro hcmd
    rcases s.spawnWorker_cases r' a with hw | ⟨-, -, hw⟩
    · rw [served_workers, hw] at hcmd
      exact List.mem_append_right _ (Option.mem_toList.mpr hcmd)
    · rw [served_workers, hw] at hcmd
      cases hcmd
  rcases List.mem_append.mp h with hq | hq
  · rw [served_mem] at hq
    rcases s.mem.serve_cells r' c a with heq | ⟨-, -, heq⟩ | ⟨-, heq⟩ | ⟨cmd', rfl, heq⟩
    · exact .inl (List.mem_append_left _ (heq ▸ hq))
    · simp [heq] at hq
    · rw [heq] at hq
      exact .inl (List.mem_append_left _ hq)
    · rw [heq] at hq
      rcases List.mem_append.mp hq with hq | hq
      · exact .inl (List.mem_append_left _ hq)
      · exact .inr (by rw [List.mem_singleton.mp hq])
  · exact .inl (hhand (Option.mem_toList.mp hq))

@[simp] theorem unwritten_clientDropped : s.clientDropped.unwritten r = s.unwritten r := by
  rw [unwritten, unwritten, clientDropped_mem]
  dsimp only
  split <;> rfl

theorem mem_stock_worked {x : Tag} {r' : RunId} (ht : (s.workers r).Tidy)
    (hx : (s.workers r).Moves cfg r s.mem l w e) (h : x ∈ (s.worked r w e).stock r') :
    x ∈ s.stock r' := by
  by_cases hr : r' = r
  · subst hr
    rcases stock_worked ht hx with ⟨d, -, -, -, hp⟩ | ⟨d, id, -, -, -, hp⟩ | ⟨-, -, -, -, -, hp⟩
    · exact hp.mem_iff.1 h
    · exact hp.mem_iff.2 (List.mem_cons_of_mem _ h)
    · exact hp.mem_iff.1 h
  · rwa [stock_worked_ne hr] at h

theorem writes_worked (c : CallId) :
    (s.worked r w e).writes c = s.writes c ++ if e.sends c = true then [(r, e)] else [] := by
  rw [writes, worked_log, List.filter_append]
  by_cases hs : e.sends c = true <;> simp [writes, hs]

end State

/-- Where a SEND has not been written yet, and that it is written once. -/
structure Dispatch (s : State) : Prop where
  once : ∀ c, (s.writes c).length ≤ 1
  caller : ∀ c, (s.calls c).passed = false → s.writes c = []
  run : ∀ r, ∀ cmd ∈ s.unwritten r, s.writes cmd.reply = []
  answered : ∀ c e, (s.mem.replies c).sender = .sent (.error e) → e.isEarly = true →
    s.writes c = []
  returned : ∀ c e, (s.calls c).outcome = some (.error e) → e.isEarly = true →
    s.writes c = [] ∧ ∀ r id, (c, id) ∉ s.stock r

namespace Dispatch

variable {cfg : Config} {s t : State} {c : CallId} {i : CallInput} {k : Call} {a : Act} {r : RunId}
  {w : Worker} {e : Effect} {l : Label}

/-- A SEND is written while it is the only command of its caller. -/
theorem write_step {cmd : Command} {n : ℕ} (h : Dispatch s) (ha : Admission cfg s) (ho : Owed s)
    (ht : (s.workers r).Tidy) (hx : (s.workers r).Moves cfg r s.mem l w (.write n (.send cmd))) :
    Dispatch (s.worked r w (.write n (.send cmd))) := by
  obtain ⟨-, hcmd, -, -⟩ := hx.send
  have hun : cmd ∈ s.unwritten r := List.mem_append_right _ (Option.mem_toList.mpr hcmd)
  have hheld := State.held_of_unwritten hun
  have hlive := ho.live cmd.reply cmd.id r (State.tag_of_unwritten hun)
  have hother : ∀ c, c ≠ cmd.reply →
      (s.worked r w (.write n (.send cmd))).writes c = s.writes c := fun c hc => by
    rw [State.writes_worked]
    simp [Effect.sends, hc.symm]
  refine ⟨fun c => ?_, fun c hc => ?_, fun r' cmd' hcmd' => ?_, fun c e hc he => ?_,
    fun c e hc he => ?_⟩
  · by_cases hcc : c = cmd.reply
    · subst hcc
      rw [State.writes_worked, h.run r cmd hun]
      simp [Effect.sends]
    · rw [hother c hcc]
      exact h.once c
  · have hcc : c ≠ cmd.reply := by
      rintro rfl
      have := ha.passed cmd.reply r hheld
      rw [show (s.calls cmd.reply).passed = false from hc] at this
      cases this
    rw [hother c hcc]
    exact h.caller c hc
  · have hold := State.unwritten_worked hx hcmd'
    have hne : cmd'.reply ≠ cmd.reply := by
      intro heq
      obtain rfl := ha.apart cmd.reply r' r (heq ▸ State.held_of_unwritten hold) hheld
      -- `cmd'` is still in the queue, and `cmd` was in the hand
      have hqueue : cmd' ∈ (s.mem.cells r').commands := by
        rcases List.mem_append.mp hcmd' with hq | hq
        · simpa [Memory.work_cells, Effect.onCells] using hq
        · rcases hx.command (by simpa using hq) with ⟨-, -, hno⟩ | ⟨hno, -⟩
          · exact absurd rfl (hno n (.send cmd))
          · cases hno
      have hnodup := (List.nodup_append.mp (ha.nodup r')).1
      rw [State.stock, List.map_append, List.map_map] at hnodup
      refine (List.nodup_append.mp hnodup).2.2 cmd'.reply (List.mem_map_of_mem hqueue)
        cmd.reply ?_ heq
      rw [Worker.carried, Worker.command_hand hcmd]
      exact List.mem_cons_self ..
    rw [hother _ hne]
    exact h.run r' cmd' hold
  · have hcc : c ≠ cmd.reply := by
      rintro rfl
      rw [show (s.mem.replies cmd.reply).sender = _ from hc] at hlive
      cases hlive
    rw [hother c hcc]
    exact h.answered c e hc he
  · obtain ⟨hw, hs⟩ := h.returned c e hc he
    have hcc : c ≠ cmd.reply := by
      rintro rfl
      exact hs r cmd.id (State.tag_of_unwritten hun)
    rw [hother c hcc]
    exact ⟨hw, fun r' id hmem => hs r' id (State.mem_stock_worked ht hx hmem)⟩

/-- What the server says of a request is never an early error. -/
theorem not_early_of_heard {codec : Codec} {trace : List Effect} {p : Pending} {error : Error}
    (h : Heard codec trace p (.error error)) : error.isEarly = false := by
  have hterm : error.isTerminal = true := by
    obtain ⟨-, -, -, -, value, -, -, -, -, -, hres⟩ := h
    cases hr : Protocol.response value with
    | error e' =>
      rw [hr] at hres
      cases hres
      exact Worker.response_terminal hr
    | ok result =>
      rw [hr] at hres
      obtain ⟨what, rfl⟩ := Protocol.decode_malformed hres.symm
      rfl
  cases error <;> first | rfl | cases hterm

/-- An early error is answered to a command that was never written. -/
theorem answer_step {error : Error} (h : Dispatch s) (hat : Attested cfg s)
    (hx : (s.workers r).Moves cfg r s.mem l w (.answer c (.error error)))
    (he : error.isEarly = true) : s.writes c = [] := by
  cases hx with
  | next hp hx =>
    rcases Worker.next_answer hx with ⟨p, hans, -⟩ | ⟨e, heq, hcase⟩ | ⟨e, cmd, hq, rfl, -⟩
    · obtain ⟨-, pre, -, hheard⟩ := (hat.witnessed r).answering p _ _ hans
      rw [not_early_of_heard hheard] at he
      cases he
    · cases heq
      have hdull : error = .timeout ∨ error = .disconnected := by
        rcases hcase with rfl | rfl | href
        · exact .inl rfl
        · exact .inr rfl
        · exact ((hat.witnessed r).refusing error href).symm
      rcases hdull with rfl | rfl <;> cases he
    · exact h.run r cmd (List.mem_append_right _ (by simp [hq, Phase.command]))

theorem worked (h : Dispatch s) (ha : Admission cfg s) (ho : Owed s) (hat : Attested cfg s)
    (ht : (s.workers r).Tidy) (hx : (s.workers r).Moves cfg r s.mem l w e) :
    Dispatch (s.worked r w e) := by
  by_cases hsend : ∃ n cmd, e = .write n (.send cmd)
  · obtain ⟨n, cmd, rfl⟩ := hsend
    exact h.write_step ha ho ht hx
  have hsame : ∀ c, (s.worked r w e).writes c = s.writes c := fun c => by
    rw [State.writes_worked]
    have : e.sends c = false := by
      unfold Effect.sends
      split
      next n cmd => exact absurd ⟨n, cmd, rfl⟩ hsend
      next => rfl
    simp [this]
  refine ⟨fun c => ?_, fun c hc => ?_, fun r' cmd hcmd => ?_, fun c error hc he => ?_,
    fun c error hc he => ?_⟩
  · rw [hsame]
    exact h.once c
  · rw [hsame]
    exact h.caller c hc
  · rw [hsame]
    exact h.run r' cmd (State.unwritten_worked hx hcmd)
  · rw [hsame]
    by_cases hs : e.settles c = true
    · cases e with
      | drop d =>
        obtain rfl : d = c := of_decide_eq_true hs
        simp [Memory.work, Memory.setSender] at hc
      | answer d result =>
        obtain rfl : d = c := of_decide_eq_true hs
        obtain rfl : result = .error error := by simpa [Memory.work, Memory.setSender] using hc
        exact h.answer_step hat hx he
      | _ => cases hs
    · rw [State.worked_mem, Settled.work_replies _ _ (by simpa using hs)] at hc
      exact h.answered c error hc he
  · rw [hsame]
    obtain ⟨hw, hs⟩ := h.returned c error hc he
    exact ⟨hw, fun r' id hmem => hs r' id (State.mem_stock_worked ht hx hmem)⟩

theorem served (h : Dispatch s) (ha : Admission cfg s) (ho : Owed s) (hl : Lifecycle s)
    (hx : (s.calls c).Moves cfg c s.mem i k a) : Dispatch (s.served c k a) := by
  obtain ⟨-, hpassed, -⟩ := hx.permit (ha.reply c)
  refine ⟨h.once, fun c' hc => ?_, fun r cmd hcmd => ?_, fun c' e hc he => ?_, fun c' e hc he => ?_⟩
  · by_cases hcc : c' = c
    · subst hcc
      refine h.caller c' ?_
      by_contra hp
      rw [State.served_calls, Function.update_self, hpassed (by simpa using hp)] at hc
      cases hc
    · exact h.caller c' (by simpa [hcc] using hc)
  · rcases State.unwritten_served hcmd with hcmd | rfl
    · exact h.run r cmd hcmd
    · obtain ⟨hk, hkc⟩ := hx.handed
      rw [ha.reply c cmd hkc]
      exact h.caller c (Call.passed_of_holdsPermit hk)
  · exact h.answered c' e (by simpa using hc) he
  · have hstock : (∀ r id, (c', id) ∉ s.stock r) → (∀ r cmd, a = .enqueue r cmd → c ≠ c') →
        ∀ r id, (c', id) ∉ (s.served c k a).stock r := by
      intro hno hne r id hmem
      rcases State.stock_served hl hx with ⟨r₀, cmd, rfl, hp, hrest⟩ | ⟨-, heq⟩
      · by_cases hr : r = r₀
        · subst hr
          rcases List.mem_cons.mp (hp.mem_iff.1 hmem) with htag | hmem
          · have hreply := ha.reply c cmd hx.handed.2
            exact hne r cmd rfl (hreply ▸ (congrArg Prod.fst htag).symm)
          · exact hno r id hmem
        · exact hno r id (by rwa [hrest r hr] at hmem)
      · exact hno r id (by rwa [heq] at hmem)
    by_cases hcc : c' = c
    · subst hcc
      obtain ⟨hcase, hne⟩ := hx.returned (by simpa using hc)
      have hnone : s.writes c' = [] ∧ ∀ r id, (c', id) ∉ s.stock r := by
        rcases hcase with hp | hsent | heq | heq
        · refine ⟨h.caller c' hp, fun r id hmem => ?_⟩
          rw [ha.passed c' r (Owed.mem_held hmem)] at hp
          cases hp
        · refine ⟨h.answered c' e hsent he, fun r id hmem => ?_⟩
          rw [ho.live c' id r hmem] at hsent
          cases hsent
        · cases heq
          cases he
        · cases heq
          cases he
      exact ⟨hnone.1, hstock hnone.2 fun r cmd heq => absurd heq (hne r cmd)⟩
    · obtain ⟨hw, hs⟩ := h.returned c' e (by simpa [hcc] using hc) he
      exact ⟨hw, hstock hs fun _ _ _ heq => hcc heq.symm⟩

theorem of_reaches {labels : List Label} (h : Reaches cfg labels s) : Dispatch s := by
  refine h.invariant_along (I := Dispatch) ⟨by simp [State.new, State.writes], fun _ _ => rfl,
    fun _ _ _ => rfl, nofun, nofun⟩ fun _ s l t hr hi _ hs => ?_
  have hl := Lifecycle.of_reaches hr
  cases State.step_cases hs with
  | tick d => exact ⟨hi.once, hi.caller, hi.run, hi.answered, hi.returned⟩
  | begin op hh =>
    have hidle := hl.idle s.begun le_rfl
    refine ⟨hi.once, fun c hc => ?_, hi.run, hi.answered, fun c e hc he => ?_⟩
    · by_cases hcb : c = s.begun
      · exact hi.caller c (by rw [hcb, hidle]; rfl)
      · exact hi.caller c (by simpa [hcb] using hc)
    · have hcb : c ≠ s.begun := by
        rintro rfl
        simp only [State.called_calls, Function.update_self] at hc
        cases op <;> cases hc
      exact hi.returned c e (by simpa [hcb] using hc) he
  | call hx => exact hi.served (.of_reaches hr) (.of_reaches hr) hl hx
  | worker hx =>
    exact hi.worked (.of_reaches hr) (.of_reaches hr) (.of_reaches hr) (tidy_of_reaches hr _) hx
  | dropClient _ _ =>
    have hm := s.clientDropped_mem
    refine ⟨hi.once, hi.caller, fun r cmd hcmd => ?_, fun c e hc he => ?_, fun c e hc he => ?_⟩
    · exact hi.run r cmd (by simpa using hcmd)
    · exact hi.answered c e (by simpa [hm] using hc) he
    · obtain ⟨hw, hst⟩ := hi.returned c e hc he
      exact ⟨hw, fun r id hmem => hst r id (by rwa [State.stock_clientDropped] at hmem)⟩

end Dispatch

/-! ## Generations -/

/-- Generation `g` travels with the SEND of call `c`: its caller holds it, or it
is in a command, to be written or written. -/
def Bears (c : CallId) (g : UInt64) (s : State) : Prop :=
  (s.calls c).generation = some g ∨
    (∃ r, ∃ cmd ∈ s.unwritten r, cmd.reply = c ∧ cmd.generation = g) ∨
    ∃ r k cmd, (r, Effect.write k (.send cmd)) ∈ s.log ∧ cmd.reply = c ∧ cmd.generation = g

/-- A generation begins to travel with a SEND when its caller reads it. -/
theorem bears_step {cfg : Config} {s t : State} {l : Label} {c : CallId} {g : UInt64}
    (ha : Admission cfg s) (hs : s.step cfg l = some t) (ht : Bears c g t) :
    Bears c g s ∨ ∃ i args, l = .call c i ∧ s.calls c = .send args .readGeneration ∧
      g = s.mem.generation := by
  cases State.step_cases hs with
  | tick d => exact .inl ht
  | begin op hh =>
    rcases ht with hc | ht
    · by_cases hcb : c = s.begun
      · subst hcb
        simp only [State.called_calls, Function.update_self] at hc
        cases op <;> cases hc
      · exact .inl (.inl (by simpa [hcb] using hc))
    · exact .inl (.inr ht)
  | @call c' i k a hx =>
    rcases ht with hc | ⟨r, cmd, hcmd, hreply, hg⟩ | ht
    · by_cases hcc : c = c'
      · subst hcc
        rcases hx.generation (by simpa using hc) with hc | ⟨args, hargs, hg⟩
        · exact .inl (.inl hc)
        · exact .inr ⟨i, args, rfl, hargs, hg⟩
      · exact .inl (.inl (by simpa [hcc] using hc))
    · rcases State.unwritten_served hcmd with hcmd | rfl
      · exact .inl (.inr (.inl ⟨r, cmd, hcmd, hreply, hg⟩))
      · obtain rfl : c = c' := hreply.symm.trans (ha.reply c' cmd hx.handed.2)
        exact .inl (.inl (hg ▸ hx.enqueued))
    · exact .inl (.inr (.inr ht))
  | @worker r l w e hx =>
    rcases ht with hc | ⟨r', cmd, hcmd, hc⟩ | ⟨r', k, cmd, hlog, hc⟩
    · exact .inl (.inl hc)
    · exact .inl (.inr (.inl ⟨r', cmd, State.unwritten_worked hx hcmd, hc⟩))
    · rcases List.mem_append.mp hlog with hlog | hlog
      · exact .inl (.inr (.inr ⟨r', k, cmd, hlog, hc⟩))
      · obtain ⟨rfl, rfl⟩ := Prod.mk.inj (List.mem_singleton.mp hlog)
        obtain ⟨-, hcmd, -, -⟩ := hx.send
        exact .inl (.inr (.inl ⟨_, cmd, List.mem_append_right _ (Option.mem_toList.mpr hcmd), hc⟩))
  | dropClient _ _ =>
    left
    simpa [Bears] using ht

/-- The worker in session serves the newest socket, the generation counts the
sockets, and what is written bears the generation of its socket. -/
structure Seated (s : State) : Prop where
  generation : s.mem.generation = UInt64.ofNat s.mem.sockets
  seated : ∀ r, (s.workers r).phase.seated = true → (s.workers r).session.socket = s.mem.sockets
  checked : ∀ r cmd, (s.workers r).phase.checked = some cmd → cmd.generation = s.mem.generation
  written : ∀ r k cmd, (r, Effect.write k (.send cmd)) ∈ s.log →
    UInt64.ofNat k = cmd.generation

namespace Seated

variable {cfg : Config} {s t : State} {c : CallId} {i : CallInput} {k : Call} {a : Act} {r : RunId}
  {w : Worker} {e : Effect} {l : Label}

theorem worked (h : Seated s) (hl : Lifecycle s) (hx : (s.workers r).Moves cfg r s.mem l w e) :
    Seated (s.worked r w e) := by
  have halive : s.alive r := (hx.finish (hl.ended r)).1
  -- another worker is not alive, so it has no session
  have halone : ∀ r', r' ≠ r → (s.workers r').phase = .over := fun r' hr => by
    by_contra hover
    exact hr (Nat.succ_injective ((hl.alive r' hover).1.trans (hl.alive r halive).1.symm))
  have hmem : (e = .bump ∧ (s.mem.work r e).generation = s.mem.generation + 1 ∧
      (s.mem.work r e).sockets = s.mem.sockets + 1) ∨
      (e ≠ .bump ∧ (s.mem.work r e).generation = s.mem.generation ∧
        (s.mem.work r e).sockets = s.mem.sockets) := by
    cases e <;> simp [Memory.work, Memory.modify, Memory.setSender, Memory.freeSlot]
  refine ⟨?_, fun r' hr => ?_, fun r' cmd hr => ?_, fun r' n cmd hlog => ?_⟩
  · rcases hmem with ⟨-, hg, hn⟩ | ⟨-, hg, hn⟩
    · rw [State.worked_mem, hg, hn, h.generation]
      simp
    · rw [State.worked_mem, hg, hn, h.generation]
  · by_cases hrr : r' = r
    · subst hrr
      rw [State.worked_workers, Function.update_self] at hr ⊢
      rcases hx.seated hr with ⟨rfl, hn⟩ | ⟨hne, hold, hsock⟩
      · exact hn
      · rcases hmem with ⟨rfl, -⟩ | ⟨-, -, hn⟩
        · exact absurd rfl hne
        · rw [State.worked_mem, hn, hsock, h.seated r' hold]
    · rw [State.worked_workers, Function.update_of_ne hrr, halone r' hrr] at hr
      cases hr
  · by_cases hrr : r' = r
    · subst hrr
      rw [State.worked_workers, Function.update_self] at hr
      obtain ⟨hne, hcase⟩ := hx.checked hr
      rcases hmem with ⟨rfl, -⟩ | ⟨-, hg, -⟩
      · exact absurd rfl hne
      · rw [State.worked_mem, hg]
        exact hcase.elim (h.checked r' cmd) id
    · rw [State.worked_workers, Function.update_of_ne hrr, halone r' hrr] at hr
      cases hr
  · rcases List.mem_append.mp hlog with hlog | hlog
    · exact h.written r' n cmd hlog
    · obtain ⟨rfl, rfl⟩ := Prod.mk.inj (List.mem_singleton.mp hlog)
      obtain ⟨hchecked, -, hseated, rfl⟩ := hx.send
      rw [h.seated _ hseated, h.checked _ _ hchecked, h.generation]

theorem served (h : Seated s) : Seated (s.served c k a) := by
  refine ⟨by simpa using h.generation, fun r hr => ?_, fun r cmd hr => ?_, h.written⟩
  · rcases s.spawnWorker_cases r a with hw | ⟨-, -, hw⟩
    · rw [State.served_workers, hw] at hr ⊢
      simpa using h.seated r hr
    · rw [State.served_workers, hw] at hr
      cases hr
  · rcases s.spawnWorker_cases r a with hw | ⟨-, -, hw⟩
    · rw [State.served_workers, hw] at hr
      simpa using h.checked r cmd hr
    · rw [State.served_workers, hw] at hr
      cases hr

theorem of_reaches {labels : List Label} (h : Reaches cfg labels s) : Seated s := by
  refine h.invariant_along (I := Seated) ⟨rfl, nofun, nofun, nofun⟩ fun _ s l t hr hi _ hs => ?_
  cases State.step_cases hs with
  | tick d => exact ⟨hi.generation, hi.seated, hi.checked, hi.written⟩
  | begin op hh => exact ⟨hi.generation, hi.seated, hi.checked, hi.written⟩
  | call hx => exact hi.served
  | worker hx => exact hi.worked (.of_reaches hr) hx
  | dropClient _ _ =>
    have hm := s.clientDropped_mem
    exact ⟨by simpa [hm] using hi.generation, fun r => by simpa [hm] using hi.seated r,
      fun r => by simpa [hm] using hi.checked r, hi.written⟩

end Seated

/-- Along a run sockets are only added, and a SEND is written on one no older
than its first state. -/
theorem written_later {cfg : Config} {labels labels' : List Label} {s t : State}
    (h : Reaches cfg labels s) (h' : Run (State.step cfg) (fun _ _ => True) s labels' t) :
    s.mem.sockets ≤ t.mem.sockets ∧ ∀ x ∈ t.log, x ∈ s.log ∨
      ∀ k cmd, x.2 = .write k (.send cmd) → s.mem.sockets ≤ k := by
  refine h'.invariant_along (I := fun t => s.mem.sockets ≤ t.mem.sockets ∧ ∀ x ∈ t.log, x ∈ s.log ∨
    ∀ k cmd, x.2 = .write k (.send cmd) → s.mem.sockets ≤ k) ⟨le_rfl, fun x hx => .inl hx⟩ ?_
  rintro ls t l u hr ⟨hle, hlog⟩ - hs
  cases State.step_cases hs with
  | tick d => exact ⟨hle, hlog⟩
  | begin op hh => exact ⟨hle, hlog⟩
  | call hx => exact ⟨by simpa using hle, hlog⟩
  | @worker r l w e hx =>
    refine ⟨hle.trans ?_, fun x hmem => ?_⟩
    · cases e <;> simp [Memory.work, Memory.modify, Memory.setSender, Memory.freeSlot]
    · rcases List.mem_append.mp hmem with hmem | hmem
      · exact hlog x hmem
      · right
        rintro k cmd hk
        obtain rfl := List.mem_singleton.mp hmem
        obtain rfl : e = .write k (.send cmd) := hk
        obtain ⟨-, -, hseated, rfl⟩ := hx.send
        rw [(Seated.of_reaches (h.append hr)).seated _ hseated]
        exact hle
  | dropClient _ _ => exact ⟨by simpa [t.clientDropped_mem] using hle, hlog⟩

/-- A SEND is written at most once, on a socket whose number is the generation
its call has read modulo 2^64: the socket of that moment, or one authenticated
at least 2^64 sockets later. A call that returns an early error has nothing
written. -/
theorem send_at_most_once {cfg : Config} {labels : List Label} {s : State}
    (h : Reaches cfg labels s) :
    (∀ c, (s.writes c).length ≤ 1) ∧
    (∀ r k cmd, (r, Effect.write k (.send cmd)) ∈ s.log →
      ∃ before i after t u args, labels = before ++ .call cmd.reply i :: after ∧
        Reaches cfg before t ∧ t.calls cmd.reply = .send args .readGeneration ∧
        t.step cfg (.call cmd.reply i) = some u ∧
        Run (State.step cfg) (fun _ _ => True) u after s ∧
        UInt64.ofNat k = t.mem.generation ∧
        (k = t.mem.sockets ∨ t.mem.sockets + 2 ^ 64 ≤ k)) ∧
    (∀ c args e, s.calls c = .send args (.done (.error e)) → e.isEarly = true →
      s.writes c = []) := by
  have hd := Dispatch.of_reaches h
  refine ⟨hd.once, fun r k cmd hlog => ?_, fun c args e hc he => ?_⟩
  · have hbears : Bears cmd.reply cmd.generation s := .inr (.inr ⟨r, k, cmd, hlog, rfl, rfl⟩)
    have hnew : ¬ Bears cmd.reply cmd.generation (State.new cfg) := by
      rintro (hc | ⟨_, _, hc, -⟩ | ⟨_, _, _, hc, -⟩)
      · cases hc
      · simp [State.unwritten, State.new, Phase.command] at hc
      · cases hc
    obtain ⟨before, l, after, t, u, rfl, hbefore, hnot, hstep, hu, hafter⟩ := h.crossing hnew hbears
    obtain ⟨i, args, rfl, hc, hg⟩ := (bears_step (.of_reaches hbefore) hstep hu).resolve_left hnot
    have hlater := (written_later hbefore ((Run.single trivial hstep).append hafter)).2 _ hlog
    have hle : t.mem.sockets ≤ k := hlater.elim
      (fun hold => absurd (.inr (.inr ⟨r, k, cmd, hold, rfl, rfl⟩)) hnot) fun hle => hle k cmd rfl
    have hgen : UInt64.ofNat k = t.mem.generation :=
        ((Seated.of_reaches h).written r k cmd hlog).trans hg
    refine ⟨before, i, after, t, u, args, rfl, hbefore, hc, hstep, hafter, hgen, ?_⟩
    have hmod : k % 2 ^ 64 = t.mem.sockets % 2 ^ 64 := by
      rw [(Seated.of_reaches hbefore).generation] at hgen
      simpa using congrArg UInt64.toNat hgen
    omega
  · exact (hd.returned c e (by rw [hc]; rfl) he).1

/-- The one write is of a command of call 1, by run 0 on its first socket. -/
def wroteOnce : List (RunId × Effect) → Bool
  | [(0, .write 1 (.send cmd))] => cmd.reply = 1
  | _ => false

theorem send_at_most_once_acknowledging :
    ∃ s cmd before i after t args, Reaches (sample [accepted "u0", acknowledged "u1"]) acknowledging s ∧
      s.writes 1 = [(0, .write 1 (.send cmd))] ∧ acknowledging = before ++ .call 1 i :: after ∧
      Reaches (sample [accepted "u0", acknowledged "u1"]) before t ∧
      t.calls 1 = .send args .readGeneration ∧ t.mem.generation = 1 := by
  obtain ⟨s, h, ho⟩ := reaches_of_play (sample [accepted "u0", acknowledged "u1"]) acknowledging
    (fun s => wroteOnce (s.writes 1)) (by decide +kernel)
  unfold wroteOnce at ho
  split at ho
  next cmd hwrites =>
    obtain ⟨-, hread, -⟩ := send_at_most_once h
    have hlog : (0, Effect.write 1 (.send cmd)) ∈ s.log :=
      List.mem_of_mem_filter (hwrites ▸ List.mem_singleton_self _)
    obtain ⟨before, i, after, t, -, args, hlabels, ht, hc, -, -, hg, -⟩ := hread 0 1 cmd hlog
    rw [of_decide_eq_true ho] at hlabels hc
    exact ⟨s, cmd, before, i, after, t, args, h, hwrites, hlabels, ht, hc, hg.symm⟩
  next => cases ho

/-! ## A generation that comes round

A call that has read the generation and is then held up while its run loses 2^64
sockets, authenticating anew each time, finds the value it has read, and its SEND
goes to a socket it knows nothing of.
-/

/-- The report of an accepted authentication, whatever its id. -/
def readAccepted (text : String) : Option Value :=
  let id := String.ofList ((text.toList.drop 7).takeWhile (· ≠ '\x22'))
  if compact (accepted id) = text then some (accepted id) else none

/-- The sample client whose peer accepts every authentication. -/
def accepting : Config where
  codec := { (sample []).codec with fromStr := readAccepted }
  auth := (sample []).auth
  options := (sample []).options

/-- A request id that spells the bits of `n`. -/
def bits (n : ℕ) : String :=
  String.ofList ((List.range 64).map fun i => if n.testBit i then '1' else '0')

theorem bits_injective {m n : ℕ} (hm : m < 2 ^ 64) (hn : n < 2 ^ 64) (h : bits m = bits n) :
    m = n := by
  have hlist := String.ofList_injective h
  refine Nat.eq_of_testBit_eq fun i => ?_
  by_cases hi : i < 64
  · have := List.map_inj_left.mp hlist i (List.mem_range.mpr hi)
    cases hmi : m.testBit i <;> cases hni : n.testBit i <;> simp_all
  · have hpow : 2 ^ 64 ≤ 2 ^ i := Nat.pow_le_pow_right (by decide) (not_lt.mp hi)
    rw [Nat.testBit_lt_two_pow (hm.trans_le hpow), Nat.testBit_lt_two_pow (hn.trans_le hpow)]

theorem quote_notMem_bits (n : ℕ) : '\x22' ∉ (bits n).toList := by
  rw [bits, String.toList_ofList, List.mem_map]
  rintro ⟨i, -, hi⟩
  split at hi <;> cases hi

theorem size_ofList_le (l : List Char) : (String.ofList l).utf8ByteSize ≤ 4 * l.length := by
  induction l with
  | nil => simp
  | cons c l ih =>
    have hc := c.utf8Size_le_four
    rw [String.ofList_cons, String.utf8ByteSize_append, String.utf8ByteSize_singleton,
      List.length_cons]
    omega

theorem size_bits_le (n : ℕ) : (bits n).utf8ByteSize ≤ 256 := by
  have h := size_ofList_le ((List.range 64).map fun i => if n.testBit i then '1' else '0')
  rwa [List.length_map, List.length_range] at h

theorem readAccepted_compact {id : String} (h : '\x22' ∉ id.toList) :
    readAccepted (compact (accepted id)) = some (accepted id) := by
  have htext : (compact (accepted id)).toList =
      "\x7b\"id\":\"".toList ++
        (id.toList ++ '\x22' :: ",\"result\":\x7b\"reasonCode\":1\x7d\x7d".toList) := by
    simp [compact, compactFields, accepted]
    decide
  have hid : ((compact (accepted id)).toList.drop 7).takeWhile (· ≠ '\x22') = id.toList := by
    rw [htext, show 7 = "\x7b\"id\":\"".toList.length from by decide, List.drop_left]
    rw [List.takeWhile_append_of_pos fun c hc =>
        decide_eq_true (p := c ≠ '\x22') fun heq => h (heq ▸ hc),
      List.takeWhile_cons_of_neg (by simp), List.append_nil]
  rw [readAccepted, hid, String.ofList_toList, if_pos rfl]

theorem hello_fits (n : ℕ) :
    (accepting.codec.render (Protocol.connect accepting.auth 0 (bits n))).utf8ByteSize ≤
      accepting.options.maxMessageSize := by
  have hsize : (compact (Protocol.connect accepting.auth 0 (bits n))).utf8ByteSize =
      (compact (Protocol.connect accepting.auth 0 "")).utf8ByteSize + (bits n).utf8ByteSize := by
    simp only [compact, compactFields, Protocol.connect, Protocol.request,
      String.utf8ByteSize_append, String.utf8ByteSize_empty]
    omega
  have hempty : (compact (Protocol.connect accepting.auth 0 "")).utf8ByteSize ≤ 256 := by
    decide +kernel
  have hbits := size_bits_le n
  show (compact (Protocol.connect accepting.auth 0 (bits n))).utf8ByteSize ≤ 1024 * 1024
  omega

def greeted : ConnectResult := { reasonCode := 1 }

theorem authReply_accepted (n : ℕ) :
    Worker.authReply accepting.codec (bits n) (compact (accepted (bits n))) = .ok greeted := by
  have hparse : Protocol.parse accepting.codec (compact (accepted (bits n))) =
      .ok (accepted (bits n)) := by
    rw [Protocol.parse, show accepting.codec.fromStr = readAccepted from rfl,
      readAccepted_compact (quote_notMem_bits n)]
    rfl
  exact Worker.authReply_eq hparse rfl rfl rfl

namespace Worker

/-- The worker between two attempts, until `wake`. -/
def sleeping (socket nextPing wake : ℕ) : Worker where
  phase := .supervise (.sleeping wake)
  polling := true
  established := true
  attempt := 1
  session := ⟨socket, [], nextPing, none⟩

/-- The socket is closed; the session ends and the first retry is put off. -/
def losing : List Input := .message .closed :: List.replicate 8 .go ++ [.random 0, .go]

/-- The memory between two sessions. -/
def lostMemory (r : RunId) (m : Memory) : Memory :=
  (m.work r (.setConnected false)).work r (.setStatus .connecting)

variable {cfg : Config} {r : RunId} {m : Memory} {socket nextPing wake : ℕ} {id text : String}
  {result : ConnectResult}

theorem drive_losing (hm : (m.cells r).commands = []) (hmax : 0 < cfg.options.maxReconnectAttempts) :
    exec (drive cfg r) (m, waiting socket nextPing) losing = some
      (lostMemory r m, sleeping socket nextPing (m.clock + reconnectDelay cfg.options 1 0)) := by
  have hlast : exec (drive cfg r) (m, waiting socket nextPing)
      (.message .closed :: List.replicate 4 .go) =
      some (lostMemory r m, (waiting socket nextPing).goSupervise (.sweep .transport)) := rfl
  have hcommands : ((lostMemory r m).cells r).commands = [] := by
    simpa [lostMemory, Memory.work_cells, Effect.onCells] using hm
  have hsweep : exec (drive cfg r)
      (lostMemory r m, (waiting socket nextPing).goSupervise (.sweep .transport)) [.go] =
      some (lostMemory r m, (waiting socket nextPing).goSupervise (.disconnected .transport)) :=
    drive_next rfl (e := .skip) (by simp [next, waiting, superviseNext, hcommands])
  have hbudget : exec (drive cfg r)
      (lostMemory r m, (waiting socket nextPing).goSupervise .budget) [.go] =
      some (lostMemory r m, ((waiting socket nextPing).goSupervise .top).setAttempt true 1) :=
    drive_next rfl (e := .skip) (if_neg (Nat.not_le_of_lt hmax))
  rw [show losing = (.message .closed :: List.replicate 4 .go) ++ ([.go] ++ ([.go, .go] ++
      ([.go] ++ [.random 0, .go]))) from rfl, exec_append hlast, exec_append hsweep,
    exec_append (t := (lostMemory r m, (waiting socket nextPing).goSupervise .budget)) rfl,
    exec_append hbudget]
  rfl

theorem drive_returning (hid : id ∉ m.uuids) (hwake : wake ≤ m.clock)
    (hhello : (cfg.codec.render (Protocol.connect cfg.auth 0 id)).utf8ByteSize ≤
      cfg.options.maxMessageSize)
    (hreply : authReply cfg.codec id text = .ok result)
    (hfirst : (m.cells r).firstResult.isSome = true) :
    exec (drive cfg r) (m, sleeping socket nextPing wake) (.timer :: loggingIn 0 id text) = some
      (seatedMemory r m id result, waiting (m.sockets + 1) (m.clock + cfg.options.pingInterval)) := by
  have htimer : exec (drive cfg r) (m, sleeping socket nextPing wake) [.timer] =
      some (m, (sleeping socket nextPing wake).goSupervise
        (.dialing (m.clock + cfg.options.connectTimeout))) :=
    drive_next rfl (e := .dial) (if_pos hwake)
  have hlatched : ((seatedMemory r m id result).cells r).firstResult.isNone = false := by
    simpa [seatedMemory, Memory.work_cells, Effect.onCells] using hfirst
  rw [exec_cons htimer, drive_loggingIn rfl rfl hid hhello hreply, latchedMemory, hlatched]
  rfl

end Worker

/-- Once `n` more sockets have been lost, the session waits on the next one and
the call still holds the generation it has read. -/
structure Parked (args : SendArgs) (n : ℕ) (s : State) : Prop where
  call : s.calls 1 = .send args (.acquire 1)
  worker : ∃ due, s.workers 0 = .waiting (n + 1) due
  sockets : s.mem.sockets = n + 1
  uuids : ∀ id ∈ s.mem.uuids, id = "u0" ∨ ∃ k < n, id = bits k
  receptive : s.mem.Receptive accepting 0
  reply : s.mem.replies 1 = {}
  commands : (s.mem.cells 0).commands = []
  first : (s.mem.cells 0).firstResult.isSome = true

/-- The socket is lost and another one authenticated. -/
def lap (n : ℕ) : List Label :=
  Worker.losing.map (.work 0) ++ [.tick (reconnectDelay accepting.options 1 0)]
    ++ (.timer :: Worker.loggingIn 0 (bits n) (compact (accepted (bits n)))).map (.work 0)

namespace Parked

variable {args : SendArgs} {n : ℕ} {s : State}

theorem bits_notMem (h : Parked args n s) (hn : n < 2 ^ 64) : bits n ∉ s.mem.uuids := by
  intro hmem
  rcases h.uuids _ hmem with hu | ⟨k, hk, heq⟩
  · have hlen := congrArg String.length hu
    exact absurd (by simpa [bits] using hlen) (by decide : 64 ≠ "u0".length)
  · exact hk.ne' (bits_injective hn (hk.trans hn) heq)

theorem lap (h : Parked args n s) (hn : n < 2 ^ 64) :
    ∃ t, Run (State.step accepting) (fun _ _ => True) s (lap n) t ∧ Parked args (n + 1) t := by
  obtain ⟨due, hw⟩ := h.worker
  let d := reconnectDelay accepting.options 1 0
  have hlosing : exec (Worker.drive accepting 0) (s.mem, s.workers 0) Worker.losing =
      some (Worker.lostMemory 0 s.mem, .sleeping (n + 1) due (s.mem.clock + d)) :=
    hw ▸ Worker.drive_losing h.commands (by decide)
  obtain ⟨t, ht, hmt, hwt, hct⟩ := State.run_drive hlosing
  have hmem : (t.ticked d).mem = { Worker.lostMemory 0 s.mem with clock := s.mem.clock + d } := by
    rw [State.ticked, hmt]
    rfl
  have hsockets : (t.ticked d).mem.sockets = n + 1 := by
    rw [hmem]
    exact h.sockets
  have huuids : (t.ticked d).mem.uuids = s.mem.uuids := by
    rw [hmem]
    rfl
  have hfirst : (((t.ticked d).mem.cells 0).firstResult).isSome = true := by
    simpa [hmem, Worker.lostMemory, Memory.work_cells, Effect.onCells] using h.first
  have hreturning : exec (Worker.drive accepting 0) ((t.ticked d).mem, (t.ticked d).workers 0)
      (.timer :: Worker.loggingIn 0 (bits n) (compact (accepted (bits n)))) =
      some (Worker.seatedMemory 0 (t.ticked d).mem (bits n) greeted,
        .waiting ((t.ticked d).mem.sockets + 1)
          ((t.ticked d).mem.clock + accepting.options.pingInterval)) := by
    rw [State.ticked_workers, hwt]
    exact Worker.drive_returning (huuids ▸ h.bits_notMem hn) (by rw [hmem]) (hello_fits n)
      (authReply_accepted n) hfirst
  obtain ⟨u, hrun, hmu, hwu, hcu⟩ := State.run_drive hreturning
  have hu : u.mem = Worker.seatedMemory 0
      { Worker.lostMemory 0 s.mem with clock := s.mem.clock + d } (bits n) greeted := by
    rw [hmu, hmem]
  have hcells : u.mem.cells 0 = { s.mem.cells 0 with status := .ready greeted } := by
    simp [hu, Worker.seatedMemory, Worker.lostMemory, Memory.work_cells, Effect.onCells]
  refine ⟨u, (ht.append (.single trivial rfl)).append hrun,
    { call := ?_, worker := ⟨_, hsockets ▸ hwu⟩, sockets := ?_, uuids := fun id hid => ?_
      receptive := ?_, reply := ?_, commands := ?_, first := ?_ }⟩
  · rw [hcu, State.ticked_calls, hct, h.call]
  · rw [hmu, ← hsockets]
    rfl
  · rw [hmu] at hid
    rcases List.mem_cons.mp hid with rfl | hid
    · exact .inr ⟨n, Nat.lt_succ_self n, rfl⟩
    · rw [show (((t.ticked d).mem.uuids) = _) from huuids] at hid
      rcases h.uuids id hid with hid | ⟨k, hk, hid⟩
      · exact .inl hid
      · exact .inr ⟨k, Nat.lt_succ_of_lt hk, hid⟩
  · refine ⟨by rw [hu]; rfl, by rw [hu]; exact h.receptive.running, by rw [hu]; exact h.receptive.lock,
      by rw [hu]; exact h.receptive.slots, ?_, ?_⟩
    · rw [hcells]
      exact h.receptive.closed
    · rw [hcells]
      exact h.receptive.room
  · rw [hu]
    exact h.reply
  · rw [hcells]
    exact h.commands
  · rw [hcells]
    exact h.first

theorem laps (h : Parked args 0 s) {k : ℕ} (hk : k ≤ 2 ^ 64) :
    ∃ t, Run (State.step accepting) (fun _ _ => True) s ((List.range k).flatMap WukongSdk.lap) t ∧
      Parked args k t := by
  induction k with
  | zero => exact ⟨s, .nil s, h⟩
  | succ k ih =>
    obtain ⟨t, ht, hp⟩ := ih (Nat.le_of_succ_le hk)
    obtain ⟨u, hu, hp⟩ := hp.lap hk
    exact ⟨u, by simpa [List.range_succ] using ht.append hu, hp⟩

end Parked

/-- The send that is held up. -/
def letter : SendArgs := ⟨"bob", 1, .object [], {}⟩

/-- The call reaches the read of the generation. -/
def asking : List Label := opening ++ [.begin (.send letter)] ++ List.replicate 2 (.call 1 .go)

/-- The worker waits on its first socket, with nothing outstanding. -/
def Worker.idle : Worker → Bool
  | ⟨.supervise (.session .select), true, true, 0, ⟨1, [], _, none⟩, none⟩ => true
  | _ => false

theorem asking_parked :
    ∃ s t, Reaches accepting asking s ∧ s.calls 1 = .send letter .readGeneration ∧
      s.mem.sockets = 1 ∧ Run (State.step accepting) (fun _ _ => True) s [.call 1 .go] t ∧
      Parked letter 0 t := by
  obtain ⟨s, hs, ho⟩ := reaches_of_play accepting opening
    (fun s => (s.workers 0).idle && s.handles && s.begun = 1 && !s.mem.destroyed &&
      s.mem.connected && s.mem.generation = 1 && s.mem.sockets = 1 && s.mem.uuids = ["u0"] &&
      s.mem.running = some 0 && s.mem.lock.isNone && 0 < s.mem.slots && s.mem.replies 1 = {} &&
      (s.mem.cells 0).commands.isEmpty && (s.mem.cells 0).firstResult.isSome &&
      !(s.mem.cells 0).closed) (by decide +kernel)
  simp only [Bool.and_eq_true, decide_eq_true_eq, Bool.not_eq_true', Option.isNone_iff_eq_none,
    List.isEmpty_iff] at ho
  obtain ⟨⟨⟨⟨⟨⟨⟨⟨⟨⟨⟨⟨⟨⟨hw, hh⟩, hb⟩, hd⟩, hc⟩, hg⟩, hn⟩, hu⟩, hr⟩, hl⟩, hslots⟩, hrep⟩, hcmd⟩,
      hf⟩, hcl⟩ := ho
  unfold Worker.idle at hw
  split at hw
  next due hworker =>
    have hbegin : s.step accepting (.begin (.send letter)) = some (s.called (.send letter)) := if_pos hh
    have hstart : (s.called (.send letter)).calls 1 = .send letter .start := by
      simp [hb, Operation.call]
    have hasking : exec (SendPhase.drive accepting 1 letter) (s.mem, .start)
        (List.replicate 2 .go) = some (s.mem, .readGeneration) := by
      simp [exec, SendPhase.drive, SendPhase.next, hd, hc, List.replicate, Memory.serve]
    obtain ⟨t, ht, hm, hwt, hct⟩ := State.run_drive_send hstart hasking
    have hstep : t.step accepting (.call 1 .go) =
        some (t.served 1 (.send letter (.acquire 1)) .skip) := by
      simp [State.step, hct, Call.next, SendPhase.next, hm, hg]
    have hmem : (t.served 1 (.send letter (.acquire 1)) .skip).mem = s.mem := hm
    refine ⟨t, _, (hs.append (.single trivial hbegin)).append ht, hct, by rw [hm, hn],
      .single trivial hstep, ?_⟩
    refine
      { call := by simp, worker := ⟨due, ?_⟩, sockets := hmem ▸ hn, uuids := fun id hid => .inl ?_
        receptive := hmem ▸ ⟨hc, hr, hl, hslots, hcl, by rw [hcmd]; decide⟩, reply := hmem ▸ hrep
        commands := hmem ▸ hcmd, first := hmem ▸ hf }
    · show t.workers 0 = _
      rw [hwt]
      exact hworker
    · rw [hmem, hu] at hid
      exact List.mem_singleton.mp hid
  next => cases hw

theorem build_letter (m : Memory) :
    ∃ cmd, SendPhase.build accepting m letter 1 1 "s" "m1" = .ok cmd ∧ cmd.generation = 1 ∧
      cmd.reply = 1 ∧ cmd.id = "s" ∧ cmd.deadline = m.clock + accepting.options.requestTimeout ∧
      (accepting.codec.render (Wire.send cmd).value).utf8ByteSize ≤
          accepting.options.maxMessageSize := by
  have hsend : (Protocol.send accepting.codec letter.channel letter.channelType letter.payload
      letter.options "m1").toOption.any (fun params =>
        (compact (Protocol.request "send" params "s")).utf8ByteSize ≤ 1024 * 1024) = true := by
    decide +kernel
  obtain ⟨params, hparams, hsize⟩ := (Option.any_eq_true _ _).mp hsend
  have hsize := of_decide_eq_true hsize
  have hok : Protocol.send accepting.codec letter.channel letter.channelType letter.payload
      letter.options "m1" = .ok params := by
    cases hres : Protocol.send accepting.codec letter.channel letter.channelType letter.payload
      letter.options "m1" with
    | error e => rw [hres] at hparams; cases hparams
    | ok p => rw [hres] at hparams; cases hparams; rfl
  exact ⟨⟨1, "s", params, m.clock + accepting.options.requestTimeout, 1⟩,
    SendPhase.build_eq hok hsize, rfl, rfl, rfl, rfl, hsize⟩

theorem Parked.written {labels : List Label} {n : ℕ} {s : State} (h : Parked letter n s)
    (hreach : Reaches accepting labels s) (hwrap : UInt64.ofNat (n + 1) = 1) :
    ∃ labels' t cmd, Run (State.step accepting) (fun _ _ => True) s labels' t ∧
      (0, Effect.write (n + 1) (.send cmd)) ∈ t.log ∧ cmd.reply = 1 := by
  obtain ⟨cmd, hbuild, hgen, hreply, hname, hdeadline, hsize⟩ := build_letter (s.mem.serve 1 .acquire)
  obtain ⟨due, hwait⟩ := h.worker
  have hid : "s" ∉ s.mem.uuids := fun hmem => by
    rcases h.uuids _ hmem with heq | ⟨k, -, heq⟩
    · exact absurd heq (by decide)
    · exact absurd (by simpa [bits] using congrArg String.length heq) (by decide : "s".length ≠ 64)
  rw [← hname] at hid hbuild
  obtain ⟨s₁, hhand, hm, hw, -⟩ := State.run_drive_send h.call
    (SendPhase.drive_handing h.receptive hid hbuild)
  have hcommands : (s₁.mem.cells 0).commands = [cmd] := by
    simp [hm, SendPhase.handedMemory, Memory.serve, Memory.modify, h.commands]
  have hlive : (s₁.mem.replies cmd.reply).abandoned = false := by
    rw [hm, hreply, show (SendPhase.handedMemory 0 1 s.mem cmd).replies = s.mem.replies
      from rfl, h.reply]
  have hcurrent : cmd.generation = s₁.mem.generation := by
    rw [hm, hgen, show (SendPhase.handedMemory 0 1 s.mem cmd).generation = s.mem.generation from rfl,
      (Seated.of_reaches hreach).generation, h.sockets, hwrap]
  have htime : s₁.mem.clock < cmd.deadline := by
    rw [hm, hdeadline]
    exact Nat.lt_add_of_pos_right (by decide)
  have htaking : exec (Worker.drive accepting 0) (s₁.mem, s₁.workers 0)
      (.command :: List.replicate 3 .go) = some (s₁.mem.work 0 .dequeue,
        (Worker.waiting (n + 1) due).goSession (.insert cmd)) := by
    rw [hw, hwait]
    exact Worker.drive_taking hcommands hlive hcurrent htime
  obtain ⟨s₂, htake, -, hw', -⟩ := State.run_drive htaking
  have hstep := State.step_work (i := .go) (by rw [hw']; rfl) (hw' ▸ Worker.next_insert hsize)
  exact ⟨_, _, cmd, (hhand.append htake).append (.single trivial hstep),
    List.mem_append_right _ (List.mem_singleton_self _), hreply⟩

/-- The call reads generation 1 on the first socket and is held up while 2^64
sockets are lost; its SEND is then written on the last of them. -/
theorem send_crosses_generations :
    ∃ s t cmd after, Reaches accepting asking s ∧ s.calls 1 = .send letter .readGeneration ∧
      s.mem.sockets = 1 ∧
      Run (State.step accepting) (fun _ _ => True) s ([.call 1 .go] ++ after) t ∧
      (0, Effect.write (2 ^ 64 + 1) (.send cmd)) ∈ t.log ∧ cmd.reply = 1 := by
  obtain ⟨s, s₁, hs, hc, hsockets, hread, hparked⟩ := asking_parked
  obtain ⟨labels, s₂, hlaps, hparked⟩ : ∃ labels s₂,
      Run (State.step accepting) (fun _ _ => True) s₁ labels s₂ ∧ Parked letter (2 ^ 64) s₂ :=
    ⟨_, hparked.laps le_rfl⟩
  obtain ⟨labels', t, cmd, hwritten, hlog, hreply⟩ :=
    hparked.written ((hs.append hread).append hlaps) (by decide)
  exact ⟨s, t, cmd, labels ++ labels', hs, hc, hsockets, hread.append (hlaps.append hwritten),
    hlog, hreply⟩

end WukongSdk
