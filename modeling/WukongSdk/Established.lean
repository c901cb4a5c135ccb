import WukongSdk.Link
import WukongSdk.Outcome

/-!
# Established runs

A send is handed only to a run that has been established, and such a run ends
by its cancellation, by a fault the peer is to blame for, or by exhaustion. So
what it answers when it ends is never the error of a first attempt.
-/
namespace WukongSdk

/-- Points from the accepted login to the end of its session. -/
def Phase.admitted : Phase → Bool
  | .supervise p =>
    match p with
    | .bump _ | .raise _ | .ready _ | .first _ | .announce _ | .begin | .session _ | .lost _
    | .unwind _ | .lower _ | .unready _ | .sweep _ | .swept _ _ | .disconnected _ | .report _ => true
    | _ => false
  | _ => false

/-- The error a run ends with, once it is known. -/
def Phase.parting : Phase → Option Error
  | .lower e | .first e | .status e | .close e | .drain e | .drained e _ => some e
  | _ => none

/-- Errors an established run ends with. -/
def Error.isFinal (e : Error) : Bool := e.isTerminal || e = .reconnectExhausted || e = .disconnected

/-- The flag of being established agrees with where the worker is and with the error that it
ends with. -/
structure Worker.FlagAgrees (w : Worker) : Prop where
  admitted : w.phase.admitted = true → w.established = true
  parting : w.established = true → ∀ e, w.phase.parting = some e → e.isFinal = true

namespace Worker

variable {cfg : Config} {r : RunId} {m : Memory} {w w' : Worker} {i : Input} {e : Effect} {l : Label}

attribute [local grind] Phase.admitted Phase.parting
attribute [local grind =] Error.isFinal Error.isTerminal

theorem next_flagAgrees (h : Access cfg r m w i w' e) (hw : w.FlagAgrees) : w'.FlagAgrees := by
  obtain ⟨ha, hp⟩ := hw
  cases h
  all_goals constructor <;> grind -linarith

theorem Moves.flagAgrees (h : w.Moves cfg r m l w' e) (hw : w.FlagAgrees) : w'.FlagAgrees := by
  cases h with
  | next hp h => exact next_flagAgrees h hw
  | wake hp hq hc | resume hp hq | suspend hp hd ha => exact ⟨hw.admitted, hw.parting⟩
  | cancel hp hq hc => exact ⟨by rintro ⟨⟩, by rintro _ _ ⟨⟩⟩

/-- A run stays established, and raises the flag only then. -/
theorem next_established (h : Access cfg r m w i w' e) :
    (w.established = true → w'.established = true) ∧
      (e = .setConnected true → w.phase.admitted = true) := by
  cases h
  all_goals grind -linarith

theorem Moves.established (h : w.Moves cfg r m l w' e) :
    (w.established = true → w'.established = true) ∧
      (e = .setConnected true → w.phase.admitted = true) := by
  cases h with
  | next hp h => exact next_established h
  | wake hp hq hc | resume hp hq | cancel hp hq hc | suspend hp hd ha => exact ⟨id, by rintro ⟨⟩⟩

end Worker

namespace Call

variable {cfg : Config} {c : CallId} {m : Memory} {i : CallInput} {k k' : Call} {a : Act} {r : RunId}

/-- A send that has found the client connected while it holds the mutex. -/
def entering : Call → Bool
  | .send _ (.enqueue _) => true
  | _ => false

attribute [local grind] entering holdsLock
attribute [local grind =] Memory.serve Memory.modify Memory.freeSlot

theorem Moves.entering (h : k.Moves cfg c m i k' a) :
    (k'.entering = true → m.connected = true ∧ a = .skip) ∧
      (∀ r cmd, a = .enqueue r cmd → k.entering = true) := by
  cases h with
  | @send args p p' a h => revert h; fun_cases SendPhase.next cfg c m args i p <;> grind -linarith
  | @connect rt p p' a h => revert h; fun_cases ConnectPhase.next m rt i p <;> grind -linarith
  | @disconnect d p p' a h => revert h; fun_cases DisconnectPhase.next m i p <;> grind -linarith

theorem holdsLock_of_entering (h : k.entering = true) : k.holdsLock = true := by
  unfold Call.entering at h
  split at h <;> first | rfl | cases h

end Call

/-- A client that is connected has an established run, and only such a run has commands. -/
structure Established (s : State) : Prop where
  flags : ∀ r, (s.workers r).FlagAgrees
  connected : s.mem.connected = true → s.newest.established = true
  entering : ∀ c, (s.calls c).entering = true → s.newest.established = true
  empty : ∀ r, (s.workers r).established = false → s.unwritten r = []

namespace Established

variable {cfg : Config} {s t : State} {c : CallId} {i : CallInput} {k : Call} {a : Act} {r : RunId}
  {w : Worker} {e : Effect} {l : Label}

theorem served (h : Established s) (hl : Lifecycle s)
    (htorn : a = .spawn → s.mem.connected = false) (hx : (s.calls c).Moves cfg c s.mem i k a) :
    Established (s.served c k a) := by
  obtain ⟨henter, henqueue⟩ := hx.entering
  refine ⟨fun r => ?_, fun hup => ?_, fun c' hc => ?_, fun r hr => ?_⟩
  · rcases s.spawnWorker_cases r a with hw | ⟨-, -, hw⟩
    · rw [State.served_workers, hw]
      exact h.flags r
    · rw [State.served_workers, hw]
      exact ⟨by rintro ⟨⟩, by rintro ⟨⟩⟩
  · rw [State.served_mem, Memory.serve_connected] at hup
    rcases s.newest_served c k a with hn | ⟨rfl, -⟩
    · rw [hn]
      exact h.connected hup
    · rw [htorn rfl] at hup
      cases hup
  · by_cases hcc : c' = c
    · subst hcc
      obtain ⟨hup, rfl⟩ := henter (by simpa using hc)
      exact h.connected hup
    · have hold : (s.calls c').entering = true := by simpa [hcc] using hc
      rcases s.newest_served c k a with hn | ⟨rfl, -⟩
      · rw [hn]
        exact h.entering c' hold
      · have hlock := (hl.lock c').2 (Call.holdsLock_of_entering hold)
        rcases hx.running (hl.entry c) with ⟨-, hk, -⟩ | ⟨-, -, hne⟩
        · exact absurd (Option.some.inj (hlock.symm.trans ((hl.lock c).2 hk))) hcc
        · exact absurd rfl hne
  · refine List.eq_nil_iff_forall_not_mem.mpr fun cmd hcmd => ?_
    have hold : (s.workers r).established = false := by
      rcases s.spawnWorker_cases r a with hw | ⟨-, rfl, -⟩
      · rwa [State.served_workers, hw] at hr
      · rw [(hl.fresh _ le_rfl).1]
    rcases State.unwritten_served hcmd with hmem | rfl
    · rw [h.empty r hold] at hmem
      cases hmem
    · have hnew : s.newest = s.workers r := by
        rw [State.newest, ← hl.running r (hx.target (.inr ⟨cmd, rfl⟩)), Nat.add_sub_cancel]
      have hup := h.entering c (henqueue r cmd rfl)
      rw [hnew, hold] at hup
      cases hup

theorem worked (h : Established s) (hl : Lifecycle s) (hx : (s.workers r).Moves cfg r s.mem l w e) :
    Established (s.worked r w e) := by
  have hr := (hx.finish (hl.ended r)).1
  obtain ⟨hkeep, hraise⟩ := hx.established
  have hold : s.newest = s.workers r := State.newest_of_alive hl hr
  have hnew : (s.worked r w e).newest = w := State.newest_worked hl hr
  refine ⟨fun r' => ?_, fun hup => ?_, fun c hc => ?_, fun r' hr' => ?_⟩
  · by_cases heq : r' = r
    · subst heq
      rw [State.worked_workers, Function.update_self]
      exact hx.flagAgrees (h.flags r')
    · rw [State.worked_workers, Function.update_of_ne heq]
      exact h.flags r'
  · rw [hnew]
    by_cases hset : e = .setConnected true
    · exact hkeep ((h.flags r).admitted (hraise hset))
    · refine hkeep (hold ▸ h.connected ?_)
      cases e with
      | setConnected b =>
        cases b with
        | true => exact absurd rfl hset
        | false => cases hup
      | _ => exact hup
  · rw [hnew]
    exact hkeep (hold ▸ h.entering c hc)
  · refine List.eq_nil_iff_forall_not_mem.mpr fun cmd hcmd => ?_
    have hmem := State.unwritten_worked hx hcmd
    have hwas : (s.workers r').established = false := by
      by_cases heq : r' = r
      · subst heq
        rw [State.worked_workers, Function.update_self] at hr'
        exact Bool.eq_false_iff.mpr fun hup => by rw [hkeep hup] at hr'; cases hr'
      · rwa [State.worked_workers, Function.update_of_ne heq] at hr'
    rw [h.empty r' hwas] at hmem
    cases hmem

theorem of_reaches {labels : List Label} (h : Reaches cfg labels s) : Established s := by
  refine h.invariant_along (I := Established)
    ⟨fun r => ⟨by rintro ⟨⟩, by rintro ⟨⟩⟩, by rintro ⟨⟩, by rintro _ ⟨⟩, fun _ _ => rfl⟩ ?_
  intro _ s l t hreach hi _ hs
  have hl := Lifecycle.of_reaches hreach
  cases State.step_cases hs with
  | tick d => exact ⟨hi.flags, hi.connected, hi.entering, hi.empty⟩
  | begin op hh =>
    refine ⟨hi.flags, hi.connected, fun c hc => ?_, hi.empty⟩
    by_cases hcb : c = s.begun
    · subst hcb
      simp only [State.called_calls, Function.update_self] at hc
      cases op <;> cases hc
    · exact hi.entering c (by simpa [hcb] using hc)
  | @call c i k a hx =>
    refine hi.served hl (fun ha => ?_) hx
    subst ha
    exact State.not_connected_of_torn hreach (State.torn_of_spawn hl hs)
  | worker hx => exact hi.worked hl hx
  | dropClient _ _ =>
    have hm := s.clientDropped_mem
    exact ⟨hi.flags, fun hup => by
      rw [s.newest_clientDropped]
      exact hi.connected (by simpa [hm] using hup),
      fun c hc => by
        rw [s.newest_clientDropped]
        exact hi.entering c hc,
      fun r hr => by
        rw [State.unwritten_clientDropped]
        exact hi.empty r hr⟩

end Established

end WukongSdk
