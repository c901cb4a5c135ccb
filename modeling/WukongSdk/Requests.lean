import WukongSdk.Link

/-!
# Ids on the wire

Logins, SENDs and pings all take their ids from UUIDs, which are assumed never
to repeat. Over all connections and runs of a client no two of the requests it
writes share one, so a response can be the answer to one request only.
-/
namespace WukongSdk

/-- The id that the frame an access writes bears, if it is a request. -/
def Effect.requestId : Effect → Option String
  | .write _ wire => wire.value.strField "id"
  | .login request => request.strField "id"
  | _ => none

/-- The id drawn for the login or the ping a phase is about to write. -/
def Phase.drafting : Phase → Option String
  | .supervise (.hello _ id) | .supervise (.session (.ping id)) => some id
  | _ => none

/-- The ids of all requests the client has written, in order. -/
def State.requests (s : State) : List String := s.effects.filterMap Effect.requestId

/-- The id is that of a command that is still to be written. -/
def State.Awaiting (s : State) (id : String) : Prop :=
  (∃ c cmd, (s.calls c).command = some cmd ∧ (s.calls c).holdsPermit = true ∧ cmd.id = id) ∨
    ∃ r, ∃ cmd ∈ s.unwritten r, cmd.id = id

theorem Protocol.connect_id (auth : Auth) (timestamp : UInt64) (id : String) :
    (Protocol.connect auth timestamp id).strField "id" = some id := rfl

theorem Wire.send_id (cmd : Command) : (Wire.send cmd).value.strField "id" = some cmd.id := rfl

theorem Wire.ping_id (id : String) : (Wire.ping id).value.strField "id" = some id := rfl

theorem Wire.recvAck_id (m : RecvMessage) : (Wire.recvAck m).value.strField "id" = none := rfl

namespace Worker

variable {cfg : Config} {r : RunId} {m : Memory} {w w' : Worker} {i : Input} {e : Effect} {l : Label}

attribute [local grind] Phase.drafting
attribute [local grind =] Effect.requestId Protocol.connect_id Wire.send_id Wire.ping_id
  Wire.recvAck_id

theorem next_drafting {id : String} (h : Access cfg r m w i w' e)
    (hw : w'.phase.drafting = some id) :
    (w.phase.drafting = some id ∧ e.requestId = none) ∨ (e = .uuid id ∧ id ∉ m.uuids) := by
  cases h
  all_goals grind -linarith

theorem Moves.drafting {id : String} (h : w.Moves cfg r m l w' e)
    (hw : w'.phase.drafting = some id) :
    (w.phase.drafting = some id ∧ e.requestId = none) ∨ (e = .uuid id ∧ id ∉ m.uuids) := by
  cases h with
  | next hp h => exact next_drafting h hw
  | wake hp hq hc | resume hp hq | suspend hp hd ha => exact .inl ⟨hw, rfl⟩
  | cancel hp hq hc => cases hw

/-- A request is written under the id that was drawn for it. -/
theorem next_request {id : String} (h : Access cfg r m w i w' e)
    (he : e.requestId = some id) :
    w.phase.drafting = some id ∨ ∃ k cmd, e = .write k (.send cmd) ∧ cmd.id = id := by
  cases h
  all_goals grind -linarith

theorem Moves.request {id : String} (h : w.Moves cfg r m l w' e) (he : e.requestId = some id) :
    w.phase.drafting = some id ∨ ∃ k cmd, e = .write k (.send cmd) ∧ cmd.id = id := by
  cases h with
  | next hp h => exact next_request h he
  | wake hp hq hc | resume hp hq | suspend hp hd ha | cancel hp hq hc => cases he

end Worker

/-- Ids are drawn before they are used, and used once. -/
structure Requests (s : State) : Prop where
  nodup : s.requests.Nodup
  drawn : ∀ id ∈ s.requests, id ∈ s.mem.uuids
  awaiting : ∀ id, s.Awaiting id → id ∈ s.mem.uuids ∧ id ∉ s.requests
  drafting : ∀ r id, (s.workers r).phase.drafting = some id →
    id ∈ s.mem.uuids ∧ id ∉ s.requests ∧ ¬ s.Awaiting id

namespace Requests

variable {cfg : Config} {s t : State} {c : CallId} {i : CallInput} {k : Call} {a : Act} {r : RunId}
  {w : Worker} {e : Effect} {l : Label} {id : String}

/-- A command that awaits its writing was there before, or its id has just been drawn. -/
theorem awaiting_served (hx : (s.calls c).Moves cfg c s.mem i k a)
    (h : (s.served c k a).Awaiting id) : s.Awaiting id ∨ (a = .uuid id ∧ id ∉ s.mem.uuids) := by
  rcases h with ⟨c', cmd, hcmd, hp, rfl⟩ | ⟨r, cmd, hcmd, rfl⟩
  · by_cases hcc : c' = c
    · subst hcc
      rw [State.served_calls, Function.update_self] at hcmd hp
      rcases hx.drawn hcmd hp with ⟨hold, hp⟩ | hfresh
      · exact .inl (.inl ⟨c', cmd, hold, hp, rfl⟩)
      · exact .inr hfresh
    · rw [State.served_calls, Function.update_of_ne hcc] at hcmd hp
      exact .inl (.inl ⟨c', cmd, hcmd, hp, rfl⟩)
  · rcases State.unwritten_served hcmd with hold | rfl
    · exact .inl (.inr ⟨r, cmd, hold, rfl⟩)
    · obtain ⟨hp, hcmd⟩ := hx.handed
      exact .inl (.inl ⟨c, cmd, hcmd, hp, rfl⟩)

theorem awaiting_worked (hx : (s.workers r).Moves cfg r s.mem l w e)
    (h : (s.worked r w e).Awaiting id) : s.Awaiting id := by
  rcases h with ⟨c, cmd, hcmd, hp, rfl⟩ | ⟨r', cmd, hcmd, rfl⟩
  · exact .inl ⟨c, cmd, hcmd, hp, rfl⟩
  · exact .inr ⟨r', cmd, State.unwritten_worked hx hcmd, rfl⟩

/-- A SEND that has been written does not await its writing. -/
theorem not_awaiting_of_sent {cmd : Command} {n : ℕ} (hd : Distinct s)
    (ht : Dispatch (s.worked r w (.write n (.send cmd))))
    (hx : (s.workers r).Moves cfg r s.mem l w (.write n (.send cmd))) :
    ¬ (s.worked r w (.write n (.send cmd))).Awaiting cmd.id := by
  obtain ⟨-, hcmd, -⟩ := hx.send
  have htag : s.Tagged cmd.tag :=
    .inr ⟨r, State.tag_of_unwritten (List.mem_append_right _ (Option.mem_toList.mpr hcmd))⟩
  have hwritten : (s.worked r w (.write n (.send cmd))).writes cmd.reply ≠ [] := by
    rw [State.writes_worked]
    simp [Effect.sends]
  rintro (⟨c, cmd', hcmd', hp, hid⟩ | ⟨r', cmd', hcmd', hid⟩)
  · have heq := hd.inj (c, cmd'.id) cmd.tag (.inl ⟨cmd', hcmd', hp, rfl⟩) htag hid
    rw [← show c = cmd.reply from congrArg Prod.fst heq] at hwritten
    exact hwritten (ht.caller c (Call.passed_of_holdsPermit hp))
  · have heq := hd.inj cmd'.tag cmd.tag
      (.inr ⟨r', State.tag_of_unwritten (State.unwritten_worked hx hcmd')⟩) htag hid
    rw [← show cmd'.reply = cmd.reply from congrArg Prod.fst heq] at hwritten
    exact hwritten (ht.run r' cmd' hcmd')

theorem requests_worked : (s.worked r w e).requests = s.requests ++ e.requestId.toList := by
  rw [State.requests, State.effects, State.worked_log, List.map_append, List.filterMap_append]
  cases he : e.requestId <;> simp [he, State.requests, State.effects]

theorem served (h : Requests s) (hx : (s.calls c).Moves cfg c s.mem i k a) :
    Requests (s.served c k a) := by
  have kept : ∀ {id}, id ∈ s.mem.uuids → id ∈ (s.served c k a).mem.uuids := fun hu =>
    (Distinct.serve_uuids ..).2 (.inl hu)
  have hsame : (s.served c k a).requests = s.requests := rfl
  refine ⟨h.nodup, fun id hid => kept (h.drawn id hid), fun id hid => ?_, fun r id hid => ?_⟩
  · rw [hsame]
    rcases awaiting_served hx hid with hold | ⟨ha, hfresh⟩
    · exact ⟨kept (h.awaiting id hold).1, (h.awaiting id hold).2⟩
    · exact ⟨(Distinct.serve_uuids ..).2 (.inr ha), fun hused => hfresh (h.drawn id hused)⟩
  · have hold : (s.workers r).phase.drafting = some id := by
      rcases s.spawnWorker_cases r a with hw | ⟨-, -, hw⟩
      · rwa [State.served_workers, hw] at hid
      · rw [State.served_workers, hw] at hid
        cases hid
    obtain ⟨hu, hunused, hnot⟩ := h.drafting r id hold
    refine ⟨kept hu, hsame ▸ hunused, fun hawait => ?_⟩
    rcases awaiting_served hx hawait with hold | ⟨-, hfresh⟩
    · exact hnot hold
    · exact hfresh hu

theorem worked (h : Requests s) (hl : Lifecycle s) (hd : Distinct s) (ht : Dispatch (s.worked r w e))
    (hx : (s.workers r).Moves cfg r s.mem l w e) : Requests (s.worked r w e) := by
  have halive := (hx.finish (hl.ended r)).1
  have kept : ∀ {id}, id ∈ s.mem.uuids → id ∈ (s.worked r w e).mem.uuids := fun hu =>
    (Distinct.work_uuids ..).2 (.inl hu)
  -- the id that is written was drawn for it, and is not used again
  have hwritten : ∀ id, e.requestId = some id →
      id ∈ s.mem.uuids ∧ id ∉ s.requests ∧ ¬ (s.worked r w e).Awaiting id := by
    intro id he
    rcases hx.request he with hdraft | ⟨n, cmd, rfl, rfl⟩
    · obtain ⟨hu, hunused, hnot⟩ := h.drafting r id hdraft
      exact ⟨hu, hunused, fun hawait => hnot (awaiting_worked hx hawait)⟩
    · obtain ⟨-, hcmd, -⟩ := hx.send
      have hawait : s.Awaiting cmd.id :=
        .inr ⟨r, cmd, List.mem_append_right _ (Option.mem_toList.mpr hcmd), rfl⟩
      exact ⟨(h.awaiting _ hawait).1, (h.awaiting _ hawait).2, not_awaiting_of_sent hd ht hx⟩
  refine ⟨?_, fun id hid => ?_, fun id hid => ?_, fun r' id hid => ?_⟩
  · rw [requests_worked]
    refine List.nodup_append.mpr ⟨h.nodup, ?_, fun id hid id' hid' heq => ?_⟩
    · cases e.requestId <;> simp
    · exact (hwritten id' (Option.mem_toList.mp hid')).2.1 (heq ▸ hid)
  · rw [requests_worked] at hid
    rcases List.mem_append.mp hid with hid | hid
    · exact kept (h.drawn id hid)
    · exact kept (hwritten id (Option.mem_toList.mp hid)).1
  · obtain ⟨hu, hunused⟩ := h.awaiting id (awaiting_worked hx hid)
    refine ⟨kept hu, fun hused => ?_⟩
    rw [requests_worked] at hused
    rcases List.mem_append.mp hused with hused | hused
    · exact hunused hused
    · exact (hwritten id (Option.mem_toList.mp hused)).2.2 hid
  · by_cases hr : r' = r
    · subst hr
      rw [State.worked_workers, Function.update_self] at hid
      rcases hx.drafting hid with ⟨hold, hnone⟩ | ⟨rfl, hfresh⟩
      · obtain ⟨hu, hunused, hnot⟩ := h.drafting r' id hold
        rw [requests_worked, hnone]
        exact ⟨kept hu, by simpa using hunused, fun hawait => hnot (awaiting_worked hx hawait)⟩
      · rw [requests_worked]
        refine ⟨(Distinct.work_uuids ..).2 (.inr rfl), fun hused => ?_, fun hawait => ?_⟩
        · exact hfresh (h.drawn id (by simpa [Effect.requestId] using hused))
        · exact hfresh (h.awaiting id (awaiting_worked hx hawait)).1
    · rw [State.worked_workers, Function.update_of_ne hr] at hid
      have hover : s.alive r' := fun hover => by
        rw [hover] at hid
        cases hid
      exact absurd (hl.alone hover halive) hr

theorem of_reaches {labels : List Label} (h : Reaches cfg labels s) : Requests s := by
  refine h.invariant_along (I := Requests)
    ⟨.nil, by rintro _ ⟨⟩, fun id hid => ?_, by rintro _ _ ⟨⟩⟩ ?_
  · rcases hid with ⟨c, cmd, hcmd, -⟩ | ⟨r, cmd, hcmd, -⟩
    · cases hcmd
    · cases hcmd
  intro _ s l t hreach hi _ hs
  have hl := Lifecycle.of_reaches hreach
  cases State.step_cases hs with
  | tick d => exact ⟨hi.nodup, hi.drawn, hi.awaiting, hi.drafting⟩
  | begin op hh =>
    have hsub : ∀ id, (s.called op).Awaiting id → s.Awaiting id := by
      rintro id (⟨c, cmd, hcmd, hp, rfl⟩ | hrun)
      · by_cases hc : c = s.begun
        · rw [hc, State.called_calls, Function.update_self] at hcmd
          cases op <;> cases hcmd
        · rw [State.called_calls, Function.update_of_ne hc] at hcmd hp
          exact .inl ⟨c, cmd, hcmd, hp, rfl⟩
      · exact .inr hrun
    refine ⟨hi.nodup, hi.drawn, fun id hid => hi.awaiting id (hsub id hid), fun r id hid => ?_⟩
    obtain ⟨hu, hunused, hnot⟩ := hi.drafting r id hid
    exact ⟨hu, hunused, fun hawait => hnot (hsub id hawait)⟩
  | call hx => exact hi.served hx
  | worker hx =>
    exact hi.worked hl (.of_reaches hreach) (.of_reaches (hreach.snoc trivial hs)) hx
  | dropClient _ _ =>
    have hsub : ∀ id, s.clientDropped.Awaiting id → s.Awaiting id := by
      rintro id (hcall | ⟨r, cmd, hcmd, rfl⟩)
      · exact .inl hcall
      · exact .inr ⟨r, cmd, by simpa using hcmd, rfl⟩
    have hu : s.clientDropped.mem.uuids = s.mem.uuids := by rw [s.clientDropped_mem]
    refine ⟨hi.nodup, by rw [hu]; exact hi.drawn, fun id hid => ?_, fun r id hid => ?_⟩
    · rw [hu]
      exact hi.awaiting id (hsub id hid)
    · rw [hu]
      obtain ⟨hdrawn, hunused, hnot⟩ := hi.drafting r id hid
      exact ⟨hdrawn, hunused, fun hawait => hnot (hsub id hawait)⟩

end Requests

/-- No two requests that a client writes, be they logins, SENDs or pings, on whatever
connection of whatever run, have the same id. A UUID that is drawn is assumed to be new. -/
theorem request_ids_unique {cfg : Config} {labels : List Label} {s : State}
    (h : Reaches cfg labels s) : s.requests.Nodup := (Requests.of_reaches h).nodup

theorem request_ids_unique_delivering :
    ∃ s, Reaches (narrow [accepted "u0"]) delivering s ∧ s.requests = ["u0", "u1"] ∧
      s.requests.Nodup := by
  obtain ⟨s, h, ho⟩ := reaches_of_play (narrow [accepted "u0"]) delivering
    (fun s => s.requests = ["u0", "u1"]) (by decide +kernel)
  exact ⟨s, h, of_decide_eq_true ho, request_ids_unique h⟩

end WukongSdk
