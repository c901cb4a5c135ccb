import WukongSdk.Effort
import WukongSdk.Frames
import WukongSdk.Link

/-!
# Order on both ways

Commands reach the wire in the order in which their run was handed them, and
notifications are broadcast in the order in which they were received, each once,
whatever happens to the sessions in between.
-/
namespace WukongSdk

/-! ## Commands -/

def Effect.sent : Effect → Option Command
  | .write _ (.send cmd) => some cmd
  | _ => none

/-- The commands of run `r` that are written, in hand and in the queue, in this order. -/
def State.pipeline (s : State) (r : RunId) : List Command :=
  (s.trace r).filterMap Effect.sent ++
    ((s.workers r).phase.command.toList ++ (s.mem.cells r).commands)

namespace Worker

variable {cfg : Config} {r : RunId} {m : Memory} {w w' : Worker} {i : Input} {e : Effect} {l : Label}

theorem sent_eq_some {cmd : Command} : e.sent = some cmd ↔ ∃ k, e = .write k (.send cmd) := by
  unfold Effect.sent
  split <;> simp_all

/-- An access passes on the first command of the pipeline, or drops it. -/
theorem Moves.pipeline (h : w.Moves cfg r m l w' e) :
    (e.sent.toList ++ (w'.phase.command.toList ++ (e.onCells (m.cells r)).commands)).Sublist
      (w.phase.command.toList ++ (m.cells r).commands) := by
  cases hs : e.sent with
  | some cmd =>
    obtain ⟨k, rfl⟩ := sent_eq_some.mp hs
    obtain ⟨-, hcmd, -⟩ := h.send
    have hnone : w'.phase.command = none := by
      by_contra hsome
      obtain ⟨cmd', hcmd'⟩ := Option.ne_none_iff_exists'.mp hsome
      rcases h.command hcmd' with ⟨-, -, hw⟩ | ⟨hw, -⟩
      · exact hw k _ rfl
      · cases hw
    rw [hcmd, hnone]
    exact .refl _
  | none =>
    have kept : (e.onCells (m.cells r)).commands = (m.cells r).commands ∨
        (e = .dequeue ∧ (e.onCells (m.cells r)).commands = (m.cells r).commands.tail) := by
      cases e <;> simp [Effect.onCells]
    cases hcmd : w'.phase.command with
    | none =>
      refine List.Sublist.trans ?_ (List.sublist_append_right _ _)
      rcases kept with heq | ⟨-, heq⟩
      · rw [heq]
        exact .refl _
      · rw [heq]
        exact List.tail_sublist _
    | some cmd =>
      rcases h.command hcmd with ⟨hold, hne, -⟩ | ⟨rfl, hhead⟩
      · rw [kept.resolve_right fun hd => hne hd.1, hold]
        exact .refl _
      · refine List.Sublist.trans ?_ (List.sublist_append_right _ _)
        obtain ⟨rest, hq⟩ := List.head?_eq_some_iff.mp hhead
        rw [hq]
        simp [Effect.onCells, hq]

end Worker

/-- SENDs are written in the order in which their commands were handed to the run: what is
written, in the worker's hand and in the queue is, in this order, part of what was handed. -/
theorem sends_in_order {cfg : Config} {labels : List Label} {s : State} (h : Reaches cfg labels s)
    (r : RunId) :
    (s.pipeline r).Sublist (record (State.step cfg) (State.handed r) (State.new cfg) labels) := by
  refine h.invariant_record (I := fun s handed => (s.pipeline r).Sublist handed) (.refl _) ?_
  intro _ s l t hreach hi _ hs
  have still : ∀ {t : State}, t.trace r = s.trace r → t.workers r = s.workers r →
      (t.mem.cells r).commands = (s.mem.cells r).commands →
      (t.pipeline r).Sublist (record (State.step cfg) (State.handed r) (State.new cfg) _ ++
        s.handed r t) := fun {t} ht hw hc => by
    rw [State.pipeline, ht, hw, hc]
    exact hi.trans (List.sublist_append_left _ _)
  cases State.step_cases hs with
  | tick d => exact still rfl rfl rfl
  | begin op hh => exact still rfl rfl rfl
  | @call c i k a hx =>
    by_cases hnew : a = .spawn ∧ r = s.mem.started
    · obtain ⟨rfl, rfl⟩ := hnew
      rw [State.pipeline, State.trace_served, ((Lifecycle.of_reaches hreach).fresh _ le_rfl).2.2,
        State.served_workers, State.spawnWorker, Function.update_self]
      simp [Worker.spawned, Phase.command, Memory.serve]
    · have hw := (s.spawnWorker_cases r a).resolve_right fun hspawn => hnew ⟨hspawn.1, hspawn.2.1⟩
      rcases s.mem.serve_cells r c a with hc | ⟨ha, hr, -⟩ | ⟨-, hc⟩ | ⟨cmd, -, hc⟩
      · exact still rfl hw (by rw [State.served_mem, hc])
      · exact absurd ⟨ha, hr⟩ hnew
      · exact still rfl hw (by rw [State.served_mem, hc])
      · rw [State.pipeline, State.trace_served, State.served_workers, hw, State.handed,
          State.served_mem, hc, List.drop_left, ← List.append_assoc, ← List.append_assoc]
        refine List.Sublist.append_right ?_ _
        rw [List.append_assoc]
        exact hi
  | @worker r' l w e hx =>
    by_cases hr : r = r'
    · subst hr
      refine List.Sublist.trans ?_ (hi.trans (List.sublist_append_left _ _))
      rw [State.pipeline, State.pipeline, State.trace_worked, if_pos rfl, List.filterMap_append,
        State.worked_workers, Function.update_self, State.worked_mem, Memory.work_cells, if_pos rfl,
        List.append_assoc]
      refine List.Sublist.append_left ?_ _
      have hone : [e].filterMap Effect.sent = e.sent.toList := by
        cases he : e.sent <;> simp [he]
      rw [hone]
      exact hx.pipeline
    · refine still ?_ ?_ ?_
      · rw [State.trace_worked, if_neg hr]
      · rw [State.worked_workers, Function.update_of_ne hr]
      · rw [State.worked_mem, Memory.work_cells, if_neg hr]
  | dropClient _ _ =>
    refine still rfl rfl ?_
    rw [s.clientDropped_mem]
    dsimp only
    split <;> rfl

theorem sends_in_order_delivering :
    ∃ s, Reaches (narrow [accepted "u0"]) delivering s ∧ (s.pipeline 0).map Command.id = ["u1"] ∧
      (s.pipeline 0).Sublist (record (State.step (narrow [accepted "u0"])) (State.handed 0)
        (State.new (narrow [accepted "u0"])) delivering) := by
  obtain ⟨s, h, ho⟩ := reaches_of_play (narrow [accepted "u0"]) delivering
    (fun s => (s.pipeline 0).map Command.id = ["u1"]) (by decide +kernel)
  exact ⟨s, h, of_decide_eq_true ho, sends_in_order h 0⟩

/-! ## Notifications -/

/-- The event a notification stands for, if its parameters are read. -/
def noticed (codec : Codec) (method : String) (params : Value) : List Event :=
  match method with
  | "recv" =>
    match Protocol.recv codec params with
    | .ok m => [.message m]
    | .error _ => []
  | "event" =>
    match Protocol.event codec params with
    | .ok e => [.customEvent e]
    | .error _ => []
  | _ => []

/-- The events a frame stands for: a text that is a message without an id is a notification. -/
def notices (codec : Codec) : Incoming → List Event
  | .text text =>
    match Protocol.parse codec text with
    | .ok v =>
      match v.strField "id", v.strField "method" with
      | none, some method => noticed codec method ((v.get "params").getD .null)
      | _, _ => []
    | .error _ => []
  | _ => []

/-- Events that stand for a notification of the server. -/
def Event.isNotice : Event → Bool
  | .message _ | .customEvent _ => true
  | _ => false

def Effect.notices (codec : Codec) : Effect → List Event
  | .receive _ frame => WukongSdk.notices codec frame
  | _ => []

/-- The notification a phase is about to announce. -/
def Phase.untold : Phase → List Event
  | .supervise (.session (.emit e)) => [e].filter Event.isNotice
  | .supervise (.session (.deliver m)) => [.message m]
  | _ => []

/-- The notification a reaction leads to. -/
def Reaction.untold : Reaction → List Event
  | .emit e => [e].filter Event.isNotice
  | .deliver m => [.message m]
  | _ => []

namespace Session

variable {codec : Codec} {s : Session}

theorem reactAnswer_untold (id : String) (value : Value) : (s.reactAnswer id value).untold = [] := by
  unfold reactAnswer
  repeat' split
  all_goals rfl

theorem reactNotice_untold (method : String) (params : Value) :
    (reactNotice codec method params).untold = noticed codec method params := by
  unfold reactNotice noticed
  split
  · cases hm : Protocol.recv codec params <;> rfl
  · cases he : Protocol.event codec params <;> rfl
  · rfl
  · rfl
  · next hrecv hevent _ _ =>
    split
    · exact absurd rfl hrecv
    · exact absurd rfl hevent
    · rfl

theorem react_untold (text : String) : (s.react codec text).untold = notices codec (.text text) := by
  unfold react
  split
  · next hparse =>
    simp [Reaction.untold, Event.isNotice, notices, hparse]
  · next v hparse =>
    split
    · next hid =>
      simp [reactAnswer_untold, notices, hparse, hid]
    · next method hid hmethod =>
      simp [reactNotice_untold, notices, hparse, hid, hmethod]
    · next hid hmethod =>
      simp [Reaction.untold, Event.isNotice, notices, hparse, hid, hmethod]

end Session

namespace Worker

variable {cfg : Config} {r : RunId} {m : Memory} {w w' : Worker} {i : Input} {e : Effect} {l : Label}

theorem notices_of_react {codec : Codec} {s : Session} {text : String} {reaction : Reaction}
    (h : s.react codec text = reaction) : notices codec (.text text) = reaction.untold := by
  rw [← s.react_untold, h]

attribute [local grind] Phase.untold Reaction.untold Effect.notices Effect.event Event.isNotice
attribute [local grind =] notices

/-- Every access announces what is untold, or takes a frame and owes its notice. -/
theorem next_untold (h : Access cfg r m w i w' e) :
    e.event.toList.filter Event.isNotice ++ w'.phase.untold
      = w.phase.untold ++ e.notices cfg.codec := by
  cases h
  case heardEvent hr | heardPong hr | heardAck hr | heardError hr | heardRecv hr | heardOther hr
      | heardFail hr =>
    have hnotices := notices_of_react hr
    grind -linarith
  all_goals grind -linarith

theorem untold_of_resting (h : w.Resting) (hp : w.polling = false) : w.phase.untold = [] := by
  rcases h hp with ha | ⟨htop, -⟩ | hover
  · cases awaiting_of_awaits ha
    all_goals simp [Phase.untold, *]
  · rw [htop]
    rfl
  · rw [hover]
    rfl

theorem Moves.untold (h : w.Moves cfg r m l w' e) (hrest : w.Resting) :
    e.event.toList.filter Event.isNotice ++ w'.phase.untold
      = w.phase.untold ++ e.notices cfg.codec := by
  cases h with
  | next hp h => exact next_untold h
  | wake hp hq hc | resume hp hq => exact (List.append_nil _).symm
  | cancel hp hq hc =>
    rw [untold_of_resting hrest hp]
    rfl
  | suspend hp hd ha => exact (List.append_nil _).symm

end Worker

/-- What the client received of notifications, by all its workers. -/
def State.noticed (cfg : Config) (s : State) : List Event := s.effects.flatMap (Effect.notices cfg.codec)

/-- Messages and custom events are broadcast in the order in which the frames that carry
them were taken from a socket, each once, and none is made up or left out: all that is not
yet broadcast is the one a worker in the middle of a poll is about to. A subscriber that
falls behind the broadcast loses some of them. -/
theorem notices_in_order {cfg : Config} {labels : List Label} {s : State}
    (h : Reaches cfg labels s) :
    s.stream.filter Event.isNotice ++ s.newest.phase.untold = s.noticed cfg ∧
    ((∀ r, s.alive r → (s.workers r).polling = false) →
      s.stream.filter Event.isNotice = s.noticed cfg) := by
  have hall : s.stream.filter Event.isNotice ++ s.newest.phase.untold = s.noticed cfg := by
    refine h.invariant_along
      (I := fun s => s.stream.filter Event.isNotice ++ s.newest.phase.untold = s.noticed cfg) rfl ?_
    intro _ s l t hreach hi _ hs
    have hl := Lifecycle.of_reaches hreach
    cases State.step_cases hs with
    | tick d => exact hi
    | begin op hh => exact hi
    | @call c i k a hx =>
      rcases s.newest_served c k a with hn | ⟨rfl, hn⟩
      · rw [hn]
        exact hi
      · have hover : s.newest.phase = .over := not_not.mp (State.torn_of_spawn hl hs _)
        rw [hover] at hi
        rw [hn]
        exact hi
    | @worker r l w e hx =>
      have hr := (hx.finish (hl.ended r)).1
      have hone := hx.untold ((Staged.of_reaches hreach).resting r)
      have hadd : (s.worked r w e).stream.filter Event.isNotice
          = s.stream.filter Event.isNotice ++ e.event.toList.filter Event.isNotice := by
        rw [State.stream, State.worked_log, List.filterMap_append, List.filter_append, ← State.stream]
        cases he : e.event <;> simp [he]
      rw [hadd, State.newest_worked hl hr, List.append_assoc, hone, ← State.newest_of_alive hl hr,
        ← List.append_assoc, hi, State.noticed, State.noticed, State.effects, State.effects,
        State.worked_log, List.map_append, List.flatMap_append]
      simp
    | dropClient _ _ =>
      rw [s.newest_clientDropped]
      exact hi
  refine ⟨hall, fun hrest => ?_⟩
  have hpaid : s.newest.phase.untold = [] := by
    by_cases hr : s.alive (s.mem.started - 1)
    · exact Worker.untold_of_resting ((Staged.of_reaches h).resting _) (hrest _ hr)
    · rw [State.newest, not_not.mp hr]
      rfl
  rw [← hall, hpaid, List.append_nil]

/-- A notification with a custom event. -/
def joined : Value :=
  .object [("method", .string "event"), ("params", .object [("data", .null), ("id", .string "7"),
    ("timestamp", .number (.posInt 0)), ("type", .string "joined")])]

/-- The opening, then a custom event that is broadcast, and the next wait. -/
def joining : List Label :=
  List.flatten [opening, [.work 0 (.message (.text (compact joined)))],
    List.replicate 4 (.work 0 .go), [.suspend 0]]

theorem notices_in_order_joining :
    ∃ s, Reaches (sample [accepted "u0", joined]) joining s ∧
      (s.noticed (sample [accepted "u0", joined])).length = 1 ∧
      s.stream.filter Event.isNotice = s.noticed (sample [accepted "u0", joined]) := by
  obtain ⟨s, h, ho⟩ := reaches_of_play (sample [accepted "u0", joined]) joining
    (fun s => (s.noticed (sample [accepted "u0", joined])).length = 1 &&
      s.mem.started = 1 && !(s.workers 0).polling) (by decide +kernel)
  simp only [Bool.and_eq_true, Bool.not_eq_true', decide_eq_true_eq] at ho
  obtain ⟨⟨hone, hstarted⟩, hp⟩ := ho
  refine ⟨s, h, hone, (notices_in_order h).2 fun r hr => ?_⟩
  have hnew := ((Lifecycle.of_reaches h).alive r hr).1
  rw [hstarted] at hnew
  rw [Nat.succ_injective hnew, hp]

end WukongSdk
