import WukongSdk.Calls
import WukongSdk.Runs

/-!
# The client as one system

Any number of calls on any number of clones, interleaved with the workers. A
label names the party that moves and what the environment supplies; the step
function is partial where the party is blocked.
-/
namespace WukongSdk

/-- `log` keeps every access of every worker; `handles` tells whether some
clone of the client is left. -/
structure State where
  mem : Memory
  workers : RunId → Worker := fun _ => {}
  calls : CallId → Call := fun _ => .idle
  begun : ℕ := 0
  handles : Bool := true
  log : List (RunId × Effect) := []

inductive Label where
  | tick (d : ℕ)
  | begin (op : Operation)
  | call (c : CallId) (i : CallInput)
  | poll (r : RunId)
  | suspend (r : RunId)
  | work (r : RunId) (i : Input)
  | dropClient

namespace State

/-- `Client::new`. -/
def new (cfg : Config) : State := { mem := { slots := cfg.options.maxInFlight } }

def ticked (s : State) (d : ℕ) : State :=
  { s with mem := { s.mem with clock := s.mem.clock + d } }

/-- A new call is started, with the next number. -/
def called (s : State) (op : Operation) : State :=
  { s with calls := Function.update s.calls s.begun op.call, begun := s.begun + 1 }

/-- A worker has moved to `w` performing `e`. -/
def worked (s : State) (r : RunId) (w : Worker) (e : Effect) : State :=
  { s with
    mem := s.mem.work r e
    workers := Function.update s.workers r w
    log := s.log ++ [(r, e)] }

/-- The task a spawn creates. -/
def spawnWorker (s : State) : Act → (RunId → Worker)
  | .spawn => Function.update s.workers s.mem.started .spawned
  | _ => s.workers

/-- Call `c` has moved to `k` performing `a`. -/
def served (s : State) (c : CallId) (k : Call) (a : Act) : State :=
  { s with
    mem := s.mem.serve c a
    workers := s.spawnWorker a
    calls := Function.update s.calls c k }

/-- `Inner::drop`, when the last clone goes: no call can be in progress. -/
def clientDropped (s : State) : State :=
  { s with
    mem := match s.mem.running with
      | some r => { s.mem.modify r fun x => { x with cancelled := true } with running := none }
      | none => s.mem
    handles := false }

def step (cfg : Config) (s : State) : Label → Option State
  | .tick d => some (s.ticked d)
  | .begin op =>
    if s.handles then some (s.called op) else none
  | .call c i => ((s.calls c).next cfg c s.mem i).map fun x => s.served c x.1 x.2
  | .poll r => ((s.workers r).poll r s.mem).map fun x => s.worked r x.1 x.2
  | .suspend r => ((s.workers r).suspend).map fun x => s.worked r x.1 x.2
  | .work r i =>
    if (s.workers r).polling then
      ((s.workers r).next cfg r s.mem i).map fun x => s.worked r x.1 x.2
    else none
  | .dropClient =>
    if s.handles ∧ ∀ c < s.begun, (s.calls c).settled = true then some s.clientDropped else none

/-- What the worker of run `r` has done so far, in order. -/
def trace (s : State) (r : RunId) : List Effect :=
  s.log.filterMap fun x => if x.1 = r then some x.2 else none

/-- The worker task of `r` has not finished. -/
def alive (s : State) (r : RunId) : Prop := (s.workers r).phase ≠ .over

end State

/-- The runs of the client built with `cfg`, from `Client::new` on. -/
abbrev Reaches (cfg : Config) (labels : List Label) (s : State) : Prop :=
  Run (State.step cfg) (fun _ _ => True) (State.new cfg) labels s

/-! ## A client that runs

A codec for the few frames of a scripted peer: compact JSON text for values
whose strings need no escape. -/

mutual

def compact : Value → String
  | .null => "null"
  | .bool b => toString b
  | .number (.posInt n) => toString n.toNat
  | .number (.negInt n) => toString n.toInt
  | .number (.float _) => "0.0"
  | .string s => "\"" ++ s ++ "\""
  | .array items => "[" ++ compactItems items ++ "]"
  | .object fields => "\x7b" ++ compactFields fields ++ "\x7d"

def compactItems : List Value → String
  | [] => ""
  | [v] => compact v
  | v :: rest => compact v ++ "," ++ compactItems rest

def compactFields : List (String × Value) → String
  | [] => ""
  | [(key, v)] => "\"" ++ key ++ "\":" ++ compact v
  | (key, v) :: rest => "\"" ++ key ++ "\":" ++ compact v ++ "," ++ compactFields rest

end

/-- A client whose peer sends `frames`, with the default options. The one
payload it encodes is the empty object. -/
def sample (frames : List Value) : Config where
  codec :=
    { fromStr := fun text => frames.find? fun v => compact v = text
      fromSlice := fun _ => none
      toVec := fun v => some (compact v).toUTF8
      render := compact
      encode := fun bytes => if bytes = "\x7b\x7d".toUTF8 then "e30=" else ""
      decode := fun _ => none }
  auth := ⟨"alice", "token", "device", .desktop⟩
  options := Options.default

/-- The response to request `id` that reports success. -/
def accepted (id : String) : Value :=
  .object [("id", .string id), ("result", .object [("reasonCode", .number (.posInt 1))])]

/-- The first call connects, up to the first wait of the session of its run. -/
def opening : List Label :=
  List.flatten [[.begin (.connect true)], List.replicate 4 (.call 0 .go),
    [.poll 0, .work 0 .go, .work 0 (.io true), .work 0 (.uuid "u0"), .work 0 (.stamp 0),
      .work 0 (.io true), .work 0 (.message (.text (compact (accepted "u0"))))],
    List.replicate 9 (.work 0 .go)]

/-- The opening, then a second call that sends and waits for its reply. -/
def sending : List Label :=
  List.flatten [opening, [.begin (.send ⟨"bob", 1, .object [], {}⟩)],
    List.replicate 4 (.call 1 .go), [.call 1 (.ids "u1" "m1")], List.replicate 4 (.call 1 .go)]

/-- The state a script leads to, if no step is blocked and all pass the check. -/
def play (cfg : Config) (check : State → Label → Bool) (labels : List Label) : Option State :=
  exec (fun s l => if check s l then s.step cfg l else none) (State.new cfg) labels

theorem run_of_play (cfg : Config) {ok : State → Label → Prop} (check : State → Label → Bool)
    (hcheck : ∀ s l, check s l = true → ok s l) (labels : List Label) (obs : State → Bool)
    (h : (play cfg check labels).any obs = true) :
    ∃ s, Run (State.step cfg) ok (State.new cfg) labels s ∧ obs s = true := by
  obtain ⟨s, hs, ho⟩ := (Option.any_eq_true _ _).mp h
  exact ⟨s, Run.of_checked hcheck hs, ho⟩

theorem reaches_of_play (cfg : Config) (labels : List Label) (obs : State → Bool)
    (h : (play cfg (fun _ _ => true) labels).any obs = true) :
    ∃ s, Reaches cfg labels s ∧ obs s = true :=
  run_of_play cfg (fun _ _ => true) (fun _ _ _ => trivial) labels obs h

/-- A script cut in two, with a condition on the second part. -/
theorem runs_of_play (cfg : Config) {ok : State → Label → Prop} (check : State → Label → Bool)
    (hcheck : ∀ s l, check s l = true → ok s l) (labels labels' : List Label)
    (obs : State → State → Bool)
    (h : (play cfg (fun _ _ => true) labels).any (fun s =>
      (exec (fun s l => if check s l then s.step cfg l else none) s labels').any (obs s)) = true) :
    ∃ s t, Reaches cfg labels s ∧ Run (State.step cfg) ok s labels' t ∧ obs s t = true := by
  obtain ⟨s, hs, ho⟩ := reaches_of_play cfg labels _ h
  obtain ⟨t, ht, ho⟩ := (Option.any_eq_true _ _).mp ho
  exact ⟨s, t, hs, Run.of_checked hcheck ht, ho⟩

end WukongSdk
