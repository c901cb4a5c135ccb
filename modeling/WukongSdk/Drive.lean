import WukongSdk.Lifecycle

/-!
# One part at a time

A worker, or a call, alone with the shared memory. What it does at a list of
inputs is a run of the whole client, so the straight stretches of a run are
worked out here: a login, the way of a command into the queue and out of it.
-/
namespace WukongSdk

/-! ## A worker -/

namespace Worker

/-- A worker alone with its memory, at one input. -/
def drive (cfg : Config) (r : RunId) (x : Memory × Worker) (i : Input) : Option (Memory × Worker) :=
  if x.2.polling then (x.2.next cfg r x.1 i).map fun y => (x.1.work r y.2, y.1) else none

/-- The worker of an established session at its wait, with nothing pending. -/
def waiting (socket nextPing : ℕ) : Worker where
  phase := .supervise (.session .select)
  polling := true
  established := true
  session := ⟨socket, [], nextPing, none⟩

/-- A login that is accepted, with request id `id` and response `text`, from the dial to the
wait of the session. -/
def loggingIn (timestamp : UInt64) (id text : String) : List Input :=
  [.io true, .uuid id, .stamp timestamp, .io true, .message (.text text)] ++ List.replicate 9 .go

/-- The memory once a socket has been authenticated, with request id `id`. -/
def seatedMemory (r : RunId) (m : Memory) (id : String) (result : ConnectResult) : Memory :=
  (((m.work r (.uuid id)).work r .bump).work r (.setConnected true)).work r
    (.setStatus (.ready result))

/-- The memory once the first result of the run is known. -/
def latchedMemory (r : RunId) (m : Memory) (result : ConnectResult) : Memory :=
  if (m.cells r).firstResult.isNone then m.work r (.setFirst (.ok result)) else m

variable {cfg : Config} {r : RunId} {m : Memory} {w w' : Worker} {i : Input} {e : Effect}
  {socket nextPing deadline : ℕ} {timestamp : UInt64} {id text : String} {result : ConnectResult}
  {cmd : Command}

theorem drive_next (hp : w.polling = true) (h : w.next cfg r m i = some (w', e)) :
    exec (drive cfg r) (m, w) [i] = some (m.work r e, w') := by
  simp [exec, drive, hp, h]

theorem authReply_eq {codec : Codec} {value reply : Value}
    (hparse : Protocol.parse codec text = .ok value) (hid : value.strField "id" = some id)
    (hreply : Protocol.response value = .ok reply)
    (hread : Protocol.decode Protocol.readConnectResult reply = .ok result) :
    authReply codec id text = .ok result := by
  simp [authReply, hparse, hid, hreply, hread, bind, Except.bind]

theorem next_reply (hd : w.dropping = none) (hp : w.phase = .supervise (.awaiting deadline id))
    (h : authReply cfg.codec id text = .ok result) :
    w.next cfg r m (.message (.text text)) =
      some ((w.goSupervise (.bump result)).setAttempt true 0, .authenticated result) := by
  simp [next, hd, hp, superviseNext, bounded, h]

theorem drive_first :
    exec (drive cfg r) (m, { waiting socket 0 with phase := .supervise (.first result) })
      (.go :: List.replicate 5 .go) = some
        (latchedMemory r m result, waiting socket (m.clock + cfg.options.pingInterval)) := by
  let w : Worker := { waiting socket 0 with phase := .supervise (.announce result) }
  have hset : exec (drive cfg r) (m, { waiting socket 0 with phase := .supervise (.first result) })
      [.go] = some (latchedMemory r m result, w) := by
    have hnext : Worker.next cfg r m { waiting socket 0 with phase := .supervise (.first result) } .go =
      some (w, if (m.cells r).firstResult.isNone then .setFirst (.ok result) else .skip) := rfl
    rw [drive_next rfl hnext, latchedMemory]
    split <;> rfl
  rw [exec_cons hset, latchedMemory]
  split <;> rfl

theorem drive_loggingIn (hp : w.polling = true) (hd : w.dropping = none) (hid : id ∉ m.uuids)
    (hhello : (cfg.codec.render (Protocol.connect cfg.auth timestamp id)).utf8ByteSize ≤
      cfg.options.maxMessageSize)
    (hreply : authReply cfg.codec id text = .ok result) :
    exec (drive cfg r) (m, w.goSupervise (.dialing deadline)) (loggingIn timestamp id text) = some
      (latchedMemory r (seatedMemory r m id result) result,
        waiting (m.sockets + 1) (m.clock + cfg.options.pingInterval)) := by
  obtain ⟨phase, polling, established, attempt, session, dropping⟩ := w
  subst hp hd
  let w : Worker := ⟨phase, true, established, attempt, session, none⟩
  have huuid : exec (drive cfg r) (m, w.goSupervise (.opened deadline)) [.uuid id] =
      some (m.work r (.uuid id), w.goSupervise (.hello deadline id)) :=
    drive_next rfl (if_neg hid)
  have hstamp : exec (drive cfg r) (m.work r (.uuid id), w.goSupervise (.hello deadline id))
      [.stamp timestamp] = some (m.work r (.uuid id), w.goSupervise (.greeting deadline id)) :=
    drive_next rfl (e := .login _) (if_neg (not_lt.mpr hhello))
  have hmessage : exec (drive cfg r) (m.work r (.uuid id), w.goSupervise (.awaiting deadline id))
      [.message (.text text)] = some (m.work r (.uuid id),
        (w.goSupervise (.bump result)).setAttempt true 0) :=
    drive_next rfl (e := .authenticated result) (next_reply rfl rfl hreply)
  rw [show loggingIn timestamp id text = [.io true] ++ ([.uuid id] ++ ([.stamp timestamp] ++
      ([.io true] ++ ([.message (.text text)] ++ (List.replicate 3 .go ++
        (.go :: List.replicate 5 .go)))))) from rfl,
    exec_append (t := (m, w.goSupervise (.opened deadline))) rfl, exec_append huuid,
    exec_append hstamp,
    exec_append (t := (m.work r (.uuid id), w.goSupervise (.awaiting deadline id))) rfl,
    exec_append hmessage, exec_append (t := (seatedMemory r m id result,
      { waiting (m.sockets + 1) 0 with phase := .supervise (.first result) })) rfl]
  exact drive_first

/-- The worker takes the one command of its queue up to the insertion. -/
theorem drive_taking (hcmd : (m.cells r).commands = [cmd])
    (hreply : (m.replies cmd.reply).abandoned = false) (hgen : cmd.generation = m.generation)
    (hdeadline : m.clock < cmd.deadline) :
    exec (drive cfg r) (m, waiting socket nextPing) (.command :: List.replicate 3 .go) =
      some (m.work r .dequeue, (waiting socket nextPing).goSession (.insert cmd)) := by
  have hdequeue : exec (drive cfg r) (m, waiting socket nextPing) [.command] =
      some (m.work r .dequeue, (waiting socket nextPing).goSession (.received cmd)) :=
    drive_next rfl (by simp [next, waiting, superviseNext, sessionNext, hcmd])
  have hreceived : exec (drive cfg r)
      (m.work r .dequeue, (waiting socket nextPing).goSession (.received cmd)) [.go] =
      some (m.work r .dequeue, (waiting socket nextPing).goSession (.fresh cmd)) :=
    drive_next rfl (e := .skip) (if_neg (by simpa [Memory.work, Memory.modify] using hreply))
  have hfresh : exec (drive cfg r)
      (m.work r .dequeue, (waiting socket nextPing).goSession (.fresh cmd)) [.go] =
      some (m.work r .dequeue, (waiting socket nextPing).goSession (.timely cmd)) :=
    drive_next rfl (e := .skip) (if_neg (not_not.mpr hgen))
  have htimely : exec (drive cfg r)
      (m.work r .dequeue, (waiting socket nextPing).goSession (.timely cmd)) [.go] =
      some (m.work r .dequeue, (waiting socket nextPing).goSession (.insert cmd)) :=
    drive_next rfl (e := .skip) (if_neg (not_le.mpr hdeadline))
  rw [exec_cons hdequeue, List.replicate_succ, exec_cons hreceived, List.replicate_succ,
    exec_cons hfresh]
  exact htimely

/-- A command that fits is inserted and written. -/
theorem next_insert
    (hsize : (cfg.codec.render (Wire.send cmd).value).utf8ByteSize ≤ cfg.options.maxMessageSize) :
    ((waiting socket nextPing).goSession (.insert cmd)).next cfg r m .go =
      some (((waiting socket nextPing).put ⟨socket, [cmd.entry], nextPing, none⟩).goSession
        (.writing none), .write socket (.send cmd)) := by
  simp [next, waiting, superviseNext, sessionNext, write, not_lt.mpr hsize]

end Worker

/-! ## A call -/

/-- The client is connected through run `r`, with room in its queue. -/
structure Memory.Receptive (cfg : Config) (r : RunId) (m : Memory) : Prop where
  connected : m.connected = true
  running : m.running = some r
  lock : m.lock = none
  slots : 0 < m.slots
  closed : (m.cells r).closed = false
  room : (m.cells r).commands.length < cfg.options.maxInFlight

namespace SendPhase

variable {cfg : Config} {c : CallId} {r : RunId} {args : SendArgs} {m : Memory} {p p' : SendPhase}
  {i : CallInput} {a : Act} {g : UInt64} {cmd : Command}

/-- A send call alone with the memory, at one input. -/
def drive (cfg : Config) (c : CallId) (args : SendArgs) (x : Memory × SendPhase) (i : CallInput) :
    Option (Memory × SendPhase) :=
  (x.2.next cfg c x.1 args i).map fun y => (x.1.serve c y.2, y.1)

/-- From the read of the generation until the command is in the queue. -/
def handing (id msgNo : String) : List CallInput := [.go, .ids id msgNo] ++ List.replicate 4 .go

/-- The memory once call `c` has handed `cmd` over to run `r`. -/
def handedMemory (r : RunId) (c : CallId) (m : Memory) (cmd : Command) : Memory :=
  ((((m.serve c .acquire).serve c (.uuid cmd.id)).serve c .lock).serve c (.enqueue r cmd)).serve c
    .unlock

theorem drive_next (h : p.next cfg c m args i = some (p', a)) :
    exec (drive cfg c args) (m, p) [i] = some (m.serve c a, p') := by
  simp [exec, drive, h]

theorem next_ne_spawn (h : p.next cfg c m args i = some (p', a)) : a ≠ .spawn := by
  revert h
  fun_cases next cfg c m args i p <;> grind -linarith

theorem build_eq {id msgNo : String} {params : Value}
    (hsend : Protocol.send cfg.codec args.channel args.channelType args.payload args.options msgNo =
      .ok params)
    (hfits : (cfg.codec.render (Protocol.request "send" params id)).utf8ByteSize ≤
      cfg.options.maxMessageSize) :
    build cfg m args c g id msgNo =
      .ok ⟨g, id, params, m.clock + cfg.options.requestTimeout, c⟩ := by
  simp only [build, hsend, bind, Except.bind, if_neg (not_lt.mpr hfits)]
  rfl

theorem drive_handing {msgNo : String} (h : m.Receptive cfg r) (hid : cmd.id ∉ m.uuids)
    (hbuild : build cfg (m.serve c .acquire) args c g cmd.id msgNo = .ok cmd) :
    exec (drive cfg c args) (m, .acquire g) (handing cmd.id msgNo) =
      some (handedMemory r c m cmd, .wait r cmd) := by
  let m₁ := (m.serve c .acquire).serve c (.uuid cmd.id)
  have hacquire : exec (drive cfg c args) (m, .acquire g) [.go] =
      some (m.serve c .acquire, .prepare g) := drive_next (if_neg h.slots.ne')
  have hprepare : exec (drive cfg c args) (m.serve c .acquire, .prepare g) [.ids cmd.id msgNo] =
      some (m₁, .lock cmd) := by
    have hfresh : cmd.id ∉ (m.serve c .acquire).uuids := hid
    exact drive_next (by simp [next, hbuild, hfresh])
  have hlock : exec (drive cfg c args) (m₁, .lock cmd) [.go] = some (m₁.serve c .lock, .recheck cmd) :=
    drive_next (if_pos (by rw [show m₁.lock = none from h.lock]; rfl))
  have hrecheck : exec (drive cfg c args) (m₁.serve c .lock, .recheck cmd) [.go] =
      some (m₁.serve c .lock, .enqueue cmd) := drive_next (a := .skip) (if_pos h.connected)
  have henqueue : exec (drive cfg c args) (m₁.serve c .lock, .enqueue cmd) [.go] =
      some ((m₁.serve c .lock).serve c (.enqueue r cmd), .unlock r cmd) := by
    have hroom : ((m₁.serve c .lock).cells r).commands.length < cfg.options.maxInFlight := h.room
    refine drive_next ?_
    simp [next, show (m₁.serve c .lock).running = some r from h.running,
      show ((m₁.serve c .lock).cells r).closed = false from h.closed, hroom]
  rw [show handing cmd.id msgNo = [.go] ++ ([.ids cmd.id msgNo] ++ ([.go] ++ ([.go] ++ ([.go] ++
      [.go])))) from rfl, exec_append hacquire, exec_append hprepare, exec_append hlock,
    exec_append hrecheck, exec_append henqueue]
  rfl

end SendPhase

/-! ## The client -/

namespace State

variable {cfg : Config} {s : State} {r : RunId} {c : CallId} {m : Memory}

theorem step_work {w : Worker} {e : Effect} {i : Input} (hp : (s.workers r).polling = true)
    (h : (s.workers r).next cfg r s.mem i = some (w, e)) :
    s.step cfg (.work r i) = some (s.worked r w e) := by
  simp [State.step, hp, h]

theorem run_drive {w : Worker} {inputs : List Input}
    (h : exec (Worker.drive cfg r) (s.mem, s.workers r) inputs = some (m, w)) :
    ∃ t, Run (State.step cfg) (fun _ _ => True) s (inputs.map (.work r)) t ∧ t.mem = m ∧
      t.workers r = w ∧ t.calls = s.calls := by
  induction inputs generalizing s with
  | nil =>
    cases h
    exact ⟨s, .nil s, rfl, rfl, rfl⟩
  | cons i inputs ih =>
    rw [exec, List.foldlM_cons] at h
    obtain ⟨⟨m', w'⟩, hi, hrest⟩ := Option.bind_eq_some_iff.mp h
    simp only [Worker.drive, Option.ite_none_right_eq_some, Option.map_eq_some_iff,
      Prod.mk.injEq] at hi
    obtain ⟨hp, ⟨w'', e⟩, hnext, rfl, rfl⟩ := hi
    have hstep : s.step cfg (.work r i) = some (s.worked r w'' e) := step_work hp hnext
    have hrest' : exec (Worker.drive cfg r) ((s.worked r w'' e).mem,
        (s.worked r w'' e).workers r) inputs =
      some (m, w) := by simpa [exec] using hrest
    obtain ⟨t, ht, hm, hw, hc⟩ := ih hrest'
    exact ⟨t, (Run.single trivial hstep).append ht, hm, hw, hc⟩

theorem run_drive_send {args : SendArgs} {p p' : SendPhase} {inputs : List CallInput}
    (hp : s.calls c = .send args p)
    (h : exec (SendPhase.drive cfg c args) (s.mem, p) inputs = some (m, p')) :
    ∃ t, Run (State.step cfg) (fun _ _ => True) s (inputs.map (.call c)) t ∧ t.mem = m ∧
      t.workers = s.workers ∧ t.calls c = .send args p' := by
  induction inputs generalizing s p with
  | nil =>
    cases h
    exact ⟨s, .nil s, rfl, rfl, hp⟩
  | cons i inputs ih =>
    rw [exec, List.foldlM_cons] at h
    obtain ⟨⟨m', q⟩, hi, hrest⟩ := Option.bind_eq_some_iff.mp h
    simp only [SendPhase.drive, Option.map_eq_some_iff, Prod.mk.injEq] at hi
    obtain ⟨⟨q', a⟩, hnext, rfl, rfl⟩ := hi
    have hstep : s.step cfg (.call c i) = some (s.served c (.send args q') a) := by
      simp [State.step, hp, Call.next, hnext]
    have hworkers : s.spawnWorker a = s.workers := by
      cases a <;> first | rfl | exact absurd rfl (SendPhase.next_ne_spawn hnext)
    obtain ⟨t, ht, hm, hw, hc⟩ := ih (s := s.served c (.send args q') a) (by simp) hrest
    exact ⟨t, (Run.single trivial hstep).append ht, hm, hw.trans hworkers, hc⟩

end State

end WukongSdk
