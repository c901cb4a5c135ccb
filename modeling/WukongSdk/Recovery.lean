import WukongSdk.Backoff
import WukongSdk.Dispatch
import WukongSdk.Returns

/-!
# No state is a dead end

Whatever its runs and calls have been through, a client that is not destroyed can
be disconnected, connected anew and made to deliver, if the peer answers. All
calls return, the run is torn down, and the next three calls succeed.
-/
namespace WukongSdk

/-- A login and a SEND that the peer accepts: the ids under which they are written and the
texts it answers with, which the client reads as a success. -/
structure Exchange (cfg : Config) (args : SendArgs) where
  loginId : String
  timestamp : UInt64
  welcome : String
  result : ConnectResult
  sendId : String
  msgNo : String
  params : Value
  receipt : String
  reply : Value
  ack : SendResult
  distinct : sendId ≠ loginId
  login_fits : (cfg.codec.render (Protocol.connect cfg.auth timestamp loginId)).utf8ByteSize ≤
    cfg.options.maxMessageSize
  welcomed : Worker.authReply cfg.codec loginId welcome = .ok result
  built : Protocol.send cfg.codec args.channel args.channelType args.payload args.options msgNo =
    .ok params
  send_fits : (cfg.codec.render (Protocol.request "send" params sendId)).utf8ByteSize ≤
    cfg.options.maxMessageSize
  parsed : Protocol.parse cfg.codec receipt = .ok reply
  answers : reply.strField "id" = some sendId
  acknowledged : (Protocol.response reply).bind (Protocol.decode Protocol.readSendResult) = .ok ack

/-- No future and no handle is dropped, nobody destroys the client, and all that a peer says
is to welcome the login and to acknowledge the SEND. -/
def Exchange.Devoted {cfg : Config} {args : SendArgs} (x : Exchange cfg args) : Label → Prop
  | .call _ i => i.patient = true
  | .work _ (.message frame) => frame = .text x.welcome ∨ frame = .text x.receipt
  | .begin .destroy | .dropClient => False
  | _ => True

/-- No operation begins, and no handle is dropped. -/
def Label.resumes : Label → Bool
  | .begin _ | .dropClient => false
  | _ => true

theorem Exchange.devoted_of_patient {cfg : Config} {args : SendArgs} (x : Exchange cfg args)
    {l : Label} (h : l.patient = true) : x.Devoted l := by
  cases l with
  | begin _ | dropClient => cases h
  | call c i => exact h
  | work r i =>
    cases i with
    | message frame => cases h
    | _ => trivial
  | _ => trivial

theorem Label.resumes_of_patient {l : Label} (h : l.patient = true) : l.resumes = true := by
  cases l <;> first | rfl | cases h

/-- A `destroy` that is about to set its flag. -/
def Call.dooms : Call → Bool
  | .disconnect _ .mark => true
  | _ => false

attribute [local simp] Call.dooms

theorem Call.Moves.undoomed {cfg : Config} {c : CallId} {m : Memory} {i : CallInput} {k k' : Call}
    {a : Act} (h : k.Moves cfg c m i k' a) :
    k'.dooms = false ∧ (a = .destroy → k.dooms = true) ∧
      ∀ id, a = .uuid id → ∃ msgNo, i = .ids id msgNo := by
  cases h with
  | @send args p p' a h =>
    revert h
    fun_cases SendPhase.next cfg c m args i p
    all_goals first | (rintro ⟨⟩; done) | (rintro ⟨⟩; simp)
  | @connect rt p p' a h =>
    revert h
    fun_cases ConnectPhase.next m rt i p
    all_goals first | (rintro ⟨⟩; done) | (rintro ⟨⟩; simp)
  | @disconnect d p p' a h =>
    revert h
    fun_cases DisconnectPhase.next m i p
    all_goals first | (rintro ⟨⟩; done) | (rintro ⟨⟩; simp)

theorem Worker.next_uuid {cfg : Config} {r : RunId} {m : Memory} {w w' : Worker} {i : Input}
    {id : String} (h : Access cfg r m w i w' (.uuid id)) : i = .uuid id := by
  cases h
  all_goals grind -linarith

/-- A client with a handle after `n` calls, which nobody has destroyed or is about to, and which
has drawn none of `ids`. -/
structure Usable (cfg : Config) (ids : List String) (n : ℕ) (s : State) : Prop where
  reachable : Reachable cfg s
  handles : s.handles = true
  begun : s.begun = n
  lasting : s.mem.destroyed = false
  undoomed : ∀ c, (s.calls c).dooms = false
  fresh : ∀ id ∈ ids, id ∉ s.mem.uuids

namespace Usable

variable {cfg : Config} {ids : List String} {n : ℕ} {s t : State} {l : Label} {c : CallId} {r : RunId}
  {labels : List Label}

theorem called {op : Operation} (h : Usable cfg ids n s) (hop : op.call.dooms = false) :
    Usable cfg ids (n + 1) (s.called op) where
  reachable := h.reachable.step (l := .begin op) (if_pos h.handles)
  handles := h.handles
  begun := congrArg (· + 1) h.begun
  lasting := h.lasting
  undoomed c := by
    by_cases hc : c = s.begun
    · rw [hc, State.called_calls, Function.update_self]
      exact hop
    · rw [State.called_calls, Function.update_of_ne hc]
      exact h.undoomed c
  fresh := h.fresh

theorem step (h : Usable cfg ids n s) (hl : l.resumes = true) (hspare : l.spares ids)
    (hs : s.step cfg l = some t) : Usable cfg ids n t := by
  have hreach := h.reachable.step hs
  cases State.step_cases hs with
  | tick d => exact ⟨hreach, h.handles, h.begun, h.lasting, h.undoomed, h.fresh⟩
  | begin _ _ | dropClient _ _ => cases hl
  | @call c i k a hx =>
    obtain ⟨hdooms, hdestroy, huuid⟩ := hx.undoomed
    refine ⟨hreach, h.handles, h.begun, ?_, fun c' => ?_, fun id hid hdrawn => ?_⟩
    · have hne : a ≠ .destroy := fun ha => by
        have hk := hdestroy ha
        rw [h.undoomed c] at hk
        cases hk
      have hsame : (s.mem.serve c a).destroyed = s.mem.destroyed := by
        cases a <;> first | rfl | exact absurd rfl hne
      exact hsame.trans h.lasting
    · by_cases hc : c' = c
      · rw [hc, State.served_calls, Function.update_self]
        exact hdooms
      · rw [State.served_calls, Function.update_of_ne hc]
        exact h.undoomed c'
    · rcases (Distinct.serve_uuids ..).1 hdrawn with hold | ha
      · exact h.fresh id hid hold
      · obtain ⟨msgNo, rfl⟩ := huuid id ha
        exact hspare hid
  | @worker r l w e hx =>
    refine ⟨hreach, h.handles, h.begun, (s.mem.work_destroyed ..).trans h.lasting, h.undoomed,
      fun id hid hdrawn => ?_⟩
    rcases (Distinct.work_uuids ..).1 hdrawn with hold | rfl
    · exact h.fresh id hid hold
    · cases hx with
      | next hp hn =>
        obtain rfl := Worker.next_uuid hn
        exact hspare hid

theorem go (h : Usable cfg ids n s) (hs : s.step cfg (.call c .go) = some t) : Usable cfg ids n t :=
  h.step (l := .call c .go) rfl trivial hs

theorem run {ok : State → Label → Prop} (h : Usable cfg ids n s)
    (hrun : Run (State.step cfg) ok s labels t)
    (hl : ∀ l ∈ labels, l.resumes = true ∧ l.spares ids) : Usable cfg ids n t :=
  (hrun.confine hl).invariant (I := Usable cfg ids n) h fun _ _ _ hi hok hs => hi.step hok.1 hok.2 hs

theorem mono {ids' : List String} (h : Usable cfg ids n s) (hsub : ids' ⊆ ids) :
    Usable cfg ids' n s :=
  ⟨h.reachable, h.handles, h.begun, h.lasting, h.undoomed, fun id hid => h.fresh id (hsub hid)⟩

end Usable

namespace State

variable {cfg : Config} {ids : List String} {n : ℕ} {s t : State} {l : Label} {c : CallId} {r : RunId}
  {labels : List Label}

/-- A call that has returned stays as it is. -/
theorem returned_step {k : Call} (hk : k.settled = true) (h : c < s.begun ∧ s.calls c = k)
    (hs : s.step cfg l = some t) : c < t.begun ∧ t.calls c = k := by
  obtain ⟨hlt, hc⟩ := h
  cases State.step_cases hs with
  | tick d => exact ⟨hlt, hc⟩
  | begin op hh =>
    refine ⟨Nat.lt_succ_of_lt hlt, ?_⟩
    rw [called_calls, Function.update_of_ne hlt.ne, hc]
  | @call c' i k' a hx =>
    refine ⟨hlt, ?_⟩
    have hne : c ≠ c' := by
      rintro rfl
      have hmoves := hx.unsettled
      rw [hc, hk] at hmoves
      cases hmoves
    rw [served_calls, Function.update_of_ne hne, hc]
  | worker hx => exact ⟨hlt, hc⟩
  | dropClient _ _ => exact ⟨hlt, hc⟩

/-- Calls that have returned stay so. -/
theorem settled_step (h : ∀ c < n, c < s.begun ∧ (s.calls c).settled = true)
    (hs : s.step cfg l = some t) : ∀ c < n, c < t.begun ∧ (t.calls c).settled = true := by
  intro c hc
  obtain ⟨hlt, hset⟩ := h c hc
  obtain ⟨hlt', hsame⟩ := returned_step hset ⟨hlt, rfl⟩ hs
  exact ⟨hlt', hsame ▸ hset⟩

/-- With all calls returned nobody holds the mutex. -/
theorem unlocked (h : Reachable cfg s) (hset : ∀ c, (s.calls c).settled = true) :
    s.mem.lock = none := by
  obtain ⟨labels, h⟩ := h
  by_contra hlock
  obtain ⟨c, hc⟩ := Option.ne_none_iff_exists'.mp hlock
  have hholds := ((Lifecycle.of_reaches h).lock c).1 hc
  rw [Call.holdsLock_of_settled (hset c)] at hholds
  cases hholds

/-- All calls have returned and no run is left in the mutex. -/
structure Vacant (s : State) : Prop where
  settled : ∀ c, (s.calls c).settled = true
  running : s.mem.running = none

theorem vacant_of_cleared (hset : ∀ c' ≠ c, (s.calls c').settled = true) :
    (s.served c (.disconnect false .done) .clear).Vacant where
  settled c' := by
    by_cases hc : c' = c
    · rw [hc, served_calls, Function.update_self]
      rfl
    · rw [served_calls, Function.update_of_ne hc]
      exact hset c' hc
  running := rfl

end State

namespace Usable

variable {cfg : Config} {ids : List String} {n : ℕ} {s : State} {args : SendArgs}

/-- All calls return, and the client is as usable as before. -/
theorem settles (x : Exchange cfg args) (h : Usable cfg ids n s) :
    Attains (State.step cfg) (fun _ l => x.Devoted l)
      (fun t => Usable cfg ids n t ∧ ∀ c, (t.calls c).settled = true) s := by
  have hreturn : Attains (State.step cfg) (fun _ l => l.patient = true ∧ l.spares ids)
    (fun t => ∀ c, (t.calls c).settled = true) s := State.calls_return h.reachable
  refine ((hreturn.keep (I := Usable cfg ids n) h fun _ _ _ hi hok hs => ?_).weaken
    fun _ _ hok => x.devoted_of_patient hok.1).mono fun t ht => ⟨ht.2, ht.1⟩
  exact hi.step (Label.resumes_of_patient hok.1) hok.2 hs

/-- A disconnect tears down the run, if there is one. -/
theorem clears (x : Exchange cfg args) (h : Usable cfg ids n s)
    (hset : ∀ c, (s.calls c).settled = true) :
    Attains (State.step cfg) (fun _ l => x.Devoted l)
      (fun t => Usable cfg ids (n + 1) t ∧ t.Vacant ∧ t.calls n = .disconnect false .done) s := by
  let s₁ := s.called .disconnect
  let s₂ := s₁.served n (.disconnect false .cancel) .lock
  have hs₁ : s.step cfg (.begin .disconnect) = some s₁ := if_pos h.handles
  have hs₂ : s₁.step cfg (.call n .go) = some s₂ := by
    simp [State.step, s₁, s₂, h.begun, Operation.call, Call.next, DisconnectPhase.next,
      State.unlocked h.reachable hset]
  have hu₁ : Usable cfg ids (n + 1) s₁ := h.called rfl
  have hu₂ : Usable cfg ids (n + 1) s₂ := hu₁.go hs₂
  have hother₂ : ∀ c ≠ n, s₂.calls c = s.calls c := fun c hc => by
    simp [s₂, s₁, h.begun, Function.update_of_ne hc]
  refine .of_step (l := .begin .disconnect) trivial hs₁ (.of_step (l := .call n .go) rfl hs₂ ?_)
  cases hrunning : s.mem.running with
  | none =>
    have hs₃ : s₂.step cfg (.call n .go) = some (s₂.served n (.disconnect false .done) .clear) := by
      simp [State.step, s₂, Call.next, DisconnectPhase.next, Memory.serve, s₁, hrunning]
    refine .single (l := .call n .go) rfl hs₃ ⟨hu₂.go hs₃,
      State.vacant_of_cleared fun c hc => ?_, by simp⟩
    rw [hother₂ c hc]
    exact hset c
  | some r =>
    let s₃ := s₂.served n (.disconnect false (.join r)) (.cancel r)
    have hs₃ : s₂.step cfg (.call n .go) = some s₃ := by
      simp [State.step, s₂, s₃, Call.next, DisconnectPhase.next, Memory.serve, s₁, hrunning]
    have hu₃ : Usable cfg ids (n + 1) s₃ := hu₂.go hs₃
    have hfinish : Attains (State.step cfg) (fun _ l => l.unattended = true ∧ l.spares ids)
        (fun t => s₃.Aside t ∧ (t.mem.cells r).finished = true) s₃ :=
      State.cancelled_run_finishes hu₃.reachable (by simp [s₃, Memory.serve, Memory.modify])
    refine .of_step (l := .call n .go) rfl hs₃ (((hfinish.keep (I := Usable cfg ids (n + 1)) hu₃
      fun _ _ _ hi hok hs => ?_).weaken fun _ _ hok =>
        x.devoted_of_patient (Label.patient_of_unattended hok.1)).bind ?_)
    · exact hi.step (Label.resumes_of_patient (Label.patient_of_unattended hok.1)) hok.2 hs
    · rintro t ⟨⟨haside, hf⟩, ht⟩
      have hs₄ : t.step cfg (.call n .go) = some (t.served n (.disconnect false .done) .clear) := by
        simp [State.step, haside.calls, s₃, Call.next, DisconnectPhase.next, hf]
      refine .single (l := .call n .go) rfl hs₄ ⟨ht.go hs₄,
        State.vacant_of_cleared fun c hc => ?_, by simp⟩
      rw [haside.calls, State.served_calls, Function.update_of_ne hc, hother₂ c hc]
      exact hset c

end Usable

/-! ## A run that logs in -/

namespace Worker

/-- The first attempt of a run succeeds, with request id `id` and response `text`. -/
def admitting (timestamp : UInt64) (id text : String) : List Input :=
  .go :: loggingIn timestamp id text

/-- The memory once the first result of the run is known. -/
def admittedMemory (r : RunId) (m : Memory) (id : String) (result : ConnectResult) : Memory :=
  (seatedMemory r m id result).work r (.setFirst (.ok result))

theorem drive_admitting {cfg : Config} {r : RunId} {m : Memory} {timestamp : UInt64}
    {id text : String} {result : ConnectResult} (hid : id ∉ m.uuids)
    (hhello : (cfg.codec.render (Protocol.connect cfg.auth timestamp id)).utf8ByteSize ≤
      cfg.options.maxMessageSize)
    (hreply : authReply cfg.codec id text = .ok result)
    (hfirst : (m.cells r).firstResult = none) :
    exec (drive cfg r) (m, spawned.setPolling true) (admitting timestamp id text) = some
      (admittedMemory r m id result,
        waiting (m.sockets + 1) (m.clock + cfg.options.pingInterval)) := by
  have hdial : exec (drive cfg r) (m, spawned.setPolling true) [.go] = some
      (m, (spawned.setPolling true).goSupervise (.dialing (m.clock + cfg.options.connectTimeout))) :=
    rfl
  have hopen : ((seatedMemory r m id result).cells r).firstResult.isNone = true := by
    simpa [seatedMemory, Memory.work_cells, Effect.onCells] using hfirst
  rw [admitting, exec_cons hdial, drive_loggingIn rfl rfl hid hhello hreply, latchedMemory, hopen]
  rfl

end Worker

/-- Run `r` waits in its session, with nothing queued, and takes what it is handed. -/
structure State.Open (cfg : Config) (r : RunId) (s : State) : Prop where
  worker : ∃ socket due, s.workers r = .waiting socket due
  receptive : s.mem.Receptive cfg r
  commands : (s.mem.cells r).commands = []

/-- Once a call to connect has started a run. -/
def Memory.spawned (m : Memory) : Memory :=
  { m with
    lock := none
    running := some m.started
    started := m.started + 1
    cells := Function.update m.cells m.started {} }

namespace Exchange

variable {cfg : Config} {args : SendArgs} (x : Exchange cfg args)

/-- A run that logs in hears the welcome only, and does not draw the id of the SEND. -/
theorem admitting_input (r : RunId) {i : Input}
    (hi : i ∈ Worker.admitting x.timestamp x.loginId x.welcome) :
    x.Devoted (.work r i) ∧ (Label.work r i).spares [x.sendId] := by
  simp only [Worker.admitting, Worker.loggingIn, List.mem_append, List.mem_cons, List.not_mem_nil,
    or_false, List.mem_replicate] at hi
  rcases hi with rfl | (rfl | rfl | rfl | rfl | rfl) | ⟨-, rfl⟩
  · exact ⟨trivial, trivial⟩
  · exact ⟨trivial, trivial⟩
  · exact ⟨trivial, by simp [Label.spares, x.distinct.symm]⟩
  · exact ⟨trivial, trivial⟩
  · exact ⟨trivial, trivial⟩
  · exact ⟨.inl rfl, trivial⟩
  · exact ⟨trivial, trivial⟩

end Exchange

namespace Usable

variable {cfg : Config} {ids : List String} {n : ℕ} {s : State} {args : SendArgs}

/-- With nothing under way all permits are free. -/
theorem slots (h : Usable cfg ids n s) (hv : s.Vacant) : s.mem.slots = cfg.options.maxInFlight := by
  obtain ⟨labels, hreach⟩ := h.reachable
  have hnone : ∀ r, ¬ s.alive r := fun r hr => by
    rcases ((Lifecycle.of_reaches hreach).alive r hr).2 with hrunning | hgone
    · rw [hv.running] at hrunning
      cases hrunning
    · rw [h.handles] at hgone
      cases hgone
  exact State.slots_of_settled hreach hv.settled hnone

/-- A connect starts a run and waits for its first result. -/
theorem starts (x : Exchange cfg args) (h : Usable cfg ids n s) (hv : s.Vacant) :
    Attains (State.step cfg) (fun _ l => x.Devoted l)
      (fun t => Usable cfg ids (n + 1) t ∧ t.mem = s.mem.spawned ∧
        t.workers s.mem.started = Worker.spawned.setPolling true ∧
        t.calls n = .connect true (.wait s.mem.started true)) s := by
  let r := s.mem.started
  let s₁ := s.called (.connect true)
  let s₂ := s₁.served n (.connect true .checkDestroyed) .lock
  let s₃ := s₂.served n (.connect true .decide) .skip
  let s₄ := s₃.served n (.connect true (.unlock r true)) .spawn
  let s₅ := s₄.served n (.connect true (.wait r true)) .unlock
  let s₆ := s₅.worked r (Worker.spawned.setPolling true) .skip
  have hs₁ : s.step cfg (.begin (.connect true)) = some s₁ := if_pos h.handles
  have hs₂ : s₁.step cfg (.call n .go) = some s₂ := by
    simp [State.step, s₁, s₂, h.begun, Operation.call, Call.next, ConnectPhase.next,
      State.unlocked h.reachable hv.settled]
  have hs₃ : s₂.step cfg (.call n .go) = some s₃ := by
    simp [State.step, s₁, s₂, s₃, Call.next, ConnectPhase.next, Memory.serve, h.lasting]
  have hs₄ : s₃.step cfg (.call n .go) = some s₄ := by
    simp [State.step, s₁, s₂, s₃, s₄, r, Call.next, ConnectPhase.next, Memory.serve, hv.running]
  have hs₅ : s₄.step cfg (.call n .go) = some s₅ := by
    simp [State.step, s₄, s₅, Call.next, ConnectPhase.next]
  have hw₅ : s₅.workers r = .spawned := by
    simp [s₅, s₄, s₃, s₂, s₁, r, State.spawnWorker, Memory.serve]
  have hs₆ : s₅.step cfg (.poll r) = some s₆ := by
    simp [State.step, hw₅, s₆, Worker.poll, Worker.spawned, s₅, s₄, s₃, s₂, s₁, r, Memory.serve]
  have hu₅ : Usable cfg ids (n + 1) s₅ := ((((h.called rfl).go hs₂).go hs₃).go hs₄).go hs₅
  have hu₆ : Usable cfg ids (n + 1) s₆ := hu₅.step (l := .poll r) rfl trivial hs₆
  refine .of_step (l := .begin (.connect true)) trivial hs₁ (.of_step (l := .call n .go) rfl hs₂
    (.of_step (l := .call n .go) rfl hs₃ (.of_step (l := .call n .go) rfl hs₄
      (.of_step (l := .call n .go) rfl hs₅ (.single (l := .poll r) trivial hs₆ ⟨hu₆, rfl, ?_, ?_⟩)))))
  · simp [s₆, r]
  · simp [s₆, s₅, r]

/-- A connect starts a run, which logs in. -/
theorem connects (x : Exchange cfg args) (h : Usable cfg [x.loginId, x.sendId] n s) (hv : s.Vacant)
    (hmax : 0 < cfg.options.maxInFlight) :
    Attains (State.step cfg) (fun _ l => x.Devoted l)
      (fun t => Usable cfg [x.sendId] (n + 1) t ∧ ∃ r, t.Open cfg r ∧
        t.calls n = .connect true (.done (some (r, true)) (.ok x.result))) s := by
  let r := s.mem.started
  refine (h.starts x hv).bind ?_
  rintro u ⟨hu, hm, hw, hcall⟩
  have hdrive : exec (Worker.drive cfg r) (u.mem, u.workers r)
      (Worker.admitting x.timestamp x.loginId x.welcome) =
      some (Worker.admittedMemory r u.mem x.loginId x.result,
        .waiting (u.mem.sockets + 1) (u.mem.clock + cfg.options.pingInterval)) := by
    rw [hw]
    exact Worker.drive_admitting (hu.fresh _ (by simp)) x.login_fits x.welcomed
      (by simp [hm, Memory.spawned, r])
  obtain ⟨t, ht, hmt, hwt, hct⟩ := State.run_drive hdrive
  have hut : Usable cfg [x.sendId] (n + 1) t := (hu.mono (by simp)).run ht fun l hl => by
    obtain ⟨i, hi, rfl⟩ := List.mem_map.mp hl
    exact ⟨rfl, (x.admitting_input r hi).2⟩
  have hcells : (t.mem.cells r) =
      { ({} : Cells) with status := .ready x.result, firstResult := some (.ok x.result) } := by
    simp [hmt, Worker.admittedMemory, Worker.seatedMemory, Memory.work_cells, Effect.onCells, hm,
      Memory.spawned, r]
  have hcommands : (t.mem.cells r).commands = [] := congrArg Cells.commands hcells
  have hreturn : t.step cfg (.call n .go) =
      some (t.served n (.connect true (.done (some (r, true)) (.ok x.result))) .skip) := by
    simp [State.step, hct, hcall, Call.next, ConnectPhase.next, ConnectPhase.observe, r, hcells]
  have hruns : Attains (State.step cfg) (fun _ l => x.Devoted l) (fun v => v = t) u := by
    refine ⟨_, t, ht.confine fun l hl => ?_, rfl⟩
    obtain ⟨i, hi, rfl⟩ := List.mem_map.mp hl
    exact (x.admitting_input r hi).1
  refine hruns.bind ?_
  rintro _ rfl
  refine .single (l := .call n .go) rfl hreturn ⟨hut.go hreturn, r, ?_, by simp⟩
  refine ⟨⟨_, _, hwt⟩, ⟨by rw [State.served_mem, hmt, hm]; rfl,
    by rw [State.served_mem, hmt, hm]; rfl, by rw [State.served_mem, hmt, hm]; rfl,
    ?_, congrArg Cells.closed hcells, ?_⟩, hcommands⟩
  · rw [State.served_mem, hmt, hm]
    exact lt_of_lt_of_eq hmax (h.slots hv).symm
  · exact lt_of_eq_of_lt (congrArg List.length hcommands) hmax

end Usable

/-! ## A send that is acknowledged -/

namespace Exchange

variable {cfg : Config} {args : SendArgs} (x : Exchange cfg args) {c : CallId} {m : Memory}
  {g : UInt64}

/-- The command that call `c` builds, reading generation `g`. -/
def command (c : CallId) (m : Memory) (g : UInt64) : Command :=
  ⟨g, x.sendId, x.params, m.clock + cfg.options.requestTimeout, c⟩

theorem build_eq : SendPhase.build cfg m args c g x.sendId x.msgNo = .ok (x.command c m g) :=
  SendPhase.build_eq x.built x.send_fits

/-- A session that has written the command reads the receipt as its acknowledgement. -/
theorem react_eq {socket nextPing : ℕ} :
    Session.react cfg.codec ⟨socket, [(x.command c m g).entry], nextPing, none⟩ x.receipt =
      .answer (x.command c m g).entry (.ok x.ack) := by
  simp [Session.react, x.parsed, x.answers, Session.reactAnswer, command, Command.entry,
    x.acknowledged]

end Exchange

namespace SendPhase

/-- A call from its start until its command is in the queue. -/
def posting (id msgNo : String) : List CallInput := List.replicate 3 .go ++ handing id msgNo

theorem patient_of_posting {id msgNo : String} {i : CallInput} (hi : i ∈ posting id msgNo) :
    i.patient = true := by
  simp only [posting, handing, List.mem_append, List.mem_cons, List.not_mem_nil, or_false,
    List.mem_replicate] at hi
  rcases hi with ⟨-, rfl⟩ | (rfl | rfl) | ⟨-, rfl⟩ <;> rfl

end SendPhase

namespace Usable

variable {cfg : Config} {ids : List String} {n : ℕ} {s : State} {args : SendArgs} {c : CallId}
  {r : RunId}

theorem drive_posting (x : Exchange cfg args) (h : Usable cfg [x.sendId] n s) (ho : s.Open cfg r) :
    exec (SendPhase.drive cfg c args) (s.mem, .start) (SendPhase.posting x.sendId x.msgNo) =
      some (SendPhase.handedMemory r c s.mem (x.command c s.mem s.mem.generation),
        .wait r (x.command c s.mem s.mem.generation)) := by
  have hstart : exec (SendPhase.drive cfg c args) (s.mem, .start) [.go] =
      some (s.mem, .checkConnected) :=
    SendPhase.drive_next (a := .skip) (if_neg (by rw [h.lasting]; rintro ⟨⟩))
  have hconnected : exec (SendPhase.drive cfg c args) (s.mem, .checkConnected) [.go] =
      some (s.mem, .readGeneration) :=
    SendPhase.drive_next (a := .skip) (if_pos ho.receptive.connected)
  have hread : exec (SendPhase.drive cfg c args) (s.mem, .readGeneration) [.go] =
      some (s.mem, .acquire s.mem.generation) := rfl
  rw [show SendPhase.posting x.sendId x.msgNo =
      .go :: .go :: .go :: SendPhase.handing x.sendId x.msgNo from rfl, exec_cons hstart,
    exec_cons hconnected, exec_cons hread]
  have hfresh : (x.command c s.mem s.mem.generation).id ∉ s.mem.uuids :=
    h.fresh _ (List.mem_singleton_self _)
  exact SendPhase.drive_handing ho.receptive hfresh x.build_eq

end Usable

namespace Worker

/-- The session writes the command it has taken, and reads the response `text`. -/
def serving (text : String) : List Input :=
  [.go, .io true] ++ List.replicate 4 .go ++ [.message (.text text)] ++ List.replicate 3 .go

/-- The memory once the reply of `cmd` has been sent and its permit released. -/
def servedMemory (r : RunId) (m : Memory) (c : CallId) (ack : SendResult) : Memory :=
  (m.work r (.answer c (.ok ack))).work r (.release c)

theorem drive_serving {cfg : Config} {args : SendArgs} (x : Exchange cfg args) {r : RunId}
    {m m' : Memory} {c : CallId} {g : UInt64} {socket nextPing : ℕ} (hclock : m.clock = m'.clock)
    (hreply : (m.replies c).abandoned = false) (htimeout : 0 < cfg.options.requestTimeout) :
    exec (drive cfg r) (m, (waiting socket nextPing).goSession (.insert (x.command c m' g)))
        (serving x.receipt) =
      some (servedMemory r m c x.ack, (waiting socket nextPing).goSession .head) := by
  let cmd := x.command c m' g
  let w : Worker := { waiting socket nextPing with session := ⟨socket, [cmd.entry], nextPing, none⟩ }
  have hinsert : exec (drive cfg r) (m, (waiting socket nextPing).goSession (.insert cmd)) [.go] =
      some (m, w.goSession (.writing none)) := drive_next rfl (next_insert x.send_fits)
  have hretain : exec (drive cfg r) (m, w.goSession (.retain m.clock 0)) [.go] =
      some (m, w.goSession (.retain m.clock 1)) :=
    drive_next rfl (e := .skip)
      (if_neg (by rw [show (cmd.entry).reply = c from rfl, hreply]; rintro ⟨⟩))
  have hdue : w.session.due m.clock = [] := by
    have hlate : ¬ cmd.entry.deadline ≤ m.clock := by
      rw [hclock]
      exact not_le.mpr (Nat.lt_add_of_pos_right htimeout)
    simp [Session.due, w, hlate]
  have hexpire : exec (drive cfg r) (m, w.goSession (.retain m.clock 1)) [.go] =
      some (m, w.goSession (.expire [])) := by
    refine drive_next rfl (e := .skip) ?_
    rw [← hdue]
    rfl
  have hmessage : exec (drive cfg r) (m, w.goSession .select) [.message (.text x.receipt)] =
      some (m, (waiting socket nextPing).goSession (.sendAck cmd.entry x.ack)) := by
    refine drive_next rfl (e := .receive socket (.text x.receipt)) ?_
    have hreact : Session.react cfg.codec w.session x.receipt = .answer cmd.entry (.ok x.ack) :=
      x.react_eq
    simp [next, superviseNext, sessionNext, onMessage, hreact, w, waiting]
  rw [show serving x.receipt = [.go] ++ ([.io true, .go] ++ ([.go] ++ ([.go] ++ ([.go] ++
      ([.message (.text x.receipt)] ++ [.go, .go, .go]))))) from rfl, exec_append hinsert,
    exec_append (t := (m, w.goSession (.retain m.clock 0))) rfl, exec_append hretain,
    exec_append hexpire, exec_append (t := (m, w.goSession .select)) rfl, exec_append hmessage]
  rfl

end Worker

/-- A run that delivers hears the receipt only. -/
theorem Exchange.devoted_serving {cfg : Config} {args : SendArgs} (x : Exchange cfg args) (r : RunId)
    {i : Input} (hi : i ∈ .command :: List.replicate 3 .go ++ Worker.serving x.receipt) :
    x.Devoted (.work r i) := by
  simp only [Worker.serving, List.mem_append, List.mem_cons, List.not_mem_nil, or_false,
    List.mem_replicate] at hi
  rcases hi with (rfl | ⟨-, rfl⟩) | (((rfl | rfl) | ⟨-, rfl⟩) | rfl) | ⟨-, rfl⟩
  all_goals first | trivial | exact .inr rfl

namespace Usable

variable {cfg : Config} {n : ℕ} {s : State} {args : SendArgs} {r : RunId}

/-- A send goes through the queue of the run and over its socket, and is acknowledged. -/
theorem delivers (x : Exchange cfg args) (h : Usable cfg [x.sendId] n s) (ho : s.Open cfg r)
    (hv : cfg.options.Valid) :
    Attains (State.step cfg) (fun _ l => x.Devoted l)
      (fun t => t.calls n = .send args (.done (.ok x.ack)) ∧ t.mem.connected = true) s := by
  obtain ⟨labels, hreach⟩ := h.reachable
  obtain ⟨socket, due, hw⟩ := ho.worker
  have htimeout : 0 < cfg.options.requestTimeout := (hv.duration _ (by simp)).1
  let cmd := x.command n s.mem s.mem.generation
  let s₁ := s.called (.send args)
  have hs₁ : s.step cfg (.begin (.send args)) = some s₁ := if_pos h.handles
  have hstart : s₁.calls n = .send args .start := by simp [s₁, h.begun, Operation.call]
  have hposting : exec (SendPhase.drive cfg n args) (s₁.mem, .start)
      (SendPhase.posting x.sendId x.msgNo) =
      some (SendPhase.handedMemory r n s.mem cmd, .wait r cmd) := h.drive_posting x ho
  obtain ⟨s₂, hpost, hm₂, hw₂, hc₂⟩ := State.run_drive_send hstart hposting
  have hcommands : (s₂.mem.cells r).commands = [cmd] := by
    simp [hm₂, SendPhase.handedMemory, Memory.serve, Memory.modify, ho.commands]
  have hlive : (s₂.mem.replies n).abandoned = false := by
    rw [hm₂, show (SendPhase.handedMemory r n s.mem cmd).replies = s.mem.replies from rfl]
    by_contra hgave
    have hidle := (Settled.of_reaches hreach).abandoned n (eq_true_of_ne_false hgave)
    rw [(Lifecycle.of_reaches hreach).idle n h.begun.le] at hidle
    cases hidle
  have hclock : s₂.mem.clock = s.mem.clock := by rw [hm₂]; rfl
  have htaking : exec (Worker.drive cfg r) (s₂.mem, s₂.workers r) (.command :: List.replicate 3 .go) =
      some (s₂.mem.work r .dequeue, (Worker.waiting socket due).goSession (.insert cmd)) := by
    rw [hw₂, show s₁.workers r = .waiting socket due from hw]
    refine Worker.drive_taking hcommands hlive ?_ ?_
    · rw [hm₂]
      rfl
    · rw [hclock]
      exact Nat.lt_add_of_pos_right htimeout
  have hserving : exec (Worker.drive cfg r)
      (s₂.mem.work r .dequeue, (Worker.waiting socket due).goSession (.insert cmd))
      (Worker.serving x.receipt) =
      some (Worker.servedMemory r (s₂.mem.work r .dequeue) n x.ack,
        (Worker.waiting socket due).goSession .head) :=
    Worker.drive_serving x hclock hlive htimeout
  obtain ⟨s₃, hserve, hm₃, -, hc₃⟩ := State.run_drive ((exec_append htaking).trans hserving)
  have hs₄ : s₃.step cfg (.call n .go) =
      some (s₃.served n (.send args (.done (.ok x.ack))) .skip) := by
    simp [State.step, hc₃, hc₂, Call.next, SendPhase.next, hm₃, Worker.servedMemory, Memory.work,
      Memory.setSender, Memory.freeSlot]
  have hruns : Attains (State.step cfg) (fun _ l => x.Devoted l) (fun u => u = s₃) s₁ := by
    refine ⟨_, s₃, (hpost.append hserve).confine fun l hl => ?_, rfl⟩
    rcases List.mem_append.mp hl with hl | hl
    · obtain ⟨i, hi, rfl⟩ := List.mem_map.mp hl
      exact SendPhase.patient_of_posting hi
    · obtain ⟨i, hi, rfl⟩ := List.mem_map.mp hl
      exact x.devoted_serving r hi
  refine .of_step (l := .begin (.send args)) trivial hs₁ (hruns.bind ?_)
  rintro _ rfl
  refine .single (l := .call n .go) rfl hs₄ ⟨by simp, ?_⟩
  have hconnected : s₂.mem.connected = true := by
    rw [hm₂]
    exact ho.receptive.connected
  rw [State.served_mem, hm₃]
  exact hconnected

end Usable

/-- A client at rest can be disconnected, connected anew and made to deliver. -/
theorem Usable.recovers {cfg : Config} {n : ℕ} {s : State} {args : SendArgs} (x : Exchange cfg args)
    (h : Usable cfg [x.loginId, x.sendId] n s) (hset : ∀ c, (s.calls c).settled = true)
    (hv : cfg.options.Valid) :
    Attains (State.step cfg) (fun _ l => x.Devoted l)
      (fun t => t.calls n = .disconnect false .done ∧
        (∃ r, t.calls (n + 1) = .connect true (.done (some (r, true)) (.ok x.result))) ∧
        t.calls (n + 2) = .send args (.done (.ok x.ack)) ∧ t.mem.connected = true) s := by
  refine (h.clears x hset).bind fun u hu => ?_
  obtain ⟨hu, hvacant, hdisconnect⟩ := hu
  refine ((hu.connects x hvacant hv.inFlight.1).keep
    (I := fun t => n < t.begun ∧ t.calls n = .disconnect false .done)
    ⟨hu.begun ▸ Nat.lt_succ_self _, hdisconnect⟩
    fun _ _ _ hi _ hs => State.returned_step rfl hi hs).bind ?_
  rintro v ⟨⟨hu, r, hopen, hconnect⟩, hdisconnect⟩
  refine (((hu.delivers x hopen hv).keep
    (I := fun t => n < t.begun ∧ t.calls n = .disconnect false .done) hdisconnect
    fun _ _ _ hi _ hs => State.returned_step rfl hi hs).keep
    (I := fun t => n + 1 < t.begun ∧
      t.calls (n + 1) = .connect true (.done (some (r, true)) (.ok x.result)))
    ⟨hu.begun ▸ Nat.lt_succ_self _, hconnect⟩
    fun _ _ _ hi _ hs => State.returned_step rfl hi hs).mono ?_
  rintro t ⟨⟨⟨hsend, hconnected⟩, -, hdisconnect⟩, -, hconnect⟩
  exact ⟨hdisconnect, ⟨r, hconnect⟩, hsend, hconnected⟩

/-- Whatever has happened to a client that has a handle and that nobody has destroyed or is
about to: all calls in progress return, and the next three calls can disconnect, connect and
send, and succeed. No future is dropped for it, and the peer need only answer the login and
the SEND. -/
theorem can_always_deliver {cfg : Config} {labels : List Label} {s : State} {args : SendArgs}
    (h : Reaches cfg labels s) (hv : cfg.options.validate = .ok ()) (hh : s.handles = true)
    (hd : s.mem.destroyed = false) (hm : ∀ c < s.begun, (s.calls c).dooms = false)
    (x : Exchange cfg args) (hlogin : x.loginId ∉ s.mem.uuids) (hsend : x.sendId ∉ s.mem.uuids) :
    Attains (State.step cfg) (fun _ l => x.Devoted l)
      (fun t => (∀ c < s.begun, (t.calls c).settled = true) ∧
        t.calls s.begun = .disconnect false .done ∧
        (∃ r, t.calls (s.begun + 1) = .connect true (.done (some (r, true)) (.ok x.result))) ∧
        t.calls (s.begun + 2) = .send args (.done (.ok x.ack)) ∧ t.mem.connected = true) s := by
  have hundoomed : ∀ c, (s.calls c).dooms = false := fun c => by
    rcases lt_or_ge c s.begun with hlt | hge
    · exact hm c hlt
    · rw [(Lifecycle.of_reaches h).idle c hge]
      rfl
  have husable : Usable cfg [x.loginId, x.sendId] s.begun s :=
    ⟨⟨labels, h⟩, hh, rfl, hd, hundoomed, by simp [hlogin, hsend]⟩
  refine (husable.settles x).bind fun t ht => ?_
  obtain ⟨ht, hset⟩ := ht
  refine ((ht.recovers x hset (Options.validate_ok.mp hv)).keep
    (I := fun u => ∀ c < s.begun, c < u.begun ∧ (u.calls c).settled = true)
    (fun c hc => ⟨hc.trans_eq ht.begun.symm, hset c⟩)
    fun _ _ _ hi _ hs => State.settled_step hi hs).mono ?_
  rintro u ⟨hdone, hkept⟩
  exact ⟨fun c hc => (hkept c hc).2, hdone⟩

/-- A peer that accepts login `u0` and acknowledges SEND `u1`. -/
def welcoming : Config := sample [accepted "u0", acknowledged "u1"]

def exchange : Exchange welcoming letter where
  loginId := "u0"
  timestamp := 0
  welcome := compact (accepted "u0")
  result := greeted
  sendId := "u1"
  msgNo := "m1"
  params := ((Protocol.send welcoming.codec "bob" 1 (.object []) {} "m1").toOption).getD .null
  receipt := compact (acknowledged "u1")
  reply := acknowledged "u1"
  ack := ⟨"7", 1, 1⟩
  distinct := by decide
  login_fits := by decide +kernel
  welcomed := rfl
  built := rfl
  send_fits := by decide +kernel
  parsed := rfl
  answers := rfl
  acknowledged := rfl

/-- Two calls to connect and a disconnect are under way. -/
theorem can_always_deliver_queueing :
    ∃ s, Reaches welcoming queueing s ∧ (s.calls 0).settled = false ∧ s.mem.lock = some 1 ∧
      Attains (State.step welcoming) (fun _ l => exchange.Devoted l)
        (fun t => (∀ c < s.begun, (t.calls c).settled = true) ∧
          t.calls s.begun = .disconnect false .done ∧
          (∃ r, t.calls (s.begun + 1) = .connect true (.done (some (r, true)) (.ok greeted))) ∧
          t.calls (s.begun + 2) = .send letter (.done (.ok ⟨"7", 1, 1⟩)) ∧
          t.mem.connected = true) s := by
  obtain ⟨s, h, ho⟩ := reaches_of_play welcoming queueing
    (fun s => !(s.calls 0).settled && s.mem.lock = some 1 && s.handles && !s.mem.destroyed &&
      decide (∀ c < s.begun, (s.calls c).dooms = false) && s.mem.uuids = []) (by decide +kernel)
  simp only [Bool.and_eq_true, Bool.not_eq_true', decide_eq_true_eq] at ho
  obtain ⟨⟨⟨⟨⟨hc, hlock⟩, hh⟩, hd⟩, hm⟩, hu⟩ := ho
  exact ⟨s, h, hc, hlock, can_always_deliver h rfl hh hd hm exchange (by simp [hu]) (by simp [hu])⟩

end WukongSdk
