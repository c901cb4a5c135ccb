import WukongSdk.Custody

/-!
# Admission

A permit and the reply sender that goes with it are held by the caller that
prepares a command, by the queue of a run or by its worker, and by one of them
only; a worker that settles the reply keeps the permit for one more access.
-/
namespace WukongSdk

namespace Call

/-- The command a send call has built. -/
def command : Call → Option Command
  | .send _ (.lock cmd) | .send _ (.recheck cmd) | .send _ (.enqueue cmd)
  | .send _ (.unlock _ cmd) | .send _ (.wait _ cmd) => some cmd
  | _ => none

/-- The run a send call has handed its command to. -/
def sentTo : Call → Option (RunId × Command)
  | .send _ (.unlock r cmd) | .send _ (.wait r cmd) => some (r, cmd)
  | _ => none

/-- Points at which a send call holds its permit. -/
def holdsPermit : Call → Bool
  | .send _ (.prepare _) | .send _ (.lock _) | .send _ (.recheck _) | .send _ (.enqueue _)
  | .send _ (.abortLocked _) | .send _ (.abort _) => true
  | _ => false

/-- Points at which a send call has parted with its permit. -/
def passed : Call → Bool
  | .send _ (.unlock _ _) | .send _ (.wait _ _) | .send _ (.done _) | .send _ .dropped => true
  | _ => false

attribute [local grind] command sentTo holdsPermit passed
attribute [local grind =] Memory.serve Memory.modify Memory.freeSlot SendPhase.build

variable {cfg : Config} {c : CallId} {m : Memory} {i : CallInput} {k k' : Call} {a : Act}
    {r : RunId} {b : Bool}
  {result : Except Error ConnectResult}

theorem build_spec {args : SendArgs} {g : UInt64} {id msgNo : String} {cmd : Command}
    (h : SendPhase.build cfg m args c g id msgNo = .ok cmd) :
   cmd.generation = g ∧ cmd.id = id ∧ cmd.reply = c := by
  unfold SendPhase.build at h
  cases hp : Protocol.send cfg.codec args.channel args.channelType args.payload args.options msgNo with
  | error e => rw [hp] at h; cases h
  | ok params =>
    rw [hp] at h
    simp only [bind, Except.bind, throw, throwThe, MonadExceptOf.throw, pure, Except.pure] at h
    split at h <;> cases h
    exact ⟨rfl, rfl, rfl⟩

theorem Moves.permit (h : k.Moves cfg c m i k' a) (hr : ∀ cmd, k.command = some cmd → cmd.reply = c) :
    (∀ cmd, k'.command = some cmd → cmd.reply = c) ∧
    (k.passed = true → k'.passed = true) ∧
    ((a = .acquire ∧ m.slots ≠ 0 ∧ k.passed = false ∧ k.holdsPermit = false ∧ k'.holdsPermit = true) ∨
    (a = .release ∧ k.holdsPermit = true ∧ k'.holdsPermit = false) ∨
    (∃ r cmd, a = .enqueue r cmd ∧ k.holdsPermit = true ∧ k'.holdsPermit = false ∧
        k'.passed = true ∧ k.command = some cmd) ∨
    ((m.serve c a).permits = m.permits ∧ (m.serve c a).slots = m.slots ∧
        k'.holdsPermit = k.holdsPermit ∧ ∀ r cmd, a ≠ .enqueue r cmd)) := by
  cases h with
  | @send args p p' a h =>
    revert h
    fun_cases SendPhase.next cfg c m args i p <;> grind -linarith [→ build_spec]
  | @connect rt p p' a h => revert h; fun_cases ConnectPhase.next m rt i p <;> grind -linarith
  | @disconnect d p p' a h => revert h; fun_cases DisconnectPhase.next m i p <;> grind -linarith
theorem Moves.sentTo {cmd : Command} (h : k.Moves cfg c m i k' a) (hs : k'.sentTo = some (r, cmd)) :
    k.sentTo = some (r, cmd) ∨ (a = .enqueue r cmd ∧ k.command = some cmd) := by
  revert hs
  cases h with
  | @send args p p' a h => revert h; fun_cases SendPhase.next cfg c m args i p <;> grind -linarith
  | @connect rt p p' a h => rintro ⟨⟩
  | @disconnect d p p' a h => rintro ⟨⟩

/-- The branch for a full queue is taken from a full queue. -/
theorem Moves.full {args : SendArgs} (h : k.Moves cfg c m i k' a)
    (hk : k' = .send args (.refused .backpressure)) :
    k.holdsPermit = true ∧ ∃ r, cfg.options.maxInFlight ≤ (m.cells r).commands.length := by
  revert hk
  cases h with
  | @send args p p' a h => revert h; fun_cases SendPhase.next cfg c m args i p <;> grind -linarith
  | @connect rt p p' a h => rintro ⟨⟩
  | @disconnect d p p' a h => rintro ⟨⟩

/-- The command a run is handed is the one its caller held. -/
theorem Moves.handed {cmd : Command} (h : k.Moves cfg c m i k' (.enqueue r cmd)) :
    k.holdsPermit = true ∧ k.command = some cmd := by
  cases h with
  | @send args p p' a h => revert h; fun_cases SendPhase.next cfg c m args i p <;> grind -linarith
  | @connect rt p p' a h => revert h; fun_cases ConnectPhase.next m rt i p <;> grind -linarith
  | @disconnect d p p' a h => revert h; fun_cases DisconnectPhase.next m i p <;> grind -linarith

theorem passed_of_holdsPermit (h : k.holdsPermit = true) : k.passed = false := by
  unfold holdsPermit at h
  split at h <;> first | rfl | cases h

end Call

namespace Memory

variable (m : Memory) (r : RunId) (e : Effect) (c : CallId) (a : Act)

@[simp] theorem serve_sender (c' : CallId) :
    ((m.serve c a).replies c').sender = (m.replies c').sender := by
  cases a with
  | abandon =>
    by_cases hc : c' = c
    · simp [serve, hc]
    · simp [serve, hc]
  | _ => rfl

/-- Settling one reply leaves the others as they are. -/
theorem work_settles (h : e = .drop c ∨ ∃ result, e = .answer c result) :
    ((m.work r e).replies c).sender ≠ .live ∧
      ∀ c', c' ≠ c → (m.work r e).replies c' = m.replies c' := by
  rcases h with rfl | ⟨result, rfl⟩
  · exact ⟨by simp [work, setSender], fun c' hc => by simp [work, setSender, hc]⟩
  · exact ⟨by simp [work, setSender], fun c' hc => by simp [work, setSender, hc]⟩

end Memory

namespace State

variable {cfg : Config} {s t : State} {c : CallId} {i : CallInput} {k : Call} {a : Act} {r : RunId}
  {w : Worker} {e : Effect} {l : Label}

/-- Commands and entries handed to run `r` and not yet settled. -/
def stock (s : State) (r : RunId) : List Tag :=
  (s.mem.cells r).commands.map Command.tag ++ (s.workers r).carried

/-- Permits handed to run `r` and not yet released. -/
def held (s : State) (r : RunId) : List CallId :=
  (s.stock r).map Prod.fst ++ (s.workers r).dropping.toList

theorem stock_worked_ne {r' : RunId} (h : r' ≠ r) : (s.worked r w e).stock r' = s.stock r' := by
  simp [stock, Memory.work_cells, h]

theorem held_worked_ne {r' : RunId} (h : r' ≠ r) : (s.worked r w e).held r' = s.held r' := by
  simp [held, stock_worked_ne h, h]

theorem stock_clientDropped (s : State) (r : RunId) : s.clientDropped.stock r = s.stock r := by
  simp only [stock, s.clientDropped_mem, clientDropped_workers]
  split <;> rfl

/-- A worker's access releases the permit it was about to release, settles one
reply and is about to release its permit, or keeps all it holds. -/
theorem stock_worked (ht : (s.workers r).Tidy) (hx : (s.workers r).Moves cfg r s.mem l w e) :
    (∃ c, e = .release c ∧ (s.workers r).dropping = some c ∧ w.dropping = none ∧
      ((s.worked r w e).stock r).Perm (s.stock r)) ∨
    (∃ c id, (e = .drop c ∨ ∃ result, e = .answer c result) ∧ (s.workers r).dropping = none ∧
      w.dropping = some c ∧ (s.stock r).Perm ((c, id) :: (s.worked r w e).stock r)) ∨
    ((s.mem.work r e).slots = s.mem.slots ∧ (s.mem.work r e).permits = s.mem.permits ∧
      (s.mem.work r e).replies = s.mem.replies ∧ (s.workers r).dropping = none ∧
      w.dropping = none ∧ ((s.worked r w e).stock r).Perm (s.stock r)) := by
  have hc := hx.custody ht
  have hstock : (s.worked r w e).stock r =
      (e.onCells (s.mem.cells r)).commands.map Command.tag ++ w.carried := by
    simp [stock, Memory.work_cells]
  rw [hstock]
  cases e with
  | release c =>
    obtain ⟨h₁, h₂, hp⟩ := hc
    exact .inl ⟨c, rfl, h₁, h₂, hp.append_left _⟩
  | drop c =>
    obtain ⟨h₁, h₂, id, hp⟩ := hc
    exact .inr (.inl ⟨c, id, .inl rfl, h₁, h₂, (hp.append_left _).trans List.perm_middle⟩)
  | answer c result =>
    obtain ⟨h₁, h₂, id, hp⟩ := hc
    exact .inr (.inl ⟨c, id, .inr ⟨result, rfl⟩, h₁, h₂,
      (hp.append_left _).trans List.perm_middle⟩)
  | dequeue =>
    obtain ⟨h₁, h₂, cmd, rest, hq, hp⟩ := hc
    refine .inr (.inr ⟨rfl, rfl, rfl, h₁, h₂, (hp.append_left _).trans ?_⟩)
    simp [stock, Effect.onCells, hq]
  | _ =>
    obtain ⟨h₁, h₂, hp⟩ := hc
    exact .inr (.inr ⟨rfl, rfl, rfl, h₁, h₂, hp.append_left _⟩)

/-- A worker's access keeps what its run holds, but for the permit it releases. -/
theorem held_worked (ht : (s.workers r).Tidy) (hx : (s.workers r).Moves cfg r s.mem l w e) :
    (∃ c, e = .release c ∧ (s.held r).Perm (c :: (s.worked r w e).held r)) ∨
    ((s.mem.work r e).slots = s.mem.slots ∧ (s.mem.work r e).permits = s.mem.permits ∧
      ((s.worked r w e).held r).Perm (s.held r)) := by
  rcases stock_worked ht hx with ⟨c, rfl, h₁, h₂, hp⟩ | ⟨c, id, he, h₁, h₂, hp⟩ |
    ⟨hs, hm, -, h₁, h₂, hp⟩
  · left
    refine ⟨c, rfl, ?_⟩
    simp only [held, h₁, worked_workers, Function.update_self, h₂]
    exact List.perm_append_comm.trans ((hp.symm.map Prod.fst).cons c |>.trans (by simp))
  · right
    refine ⟨?_, ?_, ?_⟩
    · rcases he with rfl | ⟨result, rfl⟩ <;> rfl
    · rcases he with rfl | ⟨result, rfl⟩ <;> rfl
    · simp only [held, h₁, worked_workers, Function.update_self, h₂]
      exact List.perm_append_comm.trans ((hp.symm.map Prod.fst).trans (by simp))
  · right
    refine ⟨hs, hm, ?_⟩
    simp only [held, h₁, worked_workers, Function.update_self, h₂]
    exact (hp.map Prod.fst).append_right _

/-- A call hands a run its command, or leaves what runs hold alone. -/
theorem stock_served (hl : Lifecycle s) (hx : (s.calls c).Moves cfg c s.mem i k a) :
    (∃ r cmd, a = .enqueue r cmd ∧ ((s.served c k a).stock r).Perm (cmd.tag :: s.stock r) ∧
      (∀ r', r' ≠ r → (s.served c k a).stock r' = s.stock r')) ∨
    ((∀ r cmd, a ≠ .enqueue r cmd) ∧ ∀ r, (s.served c k a).stock r = s.stock r) := by
  have hkeep : ∀ r, (∀ cmd, a ≠ .enqueue r cmd) → (s.served c k a).stock r = s.stock r := by
    intro r hne
    by_cases hs : a = .spawn ∧ r = s.mem.started
    · obtain ⟨rfl, rfl⟩ := hs
      obtain ⟨hw, hm, -⟩ := hl.fresh s.mem.started le_rfl
      simp only [stock, served_mem, Memory.serve, served_workers, spawnWorker,
          Function.update_self, hw, hm]
      rfl
    · have hw : s.spawnWorker a r = s.workers r :=
        (s.spawnWorker_cases r a).resolve_right fun h => hs ⟨h.1, h.2.1⟩
      rcases s.mem.serve_cells r c a with hm | ⟨h₁, h₂, -⟩ | ⟨-, hm⟩ | ⟨cmd, h, -⟩
      · simp only [stock, served_mem, hm, served_workers, hw]
      · exact absurd ⟨h₁, h₂⟩ hs
      · simp only [stock, served_mem, hm, served_workers, hw]
      · exact absurd h (hne cmd)
  by_cases ha : ∃ r cmd, a = .enqueue r cmd
  · obtain ⟨r, cmd, rfl⟩ := ha
    refine .inl ⟨r, cmd, rfl, ?_, fun r' hne => hkeep r' fun cmd' h => ?_⟩
    · simp [stock, Memory.serve, Memory.modify, spawnWorker]
    · cases h
      exact hne rfl
  · simp only [not_exists] at ha
    exact .inr ⟨ha, fun r => hkeep r (ha r)⟩

theorem dropping_served (hl : Lifecycle s) (r : RunId) :
    ((s.served c k a).workers r).dropping = (s.workers r).dropping := by
  rcases s.spawnWorker_cases r a with hw | ⟨-, rfl, hw⟩
  · rw [served_workers, hw]
  · rw [served_workers, hw, (hl.fresh s.mem.started le_rfl).1]
    rfl

theorem held_served (hl : Lifecycle s) (hx : (s.calls c).Moves cfg c s.mem i k a) :
    (∃ r cmd, a = .enqueue r cmd ∧ ((s.served c k a).held r).Perm (cmd.reply :: s.held r) ∧
      (∀ r', r' ≠ r → (s.served c k a).held r' = s.held r')) ∨
    ((∀ r cmd, a ≠ .enqueue r cmd) ∧ ∀ r, (s.served c k a).held r = s.held r) := by
  have hdrop := fun r => dropping_served (c := c) (k := k) (a := a) hl r
  rcases stock_served hl hx with ⟨r, cmd, ha, hp, hne⟩ | ⟨ha, heq⟩
  · refine .inl ⟨r, cmd, ha, ?_, fun r' h => ?_⟩
    · rw [held, hdrop]
      exact (hp.map Prod.fst).append_right _
    · rw [held, hdrop, hne r' h, held]
  · exact .inr ⟨ha, fun r => by rw [held, hdrop, heq, held]⟩

end State

/-- Where permits are, and how many there are. -/
structure Admission (cfg : Config) (s : State) : Prop where
  count : s.mem.slots + s.mem.permits.card = cfg.options.maxInFlight
  place : ∀ c, c ∈ s.mem.permits ↔ (s.calls c).holdsPermit = true ∨ ∃ r, c ∈ s.held r
  nodup : ∀ r, (s.held r).Nodup
  apart : ∀ c r r', c ∈ s.held r → c ∈ s.held r' → r = r'
  passed : ∀ c r, c ∈ s.held r → (s.calls c).passed = true
  reply : ∀ c cmd, (s.calls c).command = some cmd → cmd.reply = c

namespace State

@[simp] theorem held_called (s : State) (op : Operation) (r : RunId) :
    (s.called op).held r = s.held r := rfl

end State

namespace Admission

variable {cfg : Config} {s t : State} {c : CallId} {i : CallInput} {k : Call} {a : Act} {r : RunId}
  {w : Worker} {e : Effect} {l : Label}

theorem not_holds (h : Admission cfg s) (hc : c ∈ s.held r) : (s.calls c).holdsPermit = false := by
  have := h.passed c r hc
  unfold Call.passed at this
  split at this <;> simp_all [Call.holdsPermit]

theorem new (cfg : Config) : Admission cfg (State.new cfg) where
  count := by simp [State.new]
  place c := by simp [State.new, Call.holdsPermit, State.held, State.stock, Worker.carried, Phase.hand]
  nodup r := by simp [State.new, State.held, State.stock, Worker.carried, Phase.hand]
  apart c r r' hc := by simp [State.new, State.held, State.stock, Worker.carried, Phase.hand] at hc
  passed c r hc := by simp [State.new, State.held, State.stock, Worker.carried, Phase.hand] at hc
  reply c cmd hc := by simp [State.new, Call.command] at hc

theorem worked (h : Admission cfg s) (ht : (s.workers r).Tidy)
    (hx : (s.workers r).Moves cfg r s.mem l w e) : Admission cfg (s.worked r w e) := by
  have hne := fun r' (hr : r' ≠ r) => State.held_worked_ne (s := s) (w := w) (e := e) hr
  -- what is held after is held before
  have hsub : ∀ c r', c ∈ (s.worked r w e).held r' → c ∈ s.held r' := by
    intro c r' hc
    by_cases hr : r' = r
    · subst hr
      rcases State.held_worked ht hx with ⟨d, -, hp⟩ | ⟨-, -, hp⟩
      · exact hp.mem_iff.2 (List.mem_cons_of_mem _ hc)
      · exact hp.mem_iff.1 hc
    · rwa [hne r' hr] at hc
  have hnodup : ∀ r', ((s.worked r w e).held r').Nodup := by
    intro r'
    by_cases hr : r' = r
    · subst hr
      rcases State.held_worked ht hx with ⟨d, -, hp⟩ | ⟨-, -, hp⟩
      · exact (List.nodup_cons.mp (hp.nodup_iff.1 (h.nodup r'))).2
      · exact hp.nodup_iff.2 (h.nodup r')
    · rw [hne r' hr]
      exact h.nodup r'
  refine ⟨?_, ?_, hnodup, fun c r₁ r₂ h₁ h₂ => h.apart c r₁ r₂ (hsub c r₁ h₁) (hsub c r₂ h₂),
    fun c r' hc => h.passed c r' (hsub c r' hc), h.reply⟩
  · rcases State.held_worked ht hx with ⟨d, rfl, hp⟩ | ⟨hs, hm, -⟩
    · have hd : d ∈ s.mem.permits := (h.place d).2 (.inr ⟨r, hp.mem_iff.2 (List.mem_cons_self ..)⟩)
      have hpos := Finset.card_pos.mpr ⟨d, hd⟩
      have hcount := h.count
      simp only [State.worked_mem, Memory.work, Memory.freeSlot, Finset.card_erase_of_mem hd]
      omega
    · simpa [hs, hm] using h.count
  · intro c
    rcases State.held_worked ht hx with ⟨d, rfl, hp⟩ | ⟨-, hm, hp⟩
    · have hd : d ∈ s.held r := hp.mem_iff.2 (List.mem_cons_self ..)
      have hgone : ∀ r', d ∉ (s.worked r w (.release d)).held r' := by
        intro r' hc
        obtain rfl := h.apart d r r' hd (hsub d r' hc)
        exact (List.nodup_cons.mp (hp.nodup_iff.1 (h.nodup r))).1 hc
      simp only [State.worked_mem, Memory.work, Memory.freeSlot, Finset.mem_erase, h.place c,
        State.worked_calls]
      constructor
      · rintro ⟨hcd, hk | ⟨r', hr'⟩⟩
        · exact .inl hk
        · by_cases hr : r' = r
          · subst hr
            exact .inr ⟨r', (List.mem_cons.mp (hp.mem_iff.1 hr')).resolve_left hcd⟩
          · exact .inr ⟨r', by rwa [hne r' hr]⟩
      · rintro (hk | ⟨r', hr'⟩)
        · refine ⟨?_, .inl hk⟩
          rintro rfl
          rw [h.not_holds hd] at hk
          cases hk
        · refine ⟨?_, .inr ⟨r', hsub c r' hr'⟩⟩
          rintro rfl
          exact hgone r' hr'
    · rw [State.worked_mem, hm, h.place c]
      refine or_congr_right (exists_congr fun r' => ?_)
      by_cases hr : r' = r
      · subst hr
        exact hp.mem_iff.symm
      · rw [hne r' hr]

theorem served (h : Admission cfg s) (hl : Lifecycle s) (hx : (s.calls c).Moves cfg c s.mem i k a) :
    Admission cfg (s.served c k a) := by
  obtain ⟨hreply, hpassed, hperm⟩ := hx.permit (h.reply c)
  have hcalls : ∀ c', c' ≠ c → (s.served c k a).calls c' = s.calls c' := fun c' hne => by simp [hne]
  have hself : (s.served c k a).calls c = k := by simp
  have hrep : ∀ c' cmd, ((s.served c k a).calls c').command = some cmd → cmd.reply = c' := by
    intro c' cmd hc
    by_cases hcc : c' = c
    · subst hcc
      exact hreply cmd (by simpa using hc)
    · exact h.reply c' cmd (by simpa [hcc] using hc)
  rcases State.held_served hl hx with ⟨r, cmd, rfl, hp, hne⟩ | ⟨ha, heq⟩
  · -- the permit goes from the caller to the queue of `r`
    have hcase : (s.calls c).holdsPermit = true ∧ k.holdsPermit = false ∧ k.passed = true ∧
        cmd.reply = c := by
      rcases hperm with ⟨h, -⟩ | ⟨h, -⟩ | ⟨r', cmd', he, h₁, h₂, h₃, h₄⟩ | ⟨-, -, -, h⟩
      · cases h
      · cases h
      · cases he
        exact ⟨h₁, h₂, h₃, h.reply c _ h₄⟩
      · exact absurd rfl (h r cmd)
    obtain ⟨h₁, h₂, h₃, rfl⟩ := hcase
    have hnew : ∀ r', cmd.reply ∉ s.held r' := fun r' hc => by
      rw [h.not_holds hc] at h₁
      cases h₁
    have hmem : ∀ c' r', c' ∈ (s.served cmd.reply k (.enqueue r cmd)).held r' ↔
        (c' = cmd.reply ∧ r' = r) ∨ c' ∈ s.held r' := by
      intro c' r'
      by_cases hr : r' = r
      · subst hr
        simp [hp.mem_iff]
      · simp [hne r' hr, hr]
    refine ⟨h.count, fun c' => ?_, fun r' => ?_, fun c' r₁ r₂ hr₁ hr₂ => ?_, fun c' r' hr' => ?_, hrep⟩
    · rw [State.served_mem,
        show (s.mem.serve cmd.reply (.enqueue r cmd)).permits = s.mem.permits from rfl,
        h.place c']
      by_cases hcc : c' = cmd.reply
      · subst hcc
        simp [h₁, hmem]
      · rw [hcalls c' hcc]
        simp [hmem, hcc]
    · by_cases hr : r' = r
      · subst hr
        exact hp.nodup_iff.2 (List.nodup_cons.mpr ⟨hnew r', h.nodup r'⟩)
      · rw [hne r' hr]
        exact h.nodup r'
    · rcases (hmem c' r₁).1 hr₁ with ⟨hc₁, hr₁'⟩ | hr₁ <;>
        rcases (hmem c' r₂).1 hr₂ with ⟨hc₂, hr₂'⟩ | hr₂
      · exact hr₁'.trans hr₂'.symm
      · exact absurd (hc₁ ▸ hr₂) (hnew r₂)
      · exact absurd (hc₂ ▸ hr₁) (hnew r₁)
      · exact h.apart c' r₁ r₂ hr₁ hr₂
    · rcases (hmem c' r').1 hr' with ⟨rfl, -⟩ | hr'
      · rw [hself, h₃]
      · rw [hcalls c' (fun hc => hnew r' (hc ▸ hr'))]
        exact h.passed c' r' hr'
  · have hpass : ∀ c' r', c' ∈ s.held r' → (c' = c → k.passed = true) →
        ((s.served c k a).calls c').passed = true := by
      intro c' r' hr' hc
      by_cases hcc : c' = c
      · rw [hcc, hself]
        exact hc hcc
      · rw [hcalls c' hcc]
        exact h.passed c' r' hr'
    have hiff : ∀ c' r', c' ∈ (s.served c k a).held r' ↔ c' ∈ s.held r' := fun c' r' => by rw [heq]
    rcases hperm with ⟨rfl, hslots, hp, hk, hk'⟩ | ⟨rfl, hk, hk'⟩ | ⟨r', cmd, he, -⟩ | ⟨hm, hs, hk, -⟩
    · -- the caller takes a free permit
      have hnot : ∀ r', c ∉ s.held r' := fun r' hr' => by
        rw [h.passed c r' hr'] at hp
        cases hp
      have hc : c ∉ s.mem.permits := fun hc => by
        rcases (h.place c).1 hc with hk₁ | ⟨r', hr'⟩
        · rw [hk] at hk₁
          cases hk₁
        · exact hnot r' hr'
      refine ⟨?_, fun c' => ?_, fun r' => by rw [heq]; exact h.nodup r',
        fun c' r₁ r₂ => by simpa only [hiff] using h.apart c' r₁ r₂, fun c' r' hr' => ?_, hrep⟩
      · have hcount := h.count
        simp only [State.served_mem, Memory.serve, Finset.card_insert_of_notMem hc]
        omega
      · simp only [State.served_mem, Memory.serve, Finset.mem_insert, hiff]
        by_cases hcc : c' = c
        · simp [hcc, hk']
        · simp [hcc, h.place c']
      · have hr' := (hiff c' r').1 hr'
        exact hpass c' r' hr' fun hcc => absurd hr' (hcc ▸ hnot r')
    · -- the caller gives its permit back
      have hnot : ∀ r', c ∉ s.held r' := fun r' hr' => by
        rw [h.not_holds hr'] at hk
        cases hk
      have hc : c ∈ s.mem.permits := (h.place c).2 (.inl hk)
      refine ⟨?_, fun c' => ?_, fun r' => by rw [heq]; exact h.nodup r',
        fun c' r₁ r₂ => by simpa only [hiff] using h.apart c' r₁ r₂, fun c' r' hr' => ?_, hrep⟩
      · have hcount := h.count
        have hpos := Finset.card_pos.mpr ⟨c, hc⟩
        simp only [State.served_mem, Memory.serve, Memory.freeSlot, Finset.card_erase_of_mem hc]
        omega
      · simp only [State.served_mem, Memory.serve, Memory.freeSlot, Finset.mem_erase, hiff]
        by_cases hcc : c' = c
        · simp [hcc, hk', hnot]
        · simp [hcc, h.place c']
      · have hr' := (hiff c' r').1 hr'
        exact hpass c' r' hr' fun hcc => absurd hr' (hcc ▸ hnot r')
    · exact absurd he (ha r' cmd)
    · refine ⟨?_, fun c' => ?_, fun r' => by rw [heq]; exact h.nodup r',
        fun c' r₁ r₂ => by simpa only [hiff] using h.apart c' r₁ r₂, fun c' r' hr' => ?_, hrep⟩
      · simpa [hm, hs] using h.count
      · simp only [State.served_mem, hm, hiff]
        by_cases hcc : c' = c
        · rw [hcc, hself, hk]
          exact h.place c
        · rw [hcalls c' hcc]
          exact h.place c'
      · have hr' := (hiff c' r').1 hr'
        exact hpass c' r' hr' fun hcc => hpassed (hcc ▸ h.passed c' r' hr')

theorem begin (h : Admission cfg s) (hl : Lifecycle s) (op : Operation) :
    Admission cfg (s.called op) := by
  have hop : op.call.holdsPermit = false ∧ op.call.command = none := by cases op <;> exact ⟨rfl, rfl⟩
  have hidle := hl.idle s.begun le_rfl
  refine { h with place := fun c => ?_, passed := fun c r hc => ?_, reply := fun c cmd hc => ?_ }
  · by_cases hcb : c = s.begun
    · have hp := h.place s.begun
      have hi : Call.idle.holdsPermit = false := rfl
      rw [hidle] at hp
      subst hcb
      simpa [hop, hi] using hp
    · simpa [hcb] using h.place c
  · by_cases hcb : c = s.begun
    · have := h.passed c r hc
      rw [hcb, hidle] at this
      cases this
    · simpa [hcb] using h.passed c r hc
  · by_cases hcb : c = s.begun
    · simp [hcb, hop] at hc
    · exact h.reply c cmd (by simpa [hcb] using hc)

theorem clientDropped (h : Admission cfg s) : Admission cfg s.clientDropped := by
  have hm := s.clientDropped_mem
  have heq : ∀ r, s.clientDropped.held r = s.held r := fun r => by
    rw [State.held, State.stock_clientDropped, State.clientDropped_workers, State.held]
  refine ⟨by simpa [hm] using h.count, fun c => ?_, fun r => ?_, fun c r r' => ?_,
      fun c r => ?_, h.reply⟩
  · simpa [hm, heq] using h.place c
  · simpa [heq] using h.nodup r
  · simpa [heq] using h.apart c r r'
  · simpa [heq] using h.passed c r

theorem step (h : Admission cfg s) (hl : Lifecycle s) (ht : ∀ r, (s.workers r).Tidy)
    (hs : s.step cfg l = some t) : Admission cfg t := by
  cases State.step_cases hs with
  | tick d => exact { h with }
  | begin op hh => exact h.begin hl op
  | call hx => exact h.served hl hx
  | worker hx => exact h.worked (ht _) hx
  | dropClient _ _ => exact h.clientDropped

theorem of_reaches {labels : List Label} (h : Reaches cfg labels s) : Admission cfg s :=
  h.invariant_along (new cfg) fun _ _ _ _ hr hi _ hs =>
    hi.step (Lifecycle.of_reaches hr) (tidy_of_reaches hr) hs

end Admission

/-! ## Replies -/

/-- Every reply that is still to come has its command in the hands of a run. -/
structure Owed (s : State) : Prop where
  live : ∀ (c : CallId) id r, (c, id) ∈ s.stock r → (s.mem.replies c).sender = .live
  fresh : ∀ c, (s.calls c).passed = false → (s.mem.replies c).sender = .live
  settled : ∀ c r, (s.workers r).dropping = some c → (s.mem.replies c).sender ≠ .live
  waiting : ∀ c r cmd, (s.calls c).sentTo = some (r, cmd) →
    (s.mem.replies c).sender = .live → (c, cmd.id) ∈ s.stock r

namespace Owed

variable {cfg : Config} {s t : State} {c : CallId} {i : CallInput} {k : Call} {a : Act} {r : RunId}
  {w : Worker} {e : Effect} {l : Label}

theorem mem_held {id : String} (h : (c, id) ∈ s.stock r) : c ∈ s.held r :=
  List.mem_append_left _ (List.mem_map.mpr ⟨_, h, rfl⟩)

theorem worked (h : Owed s) (ha : Admission cfg s) (ht : (s.workers r).Tidy)
    (hx : (s.workers r).Moves cfg r s.mem l w e) : Owed (s.worked r w e) := by
  have hne := fun r' (hr : r' ≠ r) => State.stock_worked_ne (s := s) (w := w) (e := e) hr
  have quiet (hrep : (s.mem.work r e).replies = s.mem.replies) (hd : w.dropping = none)
      (hp : ((s.worked r w e).stock r).Perm (s.stock r)) : Owed (s.worked r w e) := by
    have hmem : ∀ x r', x ∈ (s.worked r w e).stock r' ↔ x ∈ s.stock r' := by
      intro x r'
      by_cases hr : r' = r
      · subst hr
        exact hp.mem_iff
      · rw [hne r' hr]
    refine ⟨fun c id r' hc => ?_, fun c hc => ?_, fun c r' hc => ?_, fun c r' cmd hc hlive => ?_⟩
    · rw [State.worked_mem, hrep]
      exact h.live c id r' ((hmem _ _).1 hc)
    · rw [State.worked_mem, hrep]
      exact h.fresh c hc
    · rw [State.worked_mem, hrep]
      by_cases hr : r' = r
      · simp [hr, hd] at hc
      · exact h.settled c r' (by simpa [hr] using hc)
    · rw [State.worked_mem, hrep] at hlive
      exact (hmem _ _).2 (h.waiting c r' cmd hc hlive)
  rcases State.stock_worked ht hx with ⟨d, rfl, -, hd, hp⟩ | ⟨d, id, he, -, hd, hp⟩ |
    ⟨-, -, hrep, -, hd, hp⟩
  · exact quiet rfl hd hp
  · -- one reply is settled: its tag leaves the stock and is nowhere else
    obtain ⟨hgone, hother⟩ := s.mem.work_settles r e d he
    have hd_held : d ∈ s.held r := mem_held (hp.mem_iff.2 (List.mem_cons_self ..))
    have hmem : ∀ x r', x ∈ (s.worked r w e).stock r' → x ∈ s.stock r' := by
      intro x r' hx'
      by_cases hr : r' = r
      · subst hr
        exact hp.mem_iff.2 (List.mem_cons_of_mem _ hx')
      · rwa [hne r' hr] at hx'
    have hnot : ∀ id' r', (d, id') ∉ (s.worked r w e).stock r' := by
      intro id' r' hx'
      obtain rfl := ha.apart d r r' hd_held (mem_held (hmem _ _ hx'))
      have hnd : (((d, id) :: (s.worked r w e).stock r).map Prod.fst).Nodup :=
        ((hp.map Prod.fst).nodup_iff.1 (List.nodup_append.mp (ha.nodup r)).1)
      exact (List.nodup_cons.mp hnd).1 (List.mem_map.mpr ⟨_, hx', rfl⟩)
    refine ⟨fun c id' r' hc => ?_, fun c hc => ?_, fun c r' hc => ?_, fun c r' cmd hc hlive => ?_⟩
    · have hcd : c ≠ d := fun hcd => hnot id' r' (hcd ▸ hc)
      rw [State.worked_mem, hother c hcd]
      exact h.live c id' r' (hmem _ _ hc)
    · have hcd : c ≠ d := by
        rintro rfl
        have := ha.passed c r hd_held
        rw [State.worked_calls] at hc
        rw [this] at hc
        cases hc
      rw [State.worked_mem, hother c hcd]
      exact h.fresh c hc
    · by_cases hcd : c = d
      · rw [hcd]
        exact hgone
      · rw [State.worked_mem, hother c hcd]
        by_cases hr : r' = r
        · subst hr
          simp only [State.worked_workers, Function.update_self, hd, Option.some.injEq] at hc
          exact absurd hc.symm hcd
        · exact h.settled c r' (by simpa [hr] using hc)
    · have hcd : c ≠ d := by
        rintro rfl
        exact hgone hlive
      rw [State.worked_mem, hother c hcd] at hlive
      have hold := h.waiting c r' cmd hc hlive
      by_cases hr : r' = r
      · subst hr
        refine (List.mem_cons.mp (hp.mem_iff.1 hold)).resolve_left fun heq => hcd ?_
        exact congrArg Prod.fst heq
      · rwa [hne r' hr]
  · exact quiet hrep hd hp

theorem served (h : Owed s) (ha : Admission cfg s) (hl : Lifecycle s)
    (hx : (s.calls c).Moves cfg c s.mem i k a) : Owed (s.served c k a) := by
  obtain ⟨-, hpassed, -⟩ := hx.permit (ha.reply c)
  have hgrow : ∀ x r', x ∈ s.stock r' → x ∈ (s.served c k a).stock r' := by
    intro x r' hx'
    rcases State.stock_served hl hx with ⟨r, cmd, -, hp, hne⟩ | ⟨-, heq⟩
    · by_cases hr : r' = r
      · subst hr
        exact hp.mem_iff.2 (List.mem_cons_of_mem _ hx')
      · rwa [hne r' hr]
    · rwa [heq]
  refine ⟨fun c' id r' hc => ?_, fun c' hc => ?_, fun c' r' hc => ?_, fun c' r' cmd hc hlive => ?_⟩
  · rw [State.served_mem, Memory.serve_sender]
    rcases State.stock_served hl hx with ⟨r, cmd, rfl, hp, hne⟩ | ⟨-, heq⟩
    · by_cases hr : r' = r
      · subst hr
        rcases List.mem_cons.mp (hp.mem_iff.1 hc) with heq | hc
        · have hc' : c' = c := (congrArg Prod.fst heq).trans (ha.reply c cmd hx.handed.2)
          rw [hc']
          exact h.fresh c (Call.passed_of_holdsPermit hx.handed.1)
        · exact h.live c' id r' hc
      · rw [hne r' hr] at hc
        exact h.live c' id r' hc
    · rw [heq] at hc
      exact h.live c' id r' hc
  · rw [State.served_mem, Memory.serve_sender]
    by_cases hcc : c' = c
    · subst hcc
      refine h.fresh c' ?_
      by_contra hp
      rw [State.served_calls, Function.update_self, hpassed (by simpa using hp)] at hc
      cases hc
    · exact h.fresh c' (by simpa [hcc] using hc)
  · rw [State.served_mem, Memory.serve_sender]
    rw [State.dropping_served hl] at hc
    exact h.settled c' r' hc
  · rw [State.served_mem, Memory.serve_sender] at hlive
    by_cases hcc : c' = c
    · subst hcc
      rcases hx.sentTo (by simpa using hc) with hk | ⟨rfl, hk⟩
      · exact hgrow _ _ (h.waiting c' r' cmd hk hlive)
      · rcases State.stock_served hl hx with ⟨r, cmd', he, hp, -⟩ | ⟨hne, -⟩
        · cases he
          have := ha.reply c' cmd hk
          exact hp.mem_iff.2 (List.mem_cons.mpr (.inl (by rw [Command.tag, this])))
        · exact absurd rfl (hne r' cmd)
    · exact hgrow _ _ (h.waiting c' r' cmd (by simpa [hcc] using hc) hlive)

theorem new (cfg : Config) : Owed (State.new cfg) where
  live c id r hc := by simp [State.new, State.stock, Worker.carried, Phase.hand] at hc
  fresh c _ := rfl
  settled c r hc := by simp [State.new] at hc
  waiting c r cmd hc := by simp [State.new, Call.sentTo] at hc

theorem called (h : Owed s) (hl : Lifecycle s) (op : Operation) : Owed (s.called op) := by
  have hop : op.call.sentTo = none := by cases op <;> rfl
  refine ⟨h.live, fun c hc => ?_, h.settled, fun c r cmd hc => ?_⟩
  · by_cases hcb : c = s.begun
    · refine h.fresh c ?_
      rw [hcb, hl.idle _ le_rfl]
      rfl
    · exact h.fresh c (by simpa [hcb] using hc)
  · by_cases hcb : c = s.begun
    · simp [hcb, hop] at hc
    · exact h.waiting c r cmd (by simpa [hcb] using hc)

theorem clientDropped (h : Owed s) : Owed s.clientDropped := by
  have hm := s.clientDropped_mem
  have heq := State.stock_clientDropped s
  refine ⟨fun c id r => ?_, fun c => ?_, fun c r => ?_, fun c r cmd => ?_⟩
  · simpa [heq, hm] using h.live c id r
  · simpa [hm] using h.fresh c
  · simpa [hm] using h.settled c r
  · simpa [heq, hm] using h.waiting c r cmd

theorem of_reaches {labels : List Label} (h : Reaches cfg labels s) : Owed s := by
  refine h.invariant_along (new cfg) fun _ s l t hr hi _ hs => ?_
  have hl := Lifecycle.of_reaches hr
  cases State.step_cases hs with
  | tick d => exact ⟨hi.live, hi.fresh, hi.settled, hi.waiting⟩
  | begin op hh => exact hi.called hl op
  | call hx => exact hi.served (.of_reaches hr) hl hx
  | worker hx => exact hi.worked (.of_reaches hr) (tidy_of_reaches hr _) hx
  | dropClient _ _ => exact hi.clientDropped

end Owed

namespace Admission

variable {cfg : Config} {s : State} {c : CallId} {r : RunId}

/-- A caller about to enqueue finds room: the commands in the queue and the
caller's own hold different permits. -/
theorem queue_has_room (h : Admission cfg s) (hc : (s.calls c).holdsPermit = true) (r : RunId) :
    (s.mem.cells r).commands.length < cfg.options.maxInFlight := by
  have hnot : c ∉ s.held r := fun hr => by
    rw [h.not_holds hr] at hc
    cases hc
  have hnodup : (c :: s.held r).Nodup := List.nodup_cons.mpr ⟨hnot, h.nodup r⟩
  have hsub : (c :: s.held r).toFinset ⊆ s.mem.permits := by
    intro x hx
    rcases List.mem_cons.mp (List.mem_toFinset.mp hx) with rfl | hx
    · exact (h.place x).2 (.inl hc)
    · exact (h.place x).2 (.inr ⟨r, hx⟩)
  have hcard := Finset.card_le_card hsub
  rw [List.toFinset_card_of_nodup hnodup] at hcard
  have hlen : (s.mem.cells r).commands.length ≤ (s.held r).length := by
    simp [State.held, State.stock]
  have := h.count
  simp only [List.length_cons] at hcard
  omega

theorem never_full {labels : List Label} {args : SendArgs} (h : Reaches cfg labels s) :
    s.calls c ≠ .send args (.refused .backpressure) := by
  refine h.invariant_along (I := fun s => ∀ c args, s.calls c ≠ .send args (.refused .backpressure))
    (fun c args => nofun) ?_ c args
  intro _ s l t hr hi _ hs c args hc
  cases State.step_cases hs with
  | tick d => exact hi c args hc
  | begin op hh =>
    by_cases hcb : c = s.begun
    · simp only [State.called_calls, hcb, Function.update_self] at hc
      cases op <;> cases hc
    · exact hi c args (by simpa [hcb] using hc)
  | @call c' i k a hx =>
    by_cases hcc : c = c'
    · subst hcc
      obtain ⟨hk, r, hfull⟩ := hx.full (by simpa using hc)
      exact absurd ((Admission.of_reaches hr).queue_has_room hk r) (not_lt.mpr hfull)
    · exact hi c args (by simpa [hcc] using hc)
  | worker hx => exact hi c args hc
  | dropClient _ _ => exact hi c args hc

/-- A finished run holds nothing. -/
theorem finished_holds_nothing (hl : Lifecycle s) (hp : Published s) (ht : ∀ r, (s.workers r).Tidy)
    (hf : (s.mem.cells r).finished = true) : s.held r = [] := by
  have hover := (hl.finished r).1 hf
  have hcommands : (s.mem.cells r).commands = [] := by
    by_cases hr : (r : ℕ) < s.mem.started
    · exact (hp.coupled r hr).drained hover
    · rw [(hl.fresh r (not_lt.mp hr)).2.1]
  have hpending := (ht r).empty (by rw [hover]; rfl)
  simp [State.held, State.stock, Worker.carried, hcommands, hpending, hover, Phase.hand,
      (ht r).ended hover]

end Admission

/-- Every permit is free or in one place, with a reply that is still owed until
the permit is on its way back; a command always finds room in the queue; and a
finished run has nothing left, so that whoever waits on it returns. -/
theorem admission_accounting {cfg : Config} {labels : List Label} {s : State}
    (h : Reaches cfg labels s) :
    s.mem.slots + s.mem.permits.card = cfg.options.maxInFlight ∧
    (∀ c, c ∈ s.mem.permits ↔ (s.calls c).holdsPermit = true ∨ ∃ r, c ∈ s.held r) ∧
    (∀ r, (s.held r).Nodup) ∧
    (∀ c r r', c ∈ s.held r → c ∈ s.held r' → r = r') ∧
    (∀ c r, c ∈ s.held r → (s.calls c).holdsPermit = false) ∧
    (∀ c, (s.calls c).holdsPermit = true → (s.mem.replies c).sender = .live) ∧
    (∀ (c : CallId) id r, (c, id) ∈ s.stock r → (s.mem.replies c).sender = .live) ∧
    (∀ c r, (s.workers r).dropping = some c → (s.mem.replies c).sender ≠ .live) ∧
    (∀ c r cmd, (s.calls c).sentTo = some (r, cmd) → (s.mem.replies c).sender = .live →
      (c, cmd.id) ∈ s.stock r) ∧
    (∀ c args cmd r, s.calls c = .send args (.enqueue cmd) →
      (s.mem.cells r).commands.length < cfg.options.maxInFlight) ∧
    (∀ c args, s.calls c ≠ .send args (.refused .backpressure)) ∧
    (∀ r, (s.mem.cells r).finished = true → s.held r = [] ∧
      ∀ c args cmd, s.calls c = .send args (.wait r cmd) →
        ∃ result t, s.step cfg (.call c .go) = some t ∧ t.calls c = .send args (.done result)) := by
  have hl := Lifecycle.of_reaches h
  have ha := Admission.of_reaches h
  have ho := Owed.of_reaches h
  refine ⟨ha.count, ha.place, ha.nodup, ha.apart, fun c r hc => ha.not_holds hc,
    fun c hc => ho.fresh c (Call.passed_of_holdsPermit hc), ho.live, ho.settled, ho.waiting,
    fun c args cmd r hc => ha.queue_has_room (c := c) (by rw [hc]; rfl) r,
    fun c args => Admission.never_full h, fun r hf => ?_⟩
  have hnone := Admission.finished_holds_nothing hl (.of_reaches h) (tidy_of_reaches h) hf
  refine ⟨hnone, fun c args cmd hc => ?_⟩
  have hsettled : (s.mem.replies c).sender ≠ .live := fun hlive => by
    have := Owed.mem_held (ho.waiting c r cmd (by rw [hc]; rfl) hlive)
    rw [hnone] at this
    cases this
  cases hsender : (s.mem.replies c).sender with
  | live => exact absurd hsender hsettled
  | sent result =>
    refine ⟨result, s.served c (.send args (.done result)) .skip, ?_, by simp⟩
    simp [State.step, hc, Call.next, SendPhase.next, hsender]
  | gone =>
    refine ⟨.error .disconnected,
      s.served c (.send args (.done (.error .disconnected))) .skip, ?_, by simp⟩
    simp [State.step, hc, Call.next, SendPhase.next, hsender]

theorem admission_accounting_sending :
    ∃ s, Reaches (sample [accepted "u0"]) sending s ∧ s.held 0 = [1] ∧ s.mem.permits.card = 1 := by
  obtain ⟨s, h, ho⟩ := reaches_of_play (sample [accepted "u0"]) sending
    (fun s => s.held 0 = [1] && s.mem.slots = 255) (by decide +kernel)
  simp only [Bool.and_eq_true, decide_eq_true_eq] at ho
  have hcount := (admission_accounting h).1
  rw [ho.2, show (sample [accepted "u0"]).options.maxInFlight = 255 + 1 from rfl] at hcount
  exact ⟨s, h, ho.1, Nat.add_left_cancel hcount⟩

end WukongSdk
