import WukongSdk.Dispatch
import WukongSdk.Presence
import WukongSdk.Progress

/-!
# The client on the network

What a peer sees of a client over all its runs: one connection at a time, a
login as its first frame, and nothing else before the login is accepted. `Link`
is that protocol as a machine; the accesses of all workers drive it.
-/
namespace WukongSdk

/-- Where the client stands; the number is that of the newest connection. -/
inductive Link where
  | idle (accepted : ℕ)
  | dialed (accepted : ℕ)
  | greeted (accepted : ℕ)
  | admitted (accepted : ℕ)
  | online (accepted : ℕ)
  deriving DecidableEq

/-- Accesses that have nothing to do with a connection. -/
def Effect.offline : Effect → Bool
  | .dial | .login _ | .authenticated _ | .rejected _ | .bump | .receive _ _ | .write _ _
  | .lost _ _ | .cancelled => false
  | _ => true

/-- Accesses that leave the connection in use what it is. -/
def Effect.onward : Effect → Bool
  | .bump | .receive _ _ | .write _ _ => true
  | e => e.offline

/-- The connection a frame goes over. -/
def Effect.carrier : Effect → Option ℕ
  | .receive k _ | .write k _ => some k
  | _ => none

namespace Link

def accepted : Link → ℕ
  | .idle n | .dialed n | .greeted n | .admitted n | .online n => n

/-- Dropping the future of `supervise` drops its connection. -/
def step : Link → Effect → Option Link
  | .idle n, .dial => some (.dialed n)
  | .dialed n, .login _ => some (.greeted n)
  | .dialed n, .rejected _ | .greeted n, .rejected _ => some (.idle n)
  | .greeted n, .authenticated _ => some (.admitted n)
  | .admitted n, .bump => some (.online (n + 1))
  | .online n, .receive k _ => if k = n then some (.online n) else none
  | .online n, .write k _ => if k = n then some (.online n) else none
  | .online n, .lost k _ => if k = n then some (.idle n) else none
  | link, .cancelled => if link = .admitted link.accepted then none else some (.idle link.accepted)
  | link, e => if e.offline then some link else none

/-- What one access can do to the connection. -/
inductive Turn : Link → Effect → Link → Prop
  | dial (n) : Turn (.idle n) .dial (.dialed n)
  | login (n request) : Turn (.dialed n) (.login request) (.greeted n)
  | undialed (n e) : Turn (.dialed n) (.rejected e) (.idle n)
  | refused (n e) : Turn (.greeted n) (.rejected e) (.idle n)
  | authenticated (n result) : Turn (.greeted n) (.authenticated result) (.admitted n)
  | bump (n) : Turn (.admitted n) .bump (.online (n + 1))
  | receive (n frame) : Turn (.online n) (.receive n frame) (.online n)
  | write (n wire) : Turn (.online n) (.write n wire) (.online n)
  | lost (n e) : Turn (.online n) (.lost n e) (.idle n)
  | cancelled (link) (h : link ≠ .admitted link.accepted) :
      Turn link .cancelled (.idle link.accepted)
  | offline (link e) (he : e.offline = true) : Turn link e link

theorem turn_of_step {link link' : Link} {e : Effect} (h : step link e = some link') :
    Turn link e link' := by
  revert h
  fun_cases step link e <;> grind [Turn]

end Link

/-- Phases in which the session's socket is the newest one. -/
def Phase.seatedOrLost : Phase → Bool
  | .supervise (.lost _) => true
  | p => p.seated

namespace Worker

/-- The connection a worker has. -/
def link (n : ℕ) (w : Worker) : Link :=
  match w.phase with
  | .supervise p =>
    match p with
    | .dialing _ | .opened _ | .hello _ _ => .dialed n
    | .greeting _ _ | .awaiting _ _ | .flushing _ _ => .greeted n
    | .bump _ => .admitted n
    | .raise _ | .ready _ | .first _ | .announce _ | .begin | .session _ | .lost _ => .online n
    | _ => .idle n
  | _ => .idle n

variable {cfg : Config} {r : RunId} {m : Memory} {w w' : Worker} {i : Input} {e : Effect} {l : Label}

attribute [local grind] link Phase.seatedOrLost Phase.seated Link.accepted
attribute [local grind =] Memory.work Memory.modify Memory.setSender
  Memory.freeSlot Link.step Effect.offline

theorem next_link (h : Access cfg r m w i w' e)
    (hw : w.phase.seatedOrLost = true → w.session.socket = m.sockets) :
    Link.step (w.link m.sockets) e = some (w'.link (m.work r e).sockets) ∧
      (w'.phase.seatedOrLost = true → w'.session.socket = (m.work r e).sockets) := by
  cases h
  all_goals grind -linarith

theorem Moves.link (h : w.Moves cfg r m l w' e) (hrest : w.Resting)
    (hw : w.phase.seatedOrLost = true → w.session.socket = m.sockets) :
    Link.step (w.link m.sockets) e = some (w'.link (m.work r e).sockets) ∧
      (w'.phase.seatedOrLost = true → w'.session.socket = (m.work r e).sockets) := by
  have still : Link.step (w.link m.sockets) .skip = some (w.link m.sockets) := by
    cases w.link m.sockets <;> rfl
  cases h with
  | next hp h => exact next_link h hw
  | wake hp hq hc | resume hp hq => exact ⟨still, hw⟩
  | cancel hp hq hc =>
    refine ⟨?_, by rintro ⟨⟩⟩
    rcases hrest hp with ha | ⟨htop, -⟩ | hover
    · cases awaiting_of_awaits ha with
      | drain he => cases hq.symm.trans he
      | _ =>
        clear hq
        simp [Worker.link, *, Link.step, Link.accepted, Memory.work]
    · simp [Worker.link, htop, Link.step, Link.accepted, Memory.work]
    · rw [hover] at hq
      cases hq
  | suspend hp hd ha => exact ⟨still, hw⟩

end Worker

namespace State

/-- The worker of the newest run. -/
def newest (s : State) : Worker := s.workers (s.mem.started - 1)

def link (s : State) : Link := s.newest.link s.mem.sockets

/-- What all workers have done, in order. -/
def effects (s : State) : List Effect := s.log.map Prod.snd

/-- The client follows the protocol of its connections. -/
structure Linked (s : State) : Prop where
  follows : Run Link.step (fun _ _ => True) (.idle 0) s.effects s.link
  socket : s.newest.phase.seatedOrLost = true → s.newest.session.socket = s.mem.sockets

variable {cfg : Config} {s t : State} {r : RunId} {l : Label} {labels : List Label}

theorem newest_of_alive (hl : Lifecycle s) (hr : s.alive r) : s.newest = s.workers r := by
  rw [newest, ← (hl.alive r hr).1, Nat.add_sub_cancel]

theorem newest_served (s : State) (c : CallId) (k : Call) (a : Act) :
    (s.served c k a).newest = s.newest ∨ a = .spawn ∧ (s.served c k a).newest = .spawned := by
  rcases s.mem.serve_started c a with hn | ⟨rfl, hn⟩
  · have hne : a ≠ .spawn := fun ha => by
      rw [ha] at hn
      exact Nat.succ_ne_self _ hn
    left
    rw [newest, served_mem, hn, served_workers, newest]
    cases a <;> first | rfl | exact absurd rfl hne
  · right
    rw [newest, served_mem, hn, Nat.add_sub_cancel, served_workers, spawnWorker, Function.update_self]
    exact ⟨rfl, rfl⟩

theorem newest_worked {w : Worker} {e : Effect} (hl : Lifecycle s) (hr : s.alive r) :
    (s.worked r w e).newest = w := by
  rw [newest, worked_mem, Memory.work_started, ← (hl.alive r hr).1, Nat.add_sub_cancel,
    worked_workers, Function.update_self]

theorem newest_clientDropped (s : State) : s.clientDropped.newest = s.newest := by
  rw [newest, s.clientDropped_mem, clientDropped_workers]
  rfl

theorem Linked.of_eq (h : s.Linked) (hlog : t.log = s.log) (hw : t.newest = s.newest)
    (hn : t.mem.sockets = s.mem.sockets) : t.Linked := by
  refine ⟨?_, ?_⟩
  · rw [effects, link, hlog, hw, hn]
    exact h.follows
  · rw [hw, hn]
    exact h.socket

theorem linked_of_reaches (h : Reaches cfg labels s) : s.Linked := by
  refine h.invariant_along (I := Linked) ⟨.nil _, by rintro ⟨⟩⟩ ?_
  intro _ s l t hreach hi _ hs
  have hl := Lifecycle.of_reaches hreach
  cases State.step_cases hs with
  | tick d => exact hi.of_eq rfl rfl rfl
  | begin op hh => exact hi.of_eq rfl rfl rfl
  | @call c i k a hx =>
    rcases s.newest_served c k a with hn | ⟨rfl, hn⟩
    · exact hi.of_eq rfl hn (Memory.serve_sockets ..)
    · have hover : s.newest.phase = .over := not_not.mp (torn_of_spawn hl hs _)
      refine ⟨?_, ?_⟩
      · have hold := hi.follows
        rw [link, Worker.link, hover] at hold
        rw [link, hn, served_mem, Memory.serve_sockets]
        exact hold
      · rw [hn]
        rintro ⟨⟩
  | @worker r l w e hx =>
    have hr := (hx.finish (hl.ended r)).1
    have hnew : (s.worked r w e).newest = w := newest_worked hl hr
    have hstep := hx.link ((Staged.of_reaches hreach).resting r) (newest_of_alive hl hr ▸ hi.socket)
    refine ⟨?_, ?_⟩
    · rw [effects, worked_log, List.map_append, link, hnew, worked_mem]
      refine hi.follows.snoc trivial ?_
      rw [link, newest_of_alive hl hr]
      exact hstep.1
    · rw [hnew, worked_mem]
      exact hstep.2
  | dropClient _ _ =>
    refine hi.of_eq rfl s.newest_clientDropped ?_
    rw [s.clientDropped_mem]

end State

/-! ## What the protocol means -/

/-- The login over a fresh connection is accepted. -/
def Effect.logsIn : Effect → Bool
  | .authenticated _ => true
  | _ => false

/-- A login was accepted, and its connection is not numbered yet. -/
def Phase.unnumbered : Phase → Bool
  | .supervise (.bump _) => true
  | _ => false

/-- Accesses after which a connection is gone. -/
def Effect.hangsUp : Effect → Bool
  | .rejected _ | .lost _ _ | .cancelled => true
  | _ => false

/-- Onward accesses, with frames over connection `k` only. -/
def Effect.serves (k : ℕ) (e : Effect) : Bool := e.onward && e.carrier.all (· = k)

/-- A login was written on a fresh connection, as the first thing. -/
def Introduced (effects : List Effect) : Prop :=
  ∃ before before', Since Effect.offline .dial before before' ∧
    ∃ request, Since Effect.offline (.login request) before' effects

namespace Link

/-- The logins accepted so far. -/
def logins : Link → ℕ
  | .admitted n => n + 1
  | link => link.accepted

/-- What led to a point of the protocol. -/
def History (effects : List Effect) (link : Link) : Prop :=
  effects.countP Effect.logsIn = link.logins ∧
  match link with
  | .idle _ => ∀ before mid, effects = before ++ .dial :: mid → ∃ e ∈ mid, e.hangsUp = true
  | .dialed _ => ∃ before, Since Effect.offline .dial before effects
  | .greeted _ => Introduced effects
  | .admitted _ => ∃ before result, Introduced before ∧
      Since Effect.offline (.authenticated result) before effects
  | .online n => ∃ before result, Introduced before ∧
      Since (Effect.serves n) (.authenticated result) before effects

variable {link link' : Link} {e : Effect} {effects : List Effect}

theorem countP_logsIn {n : ℕ} (h : effects.countP Effect.logsIn = n) (he : e.logsIn = false) :
    (effects ++ [e]).countP Effect.logsIn = n := by
  rw [List.countP_append, h, List.countP_singleton, if_neg (by simp [he]), Nat.add_zero]

/-- An access is the last one, or an earlier one followed by the last. -/
theorem split_snoc {before mid : List Effect} {d : Effect} (h : effects ++ [e] = before ++ d :: mid) :
    (e = d ∧ effects = before) ∨ ∃ mid', mid = mid' ++ [e] ∧ effects = before ++ d :: mid' := by
  rcases List.eq_nil_or_concat mid with rfl | ⟨mid', last, rfl⟩
  · obtain ⟨heq, hlast⟩ := List.append_inj' h rfl
    exact .inl ⟨(List.cons.inj hlast).1, heq⟩
  · rw [List.concat_eq_append, ← List.cons_append, ← List.append_assoc] at h
    obtain ⟨heq, hlast⟩ := List.append_inj' h rfl
    obtain rfl := (List.cons.inj hlast).1
    exact .inr ⟨mid', List.concat_eq_append, heq⟩

theorem hangsUp_snoc (he : e.hangsUp = true) (before mid : List Effect)
    (h : effects ++ [e] = before ++ .dial :: mid) : ∃ x ∈ mid, x.hangsUp = true := by
  rcases split_snoc h with ⟨rfl, -⟩ | ⟨mid', rfl, -⟩
  · cases he
  · exact ⟨e, List.mem_append_right _ (List.mem_singleton_self _), he⟩

theorem logsIn_of_offline (h : e.offline = true) : e.logsIn = false := by
  cases e <;> first | rfl | cases h

theorem serves_of_offline {n : ℕ} (h : e.offline = true) : e.serves n = true := by
  cases e <;> first | rfl | cases h

theorem history_offline (h : History effects link) (he : e.offline = true) :
    History (effects ++ [e]) link := by
  refine ⟨countP_logsIn h.1 (logsIn_of_offline he), ?_⟩
  cases link with
  | idle n =>
    intro before mid hsplit
    rcases split_snoc hsplit with ⟨rfl, -⟩ | ⟨mid', rfl, heq⟩
    · cases he
    · obtain ⟨x, hx, hup⟩ := h.2 before mid' heq
      exact ⟨x, List.mem_append_left _ hx, hup⟩
  | dialed n =>
    obtain ⟨before, hsince⟩ := h.2
    exact ⟨before, hsince.snoc he⟩
  | greeted n =>
    obtain ⟨before, before', hdial, request, hlogin⟩ := h.2
    exact ⟨before, before', hdial, request, hlogin.snoc he⟩
  | admitted n =>
    obtain ⟨before, result, hintro, hauth⟩ := h.2
    exact ⟨before, result, hintro, hauth.snoc he⟩
  | online n =>
    obtain ⟨before, result, hintro, hauth⟩ := h.2
    exact ⟨before, result, hintro, hauth.snoc (serves_of_offline he)⟩

theorem history_authenticated {n : ℕ} {result : ConnectResult} (h : History effects (.greeted n)) :
    History (effects ++ [.authenticated result]) (.admitted n) := by
  refine ⟨?_, effects, _, h.2, .start _ _ _⟩
  rw [List.countP_append, h.1]
  rfl

/-- Until the generation is raised nothing has gone over the new connection. -/
theorem history_bump {n : ℕ} (h : History effects (.admitted n)) :
    History (effects ++ [.bump]) (.online (n + 1)) := by
  obtain ⟨hn, before, result, hintro, hauth⟩ := h
  exact ⟨countP_logsIn hn rfl, before, result, hintro,
    (hauth.mono fun _ => serves_of_offline).snoc rfl⟩

theorem history_frame {n : ℕ} (h : History effects (.online n)) (hl : e.logsIn = false)
    (he : e.serves n = true) : History (effects ++ [e]) (.online n) := by
  obtain ⟨hn, before, result, hintro, hauth⟩ := h
  exact ⟨countP_logsIn hn hl, before, result, hintro, hauth.snoc he⟩

/-- A connection that is given up has been numbered. -/
theorem history_hungUp {n : ℕ} (h : effects.countP Effect.logsIn = n) (he : e.hangsUp = true) :
    History (effects ++ [e]) (.idle n) :=
  ⟨countP_logsIn h (by cases e <;> first | rfl | cases he), hangsUp_snoc he⟩

theorem history_step (h : History effects link) (hs : step link e = some link') :
    History (effects ++ [e]) link' := by
  cases turn_of_step hs with
  | dial => exact ⟨countP_logsIn h.1 rfl, effects, .start _ _ _⟩
  | login =>
    obtain ⟨before, hdial⟩ := h.2
    exact ⟨countP_logsIn h.1 rfl, before, effects, hdial, _, .start _ _ _⟩
  | authenticated => exact history_authenticated h
  | bump => exact history_bump h
  | receive | write =>
    exact history_frame h rfl (by simp [Effect.serves, Effect.onward, Effect.carrier])
  | undialed | refused | lost => exact history_hungUp h.1 rfl
  | cancelled _ hnot =>
    refine history_hungUp (h.1.trans ?_) rfl
    cases link <;> first | rfl | exact absurd rfl hnot
  | offline _ _ he => exact history_offline h he

theorem history_run (h : Run step (fun _ _ => True) (.idle 0) effects link) :
    History effects link := by
  induction h with
  | nil => exact ⟨rfl, fun before mid hsplit => by cases before <;> cases hsplit⟩
  | snoc _ _ hs ih => exact history_step ih hs

/-- The point of the protocol at which an access was made. -/
theorem history_split {pre post : List Effect}
    (h : Run step (fun _ _ => True) (.idle 0) (pre ++ e :: post) link) :
    ∃ u v, History pre u ∧ step u e = some v := by
  obtain ⟨u, hu, hrest⟩ := h.split
  obtain ⟨v, -, hv, -⟩ := hrest.uncons
  exact ⟨u, v, history_run hu, hv⟩

theorem idle_of_dial (h : step link .dial = some link') : ∃ n, link = .idle n := by
  cases turn_of_step h with
  | dial n => exact ⟨n, rfl⟩
  | offline _ _ he => cases he

theorem dialed_of_login {request : Value} (h : step link (.login request) = some link') :
    ∃ n, link = .dialed n := by
  cases turn_of_step h with
  | login n => exact ⟨n, rfl⟩
  | offline _ _ he => cases he

theorem online_of_carrier {k : ℕ} (he : e.carrier = some k) (h : step link e = some link') :
    link = .online k := by
  cases turn_of_step h with
  | receive | write =>
    cases he
    rfl
  | offline _ _ hoff =>
    cases e with
    | receive | write => cases hoff
    | _ => cases he
  | _ => cases he

end Link

/-! ## Logins -/

/-- A worker about to log in has just drawn the id of its request. -/
def Worker.Prepared (w : Worker) (effects : List Effect) : Prop :=
  ∀ deadline id, w.phase = .supervise (.hello deadline id) →
    w.dropping = none ∧ w.polling = true ∧ ∃ before, effects = before ++ [.uuid id]

namespace Worker

variable {cfg : Config} {r : RunId} {m : Memory} {w w' : Worker} {i : Input} {e : Effect} {l : Label}

theorem next_hello {deadline : ℕ} {id : String} (h : Access cfg r m w i w' e)
    (hw : w'.phase = .supervise (.hello deadline id)) :
    (e = .uuid id ∧ w'.dropping = none) ∨
      (w.dropping ≠ none ∧ w.phase = .supervise (.hello deadline id)) := by
  cases h
  all_goals grind -linarith

theorem next_login {request : Value} (h : Access cfg r m w i w' (.login request)) :
    ∃ deadline id timestamp, w.phase = .supervise (.hello deadline id) ∧
      request = Protocol.connect cfg.auth timestamp id ∧
      (cfg.codec.render request).utf8ByteSize ≤ cfg.options.maxMessageSize := by
  cases h
  all_goals grind -linarith

theorem Moves.prepared {effects : List Effect} (h : w.Moves cfg r m l w' e)
    (hw : w.Prepared effects) : w'.Prepared (effects ++ [e]) := by
  intro deadline id hq
  cases h with
  | next hp h =>
    rcases next_hello h hq with ⟨rfl, hd⟩ | ⟨hd, hold⟩
    · exact ⟨hd, (next_polling h).trans hp, effects, rfl⟩
    · exact absurd (hw deadline id hold).1 hd
  | wake hp _ _ | resume hp _ =>
    rw [(hw deadline id hq).2.1] at hp
    cases hp
  | cancel _ _ _ => cases hq
  | suspend hp hd ha =>
    rw [show (w.setPolling false).phase = w.phase from rfl] at hq
    rw [hq] at ha
    cases ha

end Worker

theorem prepared_of_reaches {cfg : Config} {labels : List Label} {s : State}
    (h : Reaches cfg labels s) (r : RunId) (hr : s.alive r) : (s.workers r).Prepared s.effects := by
  refine h.invariant_along (I := fun s => ∀ r, s.alive r → (s.workers r).Prepared s.effects)
    (fun r hr => absurd rfl hr) ?_ r hr
  intro _ s l t hreach hi _ hs r hr
  have hl := Lifecycle.of_reaches hreach
  cases State.step_cases hs with
  | tick d => exact hi r hr
  | begin op hh => exact hi r hr
  | @call c i k a hx =>
    rw [State.served_workers]
    rcases s.spawnWorker_cases r a with hw | ⟨-, -, hw⟩
    · rw [hw]
      exact hi r (by rwa [State.alive, State.served_workers, hw] at hr)
    · rw [hw]
      exact fun deadline id hq => by cases hq
  | @worker r' l w e hx =>
    have hr' := (hx.finish (hl.ended r')).1
    by_cases heq : r = r'
    · subst heq
      rw [State.worked_workers, Function.update_self, State.effects, State.worked_log, List.map_append]
      exact hx.prepared (hi r hr')
    · rw [State.alive, State.worked_workers, Function.update_of_ne heq] at hr
      exact absurd (hl.alone hr hr') heq
  | dropClient _ _ => exact hi r hr

/-- Every login is the connect request of the client's identity under the id just drawn. -/
theorem login_of_reaches {cfg : Config} {labels : List Label} {s : State} (h : Reaches cfg labels s)
    {pre post : List Effect} {request : Value} (hsplit : s.effects = pre ++ .login request :: post) :
    ∃ before id timestamp, pre = before ++ [.uuid id] ∧
      request = Protocol.connect cfg.auth timestamp id ∧
      (cfg.codec.render request).utf8ByteSize ≤ cfg.options.maxMessageSize := by
  refine h.invariant_along (I := fun s => ∀ pre request post,
    s.effects = pre ++ .login request :: post → ∃ before id timestamp, pre = before ++ [.uuid id] ∧
      request = Protocol.connect cfg.auth timestamp id ∧
      (cfg.codec.render request).utf8ByteSize ≤ cfg.options.maxMessageSize)
    (fun pre request post hsplit => by cases pre <;> cases hsplit) ?_ pre request post hsplit
  intro _ s l t hreach hi _ hs pre request post hsplit
  cases State.step_cases hs with
  | tick _ | begin _ _ | call _ | dropClient _ _ => exact hi pre request post hsplit
  | @worker r l w e hx =>
    rw [State.effects, State.worked_log, List.map_append] at hsplit
    rcases Link.split_snoc hsplit with ⟨rfl, rfl⟩ | ⟨post', rfl, heq⟩
    · cases hx with
      | next hp hn =>
        obtain ⟨deadline, id, timestamp, hq, hreq, hsize⟩ := Worker.next_login hn
        have halive : s.alive r := by
          rw [State.alive, hq]
          simp
        obtain ⟨-, -, before, heq⟩ := prepared_of_reaches hreach r halive deadline id hq
        exact ⟨before, id, timestamp, heq, hreq, hsize⟩
    · exact hi pre request post' heq

/-- The logins accepted so far number the connections. -/
theorem Worker.logins_link (n : ℕ) (w : Worker) :
    (w.link n).logins = n + w.phase.unnumbered.toNat := by
  unfold Worker.link
  cases w.phase with
  | supervise p => cases p <;> rfl
  | _ => rfl

/-- A client has one connection at a time. It dials only when the one before is gone; the
first frame it writes is the connect request of its identity, within the size limit and
under the id just drawn; and a session receives or writes a frame only over a connection
whose login was accepted, since when nothing has gone over any other. Connections are
numbered by the logins accepted so far, and the generation is the number of the last one;
only a worker between the two has had a login accepted that is not counted there. -/
theorem one_connection_at_a_time {cfg : Config} {labels : List Label} {s : State}
    (h : Reaches cfg labels s) :
    (s.effects.countP Effect.logsIn = s.mem.sockets + s.newest.phase.unnumbered.toNat ∧
      s.mem.generation = UInt64.ofNat s.mem.sockets) ∧
    (∀ pre post, s.effects = pre ++ .dial :: post →
      ∀ before mid, pre = before ++ .dial :: mid → ∃ e ∈ mid, e.hangsUp = true) ∧
    (∀ pre request post, s.effects = pre ++ .login request :: post →
      (∃ before, Since Effect.offline .dial before pre) ∧
      ∃ before id timestamp, pre = before ++ [.uuid id] ∧
        request = Protocol.connect cfg.auth timestamp id ∧
        (cfg.codec.render request).utf8ByteSize ≤ cfg.options.maxMessageSize) ∧
    (∀ pre e k post, s.effects = pre ++ e :: post → e.carrier = some k →
      pre.countP Effect.logsIn = k ∧
      ∃ before result,
        Introduced before ∧ Since (Effect.serves k) (.authenticated result) before pre) := by
  have hlinked := State.linked_of_reaches h
  have point : ∀ {pre e post}, s.effects = pre ++ e :: post →
      ∃ u v, Link.History pre u ∧ Link.step u e = some v := fun hsplit =>
    Link.history_split (hsplit ▸ hlinked.follows)
  refine ⟨⟨?_, (Seated.of_reaches h).generation⟩, fun pre post hsplit => ?_,
    fun pre request post hsplit => ⟨?_, login_of_reaches h hsplit⟩, fun pre e k post hsplit he => ?_⟩
  · rw [(Link.history_run hlinked.follows).1, State.link, Worker.logins_link]
  · obtain ⟨u, v, hhistory, hv⟩ := point hsplit
    obtain ⟨n, rfl⟩ := Link.idle_of_dial hv
    exact hhistory.2
  · obtain ⟨u, v, hhistory, hv⟩ := point hsplit
    obtain ⟨n, rfl⟩ := Link.dialed_of_login hv
    exact hhistory.2
  · obtain ⟨u, v, hhistory, hv⟩ := point hsplit
    obtain rfl := Link.online_of_carrier he hv
    exact ⟨hhistory.1, hhistory.2⟩

/-- The second run of the reopening has a connection of its own. -/
theorem one_connection_at_a_time_reopening :
    ∃ s, Reaches (sample [accepted "u0", accepted "u2"]) reopening s ∧ s.mem.sockets = 2 ∧
      s.effects.countP Effect.logsIn = 2 ∧ s.mem.generation = 2 := by
  obtain ⟨s, h, ho⟩ := reaches_of_play (sample [accepted "u0", accepted "u2"]) reopening
    (fun s => s.mem.sockets = 2 && !s.newest.phase.unnumbered) (by decide +kernel)
  simp only [Bool.and_eq_true, Bool.not_eq_true', decide_eq_true_eq] at ho
  obtain ⟨hn, hnumbered⟩ := ho
  obtain ⟨hcount, hgen⟩ := (one_connection_at_a_time h).1
  rw [hn, hnumbered] at hcount
  exact ⟨s, h, hn, hcount, by rw [hgen, hn]; rfl⟩

end WukongSdk
