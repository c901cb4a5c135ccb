import WukongSdk.Events

/-!
# Reconnection

Which losses of a session end the run. A worker gives up at once only on an
error of the server; apart from a rejected heartbeat, the only one a session
can produce comes from a `disconnect` notification.
-/
namespace WukongSdk

/-! ## What follows a loss -/

def Effect.isDial : Effect → Bool
  | .dial => true
  | _ => false

/-- The attempts made in a stretch of a trace. -/
def dials (labels : List Effect) : ℕ := labels.countP Effect.isDial

namespace Stage

/-- Where a run stands while the attempts made in the given stretch go on, none of
which has succeeded or was rejected for good. -/
def Chasing (limit : ℕ) (labels : List Effect) : Stage → Prop
  | .dropped e | .parted e => e.isServer = false ∧ dials labels = 0
  | .idle n => dials labels = n ∧ n ≤ limit
  | .waiting n => dials labels + 1 = n ∧ n ≤ limit
  | .dialing n => dials labels = n ∧ 0 < n ∧ n ≤ limit
  | .refused n e => dials labels = n ∧ 0 < n ∧ n ≤ limit ∧ e.isTerminal = false
  | _ => False

end Stage

/-- How the attempts after a loss stand, counted up to the first success: that success has
come, a rejection that no retry can mend was the last of them, the budget is used up, or
they go on. -/
inductive Retried (limit : ℕ) (post : List Effect) : Stage → Prop
  | resumed {stage} (l result l') (hpost : post = l ++ .authenticated result :: l')
      (hfirst : ∀ a, .authenticated a ∉ l) (htried : 0 < dials l) (hle : dials l ≤ limit) :
      Retried limit post stage
  | rejected {stage} (l e l') (hpost : post = l ++ .rejected e :: l')
      (hnone : ∀ a, .authenticated a ∉ post) (hterm : e.isTerminal = true) (htried : 0 < dials l)
      (hle : dials l ≤ limit) (hlast : dials l' = 0)
      (hend : (∃ n, stage = .refused n e) ∨ stage = .ended) : Retried limit post stage
  | exhausted (hnone : ∀ a, .authenticated a ∉ post) (hall : dials post = limit)
      (htold : .emit (.error .reconnectExhausted) ∈ post) : Retried limit post .ended
  | pursued {stage} (hnone : ∀ a, .authenticated a ∉ post) (h : stage.Chasing limit post) :
      Retried limit post stage

theorem dials_append (l l' : List Effect) : dials (l ++ l') = dials l + dials l' :=
  List.countP_append

theorem dials_of_not_dial {e : Effect} (h : e.isDial = false) (l : List Effect) :
    dials (l ++ [e]) = dials l := by
  simp [dials, h]

theorem dials_dial (l : List Effect) : dials (l ++ [.dial]) = dials l + 1 := by
  rw [dials_append]
  rfl

namespace Stage

variable {limit : ℕ} {stage stage' : Stage} {e : Effect} {labels : List Effect}

theorem quiet_not_dial (h : e.quiet = true) : e.isDial = false := by
  cases e <;> first | rfl | cases h

theorem snoc_unauthenticated (h : ∀ a, .authenticated a ∉ labels) (he : ∀ a, e ≠ .authenticated a) :
    ∀ a, .authenticated a ∉ labels ++ [e] := by
  intro a ha
  rcases List.mem_append.mp ha with ha | ha
  · exact h a ha
  · exact he a (List.mem_singleton.mp ha).symm

/-- After a terminal rejection no attempt is made. -/
theorem refused_step {n : ℕ} {error : Error} (ht : error.isTerminal = true) (hc : e ≠ .cancelled)
    (hst : stage = .refused n error ∨ stage = .ended) (hs : step limit stage e = some stage') :
    e.isDial = false ∧ (∀ a, e ≠ .authenticated a) ∧
      (stage' = .refused n error ∨ stage' = .ended) := by
  rcases hst with rfl | rfl
  · cases turn_of_step hs with
    | failed => exact ⟨rfl, by simp, .inr rfl⟩
    | spared _ _ _ hf =>
      rw [hf] at ht
      cases ht
    | quiet _ _ hq =>
      refine ⟨quiet_not_dial hq, ?_, .inl rfl⟩
      rintro a rfl
      cases hq
  · cases turn_of_step hs with
    | quiet _ _ hq =>
      refine ⟨quiet_not_dial hq, ?_, .inr rfl⟩
      rintro a rfl
      cases hq

/-- An attempt in a row is counted, and the row ends in one of the three ways only. -/
theorem chasing_step (hnone : ∀ a, .authenticated a ∉ labels) (h : Chasing limit labels stage)
    (hc : e ≠ .cancelled) (hs : step limit stage e = some stage') :
    Retried limit (labels ++ [e]) stage' := by
  have hsnoc := snoc_unauthenticated hnone (e := e)
  cases turn_of_step hs with
  | dial n => exact .pursued (hsnoc (by simp)) ⟨by rw [dials_dial, h.1], h.1 ▸ Nat.succ_pos _, h.2⟩
  | authenticated n result => exact .resumed labels result [] rfl hnone (h.1 ▸ h.2.1) (h.1 ▸ h.2.2)
  | rejected n error =>
    by_cases ht : error.isTerminal = true
    · exact .rejected labels error [] rfl (hsnoc (by simp)) ht (h.1 ▸ h.2.1) (h.1 ▸ h.2.2) rfl
        (.inl ⟨n, rfl⟩)
    · refine .pursued (hsnoc (by simp)) ⟨?_, h.2.1, h.2.2, by simpa using ht⟩
      rw [dials_of_not_dial rfl, h.1]
  | failed n error hend =>
    rcases hend with rfl | ht
    · exact absurd h.2.1 (lt_irrefl _)
    · rw [h.2.2.2] at ht
      cases ht
  | spared => exact .pursued (hsnoc (by simp)) ⟨by rw [dials_of_not_dial rfl, h.1], h.2.2.1⟩
  | dismissed error hserver =>
    rw [h.1] at hserver
    cases hserver
  | parted error hserver =>
    exact .pursued (hsnoc (by simp)) ⟨hserver, by rw [dials_of_not_dial rfl, h.2]⟩
  | report => exact .pursued (hsnoc (by simp)) ⟨by rw [dials_of_not_dial rfl, h.2], Nat.zero_le _⟩
  | reconnecting n delay hn =>
    exact .pursued (hsnoc (by simp)) ⟨by rw [dials_of_not_dial rfl, h.1], hn⟩
  | exhausted n hn =>
    refine .exhausted (hsnoc (by simp)) ?_ (by simp)
    rw [dials_of_not_dial rfl, h.1]
    exact le_antisymm h.2 hn
  | quiet _ _ hq =>
    have hd : dials (labels ++ [e]) = dials labels := dials_of_not_dial (quiet_not_dial hq) labels
    refine .pursued (hsnoc ?_) ?_
    · rintro a rfl
      cases hq
    · cases stage <;> simp_all [Chasing]
  | waitCancelled | dialCancelled => exact absurd rfl hc
  | _ => exact h.elim

theorem retried_step (h : Retried limit labels stage) (hc : e ≠ .cancelled)
    (hs : step limit stage e = some stage') : Retried limit (labels ++ [e]) stage' := by
  cases h with
  | resumed l result l' hpost hfirst htried hle =>
    exact .resumed l result (l' ++ [e]) (by simp [hpost]) hfirst htried hle
  | rejected l error l' hpost hnone hterm htried hle hlast hend =>
    obtain ⟨n, hn⟩ : ∃ n, stage = .refused n error ∨ stage = .ended := by
      rcases hend with ⟨n, hn⟩ | hended
      · exact ⟨n, .inl hn⟩
      · exact ⟨0, .inr hended⟩
    obtain ⟨hdial, hauth, hnext⟩ := refused_step hterm hc hn hs
    refine .rejected l error (l' ++ [e]) (by simp [hpost]) (snoc_unauthenticated hnone hauth) hterm
      htried hle ?_ (hnext.imp_left fun h => ⟨n, h⟩)
    rw [dials_of_not_dial hdial, hlast]
  | exhausted hnone hall htold =>
    cases turn_of_step hs with
    | quiet _ _ hq =>
      refine .exhausted (snoc_unauthenticated hnone ?_) ?_ (List.mem_append_left _ htold)
      · rintro a rfl
        cases hq
      · rw [dials_of_not_dial (quiet_not_dial hq), hall]
  | pursued hnone h => exact chasing_step hnone h hc hs

/-- A loss that was not the server's is being dealt with, or the attempts have ended. -/
theorem retried_run {post : List Effect} {error : Error}
    (h : Run (step limit) (fun _ _ => True) (.dropped error) post stage)
    (hs : error.isServer = false) (hc : .cancelled ∉ post) : Retried limit post stage := by
  induction h with
  | nil => exact .pursued (by simp) ⟨hs, rfl⟩
  | @snoc u v labels e _ _ hstep ih =>
    exact retried_step (ih fun hmem => hc (List.mem_append_left _ hmem))
      (fun heq => hc (List.mem_append_right _ (heq ▸ List.mem_singleton_self _))) hstep

theorem dropped_of_reason {code : Int64}
    (h : step limit stage (.emit (.disconnect (.server code))) = some stage') :
    stage = .dropped (.server code) := by
  generalize hevent : Event.disconnect (.server code) = event at h
  cases turn_of_step h with
  | dismissed e | parted e => cases e <;> simp_all [Error.reason]
  | quiet _ _ hq => cases hq
  | _ => cases hevent

theorem dropped_of_lost {k : ℕ} {error : Error}
    (h : step limit stage (.lost k error) = some stage') : stage' = .dropped error := by
  cases turn_of_step h with
  | lost => rfl
  | quiet _ _ hq => cases hq

end Stage

/-- With a budget, a run that is over has made an attempt. -/
theorem Retried.dials_pos {limit : ℕ} {post : List Effect} (h : Retried limit post .ended)
    (hl : 0 < limit) : 0 < dials post := by
  cases h with
  | resumed l result l' hpost _ htried =>
    rw [hpost, dials_append]
    omega
  | rejected l e l' hpost _ _ htried =>
    rw [hpost, dials_append]
    omega
  | exhausted _ hall => omega
  | pursued _ h => exact h.elim

/-! ## The error of a lost session -/

/-- A text frame is a `disconnect` notification with this reason. -/
def Notified (codec : Codec) (text : String) (code : Int64) : Prop :=
  ∃ value, Protocol.parse codec text = .ok value ∧ value.strField "id" = none ∧
    value.strField "method" = some "disconnect" ∧
    code = Protocol.disconnectCode ((value.get "params").getD .null)

/-- A session lost to an error of the server has just been notified. -/
def LostToNotice (codec : Codec) (trace : List Effect) (w : Worker) : Prop :=
  ∀ code, w.phase = .supervise (.lost (.server code)) → w.dropping = none ∧ w.polling = true ∧
    ∃ pre text, trace = pre ++ [.receive w.session.socket (.text text)] ∧ Notified codec text code

namespace Worker

variable {cfg : Config} {r : RunId} {m : Memory} {w w' : Worker} {i : Input} {e : Effect} {l : Label}
  {trace : List Effect}

/-- A frame ends the session with an error of the server only as a notification,
or as a rejection of the outstanding ping. -/
theorem react_server {s : Session} {codec : Codec} {text : String} {code : Int64}
    (h : s.react codec text = .fail (.server code)) :
    Notified codec text code ∨ ∃ id deadline value, s.ping = some (id, deadline) ∧
      Protocol.parse codec text = .ok value ∧ value.strField "id" = some id ∧
      Protocol.response value = .error (.server code) := by
  unfold Session.react at h
  split at h
  · cases h
  next value hparse =>
    split at h
    next id hid =>
      right
      unfold Session.reactAnswer at h
      split at h
      next hping =>
        obtain ⟨⟨id', deadline⟩, hp, heq⟩ := (Option.any_eq_true _ _).mp hping
        obtain rfl : id' = id := of_decide_eq_true heq
        split at h
        next e he =>
          cases h
          exact ⟨id', deadline, value, hp, hparse, hid, he⟩
        · cases h
      · split at h <;> cases h
    next method hid hmethod =>
      left
      unfold Session.reactNotice at h
      split at h
      · split at h <;> cases h
      · split at h <;> cases h
      · cases h
        exact ⟨value, hparse, hid, hmethod, rfl⟩
      all_goals cases h
    · cases h

/-- How a worker comes to lose its session to an error of the server. -/
theorem next_server {code : Int64} (h : Access cfg r m w i w' e)
    (hw : w'.phase = .supervise (.lost (.server code))) :
    (∃ text, w.phase = .supervise (.session .select) ∧ i = .message (.text text) ∧
      w.session.react cfg.codec text = .fail (.server code) ∧
      e = .receive w.session.socket (.text text) ∧ w'.session = w.session ∧ w'.dropping = none) ∨
    (w.phase = .supervise (.lost (.server code)) ∧ w.dropping ≠ none) := by
  cases h
  all_goals grind -linarith

end Worker

/-- No heartbeat is answered with a rejection: a frame that bears the id of the
outstanding ping does not carry an error code or a reason other than success. -/
def State.PongsFairly (cfg : Config) (s : State) (l : Label) : Prop :=
  ∀ r text id deadline value code, l = .work r (.message (.text text)) →
    (s.workers r).phase = .supervise (.session .select) →
    (s.workers r).session.ping = some (id, deadline) →
    Protocol.parse cfg.codec text = .ok value → value.strField "id" = some id →
    Protocol.response value ≠ .error (.server code)

namespace Worker

variable {cfg : Config} {r : RunId} {m : Memory} {w w' : Worker} {i : Input} {e : Effect} {l : Label}
  {trace : List Effect}

theorem Moves.lostToNotice {s : State} (hok : s.PongsFairly cfg l)
    (hx : (s.workers r).Moves cfg r s.mem l w' e) (hw : LostToNotice cfg.codec trace (s.workers r)) :
    LostToNotice cfg.codec (trace ++ [e]) w' := by
  intro code hlost
  cases hx with
  | @next i _ _ hp h =>
    rcases next_server h hlost with ⟨text, hq, rfl, hreact, rfl, hs, hd⟩ | ⟨hq, hd⟩
    · refine ⟨hd, (next_polling h).trans hp, trace, text, by rw [hs], ?_⟩
      rcases react_server hreact with hn | ⟨id, deadline, value, hping, hparse, hid, hresp⟩
      · exact hn
      · exact absurd hresp (hok r text id deadline value code rfl hq hping hparse hid)
    · exact absurd (hw code hq).1 hd
  | wake hp hq hc | resume hp hq =>
    have := (hw code hlost).2.1
    rw [hp] at this
    cases this
  | cancel hp hq hc => cases hlost
  | suspend hp hd ha =>
    rw [show ((s.workers r).setPolling false).phase = (s.workers r).phase from rfl] at hlost
    rw [hlost] at ha
    cases ha

theorem next_lost {k : ℕ} {error : Error} (h : Access cfg r m w i w' (.lost k error)) :
    w.phase = .supervise (.lost error) ∧ k = w.session.socket := by
  cases h
  all_goals grind -linarith

theorem Moves.lost {k : ℕ} {error : Error} (hx : w.Moves cfg r m l w' (.lost k error)) :
    w.phase = .supervise (.lost error) ∧ k = w.session.socket := by
  cases hx with
  | next hp h => exact next_lost h

end Worker

/-- Sessions lost to an error of the server were ended by a notification. -/
def Dismissed (codec : Codec) (trace : List Effect) : Prop :=
  ∀ pre k code post, trace = pre ++ .lost k (.server code) :: post →
    ∃ before text, pre = before ++ [.receive k (.text text)] ∧ Notified codec text code

theorem Dismissed.snoc {codec : Codec} {trace : List Effect} {e : Effect}
    (h : Dismissed codec trace)
    (he : ∀ k code, e = .lost k (.server code) →
      ∃ before text, trace = before ++ [.receive k (.text text)] ∧ Notified codec text code) :
    Dismissed codec (trace ++ [e]) := by
  intro pre k code post htr
  rcases List.eq_nil_or_concat post with rfl | ⟨post, last, rfl⟩
  · obtain ⟨rfl, heq⟩ := List.append_inj' htr rfl
    exact he k code (List.cons.inj heq).1
  · rw [List.concat_eq_append, ← List.cons_append, ← List.append_assoc] at htr
    exact h pre k code post (List.append_inj' htr rfl).1

namespace State

variable {cfg : Config} {s t : State} {r : RunId}

theorem lostToNotice_run {labels : List Label}
    (h : Run (step cfg) (PongsFairly cfg) (new cfg) labels s) (r : RunId) :
    LostToNotice cfg.codec (s.trace r) (s.workers r) ∧ Dismissed cfg.codec (s.trace r) := by
  refine h.invariant (I := fun s => ∀ r, LostToNotice cfg.codec (s.trace r) (s.workers r) ∧
    Dismissed cfg.codec (s.trace r)) (fun r => ⟨nofun, fun pre k code post h => ?_⟩) ?_ r
  · cases pre <;> cases h
  intro s l t hi hok hs r
  cases State.step_cases hs with
  | tick d => exact hi r
  | begin op hh => exact hi r
  | @call c i k a hx =>
    rw [trace_served, served_workers]
    rcases s.spawnWorker_cases r a with hw | ⟨-, -, hw⟩
    · rw [hw]
      exact hi r
    · rw [hw]
      exact ⟨nofun, (hi r).2⟩
  | @worker r' l w e hx =>
    rw [worked_workers, trace_worked]
    by_cases hr : r = r'
    · subst hr
      rw [if_pos rfl, Function.update_self]
      refine ⟨hx.lostToNotice hok (hi r).1, (hi r).2.snoc ?_⟩
      rintro k code rfl
      obtain ⟨hlost, rfl⟩ := hx.lost
      exact ((hi r).1 code hlost).2.2
    · rw [if_neg hr, Function.update_of_ne hr]
      exact hi r
  | dropClient _ _ => exact hi r

end State

/-- A socket was lost to a `disconnect` notification it has just received. -/
def Excused (codec : Codec) (pre : List Effect) (k : ℕ) (e : Error) : Prop :=
  ∃ code before text, e = .server code ∧ pre = before ++ [.receive k (.text text)] ∧
    Notified codec text code

/-- As long as no heartbeat is answered with a rejection, in every state of a run: it emits
a reason of the server only for a session that a `disconnect` notification with that
reason has just ended. After every other loss there are attempts, never more than the
budget allows, until one succeeds, is rejected for good, or the budget is used up, unless
the run is cancelled. So with a budget only a notification ends the run without one. -/
theorem reconnect_policy {cfg : Config} {labels : List Label} {s : State}
    (h : Run (State.step cfg) (State.PongsFairly cfg) (State.new cfg) labels s) {r : ℕ}
    (hr : r < s.mem.started) :
    (∀ pre code post, s.trace r = pre ++ .emit (.disconnect (.server code)) :: post →
      ∃ before k text mid,
        pre = before ++ .receive k (.text text) :: .lost k (.server code) :: mid ∧
        events mid = [] ∧ Notified cfg.codec text code) ∧
    (∀ pre k e post, s.trace r = pre ++ .lost k e :: post → .cancelled ∉ post →
      Excused cfg.codec pre k e ∨
        Retried cfg.options.maxReconnectAttempts post (s.workers r).stage) ∧
    ((s.workers r).phase = .over → 0 < cfg.options.maxReconnectAttempts →
      ∀ pre k e post, s.trace r = pre ++ .lost k e :: post → .cancelled ∉ post →
        dials post = 0 → Excused cfg.codec pre k e) := by
  have hfollows := (Staged.of_reaches (h.weaken fun _ _ _ => trivial)).follows r hr
  have hdismissed := (State.lostToNotice_run h r).2
  have hlost : ∀ pre k e post, s.trace r = pre ++ .lost k e :: post → .cancelled ∉ post →
      Excused cfg.codec pre k e ∨
        Retried cfg.options.maxReconnectAttempts post (s.workers r).stage := by
    intro pre k e post htr hc
    cases hs : e.isServer with
    | true =>
      cases e with
      | server code =>
        obtain ⟨before, text, hpre, hn⟩ := hdismissed pre k code post htr
        exact .inl ⟨code, before, text, rfl, hpre, hn⟩
      | _ => cases hs
    | false =>
      rw [htr] at hfollows
      obtain ⟨u, hu, hrest⟩ := hfollows.split
      obtain ⟨v, -, hv, hrest⟩ := hrest.uncons
      obtain rfl := Stage.dropped_of_lost hv
      exact .inr (Stage.retried_run hrest hs hc)
  refine ⟨fun pre code post htr => ?_, hlost, fun hover hl pre k e post htr hc hd => ?_⟩
  · rw [htr] at hfollows
    obtain ⟨u, hu, hrest⟩ := hfollows.split
    obtain ⟨v, -, hv, -⟩ := hrest.uncons
    obtain rfl := Stage.dropped_of_reason hv
    obtain ⟨pre, k, mid, rfl, hmid⟩ := Stage.Follows.dropped hu
    have hsilent : events mid = [] :=
      List.filterMap_eq_nil_iff.mpr fun e he => Stage.quiet_event (hmid e he)
    obtain ⟨before, text, rfl, hn⟩ := hdismissed pre k code _ (htr.trans (List.append_assoc ..))
    exact ⟨before, k, text, mid, by simp, hsilent, hn⟩
  · rcases hlost pre k e post htr hc with hexcused | hretried
    · exact hexcused
    · rw [Worker.stage, hover] at hretried
      exact absurd hd (hretried.dials_pos hl).ne'

/-- `PongsFairly`, computed. -/
def State.pongsFairly (cfg : Config) (s : State) : Label → Bool
  | .work r (.message (.text text)) =>
    match (s.workers r).phase, (s.workers r).session.ping, Protocol.parse cfg.codec text with
    | .supervise (.session .select), some (id, _), .ok value =>
      value.strField "id" ≠ some id ||
        match Protocol.response value with
        | .error (.server _) => false
        | _ => true
    | _, _, _ => true
  | _ => true

theorem State.pongsFairly_spec (cfg : Config) (s : State) (l : Label)
    (h : s.pongsFairly cfg l = true) : s.PongsFairly cfg l := by
  rintro r text id deadline value code rfl hq hp hparse hid hresp
  simp [pongsFairly, hq, hp, hparse, hid, hresp] at h

/-- The sample client with a budget of one attempt. -/
def persistent (frames : List Value) : Config :=
  { sample frames with options := { Options.default with maxReconnectAttempts := 1 } }

/-- The socket of the opening is closed, and the one attempt that follows fails. -/
def reconnecting : List Label :=
  List.flatten [opening, [.work 0 (.message .closed)], List.replicate 8 (.work 0 .go),
    [.work 0 (.random 0), .work 0 .go, .tick (60 * second), .work 0 .timer, .work 0 (.io false)],
    List.replicate 7 (.work 0 .go)]

def Phase.ended : Phase → Bool
  | .over => true
  | _ => false

def Effect.cancels : Effect → Bool
  | .cancelled => true
  | _ => false

def Effect.losesTransport : Effect → Bool
  | .lost _ .transport => true
  | _ => false

theorem reconnect_policy_reconnecting :
    ∃ s, Run (State.step (persistent [accepted "u0"])) (State.PongsFairly (persistent [accepted "u0"]))
        (State.new (persistent [accepted "u0"])) reconnecting s ∧ (s.workers 0).phase = .over ∧
      ∃ pre k post, s.trace 0 = pre ++ .lost k .transport :: post ∧
        Retried 1 post (s.workers 0).stage ∧ 0 < dials post := by
  obtain ⟨s, h, ho⟩ := run_of_play (persistent [accepted "u0"])
    (State.pongsFairly (persistent [accepted "u0"]))
    (State.pongsFairly_spec _) reconnecting
    (fun s => s.mem.started = 1 && (s.workers 0).phase.ended &&
      (s.trace 0).all (fun e => !e.cancels) && (s.trace 0).any Effect.losesTransport)
    (by decide +kernel)
  simp only [Bool.and_eq_true, decide_eq_true_eq] at ho
  obtain ⟨⟨⟨hr, hover⟩, hc⟩, hlost⟩ := ho
  unfold Phase.ended at hover
  split at hover
  next hover' =>
    obtain ⟨e, hmem, he⟩ := List.any_eq_true.mp hlost
    unfold Effect.losesTransport at he
    split at he
    next k =>
      obtain ⟨pre, post, htr⟩ := List.append_of_mem hmem
      have hnot : .cancelled ∉ post := fun hx => by
        have hmem : .cancelled ∈ s.trace 0 := by simp [htr, hx]
        simpa [Effect.cancels] using List.all_eq_true.mp hc _ hmem
      obtain ⟨-, hlosses, hends⟩ := reconnect_policy h (hr ▸ Nat.zero_lt_one)
      refine ⟨s, h, hover', pre, k, post, htr, ?_, Nat.pos_of_ne_zero fun hd => ?_⟩
      · rcases hlosses pre k _ post htr hnot with ⟨_, _, _, hx, -⟩ | hretried
        · cases hx
        · exact hretried
      · obtain ⟨_, _, _, hx, -⟩ := hends hover' Nat.zero_lt_one pre k _ post htr hnot hd
        cases hx
    next => cases he
  next => cases hover

/-- A response that rejects request `id`. -/
def rejected (id : String) : Value :=
  .object [("id", .string id), ("error", .object [("code", .number (.posInt 5))])]

/-- The heartbeat of the session is answered with an error. -/
def rebuffed : List Label :=
  List.flatten [opening,
    [.tick (60 * second), .work 0 .timer, .work 0 .go, .work 0 (.uuid "p1"), .work 0 .go,
      .work 0 (.io true)], List.replicate 3 (.work 0 .go),
    [.work 0 (.message (.text (compact (rejected "p1"))))], List.replicate 11 (.work 0 .go)]

theorem not_notified_of_bears {codec : Codec} {text id : String} {code : Int64}
    (h : Protocol.bears codec text id = true) : ¬ Notified codec text code := by
  rintro ⟨value, hparse, hid, -⟩
  simp [Protocol.bears, hparse, hid] at h

/-- No cancellation, and no text but responses to `id`. -/
def Effect.hearsOnly (codec : Codec) (id : String) : Effect → Bool
  | .cancelled => false
  | .receive _ (.text text) => Protocol.bears codec text id
  | _ => true

/-- The report that the server has closed with code `5`. -/
def Effect.reportsServer : Effect → Bool
  | .emit (.disconnect reason) => reason = .server 5
  | _ => false

theorem reconnect_policy_rebuffed :
    ∃ s, Reaches (sample [accepted "u0", rejected "p1"]) rebuffed s ∧
      (s.workers 0).phase = .over ∧ .cancelled ∉ s.trace 0 ∧ dials (s.trace 0) = 1 ∧
      0 < (sample [accepted "u0", rejected "p1"]).options.maxReconnectAttempts ∧
      .emit (.disconnect (.server 5)) ∈ s.trace 0 ∧
      ∀ k text code, .receive k (.text text) ∈ s.trace 0 →
        ¬ Notified (sample [accepted "u0", rejected "p1"]).codec text code := by
  obtain ⟨s, h, ho⟩ := reaches_of_play (sample [accepted "u0", rejected "p1"]) rebuffed
    (fun s => dials (s.trace 0) = 1 &&
      (s.workers 0).phase.ended &&
      (s.trace 0).all (·.hearsOnly (sample [accepted "u0", rejected "p1"]).codec "p1") &&
      (s.trace 0).any Effect.reportsServer)
    (by decide +kernel)
  simp only [Bool.and_eq_true, decide_eq_true_eq] at ho
  obtain ⟨⟨⟨hd, hover⟩, hall⟩, hany⟩ := ho
  unfold Phase.ended at hover
  split at hover
  next hover' =>
    obtain ⟨e, hmem, he⟩ := List.any_eq_true.mp hany
    unfold Effect.reportsServer at he
    split at he
    next reason =>
      obtain rfl : reason = .server 5 := of_decide_eq_true he
      exact ⟨s, h, hover',
        fun hx => by simpa [Effect.hearsOnly] using List.all_eq_true.mp hall _ hx, hd, by decide,
        hmem, fun k text code hx => not_notified_of_bears (List.all_eq_true.mp hall _ hx)⟩
    next => cases he
  next => cases hover

end WukongSdk
