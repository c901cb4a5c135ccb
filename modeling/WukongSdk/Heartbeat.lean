import WukongSdk.Frames
import WukongSdk.Reconnect

/-!
# The heartbeat

A pulse keeps the pings that were written and not answered since, with the
instant of each, and the instants at which a session began or a ping was
answered. It is computed from what a worker did and when; the worker's own
heartbeat state agrees with it.
-/
namespace WukongSdk

/-- An access of a worker, with its instant and the phase it was made from. -/
structure Moment where
  clock : ℕ
  phase : Phase
  effect : Effect

/-- The text is a `pong` notification. -/
def isPong (codec : Codec) (text : String) : Bool :=
  match Protocol.parse codec text with
  | .ok v => v.strField "id" = none ∧ v.strField "method" = some "pong"
  | .error _ => false

/-- The text is a successful response to request `id`. -/
def confirms (codec : Codec) (text id : String) : Bool :=
  match Protocol.parse codec text with
  | .ok v => v.strField "id" = some id && (Protocol.response v).toOption.isSome
  | .error _ => false

/-- The text answers the ping `id`. -/
def answersPing (codec : Codec) (text id : String) : Bool := isPong codec text || confirms codec text id

namespace Effect

/-- The ping written. -/
def pings : Effect → Option String
  | .write _ (.ping id) => some id
  | _ => none

/-- The text received. -/
def hears : Effect → Option String
  | .receive _ (.text text) => some text
  | _ => none

/-- The error the session is lost with. -/
def loses : Effect → Option Error
  | .lost _ e => some e
  | _ => none

theorem hears_of_pings {e : Effect} {id : String} (h : e.pings = some id) : e.hears = none := by
  unfold pings at h
  split at h
  · rfl
  · cases h

theorem loses_of_pings {e : Effect} {id : String} (h : e.pings = some id) : e.loses = none := by
  unfold pings at h
  split at h
  · rfl
  · cases h

theorem loses_of_hears {e : Effect} {text : String} (h : e.hears = some text) :
    e.loses = none := by
  unfold hears at h
  split at h
  · rfl
  · cases h

end Effect

namespace Moment

/-- The moment at which a session begins. -/
def begins (x : Moment) : Bool :=
  match x.phase, x.effect with
  | .supervise .begin, .skip => true
  | _, _ => false

/-- A session begins, or is lost. -/
def parts (x : Moment) : Bool := x.begins || x.effect.loses.isSome

/-- The ping `id` is answered. -/
def answers (codec : Codec) (id : String) (x : Moment) : Bool :=
  x.effect.hears.any fun text => answersPing codec text id

end Moment

/-- `awaited` are the unanswered pings of the session, `restarts` the instants
at which one began or a ping was answered. -/
structure Pulse where
  awaited : List (String × ℕ) := []
  restarts : List ℕ := []

/-- A session begins, or a ping is answered. -/
def Moment.restarts (codec : Codec) (p : Pulse) (x : Moment) : Bool :=
  x.begins || x.effect.hears.any fun text =>
    isPong codec text || p.awaited.any fun q => confirms codec text q.1

namespace Pulse

/-- A text is heard: it answers some of the pings, or none. -/
def hear (codec : Codec) (p : Pulse) (clock : ℕ) (text : String) : Pulse :=
  if isPong codec text || p.awaited.any (fun q => confirms codec text q.1) then
    ⟨p.awaited.filter fun q => !answersPing codec text q.1, clock :: p.restarts⟩
  else p

def next (codec : Codec) (p : Pulse) (x : Moment) : Pulse :=
  if x.begins then ⟨[], x.clock :: p.restarts⟩
  else
    match x.effect.pings, x.effect.hears with
    | some id, _ => { p with awaited := p.awaited ++ [(id, x.clock)] }
    | none, some text => p.hear codec x.clock text
    | none, none => if x.effect.loses.isSome then { p with awaited := [] } else p

/-- The pulse after a worker's moments. -/
def of (codec : Codec) (trace : List Moment) : Pulse := trace.foldl (next codec) {}

theorem of_snoc (codec : Codec) (trace : List Moment) (x : Moment) :
    of codec (trace ++ [x]) = (of codec trace).next codec x := by
  simp [of]

/-- A restart stays one. -/
theorem mem_restarts_next {codec : Codec} {p : Pulse} {c : ℕ} (x : Moment) (h : c ∈ p.restarts) :
    c ∈ (p.next codec x).restarts := by
  unfold next hear
  split
  · exact List.mem_cons_of_mem _ h
  · split
    · exact h
    · split
      · exact List.mem_cons_of_mem _ h
      · exact h
    · split <;> exact h

/-- The instants of all restarts are kept. -/
theorem mem_restarts {codec : Codec} {before : List Moment} {b : Moment}
    (h : b.restarts codec (of codec before) = true) (after : List Moment) :
    b.clock ∈ (of codec (before ++ b :: after)).restarts := by
  induction after using List.reverseRec with
  | nil =>
    rw [of_snoc, next]
    split
    · exact List.mem_cons_self
    next hbegins =>
      rw [Moment.restarts, Bool.eq_false_of_not_eq_true hbegins, Bool.false_or, Option.any_eq_true] at h
      obtain ⟨text, hhears, h⟩ := h
      have hpings : b.effect.pings = none := by
        by_contra hno
        obtain ⟨id, hid⟩ := Option.ne_none_iff_exists'.mp hno
        rw [Effect.hears_of_pings hid] at hhears
        cases hhears
      rw [hpings, hhears]
      dsimp only
      rw [hear, if_pos h]
      exact List.mem_cons_self
  | append_singleton after x ih =>
    rw [← List.cons_append, ← List.append_assoc, of_snoc]
    exact mem_restarts_next x ih

/-- An awaited ping was written at its instant, in the session that is held, and
nothing since has answered it. -/
theorem of_awaited {codec : Codec} {trace : List Moment} {id : String} {c : ℕ}
    (h : (id, c) ∈ (of codec trace).awaited) :
    ∃ before w after, trace = before ++ w :: after ∧ w.effect.pings = some id ∧ w.clock = c ∧
      ∀ y ∈ after, y.parts = false ∧ y.answers codec id = false := by
  induction trace using List.reverseRec with
  | nil => exact absurd h List.not_mem_nil
  | append_singleton trace x ih =>
    -- an earlier ping stays awaited only past a moment that keeps it so
    have earlier : (id, c) ∈ (of codec trace).awaited → x.parts = false →
        x.answers codec id = false →
        ∃ before w after, trace ++ [x] = before ++ w :: after ∧ w.effect.pings = some id ∧
          w.clock = c ∧ ∀ y ∈ after, y.parts = false ∧ y.answers codec id = false := by
      intro hmem hparts hx
      obtain ⟨before, w, after, rfl, hw, hc, hafter⟩ := ih hmem
      refine ⟨before, w, after ++ [x], by simp, hw, hc, fun y hy => ?_⟩
      rcases List.mem_append.mp hy with hy | hy
      · exact hafter y hy
      · rw [List.mem_singleton.mp hy]
        exact ⟨hparts, hx⟩
    rw [of_snoc, next] at h
    split at h
    · exact absurd h List.not_mem_nil
    next hbegins =>
      rw [Bool.not_eq_true] at hbegins
      split at h
      next id' text hpings =>
        rcases List.mem_append.mp h with h | h
        · refine earlier h ?_ ?_
          · simp [Moment.parts, hbegins, Effect.loses_of_pings hpings]
          · simp [Moment.answers, Effect.hears_of_pings hpings]
        · obtain ⟨rfl, rfl⟩ := Prod.mk.inj (List.mem_singleton.mp h)
          exact ⟨trace, x, [], rfl, hpings, rfl, by simp⟩
      next text hpings hhears =>
        have hparts : x.parts = false := by
          simp [Moment.parts, hbegins, Effect.loses_of_hears hhears]
        unfold hear at h
        split at h
        · obtain ⟨hmem, hno⟩ := List.mem_filter.mp h
          refine earlier hmem hparts ?_
          simpa [Moment.answers, hhears] using hno
        next hno =>
          refine earlier h hparts ?_
          simp only [Bool.or_eq_true, List.any_eq_true, not_or, not_exists, not_and,
            Bool.not_eq_true] at hno
          simp [Moment.answers, hhears, answersPing, hno.1, hno.2 _ h]
      next hpings hhears =>
        split at h
        · exact absurd h List.not_mem_nil
        next hloses =>
          refine earlier h ?_ ?_
          · simpa [Moment.parts, hbegins] using hloses
          · simp [Moment.answers, hhears]

end Pulse

/-! ## The heartbeat of a worker -/

/-- Points between the decision to ping and the write. -/
def Phase.pinging : Phase → Bool
  | .supervise (.session .pingDue) | .supervise (.session (.ping _)) => true
  | _ => false

theorem inSession_of_pinging {p : Phase} (h : p.pinging = true) : p.inSession = true := by
  unfold Phase.pinging at h
  split at h
  · rfl
  · rfl
  · cases h

/-- The session has returned `Err(Timeout)`. -/
def Phase.timedOut : Phase → Bool
  | .supervise (.lost .timeout) => true
  | _ => false

/-- Points at which a session looks at deadlines: those of its pending sends, and
of the heartbeat. -/
def Phase.timing : Phase → Bool
  | .supervise (.session .head) | .supervise (.session (.retain _ _))
  | .supervise (.session (.expire _)) | .supervise (.session (.expired _ _))
  | .supervise (.session .timer) | .supervise (.session .pingDue) => true
  | _ => false

theorem inSession_of_timing {p : Phase} (h : p.timing = true) : p.inSession = true := by
  unfold Phase.timing at h
  split at h
  case h_7 => cases h
  all_goals rfl

theorem not_awaits_of_timing {p : Phase} (h : p.timing = true) : Worker.awaits p = false := by
  unfold Phase.timing at h
  split at h
  case h_7 => cases h
  all_goals rfl

/-- The ping that is being written, or was and waits for its answer. -/
def Worker.outstanding (w : Worker) : Option (String × ℕ) :=
  match w.phase with
  | .supervise (.session (.writing ping)) => ping.or w.session.ping
  | _ => w.session.ping

theorem not_timedOut_of_terminal {e : Error} (h : e.isTerminal = true) :
    (Phase.supervise (.lost e)).timedOut = false := by
  cases e <;> first | rfl | cases h

/-- A session takes a text for a heartbeat's answer exactly if it is one. -/
theorem react_pong {codec : Codec} {s : Session} {text : String} :
    s.react codec text = .pong ↔
      (isPong codec text || s.ping.any fun p => confirms codec text p.1) = true := by
  unfold isPong confirms
  cases hv : Protocol.parse codec text with
  | error e => simp [Session.react, hv]
  | ok v =>
    cases hid : v.strField "id" with
    | some id =>
      rw [react_response hv hid, Session.reactAnswer]
      cases hp : s.ping with
      | none =>
        simp only [Option.any_none, Bool.false_eq_true, if_false, hid]
        split <;> simp
      | some p =>
        by_cases heq : p.1 = id
        · subst heq
          cases hr : Protocol.response v <;> simp [Except.toOption, hid, hr]
        · have hne : id ≠ p.1 := Ne.symm heq
          simp only [Option.any_some, heq, decide_false, Bool.false_eq_true, if_false]
          split <;> simp [hid, hne]
    | none =>
      cases hname : v.strField "method" with
      | none => simp [Session.react, hv, hid, hname]
      | some name =>
        have hany : (s.ping.any fun p => v.strField "id" = some p.1 &&
            (Protocol.response v).toOption.isSome)
            = false := by
          simp [hid]
        rw [react_notice hv hid hname, Session.reactNotice.eq_def, hany]
        split
        · split <;> simp [hid, hname]
        · split <;> simp [hid, hname]
        · simp [hid, hname]
        · simp [hid, hname]
        next hpong => simpa [hid, hname] using hpong

namespace Worker

variable {cfg : Config} {r : RunId} {m : Memory} {w w' : Worker} {i : Input} {e : Effect} {l : Label}

attribute [local grind] Phase.pinging Phase.timedOut Phase.timing Phase.inSession outstanding
  Effect.pings Effect.hears Effect.loses
attribute [local grind =] Option.some_or Option.none_or
attribute [local grind →] inSession_of_timing

theorem next_pinged {id : String} (h : Access cfg r m w i w' e) (he : e.pings = some id) :
    w.phase.inSession = true ∧ w.phase.pinging = true ∧ w'.phase.inSession = true ∧
      w'.outstanding = some (id, m.clock + cfg.options.pongTimeout) ∧
      w'.session.nextPing = w.session.nextPing ∧ w'.phase.pinging = false ∧
      w'.phase.timedOut = false := by
  cases h
  all_goals grind -linarith

/-- What a text does to the heartbeat. -/
theorem next_hears {text : String} (h : Access cfg r m w i w' e) (he : e.hears = some text) :
    w.phase = .supervise (.session .select) ∧ w'.phase.pinging = false ∧
      w'.phase.timedOut = false ∧
      ((w.session.react cfg.codec text = .pong ∧ w'.outstanding = none ∧
          w'.session.nextPing = m.clock + cfg.options.pingInterval) ∨
        (w.session.react cfg.codec text ≠ .pong ∧ w'.outstanding = w.outstanding ∧
          w'.session.nextPing = w.session.nextPing)) := by
  cases h
  case heardFail error hd hp hr =>
    have htimed := not_timedOut_of_terminal (react_fail hr)
    grind -linarith
  all_goals grind -linarith

theorem next_loses {error : Error} (h : Access cfg r m w i w' e) (he : e.loses = some error) :
    w.phase = .supervise (.lost error) ∧ w' = w.goSupervise (.unwind error) := by
  cases h
  all_goals grind -linarith

theorem next_begins (h : Access cfg r m w i w' e) (hp : w.phase = .supervise .begin)
    (he : e = .skip) : w'.outstanding = none ∧
      w'.session.nextPing = m.clock + cfg.options.pingInterval ∧ w'.phase.pinging = false ∧
      w'.phase.timedOut = false := by
  cases h
  all_goals grind -linarith

/-- Other accesses keep the heartbeat; a ping is due, or overdue, by the clock. -/
theorem next_quiet (h : Access cfg r m w i w' e) (hpings : e.pings = none)
    (hhears : e.hears = none) (hloses : e.loses = none)
    (hb : w.phase = .supervise .begin → e ≠ .skip) :
    (w'.phase.inSession = true → w.phase.inSession = true ∧ w'.outstanding = w.outstanding ∧
      w'.session.nextPing = w.session.nextPing) ∧
    (w'.phase.pinging = true → w.phase.pinging = true ∨ (w.phase.inSession = true ∧
      w.outstanding = none ∧ w.session.nextPing ≤ m.clock)) ∧
    (w'.phase.timedOut = true → w.phase.timedOut = true ∨ (w.phase.inSession = true ∧
      ∃ p, w.outstanding = some p ∧ p.2 ≤ m.clock)) := by
  cases h
  all_goals grind -linarith

/-- The part of the loop that deals with deadlines stays in the session, or
leaves it with a timeout. -/
theorem next_timing (h : Access cfg r m w i w' e) (ht : w.phase.timing = true) :
    w'.phase.inSession = true ∨ w'.phase.timedOut = true := by
  cases h
  all_goals grind -linarith

end Worker

/-- A worker's heartbeat agrees with its pulse, and runs by the clock. -/
structure Beating (cfg : Config) (clock : ℕ) (p : Pulse) (w : Worker) : Prop where
  past : ∀ c ∈ p.restarts, c ≤ clock
  single : p.awaited.length ≤ 1
  agrees : w.phase.inSession = true →
    (p.awaited.map fun q => (q.1, q.2 + cfg.options.pongTimeout)) = w.outstanding.toList
  later : w.phase.inSession = true →
    ∀ c ∈ p.restarts, c + cfg.options.pingInterval ≤ w.session.nextPing
  due : w.phase.pinging = true → w.outstanding = none ∧ w.session.nextPing ≤ clock
  overdue : w.phase.timedOut = true → ∃ q ∈ p.awaited, q.2 + cfg.options.pongTimeout ≤ clock

namespace Beating

variable {cfg : Config} {clock clock' : ℕ} {p : Pulse} {r : RunId} {m : Memory} {w w' : Worker}
  {i : Input} {e : Effect} {l : Label}

theorem fresh (hin : w.phase.inSession = false) (hping : w.phase.pinging = false)
    (hout : w.phase.timedOut = false) : Beating cfg clock {} w :=
  ⟨by simp, by simp, by simp [hin], by simp [hin], by simp [hping], by simp [hout]⟩

theorem wait (h : Beating cfg clock p w) (hle : clock ≤ clock') : Beating cfg clock' p w where
  past c hc := (h.past c hc).trans hle
  single := h.single
  agrees := h.agrees
  later := h.later
  due hp := ⟨(h.due hp).1, (h.due hp).2.trans hle⟩
  overdue ho := by
    obtain ⟨q, hq, hle'⟩ := h.overdue ho
    exact ⟨q, hq, hle'.trans hle⟩

/-- A pulse with the same pings awaited and restarts, for a worker in the same
state of heartbeat. -/
theorem quiet (h : Beating cfg clock p w)
    (hin : w'.phase.inSession = true → w.phase.inSession = true ∧ w'.outstanding = w.outstanding ∧
      w'.session.nextPing = w.session.nextPing)
    (hping : w'.phase.pinging = true → w.phase.pinging = true ∨ (w.phase.inSession = true ∧
      w.outstanding = none ∧ w.session.nextPing ≤ clock))
    (hout : w'.phase.timedOut = true → w.phase.timedOut = true ∨ (w.phase.inSession = true ∧
      ∃ p, w.outstanding = some p ∧ p.2 ≤ clock)) : Beating cfg clock p w' := by
  refine ⟨h.past, h.single, fun hq => ?_, fun hq => ?_, fun hq => ?_, fun hq => ?_⟩
  · obtain ⟨hw, heq, -⟩ := hin hq
    rw [heq]
    exact h.agrees hw
  · obtain ⟨hw, -, hnext⟩ := hin hq
    rw [hnext]
    exact h.later hw
  · obtain ⟨-, heq, hnext⟩ := hin (inSession_of_pinging hq)
    rw [heq, hnext]
    exact (hping hq).elim h.due fun hdue => hdue.2
  · rcases hout hq with hw | ⟨hw, d, hd, hle⟩
    · exact h.overdue hw
    · have hmem : d ∈ p.awaited.map fun q => (q.1, q.2 + cfg.options.pongTimeout) := by
        rw [h.agrees hw, hd]
        exact List.mem_singleton_self d
      obtain ⟨q, hq, rfl⟩ := List.mem_map.mp hmem
      exact ⟨q, hq, hle⟩

/-- A session or an answered ping starts the heartbeat anew. -/
theorem restart (h : Beating cfg clock p w) (hout : w'.outstanding = none)
    (hnext : w'.session.nextPing = clock + cfg.options.pingInterval)
    (hping : w'.phase.pinging = false) (htimed : w'.phase.timedOut = false) :
    Beating cfg clock ⟨[], clock :: p.restarts⟩ w' := by
  refine ⟨fun c hc => ?_, by simp, fun _ => by simp [hout], fun _ c hc => ?_, by simp [hping],
    by simp [htimed]⟩
  · rcases List.mem_cons.mp hc with rfl | hc
    · exact le_rfl
    · exact h.past c hc
  · have hle : c ≤ clock := by
      rcases List.mem_cons.mp hc with rfl | hc
      · exact le_rfl
      · exact h.past c hc
    omega

/-- A text that is heard. -/
theorem hear {text : String} (h : Beating cfg m.clock p w) (hs : w.Access cfg r m i w' e)
    (he : e.hears = some text) : Beating cfg m.clock (p.hear cfg.codec m.clock text) w' := by
  obtain ⟨hp, hpinging, htimed, hbeat⟩ := Worker.next_hears hs he
  have hin : w.phase.inSession = true := by rw [hp]; rfl
  have hping : w.outstanding = w.session.ping := by rw [Worker.outstanding, hp]
  have hagrees := h.agrees hin
  rw [hping] at hagrees
  -- the pulse and the session decide by the same ping
  have hsame : p.awaited.any (fun q => confirms cfg.codec text q.1)
      = w.session.ping.any fun q => confirms cfg.codec text q.1 := by
    have hany := congrArg (List.any · fun q => confirms cfg.codec text q.1) hagrees
    rw [List.any_map] at hany
    rw [show w.session.ping.any (fun q => confirms cfg.codec text q.1)
      = w.session.ping.toList.any fun q => confirms cfg.codec text q.1 by cases w.session.ping <;> simp]
    exact hany
  unfold Pulse.hear
  rw [hsame]
  split
  next hyes =>
    rcases hbeat with ⟨-, hout, hnext⟩ | ⟨hno, -⟩
    · have hempty : (p.awaited.filter fun q => !answersPing cfg.codec text q.1) = [] := by
        rw [← hsame, Bool.or_eq_true] at hyes
        rw [List.filter_eq_nil_iff]
        intro q hq
        rw [Bool.not_eq_true', Bool.not_eq_false, answersPing, Bool.or_eq_true]
        refine hyes.imp_right fun hany => ?_
        obtain ⟨q', hq', hconfirms⟩ := List.any_eq_true.mp hany
        obtain ⟨a, ha⟩ := List.length_eq_one_iff.mp
          (le_antisymm h.single (List.length_pos_of_mem hq))
        rw [ha, List.mem_singleton] at hq hq'
        rwa [hq, ← hq']
      rw [hempty]
      exact h.restart hout hnext hpinging htimed
    · exact absurd (react_pong.mpr hyes) hno
  next hno =>
    rcases hbeat with ⟨hpong, -⟩ | ⟨-, hout, hnext⟩
    · exact absurd (react_pong.mp hpong) hno
    · exact h.quiet (fun _ => ⟨hin, hout, hnext⟩) (by simp [hpinging]) (by simp [htimed])

theorem next (h : Beating cfg m.clock p w) (hs : w.Access cfg r m i w' e) :
    Beating cfg m.clock (p.next cfg.codec ⟨m.clock, w.phase, e⟩) w' := by
  by_cases hb : w.phase = .supervise .begin ∧ e = .skip
  · obtain ⟨hout, hnext, hping, htimed⟩ := Worker.next_begins hs hb.1 hb.2
    have hbegins : Moment.begins ⟨m.clock, w.phase, e⟩ = true := by
      simp [Moment.begins, hb]
    rw [Pulse.next, if_pos hbegins]
    exact h.restart hout hnext hping htimed
  have hbegins : Moment.begins ⟨m.clock, w.phase, e⟩ = false := by
    unfold Moment.begins
    split
    next hq he => exact absurd ⟨hq, he⟩ hb
    next => rfl
  rw [Pulse.next, hbegins, if_neg Bool.false_ne_true]
  cases hpings : e.pings with
  | some id =>
    obtain ⟨hin, hping, hin', hout, hnext, hping', htimed⟩ := Worker.next_pinged hs hpings
    have hempty : p.awaited = [] := by
      have hagrees := h.agrees hin
      rw [(h.due hping).1] at hagrees
      exact List.map_eq_nil_iff.mp hagrees
    dsimp only
    rw [hempty, List.nil_append]
    refine ⟨h.past, le_rfl, fun _ => by rw [hout]; rfl, fun _ => ?_, by simp [hping'],
      by simp [htimed]⟩
    rw [hnext]
    exact h.later hin
  | none =>
    cases hhears : e.hears with
    | some text => exact h.hear hs hhears
    | none =>
      cases hloses : e.loses with
      | some error =>
        obtain ⟨-, rfl⟩ := Worker.next_loses hs hloses
        exact ⟨h.past, by simp, by simp [Phase.inSession], by simp [Phase.inSession],
          by simp [Phase.pinging], by simp [Phase.timedOut]⟩
      | none =>
        obtain ⟨hin, hping, hout⟩ := Worker.next_quiet hs hpings hhears hloses
          fun hq he => hb ⟨hq, he⟩
        exact h.quiet hin hping hout

theorem moves (h : Beating cfg m.clock p w) (hx : w.Moves cfg r m l w' e) :
    Beating cfg m.clock (p.next cfg.codec ⟨m.clock, w.phase, e⟩) w' := by
  -- a task that wakes or falls asleep keeps its phase and its session
  have still : ∀ b, Beating cfg m.clock (p.next cfg.codec ⟨m.clock, w.phase, .skip⟩)
      (w.setPolling b) := by
    intro b
    rw [Pulse.next]
    split
    next hb =>
      have hbegin : w.phase = .supervise .begin := by
        unfold Moment.begins at hb
        split at hb
        · assumption
        · cases hb
      refine ⟨fun c hc => ?_, by simp, ?_, ?_, ?_, ?_⟩
      · rcases List.mem_cons.mp hc with rfl | hc
        · exact le_rfl
        · exact h.past c hc
      all_goals simp [hbegin, Phase.inSession, Phase.pinging, Phase.timedOut]
    next => exact h.quiet (fun hq => ⟨hq, rfl, rfl⟩) .inl .inl
  cases hx with
  | next hp hs => exact h.next hs
  | wake hp hq hc | resume hp hq => exact still true
  | cancel hp hq hc =>
    have hkeep : p.next cfg.codec ⟨m.clock, w.phase, .cancelled⟩ = p := by
      simp [Pulse.next, Moment.begins, Effect.pings, Effect.hears, Effect.loses]
    rw [hkeep]
    exact h.quiet (by simp [Phase.inSession]) (by simp [Phase.pinging]) (by simp [Phase.timedOut])
  | suspend hp hd ha => exact still false

end Beating

namespace State

/-- What the worker of run `r` does in a step, and when. -/
def moments (r : RunId) (s t : State) : List Moment :=
  (t.log.drop s.log.length).filterMap fun x =>
    if x.1 = r then some ⟨s.mem.clock, (s.workers r).phase, x.2⟩ else none

variable {cfg : Config} {s t : State} {r r' : RunId} {w : Worker} {e : Effect} {l : Label}

theorem moments_worked : s.moments r (s.worked r' w e) =
    if r' = r then [⟨s.mem.clock, (s.workers r).phase, e⟩] else [] := by
  by_cases h : r' = r <;> simp [moments, h]

theorem moments_quiet (h : t.log = s.log) : s.moments r t = [] := by
  simp [moments, h]

@[simp] theorem moments_ticked (d : ℕ) : s.moments r (s.ticked d) = [] := moments_quiet rfl

@[simp] theorem moments_called (op : Operation) : s.moments r (s.called op) = [] :=
  moments_quiet rfl

@[simp] theorem moments_served (c : CallId) (k : Call) (a : Act) :
    s.moments r (s.served c k a) = [] := moments_quiet rfl

@[simp] theorem moments_clientDropped : s.moments r s.clientDropped = [] := moments_quiet rfl

end State

/-- What the worker of run `r` has done along the labels, and when. -/
def chronicle (cfg : Config) (r : RunId) (labels : List Label) : List Moment :=
  record (State.step cfg) (State.moments r) (State.new cfg) labels

section

variable {cfg : Config} {labels : List Label} {s : State}

/-- Along every run the heartbeat agrees with the pulse of what was done. -/
theorem beating_of_reaches (h : Reaches cfg labels s) (r : RunId) :
    Beating cfg s.mem.clock (.of cfg.codec (chronicle cfg r labels)) (s.workers r) := by
  refine h.invariant_record (f := State.moments r)
    (I := fun s trace => Beating cfg s.mem.clock (.of cfg.codec trace) (s.workers r))
    (.fresh rfl rfl rfl) fun ls s l t hrun hi _ hs => ?_
  cases State.step_cases hs with
  | tick d =>
    rw [State.moments_ticked, List.append_nil]
    exact hi.wait (Nat.le_add_right ..)
  | begin op hh =>
    rw [State.moments_called, List.append_nil]
    exact hi
  | @call c i k a hx =>
    rw [State.moments_served, List.append_nil, State.served_mem, Memory.serve_clock,
      State.served_workers]
    rcases s.spawnWorker_cases r a with hw | ⟨-, -, hw⟩
    · rw [hw]
      exact hi
    · rw [hw]
      exact hi.quiet (by simp [Worker.spawned, Phase.inSession])
        (by simp [Worker.spawned, Phase.pinging]) (by simp [Worker.spawned, Phase.timedOut])
  | @worker r' l w e hx =>
    rw [State.moments_worked, State.worked_mem, Memory.work_clock, State.worked_workers]
    by_cases hr : r' = r
    · subst hr
      rw [if_pos rfl, Function.update_self, Pulse.of_snoc]
      exact hi.moves hx
    · rw [if_neg hr, List.append_nil, Function.update_of_ne (Ne.symm hr)]
      exact hi
  | dropClient _ _ =>
    rw [State.moments_clientDropped, List.append_nil, State.clientDropped_mem]
    exact hi

theorem chronicle_effects (h : Reaches cfg labels s) (r : RunId) :
    (chronicle cfg r labels).map Moment.effect = s.trace r := by
  refine h.invariant_record (f := State.moments r)
    (I := fun s trace => trace.map Moment.effect = s.trace r) rfl fun ls s l t hrun hi _ hs => ?_
  have hquiet : ∀ t : State, t.log = s.log →
      (record (State.step cfg) (State.moments r) (State.new cfg) ls ++ s.moments r t).map
        Moment.effect = t.trace r := by
    intro t ht
    rw [State.moments_quiet ht, List.append_nil, hi, State.trace, State.trace, ht]
  cases State.step_cases hs with
  | tick d => exact hquiet _ rfl
  | begin op hh => exact hquiet _ rfl
  | call hx => exact hquiet _ rfl
  | @worker r' l w e hx =>
    rw [State.moments_worked, State.trace_worked, List.map_append, hi]
    by_cases hr : r' = r
    · simp [hr]
    · simp [hr, Ne.symm hr]
  | dropClient _ _ => exact hquiet _ rfl

/-- Every moment is a move of the worker, made when the moments before it had passed. -/
theorem chronicle_split (h : Reaches cfg labels s) {r : RunId} {pre post : List Moment} {x : Moment}
    (heq : chronicle cfg r labels = pre ++ x :: post) :
    ∃ ls u l w, Reaches cfg ls u ∧ chronicle cfg r ls = pre ∧ x.clock = u.mem.clock ∧
      (u.workers r).Moves cfg r u.mem l w x.effect := by
  refine h.invariant_record (f := State.moments r) (I := fun _ trace => ∀ pre post (x : Moment),
    trace = pre ++ x :: post → ∃ ls u l w, Reaches cfg ls u ∧ chronicle cfg r ls = pre ∧
      x.clock = u.mem.clock ∧ (u.workers r).Moves cfg r u.mem l w x.effect)
    (fun pre post x heq => absurd heq (by simp)) (fun ls s l t hrun hi _ hs pre post x heq => ?_)
    pre post x heq
  cases State.step_cases hs with
  | @worker r' l w e hx =>
    rw [State.moments_worked] at heq
    split at heq
    next hr =>
      subst hr
      rcases List.eq_nil_or_concat post with rfl | ⟨post, y, rfl⟩
      · obtain ⟨hpre, hx'⟩ := List.append_inj' heq rfl
        obtain rfl := List.singleton_inj.mp hx'
        exact ⟨ls, s, l, w, hrun, hpre, rfl, hx⟩
      · have hcons : record (State.step cfg) (State.moments r') (State.new cfg) ls
            ++ [⟨s.mem.clock, (s.workers r').phase, e⟩] = (pre ++ x :: post) ++ [y] := by
          simpa using heq
        exact hi pre post x (List.append_inj' hcons rfl).1
    next =>
      rw [List.append_nil] at heq
      exact hi pre post x heq
  | _ => exact hi pre post x (by simpa using heq)

end

/-- In the session that is held a ping was written at least `pong_timeout` ago,
and nothing since has answered it. -/
def Overdue (cfg : Config) (trace : List Moment) (now : ℕ) : Prop :=
  ∃ before w after id, trace = before ++ w :: after ∧ w.effect.pings = some id ∧
    w.clock + cfg.options.pongTimeout ≤ now ∧
    ∀ y ∈ after, y.parts = false ∧ y.answers cfg.codec id = false

theorem Beating.lapsed {cfg : Config} {clock : ℕ} {trace : List Moment} {w : Worker}
    (h : Beating cfg clock (.of cfg.codec trace) w) (hout : w.phase.timedOut = true) :
    Overdue cfg trace clock := by
  obtain ⟨⟨id, c⟩, hq, hle⟩ := h.overdue hout
  obtain ⟨before, w, after, heq, hid, rfl, hafter⟩ := Pulse.of_awaited hq
  exact ⟨before, w, after, id, heq, hid, hle, hafter⟩

namespace Stage

variable {limit : ℕ} {stage stage' : Stage} {e : Effect} {error : Error}

theorem quiet_loses (h : e.quiet = true) : e.loses = none := by
  cases e <;> first | rfl | cases h

theorem reason_heartbeatTimeout (h : error.reason = .heartbeatTimeout) : error = .timeout := by
  cases error <;> simp_all [Error.reason]

theorem dropped_of_heartbeatTimeout
    (h : step limit stage (.emit (.disconnect .heartbeatTimeout)) = some stage') :
    stage = .dropped .timeout := by
  generalize hevent : Event.disconnect .heartbeatTimeout = event at h
  cases turn_of_step h with
  | dismissed e | parted e =>
    rw [reason_heartbeatTimeout (Event.disconnect.inj hevent).symm]
  | quiet _ _ hq => cases hq
  | _ => cases hevent

end Stage

section

variable {cfg : Config} {labels : List Label} {s : State} {r : ℕ} {pre post : List Moment}
  {x : Moment}

/-- A session that is lost with a timeout had a ping overdue. -/
theorem overdue_of_lost (h : Reaches cfg labels s)
    (heq : chronicle cfg r labels = pre ++ x :: post) (hx : x.effect.loses = some .timeout) :
    Overdue cfg pre x.clock := by
  obtain ⟨ls, u, l, w, hu, rfl, hc, hmove⟩ := chronicle_split h heq
  have hlost : (u.workers r).phase = .supervise (.lost .timeout) := by
    generalize x.effect = e at hmove hx
    cases hmove with
    | next hp hn => exact (Worker.next_loses hn hx).1
    | wake | resume | cancel | suspend => cases hx
  rw [hc]
  exact (beating_of_reaches hu r).lapsed (by rw [hlost]; rfl)

/-- The event of a heartbeat timeout tells of the last loss of a session, which was with
a timeout. -/
theorem lost_of_heartbeatTimeout (h : Reaches cfg labels s)
    (heq : chronicle cfg r labels = pre ++ x :: post)
    (hx : x.effect = .emit (.disconnect .heartbeatTimeout)) :
    ∃ before y after, pre = before ++ y :: after ∧ y.effect.loses = some .timeout ∧
      ∀ z ∈ after, z.effect.loses = none := by
  obtain ⟨ls, u, l, w, hu, rfl, -, hmove⟩ := chronicle_split h heq
  have hst := Staged.of_reaches hu
  have hl := Lifecycle.of_reaches hu
  have hstarted : r < u.mem.started := by
    have halive := hl.alive r (hmove.finish (hl.ended r)).1
    omega
  have hstep := hmove.stage (hst.paced r) (hst.resting r) ((Attested.of_reaches hu).relaying r)
  rw [hx] at hstep
  have hfollows := hst.follows r hstarted
  rw [Stage.dropped_of_heartbeatTimeout hstep] at hfollows
  obtain ⟨trace, k, mid, htrace, hmid⟩ := Stage.Follows.dropped hfollows
  rw [← chronicle_effects hu r] at htrace
  obtain ⟨before, rest, heq', -, hrest⟩ := List.map_eq_append_iff.mp htrace
  obtain ⟨y, after, rfl, hy, rfl⟩ := List.map_eq_cons_iff.mp hrest
  refine ⟨before, y, after, heq', by rw [hy]; rfl, fun z hz => ?_⟩
  exact Stage.quiet_loses (hmid _ (List.mem_map_of_mem hz))

/-- A ping is written an interval after every restart before it. -/
theorem pinged_in_time {id : String} (h : Reaches cfg labels s)
    (heq : chronicle cfg r labels = pre ++ x :: post) (hx : x.effect.pings = some id) :
    ∀ c ∈ (Pulse.of cfg.codec pre).restarts, c + cfg.options.pingInterval ≤ x.clock := by
  obtain ⟨ls, u, l, w, hu, rfl, hc, hmove⟩ := chronicle_split h heq
  have hb := beating_of_reaches hu r
  intro c hmem
  generalize x.effect = e at hmove hx
  cases hmove with
  | next hp hn =>
    obtain ⟨hin, hping, -⟩ := Worker.next_pinged hn hx
    have hlater := hb.later hin c hmem
    have hdue := (hb.due hping).2
    omega
  | wake | resume | cancel | suspend => cases hx

/-- The part of the session loop that deals with deadlines ends the session only
if a ping is overdue. -/
theorem overdue_of_left {t : State} {l : Label} (h : Reaches cfg labels s)
    (hs : s.step cfg l = some t) (ht : (s.workers r).phase.timing = true)
    (hout : (t.workers r).phase.inSession = false) :
    Overdue cfg (chronicle cfg r (labels ++ [l])) t.mem.clock := by
  refine (beating_of_reaches (h.snoc trivial hs) r).lapsed ?_
  have hin := inSession_of_timing ht
  have hmoved : t.workers r ≠ s.workers r := by
    intro heq
    rw [heq, hin] at hout
    cases hout
  cases State.step_cases hs with
  | tick d => exact absurd rfl hmoved
  | begin op hh => exact absurd rfl hmoved
  | @call c i k a hx =>
    rcases s.spawnWorker_cases r a with hw | ⟨-, rfl, -⟩
    · exact absurd hw hmoved
    · rw [((Lifecycle.of_reaches h).fresh _ le_rfl).1] at hin
      cases hin
  | @worker r' l w e hx =>
    by_cases hr : r = r'
    · subst hr
      rw [State.worked_workers, Function.update_self] at hout ⊢
      cases hx with
      | next hp hn =>
        refine (Worker.next_timing hn ht).resolve_left fun hin' => ?_
        rw [hout] at hin'
        cases hin'
      | wake hp hq hc | resume hp hq => exact absurd (hout.symm.trans hin) Bool.false_ne_true
      | suspend hp hd ha => exact absurd (hout.symm.trans hin) Bool.false_ne_true
      | cancel hp hq hc =>
        -- a task that is not being polled awaits, so it is at none of these points
        exfalso
        rcases (Staged.of_reaches h).resting r hp with ha | ⟨htop, -⟩ | hover
        · rw [not_awaits_of_timing ht] at ha
          cases ha
        · rw [htop] at hin
          cases hin
        · rw [hover] at hin
          cases hin
    · exact absurd (Function.update_of_ne hr _ _) hmoved
  | dropClient _ _ => exact absurd rfl hmoved

end

/-- In every run at most one ping is awaited. A session is lost with a timeout only when
a ping is overdue, and reported so only when that was the last loss; the part of its loop
that looks at deadlines ends it for no other reason. A ping is written at least an interval
after the session began and after every answered ping. -/
theorem no_spurious_timeout {cfg : Config} {labels : List Label} {s : State}
    (h : Reaches cfg labels s) (r : ℕ) :
    (chronicle cfg r labels).map Moment.effect = s.trace r ∧
    (Pulse.of cfg.codec (chronicle cfg r labels)).awaited.length ≤ 1 ∧
    (∀ pre x post, chronicle cfg r labels = pre ++ x :: post → x.effect.loses = some .timeout →
      Overdue cfg pre x.clock) ∧
    (∀ pre x post, chronicle cfg r labels = pre ++ x :: post →
      x.effect = .emit (.disconnect .heartbeatTimeout) →
      ∃ before y after, pre = before ++ y :: after ∧ y.effect.loses = some .timeout ∧
        (∀ z ∈ after, z.effect.loses = none) ∧ Overdue cfg before y.clock) ∧
    (∀ t l, s.step cfg l = some t → (s.workers r).phase.timing = true →
      (t.workers r).phase.inSession = false →
      Overdue cfg (chronicle cfg r (labels ++ [l])) t.mem.clock) ∧
    ∀ before b after x post id, chronicle cfg r labels = (before ++ b :: after) ++ x :: post →
      b.restarts cfg.codec (.of cfg.codec before) = true → x.effect.pings = some id →
      b.clock + cfg.options.pingInterval ≤ x.clock := by
  refine ⟨chronicle_effects h r, (beating_of_reaches h r).single,
    fun pre x post heq hx => overdue_of_lost h heq hx, fun pre x post heq hx => ?_,
    fun t l hs ht hout => overdue_of_left h hs ht hout,
    fun before b after x post id heq hb hx =>
      pinged_in_time h heq hx b.clock (Pulse.mem_restarts hb after)⟩
  obtain ⟨before, y, after, rfl, hy, hafter⟩ := lost_of_heartbeatTimeout h heq hx
  have hsplit : chronicle cfg r labels = before ++ y :: (after ++ x :: post) := by
    rw [heq, List.append_assoc, List.cons_append]
  exact ⟨before, y, after, rfl, hy, hafter, overdue_of_lost h hsplit hy⟩

/-- The server of the opening leaves a ping unanswered. -/
def silence : List Label :=
  List.flatten [opening, [.tick (25 * second), .work 0 .timer, .work 0 .go, .work 0 (.uuid "p1"),
      .work 0 .go, .work 0 (.io true)], List.replicate 3 (.work 0 .go),
    [.tick (10 * second), .work 0 .timer], List.replicate 7 (.work 0 .go)]

/-- The last access reports the heartbeat's timeout. -/
def reportsTimeout : Option Effect → Bool
  | some (.emit (.disconnect .heartbeatTimeout)) => true
  | _ => false

theorem no_spurious_timeout_silence :
    ∃ s pre x, Reaches (sample [accepted "u0"]) silence s ∧
      chronicle (sample [accepted "u0"]) 0 silence = pre ++ [x] ∧
      x.effect = .emit (.disconnect .heartbeatTimeout) ∧
      ∃ before y after, pre = before ++ y :: after ∧ y.effect.loses = some .timeout ∧
        (∀ z ∈ after, z.effect.loses = none) ∧ Overdue (sample [accepted "u0"]) before y.clock := by
  obtain ⟨s, h, ho⟩ := reaches_of_play (sample [accepted "u0"]) silence
    (fun s => reportsTimeout (s.trace 0).getLast?) (by decide +kernel)
  unfold reportsTimeout at ho
  split at ho
  next hlast =>
    obtain ⟨hmap, -, -, hevent, -⟩ := no_spurious_timeout h 0
    obtain ⟨l, hl⟩ := List.getLast?_eq_some_iff.mp hlast
    rw [hl] at hmap
    obtain ⟨pre, post, heq, -, hpost⟩ := List.map_eq_append_iff.mp hmap
    obtain ⟨x, rfl, hx⟩ := List.map_eq_singleton_iff.mp hpost
    exact ⟨s, pre, x, h, heq, hx, hevent pre x [] heq hx⟩
  next => cases ho

end WukongSdk
