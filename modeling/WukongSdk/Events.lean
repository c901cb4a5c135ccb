import WukongSdk.Stages

/-!
# The events of a run

What the stages mean for the sequence of events a worker emits: sessions are
bracketed, retries are numbered and bounded, and some events are the last ones.
-/
namespace WukongSdk

def Effect.event : Effect → Option Event
  | .emit event => some event
  | _ => none

/-- The events of a trace. -/
def events (trace : List Effect) : List Event := trace.filterMap Effect.event

/-- The last word on sessions is a `Connect`. -/
def sessionOpen (evs : List Event) : Bool :=
  evs.foldl (fun b e => match e with
    | .connect _ => true
    | .disconnect _ => false
    | _ => b) false

/-- Events of an open session. -/
def Event.ofSession : Event → Bool
  | .message _ | .sendAck _ | .customEvent _ => true
  | _ => false

/-- A session was lost and may be replaced. -/
def DisconnectReason.lossy : DisconnectReason → Bool
  | .transport | .heartbeatTimeout => true
  | _ => false

/-- What follows a loss after which `n` attempts have failed and may be
repeated: its error, then each attempt with its number and its error. -/
inductive Spent : ℕ → List Event → Prop
  | loss (e : Error) : Spent 0 [.error e]
  | attempt {n : ℕ} {tail : List Event} {delay : ℕ} {e : Error} (h : Spent n tail)
      (he : e.isTerminal = false) :
      Spent (n + 1) (tail ++ [.reconnecting (n + 1) delay, .error e])

/-- Since the last session was lost, `n` attempts have failed. -/
def Failing (n : ℕ) (evs : List Event) : Prop :=
  ∃ head reason tail, evs = head ++ .disconnect reason :: tail ∧ reason.lossy = true ∧ Spent n tail

/-- The first attempt is under way, or the one just announced. -/
def Attempted (limit n : ℕ) (evs : List Event) : Prop :=
  (n = 0 ∧ evs = []) ∨ ∃ k before delay, n = k + 1 ∧ k < limit ∧
    evs = before ++ [.reconnecting n delay] ∧ Failing k before

@[simp] theorem events_append (l l' : List Effect) : events (l ++ l') = events l ++ events l' :=
  List.filterMap_append

@[simp] theorem events_nil : events [] = [] := rfl

theorem events_single (e : Effect) : events [e] = e.event.toList := by
  cases h : e.event <;> simp [events, h]

@[simp] theorem events_emit (event : Event) (l : List Effect) :
    events (.emit event :: l) = event :: events l := rfl

/-- An event of a trace is emitted at some point of it. -/
theorem events_split {trace : List Effect} {pre post : List Event} {event : Event}
    (h : events trace = pre ++ event :: post) :
    ∃ l l', trace = l ++ .emit event :: l' ∧ events l = pre ∧ events l' = post := by
  obtain ⟨l, l', rfl, hl, hl'⟩ := List.filterMap_eq_append_iff.mp h
  obtain ⟨quiet, e, rest, rfl, hquiet, he, hrest⟩ := List.filterMap_eq_cons_iff.mp hl'
  cases e with
  | emit x =>
    cases he
    refine ⟨l ++ quiet, rest, by simp, ?_, hrest⟩
    have : events quiet = [] := List.filterMap_eq_nil_iff.mpr hquiet
    rw [events_append, this, List.append_nil]
    exact hl
  | _ => cases he

theorem sessionOpen_snoc (evs : List Event) (e : Event) :
    sessionOpen (evs ++ [e]) = match e with
      | .connect _ => true
      | .disconnect _ => false
      | _ => sessionOpen evs := by
  rw [sessionOpen, List.foldl_append]
  rfl

theorem Spent.sessionOpen {n : ℕ} {tail : List Event} (h : Spent n tail) (head : List Event)
    (reason : DisconnectReason) :
    WukongSdk.sessionOpen (head ++ .disconnect reason :: tail) = false := by
  induction h with
  | loss e =>
    rw [show head ++ [.disconnect reason, .error e] = head ++ [.disconnect reason] ++ [.error e] by
      simp, sessionOpen_snoc, sessionOpen_snoc]
  | @attempt n tail delay e h he ih =>
    rw [show head ++ .disconnect reason :: (tail ++ [.reconnecting (n + 1) delay, .error e]) =
      head ++ .disconnect reason :: tail ++ [.reconnecting (n + 1) delay] ++ [.error e] by simp,
      sessionOpen_snoc, sessionOpen_snoc]
    exact ih

namespace Stage

/-- What the events before a stage are known to be. -/
def History (limit : ℕ) (evs : List Event) : Stage → Prop
  | .waiting n | .dialing n => Attempted limit n evs
  | .refused n e => Attempted limit n evs ∧ e ≠ .reconnectExhausted
  | .admitted => sessionOpen evs = false
  | .live => sessionOpen evs = true
  | .dropped e => sessionOpen evs = true ∧ e ≠ .reconnectExhausted
  | .parted e => e.reason.lossy = true ∧ e ≠ .reconnectExhausted ∧
      ∃ head, evs = head ++ [.disconnect e.reason]
  | .idle n => n ≤ limit ∧ Failing n evs
  | .cancelled => True
  | .ended => sessionOpen evs = false

end Stage

theorem Failing.sessionOpen {n : ℕ} {evs : List Event} (h : Failing n evs) :
    WukongSdk.sessionOpen evs = false := by
  obtain ⟨head, reason, tail, rfl, -, hs⟩ := h
  exact hs.sessionOpen head reason

theorem Failing.attempt {n delay : ℕ} {evs : List Event} {e : Error} (h : Failing n evs)
    (he : e.isTerminal = false) :
    Failing (n + 1) (evs ++ [.reconnecting (n + 1) delay] ++ [.error e]) := by
  obtain ⟨head, reason, tail, rfl, hr, hs⟩ := h
  exact ⟨head, reason, tail ++ [.reconnecting (n + 1) delay, .error e], by simp, hr, hs.attempt he⟩

theorem Attempted.sessionOpen {limit n : ℕ} {evs : List Event} (h : Attempted limit n evs) :
    WukongSdk.sessionOpen evs = false := by
  rcases h with ⟨-, rfl⟩ | ⟨k, before, delay, rfl, -, rfl, hf⟩
  · rfl
  · rw [sessionOpen_snoc]
    exact hf.sessionOpen

namespace Stage

variable {limit : ℕ} {stage stage' : Stage} {e : Effect} {evs : List Event} {trace : List Effect}

theorem quiet_event (h : e.quiet = true) : e.event = none := by
  cases e <;> first | rfl | cases h

theorem history_step (h : History limit evs stage) (hs : step limit stage e = some stage') :
    History limit (evs ++ e.event.toList) stage' := by
  cases turn_of_step hs
  case quiet hq => simpa [quiet_event hq] using h
  all_goals simp only [Effect.event, Option.toList_none, Option.toList_some, List.append_nil]
  case dial => exact h
  case waitCancelled | dialCancelled | liveCancelled => trivial
  case authenticated => exact h.sessionOpen
  case rejected hne => exact ⟨h, hne⟩
  case failed => exact (sessionOpen_snoc ..).trans h.1.sessionOpen
  case spared n e' hn hterm =>
    obtain ⟨⟨rfl, -⟩ | ⟨k, before, delay, rfl, hk, rfl, hf⟩, -⟩ := h
    · exact absurd rfl hn
    · exact ⟨hk, hf.attempt hterm⟩
  case connect => exact sessionOpen_snoc ..
  case message | sendAck | custom | garbage => exact (sessionOpen_snoc ..).trans h
  case lost hne => exact ⟨h, hne⟩
  case dismissed | manual => exact sessionOpen_snoc ..
  case parted e' hserver =>
    refine ⟨?_, h.2, evs, rfl⟩
    cases e' <;> first | rfl | cases hserver
  case report e' =>
    obtain ⟨hr, -, head, rfl⟩ := h
    exact ⟨Nat.zero_le _, head, e'.reason, [.error e'], by simp, hr, .loss e'⟩
  case reconnecting n delay hn => exact .inr ⟨n, evs, delay, rfl, hn, rfl, h.2⟩
  case exhausted => exact (sessionOpen_snoc ..).trans h.2.sessionOpen

/-- The events before a stage are what the stage says. -/
theorem Follows.history (h : Follows limit trace stage) : History limit (events trace) stage := by
  induction h with
  | nil => exact .inl ⟨rfl, rfl⟩
  | snoc _ _ hs ih =>
    rw [events_append, events_single]
    exact history_step ih hs

/-- Nothing is told once a run has ended. -/
theorem ended_run {labels : List Effect} (h : Run (step limit) (fun _ _ => True) .ended labels stage) :
    stage = .ended ∧ events labels = [] := by
  induction h with
  | nil => exact ⟨rfl, rfl⟩
  | @snoc t u labels e _ _ hs ih =>
    obtain ⟨rfl, hnone⟩ := ih
    rw [events_append, events_single, hnone]
    cases turn_of_step hs with
    | quiet _ _ hq => exact ⟨rfl, by simp [quiet_event hq]⟩

/-- An event in a run of the machine, with the stages around it. -/
theorem Run.event {start : Stage} {labels : List Effect} {pre post : List Event} {event : Event}
    (h : Run (step limit) (fun _ _ => True) start labels stage)
    (he : events labels = pre ++ event :: post) :
    ∃ l l' u v, events l = pre ∧ events l' = post ∧ labels = l ++ .emit event :: l' ∧
      Run (step limit) (fun _ _ => True) start l u ∧ step limit u (.emit event) = some v ∧
      Run (step limit) (fun _ _ => True) v l' stage := by
  obtain ⟨l, l', rfl, hl, hl'⟩ := events_split he
  obtain ⟨u, hu, hrest⟩ := h.split
  obtain ⟨v, -, hv, hrest⟩ := hrest.uncons
  exact ⟨l, l', u, v, hl, hl', rfl, hu, hv, hrest⟩

/-- What effects without an event preserve holds at the end of a silent run. -/
theorem silent_run {S : Stage → Prop} {start : Stage} {labels : List Effect}
    (hS : ∀ u e v, S u → e.event = none → step limit u e = some v → S v) (h₀ : S start)
    (h : Run (step limit) (fun _ _ => True) start labels stage) (he : events labels = []) :
    S stage := by
  induction h with
  | nil => exact h₀
  | @snoc u v labels e _ _ hs ih =>
    rw [events_append, events_single, List.append_eq_nil_iff] at he
    exact hS u e v (ih he.1) (by simpa using he.2) hs

theorem idle_silent {n : ℕ} {labels : List Effect}
    (h : Run (step limit) (fun _ _ => True) (.idle n) labels stage) (he : events labels = []) :
    stage = .idle n := by
  refine silent_run (S := fun u => u = .idle n) (fun u e v hu hn hs => ?_) rfl h he
  subst hu
  cases turn_of_step hs <;> first | rfl | cases hn

theorem parted_silent {error : Error} {labels : List Effect}
    (h : Run (step limit) (fun _ _ => True) (.parted error) labels stage)
    (he : events labels = []) : stage = .parted error := by
  refine silent_run (S := fun u => u = .parted error) (fun u e v hu hn hs => ?_) rfl h he
  subst hu
  cases turn_of_step hs <;> first | rfl | cases hn

/-- An attempt under way: no event has told yet how it went. -/
def Under (n : ℕ) : Stage → Prop
  | .waiting k | .dialing k | .refused k _ => k = n
  | .admitted | .cancelled => True
  | _ => False

theorem under_silent {n : ℕ} {labels : List Effect}
    (h : Run (step limit) (fun _ _ => True) (.waiting n) labels stage) (he : events labels = []) :
    Under n stage := by
  have h₀ : Under n (.waiting n) := rfl
  refine silent_run (fun u e v hu hn hs => ?_) h₀ h he
  cases turn_of_step hs <;> first | exact hu | trivial

/-- The next event of a run of the machine. -/
theorem Run.next_event {start : Stage} {labels : List Effect} {post : List Event} {event : Event}
    (h : Run (step limit) (fun _ _ => True) start labels stage)
    (he : events labels = event :: post) :
    ∃ l l' u v, events l = [] ∧ events l' = post ∧
      Run (step limit) (fun _ _ => True) start l u ∧ step limit u (.emit event) = some v ∧
      Run (step limit) (fun _ _ => True) v l' stage := by
  obtain ⟨l, l', u, v, hl, hl', -, hu, hv, hrest⟩ := Run.event h (he.trans (List.nil_append _).symm)
  exact ⟨l, l', u, v, hl, hl', hu, hv, hrest⟩

theorem parted_next {error : Error} {event : Event} {post : List Event} {labels : List Effect}
    (h : Run (step limit) (fun _ _ => True) (.parted error) labels stage)
    (he : events labels = event :: post) :
    event = .error error ∧ ∃ l', events l' = post ∧
      Run (step limit) (fun _ _ => True) (.idle 0) l' stage := by
  obtain ⟨l, l', u, v, hl, hl', hu, hv, hrest⟩ := Run.next_event h he
  obtain rfl := parted_silent hu hl
  cases turn_of_step hv with
  | report _ => exact ⟨rfl, l', hl', hrest⟩
  | quiet _ _ hq => cases hq

/-- After `n` failed attempts comes the next one, or the end of the budget. -/
theorem idle_next {n : ℕ} {event : Event} {post : List Event} {labels : List Effect}
    (h : Run (step limit) (fun _ _ => True) (.idle n) labels stage)
    (he : events labels = event :: post) :
    (∃ delay, event = .reconnecting (n + 1) delay ∧ n < limit ∧ ∃ l', events l' = post ∧
      Run (step limit) (fun _ _ => True) (.waiting (n + 1)) l' stage) ∨
    (event = .error .reconnectExhausted ∧ limit ≤ n ∧ post = [] ∧ stage = .ended) := by
  obtain ⟨l, l', u, v, hl, hl', hu, hv, hrest⟩ := Run.next_event h he
  obtain rfl := idle_silent hu hl
  cases turn_of_step hv with
  | reconnecting _ delay hlt => exact .inl ⟨delay, rfl, hlt, l', hl', hrest⟩
  | exhausted _ hle =>
    obtain ⟨rfl, hnone⟩ := ended_run hrest
    exact .inr ⟨rfl, hle, hl' ▸ hnone, rfl⟩
  | quiet _ _ hq => cases hq

/-- An attempt that may be repeated and tells of its error. -/
theorem waiting_next {n : ℕ} {e : Error} {post : List Event} {labels : List Effect}
    (h : Run (step limit) (fun _ _ => True) (.waiting (n + 1)) labels stage)
    (he : events labels = .error e :: post) (hterm : e.isTerminal = false) :
    ∃ l', events l' = post ∧ Run (step limit) (fun _ _ => True) (.idle (n + 1)) l' stage := by
  obtain ⟨l, l', u, v, hl, hl', hu, hv, hrest⟩ := Run.next_event h he
  have hunder := under_silent hu hl
  cases turn_of_step hv with
  | spared k _ _ _ =>
    obtain rfl : k = n + 1 := hunder
    exact ⟨l', hl', hrest⟩
  | failed k _ hend =>
    obtain rfl : k = n + 1 := hunder
    rcases hend with hzero | ht
    · cases hzero
    · rw [hterm] at ht
      cases ht
  | garbage | report | exhausted => exact absurd hunder id
  | quiet _ _ hq => cases hq

/-- From a loss on, the events of `n` failed attempts lead to that count. -/
theorem spent_run {n : ℕ} {tail post : List Event} {error : Error} {labels : List Effect}
    (hs : Spent n tail)
    (h : Run (step limit) (fun _ _ => True) (.parted error) labels stage)
    (he : events labels = tail ++ post) :
    ∃ l', events l' = post ∧ Run (step limit) (fun _ _ => True) (.idle n) l' stage := by
  induction hs generalizing post with
  | loss e => exact (parted_next h he).2
  | @attempt n tail delay e hs hterm ih =>
    obtain ⟨l, hl, hidle⟩ := ih (he.trans (List.append_assoc ..))
    rcases idle_next hidle hl with ⟨_, hev, -, l', hl', hwait⟩ | ⟨hev, -⟩
    · exact waiting_next hwait hl' hterm
    · cases hev

theorem Follows.event {pre post : List Event} {event : Event} (h : Follows limit trace stage)
    (he : events trace = pre ++ event :: post) :
    ∃ u v l', History limit pre u ∧ step limit u (.emit event) = some v ∧ events l' = post ∧
      Run (step limit) (fun _ _ => True) v l' stage := by
  obtain ⟨l, l', u, v, rfl, hl', -, hu, hv, hrest⟩ := Run.event h he
  exact ⟨u, v, l', Follows.history hu, hv, hl', hrest⟩

theorem refused_silent {n : ℕ} {error : Error} {labels : List Effect}
    (h : Run (step limit) (fun _ _ => True) (.refused n error) labels stage)
    (he : events labels = []) : stage = .refused n error := by
  refine silent_run (S := fun u => u = .refused n error) (fun u e v hu hn hs => ?_) rfl h he
  subst hu
  cases turn_of_step hs <;> first | rfl | cases hn

/-- Later attempts are made only once there was a session. -/
theorem Follows.first (h : Follows limit trace stage) (hno : ∀ a, .authenticated a ∉ trace) :
    match stage with
    | .waiting n | .dialing n | .refused n _ => n = 0
    | .cancelled | .ended => True
    | _ => False := by
  induction h with
  | nil => rfl
  | @snoc u v labels e _ _ hs ih =>
    have hu := ih fun a ha => hno a (List.mem_append_left _ ha)
    have he : ∀ a, e ≠ .authenticated a := fun a ha =>
      hno a (List.mem_append_right _ (ha ▸ List.mem_singleton_self _))
    cases turn_of_step hs with
    | authenticated => exact absurd rfl (he _)
    | spared _ _ hn => exact absurd hu hn
    | _ => first | exact hu | trivial

end Stage

/-- Events that close a run. -/
def Event.final : Event → Bool
  | .error .reconnectExhausted | .disconnect (.server _) | .disconnect .manual => true
  | _ => false

/-- The order of the events of a run with at most `limit` attempts in a row, and what
has been emitted at the latest when the run is over or its task at rest. -/
structure EventGrammar (limit : ℕ) (trace : List Effect) (done resting : Prop) : Prop where
  inside : ∀ pre e post, events trace = pre ++ e :: post → e.ofSession = true →
    sessionOpen pre = true
  opens : ∀ pre result post, events trace = pre ++ .connect result :: post →
    sessionOpen pre = false
  closed : done → sessionOpen (events trace) = false
  unopened : ∀ pre reason post, events trace = pre ++ .disconnect reason :: post →
    sessionOpen pre = false → reason = .manual ∧ post = []
  numbered : ∀ pre n delay post, events trace = pre ++ .reconnecting n delay :: post →
    ∃ k, n = k + 1 ∧ n ≤ limit ∧ Failing k pre
  exhausted : ∀ pre post, events trace = pre ++ .error .reconnectExhausted :: post →
    Failing limit pre
  exhausts : ∀ pre post, events trace = pre ++ post → Failing limit pre →
    post = [.error .reconnectExhausted] ∨ (post = [] ∧ ¬ resting)
  last : ∀ pre e post, events trace = pre ++ e :: post → e.final = true → post = []
  rejected : ∀ pre e post, trace = pre ++ .rejected e :: post →
    (events post = [] ∧ ¬ resting) ∨ ∃ rest, events post = .error e :: rest ∧
      ((∀ a, .authenticated a ∉ pre) ∨ e.isTerminal = true → rest = [])

namespace Stage

variable {limit : ℕ} {stage stage' : Stage} {e : Effect} {evs : List Event} {trace : List Effect}

theorem parted_of_lossy {reason : DisconnectReason}
    (h : step limit stage (.emit (.disconnect reason)) = some stage') (hr : reason.lossy = true) :
    ∃ e, stage' = .parted e := by
  cases turn_of_step h with
  | dismissed e hs =>
    cases e with
    | server => cases hr
    | _ => cases hs
  | parted e hs => exact ⟨e, rfl⟩
  | manual => cases hr
  | quiet _ _ hq => cases hq

theorem ended_of_final {event : Event} (ht : History limit evs stage) (hf : event.final = true)
    (h : step limit stage (.emit event) = some stage') : stage' = .ended := by
  cases turn_of_step h with
  | failed | dismissed | exhausted | manual => rfl
  | spared n e => cases e <;> first | exact absurd rfl ht.2 | cases hf
  | garbage e he =>
    cases e with
    | protocol => cases hf
    | _ => cases he
  | parted e he =>
    cases e with
    | server => cases he
    | _ => cases hf
  | report e => cases e <;> first | exact absurd rfl ht.2.1 | cases hf
  | quiet _ _ hq => cases hq
  | _ => cases hf

theorem refused_of_rejected {error : Error}
    (h : step limit stage (.rejected error) = some stage') : ∃ n, stage' = .refused n error := by
  cases turn_of_step h with
  | rejected n => exact ⟨n, rfl⟩
  | quiet _ _ hq => cases hq

theorem Follows.grammar {done resting : Prop} (h : Follows limit trace stage)
    (hdone : done → stage = .ended)
    (hawake : resting → ∀ n error, stage ≠ .idle n ∧ stage ≠ .refused n error) :
    EventGrammar limit trace done resting where
  inside pre event post he hs := by
    obtain ⟨u, v, l', hu, hv, -⟩ := Follows.event h he
    cases turn_of_step hv with
    | message | sendAck | custom => exact hu
    | quiet _ _ hq => cases hq
    | _ => cases hs
  opens pre result post he := by
    obtain ⟨u, v, l', hu, hv, -⟩ := Follows.event h he
    cases turn_of_step hv with
    | connect => exact hu
    | quiet _ _ hq => cases hq
  closed ho := by
    have := Follows.history h
    rw [hdone ho] at this
    exact this
  unopened pre reason post he hs := by
    obtain ⟨u, v, l', hu, hv, hl', hrest⟩ := Follows.event h he
    cases turn_of_step hv with
    | manual => exact ⟨rfl, hl' ▸ (ended_run hrest).2⟩
    | dismissed | parted =>
      rw [hu.1] at hs
      cases hs
    | quiet _ _ hq => cases hq
  numbered pre n delay post he := by
    obtain ⟨u, v, l', hu, hv, -⟩ := Follows.event h he
    cases turn_of_step hv with
    | reconnecting k _ hk => exact ⟨k, rfl, hk, hu.2⟩
    | quiet _ _ hq => cases hq
  exhausted pre post he := by
    obtain ⟨u, v, l', hu, hv, -⟩ := Follows.event h he
    cases turn_of_step hv with
    | exhausted n hn =>
      obtain rfl := le_antisymm hu.1 hn
      exact hu.2
    | failed | spared => exact absurd rfl hu.2
    | report => exact absurd rfl hu.2.1
    | garbage _ he => cases he
    | quiet _ _ hq => cases hq
  exhausts pre post he hf := by
    obtain ⟨head, reason, tail, rfl, hr, hs⟩ := hf
    obtain ⟨u, v, l, hu, hv, hl, hrest⟩ := Follows.event h (he.trans (List.append_assoc ..))
    obtain ⟨e, rfl⟩ := parted_of_lossy hv hr
    obtain ⟨l', hl', hidle⟩ := spent_run hs hrest hl
    cases post with
    | nil =>
      exact .inr ⟨rfl, fun hr => (hawake hr limit e).1 (idle_silent hidle hl')⟩
    | cons event post =>
      rcases idle_next hidle hl' with ⟨_, -, hlt, -⟩ | ⟨rfl, -, rfl, -⟩
      · exact absurd hlt (lt_irrefl _)
      · exact .inl rfl
  last pre event post he hs := by
    obtain ⟨u, v, l', hu, hv, hl', hrest⟩ := Follows.event h he
    obtain rfl := ended_of_final hu hs hv
    exact hl' ▸ (ended_run hrest).2
  rejected pre error post htr := by
    subst htr
    obtain ⟨u, hu, hrest⟩ := h.split
    obtain ⟨v, -, hv, hrest⟩ := hrest.uncons
    obtain ⟨n, rfl⟩ : ∃ n, v = .refused n error := refused_of_rejected hv
    cases he : events post with
    | nil =>
      exact .inl ⟨rfl, fun hr => (hawake hr n error).2 (refused_silent hrest he)⟩
    | cons event rest =>
      obtain ⟨l, l', x, y, hl, hl', hx, hy, hlast⟩ := Run.next_event hrest he
      obtain rfl := refused_silent hx hl
      cases turn_of_step hy with
      | failed => exact .inr ⟨rest, rfl, fun _ => hl' ▸ (ended_run hlast).2⟩
      | spared _ _ hn hterm =>
        refine .inr ⟨rest, rfl, fun h => ?_⟩
        rcases h with hno | ht
        · have hfirst := Follows.first hu hno
          cases turn_of_step hv with
          | rejected => exact absurd hfirst hn
          | quiet _ _ hq => cases hq
        · rw [hterm] at ht
          cases ht
      | quiet _ _ hq => cases hq

end Stage

/-- A task at rest has told how its last attempt went, and that the budget is used up. -/
theorem Worker.Resting.stage {w : Worker} (h : w.Resting) (hp : w.polling = false) (n : ℕ)
    (error : Error) : w.stage ≠ .idle n ∧ w.stage ≠ .refused n error := by
  rcases h hp with ha | ⟨htop, hzero⟩ | hover
  · cases Worker.awaiting_of_awaits ha <;> simp [Worker.stage, *]
  · simp [Worker.stage, htop, hzero]
  · simp [Worker.stage, hover]

/-- The events of every run are in order, and complete once the run is over or its task
at rest. -/
theorem event_grammar {cfg : Config} {labels : List Label} {s : State} (h : Reaches cfg labels s)
    {r : ℕ} (hr : r < s.mem.started) :
    EventGrammar cfg.options.maxReconnectAttempts (s.trace r) ((s.workers r).phase = .over)
      ((s.workers r).phase = .over ∨ (s.workers r).polling = false) := by
  have hstaged := Staged.of_reaches h
  refine Stage.Follows.grammar (hstaged.follows r hr) (fun ho => by rw [Worker.stage, ho])
    fun hrest n error => ?_
  exact hrest.elim (fun ho => by simp [Worker.stage, ho])
    fun hp => (hstaged.resting r).stage hp n error

/-- The server ends the session of the opening, and the run ends with it. -/
def closing : List Label :=
  List.flatten [opening, [.work 0 (.message (.text (compact kicked)))],
    List.replicate 11 (.work 0 .go)]

theorem event_grammar_closing :
    ∃ s, Reaches (sample [accepted "u0", kicked]) closing s ∧ (s.workers 0).phase = .over ∧
      (events (s.trace 0)).length = 2 ∧ sessionOpen (events (s.trace 0)) = false := by
  obtain ⟨s, h, ho⟩ := reaches_of_play (sample [accepted "u0", kicked]) closing
    (fun s => s.mem.started = 1 && (events (s.trace 0)).length = 2 &&
      (match (s.workers 0).phase with | .over => true | _ => false)) (by decide +kernel)
  simp only [Bool.and_eq_true, decide_eq_true_eq] at ho
  obtain ⟨⟨hr, hlen⟩, ho⟩ := ho
  split at ho
  next hdone => exact ⟨s, h, hdone, hlen, (event_grammar h (hr ▸ Nat.zero_lt_one)).closed hdone⟩
  next => cases ho

end WukongSdk
