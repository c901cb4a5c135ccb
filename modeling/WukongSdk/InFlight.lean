import WukongSdk.Ids

/-!
# Requests in flight

What is on the wire is read off the trace of a worker: a SEND is in flight from
its write to the first frame that bears its id, or to the end of the socket.
-/
namespace WukongSdk

/-- A text frame is a message with that id. -/
def Protocol.bears (codec : Codec) (text id : String) : Bool :=
  match Protocol.parse codec text with
  | .ok value => value.strField "id" = some id
  | .error _ => false

/-- The SENDs in flight after one more access. -/
def flightStep (codec : Codec) (flight : List Command) : Effect → List Command
  | .write _ (.send cmd) => flight ++ [cmd]
  | .receive _ (.text text) => flight.filter fun cmd => !Protocol.bears codec text cmd.id
  | .lost _ _ | .cancelled => []
  | _ => flight

def inFlight (codec : Codec) (trace : List Effect) : List Command :=
  trace.foldl (flightStep codec) []

/-- Ids that the session is about to expire. -/
def Phase.expiring : Phase → List String
  | .supervise (.session (.expire ids)) | .supervise (.session (.expired ids _)) => ids
  | _ => []

/-- The instant the clean-up of the map goes by. -/
def Phase.retaining : Phase → Option ℕ
  | .supervise (.session (.retain now _)) => some now
  | _ => none

/-- The session is over and its map is being emptied. -/
def Phase.unwinding : Phase → Bool
  | .supervise (.unwind _) | .cancelled => true
  | _ => false

/-- The map of the session accounts for what is in flight and not yet due. -/
structure Flying (clock : ℕ) (flight : List Command) (w : Worker) : Prop where
  pending : ∀ cmd ∈ flight, cmd.deadline ≤ clock ∨ cmd.entry ∈ w.session.pending
  emptied : w.phase.unwinding = true → flight = []
  retain : ∀ now, w.phase.retaining = some now → now ≤ clock
  due : ∀ id ∈ w.phase.expiring, ∀ p ∈ w.session.pending, p.id = id → p.deadline ≤ clock
  nodup : ((flight.filter fun cmd => clock < cmd.deadline).map Command.reply).Nodup

theorem Flying.quiet {clock : ℕ} {flight : List Command} {w w' : Worker} (hf : Flying clock flight w)
    (hs : w'.session.pending = w.session.pending) (hu : w'.phase.unwinding = false)
    (hr : w'.phase.retaining = none) (he : w'.phase.expiring = []) : Flying clock flight w' where
  pending := hs ▸ hf.pending
  emptied h := by rw [hu] at h; cases h
  retain now h := by rw [hr] at h; cases h
  due id h := by rw [he] at h; cases h
  nodup := hf.nodup

namespace Worker

variable {cfg : Config} {r : RunId} {m : Memory} {w w' : Worker} {i : Input} {e : Effect} {l : Label}
  {flight : List Command} {n : ℕ}

theorem bears_of_answer {s : Session} {codec : Codec} {text : String} {p : Pending}
    {result : Except Error SendResult} (h : s.react codec text = .answer p result) :
    Protocol.bears codec text p.id = true := by
  obtain ⟨-, value, hparse, hid, -⟩ := react_answer h
  simp [Protocol.bears, hparse, hid]

theorem filter_flying {text : String} (hf : Flying m.clock flight w) :
    Flying m.clock (flightStep cfg.codec flight (.receive n (.text text))) w where
  pending cmd hc := hf.pending cmd (List.mem_of_mem_filter hc)
  emptied h := by rw [hf.emptied h]; rfl
  retain := hf.retain
  due := hf.due
  nodup := hf.nodup.sublist ((List.filter_sublist.filter _).map _)

/-- The entry a frame answers is no longer in the map, and the frame ends the
flight of every request with its id. -/
theorem answer_flying {text : String} {p : Pending} {w₁ : Worker} {result : Except Error SendResult}
    (hf : Flying m.clock flight w) (h : w.session.react cfg.codec text = .answer p result)
    (hs : w₁.session = w.session.forget p.id) (hu : w₁.phase.unwinding = false)
    (hr : w₁.phase.retaining = none) (he : w₁.phase.expiring = []) :
    Flying m.clock (flightStep cfg.codec flight (.receive n (.text text))) w₁ where
  pending cmd hc := by
    obtain ⟨hc, hb⟩ := List.mem_filter.mp hc
    refine (hf.pending cmd hc).imp_right fun hmem => ?_
    rw [hs]
    refine (List.mem_eraseP_of_neg ?_).2 hmem
    intro hid
    have hid : cmd.id = p.id := of_decide_eq_true hid
    rw [hid, bears_of_answer h] at hb
    cases hb
  emptied h := by rw [hu] at h; cases h
  retain now h := by rw [hr] at h; cases h
  due id h := by rw [he] at h; cases h
  nodup := hf.nodup.sublist ((List.filter_sublist.filter _).map _)

/-- What the ids of its map and of its hand, and the clean-up of the map, must
meet for a step to keep `Flying`. -/
structure Orderly (m : Memory) (w : Worker) : Prop where
  ids : (w.session.pending.map Pending.id).Nodup
  insert : ∀ cmd, w.phase = .supervise (.session (.insert cmd)) →
    ∀ p ∈ w.session.pending, p.id ≠ cmd.id ∧ p.reply ≠ cmd.reply
  retain : ∀ now k p, w.phase = .supervise (.session (.retain now k)) →
    w.session.pending[k]? = some p → (m.replies p.reply).abandoned = true → p.deadline ≤ m.clock

theorem insert_flying {cmd : Command} (hq : w.phase = .supervise (.session (.insert cmd)))
    (ho : Orderly m w) (hf : Flying m.clock flight w) :
    Flying m.clock (flight ++ [cmd])
      ((w.put (w.session.withPending (w.session.pending ++ [cmd.entry]))).goSession (.writing none)) := by
  refine ⟨fun x hx => ?_, (by rintro ⟨⟩), (by rintro _ ⟨⟩), (by rintro _ ⟨⟩), ?_⟩
  · rcases List.mem_append.mp hx with hx | hx
    · exact (hf.pending x hx).imp_right (List.mem_append_left _)
    · obtain rfl := List.mem_singleton.mp hx
      exact .inr (List.mem_append_right _ (List.mem_singleton_self _))
  · rw [List.filter_append, List.map_append]
    refine List.nodup_append.mpr ⟨hf.nodup, ?_, ?_⟩
    · by_cases hc : m.clock < cmd.deadline <;> simp [hc]
    · intro c hc c' hc' heq
      obtain ⟨x, hx, rfl⟩ := List.mem_map.mp hc
      obtain ⟨y, hy, rfl⟩ := List.mem_map.mp hc'
      obtain rfl := List.mem_singleton.mp (List.mem_of_mem_filter hy)
      obtain ⟨hx, hlt⟩ := List.mem_filter.mp hx
      have hlate : ¬ x.deadline ≤ m.clock := not_le.mpr (by simpa using hlt)
      exact (ho.insert y hq _ ((hf.pending x hx).resolve_left hlate)).2 heq

/-- Entries that are dropped as a map is emptied were on a socket that is gone. -/
theorem unwind_flying {p : Pending} {rest : List Pending} (hu : w.phase.unwinding = true)
    (hr : w.phase.retaining = none) (he : w.phase.expiring = []) (hf : Flying m.clock flight w) :
    Flying m.clock flight ((w.put (w.session.withPending rest)).discard p.reply) := by
  obtain rfl := hf.emptied hu
  refine ⟨nofun, fun _ => rfl, fun now h => ?_, fun id h => ?_, .nil⟩
  · rw [show ((w.put (w.session.withPending rest)).discard p.reply).phase = w.phase from rfl, hr] at h
    cases h
  · rw [show ((w.put (w.session.withPending rest)).discard p.reply).phase = w.phase from rfl, he] at h
    cases h

theorem next_flying (ho : w.dropping = none → Orderly m w) (ht : Tidy w) (hf : Flying m.clock flight w)
    (h : Access cfg r m w i w' e) : Flying m.clock (flightStep cfg.codec flight e) w' := by
  obtain ⟨hp, -, hr, hd, hn⟩ := id hf
  cases h
  all_goals try exact hf.quiet rfl rfl rfl rfl
  case release => exact ⟨hf.pending, hf.emptied, hf.retain, hf.due, hf.nodup⟩
  case head =>
    refine ⟨hp, (by rintro ⟨⟩), fun now h => ?_, (by rintro _ ⟨⟩), hn⟩
    cases h
    exact le_rfl
  case retainEnd now k hdrop hq hk =>
    refine ⟨hp, (by rintro ⟨⟩), (by rintro _ ⟨⟩), fun id hid p hmem heq => ?_, hn⟩
    obtain ⟨p', hp', rfl⟩ := List.mem_map.mp hid
    obtain ⟨hp', hdue⟩ := List.mem_filter.mp hp'
    obtain rfl := List.inj_on_of_nodup_map (ho hdrop).ids hmem hp' heq
    exact (of_decide_eq_true hdue).trans (hr now (by rw [hq]; rfl))
  case retainDrop now k p hdrop hq hk habandoned =>
    refine ⟨fun cmd hc => ?_, fun h => ?_, fun now' h => ?_, fun id h => ?_, hn⟩
    · rcases hp cmd hc with hlate | hmem
      · exact .inl hlate
      · rcases List.mem_cons.mp ((perm_eraseIdx hk).mem_iff.1 hmem) with heq | hmem
        · exact .inl (heq ▸ (ho hdrop).retain now k p hq hk habandoned :)
        · exact .inr hmem
    · exact hf.emptied h
    · exact hf.retain now' h
    · exact fun p hmem => hf.due id h p (List.mem_of_mem_eraseIdx hmem)
  case retainKeep now k p hdrop hq hk _ =>
    refine ⟨hp, (by rintro ⟨⟩), fun now' h => ?_, (by rintro _ ⟨⟩), hn⟩
    cases h
    exact hr now (by rw [hq]; rfl)
  case expireFound id ids p hdrop hq hfind =>
    have hid : p.id = id := by simpa using List.find?_some hfind
    rw [hq] at hd
    refine ⟨fun cmd hc => ?_, (by rintro ⟨⟩), (by rintro _ ⟨⟩), fun id' h p' hmem => ?_, hn⟩
    · rcases hp cmd hc with hlate | hmem
      · exact .inl hlate
      · rcases List.mem_cons.mp ((perm_eraseP hfind).mem_iff.1 hmem) with heq | hmem
        · exact .inl (heq ▸ hd id (List.mem_cons_self ..) p (List.mem_of_find?_eq_some hfind) hid :)
        · exact .inr hmem
    · exact hd id' (List.mem_cons_of_mem _ h) p' (List.mem_of_mem_eraseP hmem)
  case expireGone id ids hdrop hq hfind =>
    rw [hq] at hd
    exact ⟨hp, (by rintro ⟨⟩), (by rintro _ ⟨⟩),
      fun id' h => hd id' (List.mem_cons_of_mem _ h), hn⟩
  case expired ids p hdrop hq =>
    rw [hq] at hd
    exact ⟨hp, (by rintro ⟨⟩), (by rintro _ ⟨⟩), hd, hn⟩
  case heardAck _ _ hr | heardError _ _ hr => exact answer_flying hf hr rfl rfl rfl rfl
  case heardEvent | heardPong | heardRecv | heardOther | heardFail =>
    exact (filter_flying hf).quiet rfl rfl rfl rfl
  case replace cmd p hdrop hq hfind =>
    have hid : p.id = cmd.id := by simpa using List.find?_some hfind
    exact absurd hid ((ho hdrop).insert cmd hq p (List.mem_of_find?_eq_some hfind)).1
  case insert hdrop hq _ _ => exact insert_flying hq (ho hdrop) hf
  case insertTooLarge =>
    exact ⟨fun x hx => (hp x hx).imp_right (List.mem_append_left _), (by rintro ⟨⟩),
      (by rintro _ ⟨⟩), (by rintro _ ⟨⟩), hn⟩
  case bump hdrop hq => exact hf.quiet (ht.empty (by rw [hq]; rfl)).symm rfl rfl rfl
  case lost => exact ⟨(by rintro _ ⟨⟩), fun _ => rfl, (by rintro _ ⟨⟩), (by rintro _ ⟨⟩), .nil⟩
  case unwind hq _ | cancelledDrop hq _ =>
    exact unwind_flying (by rw [hq]; rfl) (by rw [hq]; rfl) (by rw [hq]; rfl) hf

end Worker

namespace Flying

variable {clock clock' : ℕ} {flight : List Command} {w : Worker}

theorem later (hf : Flying clock flight w) (hle : clock ≤ clock') : Flying clock' flight w where
  pending cmd hc := (hf.pending cmd hc).imp_left fun h => h.trans hle
  emptied := hf.emptied
  retain now h := (hf.retain now h).trans hle
  due id h p hp heq := (hf.due id h p hp heq).trans hle
  nodup := by
    refine hf.nodup.sublist ((List.monotone_filter_right _ fun cmd hc => ?_).map _)
    simp only [decide_eq_true_eq] at hc ⊢
    omega

/-- Requests in flight and not yet due have distinct callers, all of them in the map. -/
theorem length_le (hf : Flying clock flight w) :
    (flight.filter fun cmd => clock < cmd.deadline).length ≤ w.session.pending.length := by
  have hsub : (flight.filter fun cmd => clock < cmd.deadline).map Command.reply ⊆
      w.session.pending.map Pending.reply := by
    intro c hc
    obtain ⟨cmd, hcmd, rfl⟩ := List.mem_map.mp hc
    obtain ⟨hmem, hlt⟩ := List.mem_filter.mp hcmd
    have hlate : ¬ cmd.deadline ≤ clock := not_le.mpr (by simpa using hlt)
    exact List.mem_map.mpr ⟨cmd.entry, (hf.pending cmd hmem).resolve_left hlate, rfl⟩
  simpa using (List.subperm_of_subset hf.nodup hsub).length_le

end Flying

namespace State

variable {cfg : Config} {s t : State} {r : RunId} {l : Label}

/-- The clean-up at the head of the session finds no reply abandoned before the
deadline of its request. -/
def CleansInTime (s : State) (l : Label) : Prop :=
  ∀ r i now k p, l = .work r i → (s.workers r).dropping = none →
    (s.workers r).phase = .supervise (.session (.retain now k)) →
    (s.workers r).session.pending[k]? = some p → (s.mem.replies p.reply).abandoned = true →
    p.deadline ≤ s.mem.clock

theorem orderly {labels : List Label} {i : Input} (h : Reaches cfg labels s)
    (hok : s.CleansInTime (.work r i)) (hd : (s.workers r).dropping = none) :
    Worker.Orderly s.mem (s.workers r) := by
  have ha := Admission.of_reaches h
  have hids := (Distinct.of_reaches h).nodup_ids ha r
  have hreplies : ((s.stock r).map Prod.fst).Nodup := (List.nodup_append.mp (ha.nodup r)).1
  simp only [stock, Worker.carried, List.map_append, List.map_map] at hids hreplies
  have hids := (List.nodup_append.mp hids).2.1
  have hreplies := (List.nodup_append.mp hreplies).2.1
  refine ⟨(List.nodup_append.mp hids).2.1, fun cmd hq p hp => ?_, fun now k p => hok r i now k p rfl hd⟩
  rw [hq] at hids hreplies
  have h₁ := (List.nodup_cons.mp hids).1
  have h₂ := (List.nodup_cons.mp hreplies).1
  exact ⟨fun heq => h₁ (List.mem_map.mpr ⟨p, hp, heq⟩), fun heq => h₂ (List.mem_map.mpr ⟨p, hp, heq⟩)⟩

theorem inFlight_worked {w : Worker} {e : Effect} :
    inFlight cfg.codec ((s.worked r w e).trace r) =
      flightStep cfg.codec (inFlight cfg.codec (s.trace r)) e := by
  rw [trace_worked, if_pos rfl, inFlight, List.foldl_append]
  rfl

/-- Along a run whose clean-ups come in time every session accounts for its
requests in flight. -/
theorem flying_run {labels : List Label}
    (h : Run (step cfg) CleansInTime (new cfg) labels s) (r : RunId) :
    Flying s.mem.clock (inFlight cfg.codec (s.trace r)) (s.workers r) := by
  refine h.invariant_along
    (I := fun s => ∀ r, Flying s.mem.clock (inFlight cfg.codec (s.trace r)) (s.workers r))
    (fun r => ⟨nofun, nofun, nofun, nofun, .nil⟩) ?_ r
  intro _ s l t hr hi hok hs r
  have hr : Reaches cfg _ s := hr.weaken fun _ _ _ => trivial
  cases State.step_cases hs with
  | tick d => exact (hi r).later (Nat.le_add_right ..)
  | begin op hh => exact hi r
  | @call c i k a hx =>
    rw [served_mem, Memory.serve_clock, trace_served]
    rcases s.spawnWorker_cases r a with hw | ⟨-, rfl, hw⟩
    · rw [served_workers, hw]
      exact hi r
    · rw [served_workers, hw, ((Lifecycle.of_reaches hr).fresh _ le_rfl).2.2]
      exact ⟨nofun, nofun, nofun, nofun, .nil⟩
  | @worker r' l w e hx =>
    rw [worked_mem, Memory.work_clock]
    by_cases hrr : r = r'
    · subst hrr
      rw [inFlight_worked, worked_workers, Function.update_self]
      have hf := hi r
      cases hx with
      | next hp h => exact Worker.next_flying (orderly hr hok) (tidy_of_reaches hr r) hf h
      | wake hp hw hc | resume hp hw => exact ⟨hf.pending, hf.emptied, hf.retain, hf.due, hf.nodup⟩
      | cancel hp hw hc => exact ⟨nofun, fun _ => rfl, nofun, nofun, .nil⟩
      | suspend hp hd ha => exact ⟨hf.pending, hf.emptied, hf.retain, hf.due, hf.nodup⟩
    · rw [trace_worked, if_neg hrr, worked_workers, Function.update_of_ne hrr]
      exact hi r
  | dropClient _ _ => simpa [s.clientDropped_mem] using hi r

end State

/-- As long as no clean-up drops the entry of an abandoned send before its
deadline, queued commands and unanswered requests are within `max_in_flight`. -/
theorem in_flight_bounded {cfg : Config} {labels : List Label} {s : State}
    (h : Run (State.step cfg) State.CleansInTime (State.new cfg) labels s) (r : RunId) :
    (s.mem.cells r).commands.length +
      ((inFlight cfg.codec (s.trace r)).filter fun cmd => s.mem.clock < cmd.deadline).length ≤
      cfg.options.maxInFlight := by
  have ha : Admission cfg s := .of_reaches (h.weaken fun _ _ _ => trivial)
  have hfly := (State.flying_run h r).length_le
  have hheld : (s.held r).length ≤ s.mem.permits.card := by
    rw [← List.toFinset_card_of_nodup (ha.nodup r)]
    exact Finset.card_le_card fun c hc => (ha.place c).2 (.inr ⟨r, List.mem_toFinset.mp hc⟩)
  have hlen : (s.mem.cells r).commands.length + (s.workers r).session.pending.length ≤
      (s.held r).length := by
    simp only [State.held, State.stock, Worker.carried, List.length_append, List.length_map]
    omega
  have := ha.count
  omega

/-- The sample client with room for one request. -/
def narrow (frames : List Value) : Config :=
  { sample frames with options := { Options.default with maxInFlight := 1 } }

/-- `CleansInTime`, computed. -/
def State.cleansInTime (s : State) : Label → Bool
  | .work r _ =>
    match (s.workers r).phase with
    | .supervise (.session (.retain _ k)) =>
      (s.workers r).session.pending[k]?.all fun p =>
        !(s.mem.replies p.reply).abandoned || p.deadline ≤ s.mem.clock
    | _ => true
  | _ => true

theorem State.cleansInTime_spec (s : State) (l : Label) (h : s.cleansInTime l = true) :
    s.CleansInTime l := by
  rintro r i now k p rfl - hq hk ha
  simpa [cleansInTime, hq, hk, ha] using h

/-- The worker takes the command, writes it and cleans up its map. -/
def delivering : List Label :=
  List.flatten [sending, [.work 0 .command], List.replicate 4 (.work 0 .go), [.work 0 (.io true)],
    List.replicate 3 (.work 0 .go)]

theorem in_flight_bounded_delivering :
    ∃ s, Run (State.step (narrow [accepted "u0"])) State.CleansInTime
        (State.new (narrow [accepted "u0"])) delivering s ∧
      ((inFlight (narrow [accepted "u0"]).codec (s.trace 0)).map Command.id = ["u1"]) ∧
      (s.mem.cells 0).commands.length +
        ((inFlight (narrow [accepted "u0"]).codec (s.trace 0)).filter
          fun cmd => s.mem.clock < cmd.deadline).length ≤ 1 := by
  obtain ⟨s, h, ho⟩ := run_of_play (narrow [accepted "u0"]) State.cleansInTime
    State.cleansInTime_spec delivering
    (fun s => (inFlight (narrow [accepted "u0"]).codec (s.trace 0)).map Command.id = ["u1"])
    (by decide +kernel)
  exact ⟨s, h, of_decide_eq_true ho, in_flight_bounded h 0⟩

/-- The caller of a request on the wire goes away, and another one sends. -/
def overrun : List Label :=
  List.flatten [sending, [.work 0 .command], List.replicate 4 (.work 0 .go),
    [.work 0 (.io true), .call 1 .drop], List.replicate 5 (.work 0 .go),
    [.begin (.send ⟨"bob", 1, .object [], {}⟩)], List.replicate 4 (.call 2 .go),
    [.call 2 (.ids "u2" "m2")], List.replicate 4 (.call 2 .go), [.work 0 .command],
    List.replicate 4 (.work 0 .go)]

theorem in_flight_exceeded :
    ∃ s, Reaches (narrow [accepted "u0"]) overrun s ∧
      (narrow [accepted "u0"]).options.maxInFlight < (s.mem.cells 0).commands.length +
        ((inFlight (narrow [accepted "u0"]).codec (s.trace 0)).filter
          fun cmd => s.mem.clock < cmd.deadline).length := by
  obtain ⟨s, h, ho⟩ := reaches_of_play (narrow [accepted "u0"]) overrun
    (fun s => decide (1 < (s.mem.cells 0).commands.length +
      ((inFlight (narrow [accepted "u0"]).codec (s.trace 0)).filter
        fun cmd => s.mem.clock < cmd.deadline).length)) (by decide +kernel)
  exact ⟨s, h, of_decide_eq_true ho⟩

end WukongSdk
