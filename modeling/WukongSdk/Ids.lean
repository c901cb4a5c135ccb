import WukongSdk.Admission

/-!
# Request ids

Every id is a fresh UUID. The ids of the commands and entries alive at one time
are distinct, and no ping shares one.
-/
namespace WukongSdk

/-- Ids of the ping being written or outstanding. -/
def Worker.pings (w : Worker) : List String :=
  (match w.phase with
    | .supervise (.session (.ping id)) => [id]
    | .supervise (.session (.writing ping)) => (ping.map Prod.fst).toList
    | _ => []) ++ (w.session.ping.map Prod.fst).toList

namespace Worker

variable {cfg : Config} {r : RunId} {m : Memory} {w w' : Worker} {i : Input} {e : Effect} {l : Label}

attribute [local grind] pings

theorem next_pings (h : Access cfg r m w i w' e) :
    (∀ id ∈ w'.pings, id ∈ w.pings ∨ e = .uuid id) ∧ ∀ id, e = .uuid id → id ∉ m.uuids := by
  cases h
  case written ping hd hp => cases ping <;> grind -linarith
  all_goals grind -linarith

theorem Moves.pings (h : w.Moves cfg r m l w' e) :
    (∀ id ∈ w'.pings, id ∈ w.pings ∨ e = .uuid id) ∧ ∀ id, e = .uuid id → id ∉ m.uuids := by
  cases h with
  | next hp h => exact next_pings h
  | wake hp hw hc | resume hp hw => exact ⟨fun id h => .inl h, nofun⟩
  | cancel hp hw hc => exact ⟨fun id h => .inl (List.mem_append_right _ h), nofun⟩
  | suspend hp hd ha => exact ⟨fun id h => .inl h, nofun⟩

end Worker

namespace Call

variable {cfg : Config} {c : CallId} {m : Memory} {i : CallInput} {k k' : Call} {a : Act}

attribute [local grind] command holdsPermit

/-- A command that a call prepares has a fresh id. -/
theorem Moves.drawn {cmd : Command} (h : k.Moves cfg c m i k' a) (hk : k'.command = some cmd)
    (hp : k'.holdsPermit = true) :
    (k.command = some cmd ∧ k.holdsPermit = true) ∨ (a = .uuid cmd.id ∧ cmd.id ∉ m.uuids) := by
  revert hk hp
  cases h with
  | @send args p p' a h =>
    revert h
    fun_cases SendPhase.next cfg c m args i p <;> grind -linarith [→ build_spec]
  | @connect rt p p' a h => rintro ⟨⟩
  | @disconnect d p p' a h => rintro ⟨⟩

end Call

namespace State

/-- The tag is that of a command still with its caller, or of one a run holds. -/
def Tagged (s : State) (x : Tag) : Prop :=
  (∃ cmd, (s.calls x.1).command = some cmd ∧ (s.calls x.1).holdsPermit = true ∧ cmd.id = x.2) ∨
    ∃ r, x ∈ s.stock r

end State

/-- Ids alive at one time are drawn and distinct. -/
structure Distinct (s : State) : Prop where
  drawn : ∀ x, s.Tagged x → x.2 ∈ s.mem.uuids
  inj : ∀ x y, s.Tagged x → s.Tagged y → x.2 = y.2 → x = y
  pings : ∀ r, ∀ id ∈ (s.workers r).pings, id ∈ s.mem.uuids ∧ ∀ x, s.Tagged x → x.2 ≠ id

namespace Distinct

variable {cfg : Config} {s t : State} {c : CallId} {i : CallInput} {k : Call} {a : Act} {r : RunId}
  {w : Worker} {e : Effect} {l : Label}

theorem work_uuids (m : Memory) (r : RunId) (e : Effect) (id : String) :
    id ∈ (m.work r e).uuids ↔ id ∈ m.uuids ∨ e = .uuid id := by
  cases e <;> simp [Memory.work, Memory.freeSlot, Memory.setSender, Memory.modify, or_comm, eq_comm]

theorem serve_uuids (m : Memory) (c : CallId) (a : Act) (id : String) :
    id ∈ (m.serve c a).uuids ↔ id ∈ m.uuids ∨ a = .uuid id := by
  cases a <;> simp [Memory.serve, Memory.freeSlot, Memory.modify, or_comm, eq_comm]

theorem worked (h : Distinct s) (ht : (s.workers r).Tidy) (hx : (s.workers r).Moves cfg r s.mem l w e) :
    Distinct (s.worked r w e) := by
  have hsub : ∀ x, (s.worked r w e).Tagged x → s.Tagged x := by
    rintro x (hx' | ⟨r', hr'⟩)
    · exact .inl hx'
    · refine .inr ⟨r', ?_⟩
      by_cases hr : r' = r
      · subst hr
        rcases State.stock_worked ht hx with ⟨d, -, -, -, hp⟩ | ⟨d, id, -, -, -, hp⟩ |
          ⟨-, -, -, -, -, hp⟩
        · exact hp.mem_iff.1 hr'
        · exact hp.mem_iff.2 (List.mem_cons_of_mem _ hr')
        · exact hp.mem_iff.1 hr'
      · rwa [State.stock_worked_ne hr] at hr'
  refine ⟨fun x hx' => ?_, fun x y hx' hy => h.inj x y (hsub x hx') (hsub y hy), fun r' id hid => ?_⟩
  · exact (work_uuids ..).2 (.inl (h.drawn x (hsub x hx')))
  · have old : id ∈ (s.workers r').pings →
        id ∈ (s.worked r w e).mem.uuids ∧ ∀ x, (s.worked r w e).Tagged x → x.2 ≠ id := fun hid =>
      ⟨(work_uuids ..).2 (.inl (h.pings r' id hid).1),
        fun x hx' => (h.pings r' id hid).2 x (hsub x hx')⟩
    by_cases hr : r' = r
    · subst hr
      rcases hx.pings.1 id (by simpa using hid) with hid | he
      · exact old hid
      · refine ⟨(work_uuids ..).2 (.inr he), fun x hx' heq => ?_⟩
        exact hx.pings.2 id he (heq ▸ h.drawn x (hsub x hx'))
    · exact old (by simpa [hr] using hid)

theorem served (h : Distinct s) (ha : Admission cfg s) (hl : Lifecycle s)
    (hx : (s.calls c).Moves cfg c s.mem i k a) : Distinct (s.served c k a) := by
  -- a tag is one of before, or the one this call has just drawn
  have hsub : ∀ x, (s.served c k a).Tagged x →
      s.Tagged x ∨ (x.1 = c ∧ a = .uuid x.2 ∧ x.2 ∉ s.mem.uuids) := by
    rintro x (⟨cmd, hk, hp, hid⟩ | ⟨r, hr⟩)
    · by_cases hc : x.1 = c
      · simp only [State.served_calls, hc, Function.update_self] at hk hp
        rcases hx.drawn hk hp with ⟨hk, hp⟩ | ⟨ha, hn⟩
        · exact .inl (.inl ⟨cmd, hc ▸ hk, hc ▸ hp, hid⟩)
        · exact .inr ⟨hc, hid ▸ ha, hid ▸ hn⟩
      · exact .inl (.inl ⟨cmd, by simpa [hc] using hk, by simpa [hc] using hp, hid⟩)
    · left
      rcases State.stock_served hl hx with ⟨r₀, cmd, rfl, hp, hne⟩ | ⟨-, heq⟩
      · by_cases hr₀ : r = r₀
        · subst hr₀
          rcases List.mem_cons.mp (hp.mem_iff.1 hr) with rfl | hr
          · obtain ⟨hk, hcmd⟩ := hx.handed
            refine .inl ⟨cmd, ?_, ?_, rfl⟩
            · rw [Command.tag, ha.reply c cmd hcmd, hcmd]
            · rw [Command.tag, ha.reply c cmd hcmd, hk]
          · exact .inr ⟨r, hr⟩
        · exact .inr ⟨r, by rwa [hne r hr₀] at hr⟩
      · exact .inr ⟨r, by rwa [heq] at hr⟩
  refine ⟨fun x hx' => ?_, fun x y hx' hy heq => ?_, fun r id hid => ?_⟩
  · rcases hsub x hx' with hx' | ⟨-, hu, -⟩
    · exact (serve_uuids ..).2 (.inl (h.drawn x hx'))
    · exact (serve_uuids ..).2 (.inr hu)
  · rcases hsub x hx' with hx' | ⟨hxc, hu, hn⟩ <;> rcases hsub y hy with hy | ⟨hyc, hu', hn'⟩
    · exact h.inj x y hx' hy heq
    · exact absurd (heq ▸ h.drawn x hx') hn'
    · exact absurd (heq ▸ h.drawn y hy) hn
    · exact Prod.ext (hxc.trans hyc.symm) heq
  · have hold : id ∈ (s.workers r).pings := by
      rcases s.spawnWorker_cases r a with hw | ⟨-, -, hw⟩
      · simpa [hw] using hid
      · rw [State.served_workers, hw] at hid
        cases hid
    obtain ⟨hu, hne⟩ := h.pings r id hold
    refine ⟨(serve_uuids ..).2 (.inl hu), fun x hx' heq => ?_⟩
    rcases hsub x hx' with hx' | ⟨-, -, hn⟩
    · exact hne x hx' heq
    · exact hn (heq ▸ hu)

theorem of_reaches {labels : List Label} (h : Reaches cfg labels s) : Distinct s := by
  refine h.invariant_along (I := Distinct) ⟨?_, ?_, ?_⟩ fun _ s l t hr hi _ hs => ?_
  · rintro x (⟨cmd, hk, -⟩ | ⟨r, hr⟩)
    · cases hk
    · simp [State.new, State.stock, Worker.carried, Phase.hand] at hr
  · rintro x y (⟨cmd, hk, -⟩ | ⟨r, hr⟩)
    · cases hk
    · simp [State.new, State.stock, Worker.carried, Phase.hand] at hr
  · intro r id hid
    simp [State.new, Worker.pings] at hid
  have hl := Lifecycle.of_reaches hr
  cases State.step_cases hs with
  | tick d => exact ⟨hi.drawn, hi.inj, hi.pings⟩
  | begin op hh =>
    have hsub : ∀ x, (s.called op).Tagged x → s.Tagged x := by
      rintro x (⟨cmd, hk, hp, hid⟩ | hr)
      · by_cases hc : x.1 = s.begun
        · simp only [State.called_calls, hc, Function.update_self] at hk
          cases op <;> cases hk
        · exact .inl ⟨cmd, by simpa [hc] using hk, by simpa [hc] using hp, hid⟩
      · exact .inr hr
    exact ⟨fun x hx => hi.drawn x (hsub x hx), fun x y hx hy => hi.inj x y (hsub x hx) (hsub y hy),
      fun r id hid => ⟨(hi.pings r id hid).1, fun x hx => (hi.pings r id hid).2 x (hsub x hx)⟩⟩
  | call hx => exact hi.served (.of_reaches hr) hl hx
  | worker hx => exact hi.worked (tidy_of_reaches hr _) hx
  | dropClient _ _ =>
    have hm := s.clientDropped_mem
    have hsub : ∀ x, s.clientDropped.Tagged x → s.Tagged x := by
      rintro x (hx | ⟨r, hr⟩)
      · exact .inl hx
      · exact .inr ⟨r, by rwa [State.stock_clientDropped] at hr⟩
    exact ⟨fun x hx => by simpa [hm] using hi.drawn x (hsub x hx),
      fun x y hx hy => hi.inj x y (hsub x hx) (hsub y hy),
      fun r id hid => ⟨by simpa [hm] using (hi.pings r id hid).1,
        fun x hx => (hi.pings r id hid).2 x (hsub x hx)⟩⟩

/-- The ids a run holds are distinct. -/
theorem nodup_ids (h : Distinct s) (ha : Admission cfg s) (r : RunId) :
    ((s.stock r).map Prod.snd).Nodup := by
  have hfst : ((s.stock r).map Prod.fst).Nodup := (List.nodup_append.mp (ha.nodup r)).1
  exact (List.Nodup.of_map _ hfst).map_on fun x hx y hy heq =>
      h.inj x y (.inr ⟨r, hx⟩) (.inr ⟨r, hy⟩) heq

end Distinct
end WukongSdk
