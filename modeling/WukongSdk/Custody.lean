import WukongSdk.Fence

/-!
# Custody of commands

A worker owns the commands it has dequeued and the entries of its session's
map until it answers or drops them. `Custody` says how one access moves them;
it is what the accounting of permits and the provenance of answers rest on.
-/
namespace WukongSdk

/-- The call a command or an entry belongs to, and its request id. -/
abbrev Tag := CallId × String

def Pending.tag (p : Pending) : Tag := (p.reply, p.id)

def Command.tag (cmd : Command) : Tag := (cmd.reply, cmd.id)

/-- What a session phase has taken out of the queue or the map. -/
def SessionPhase.hand : SessionPhase → List Tag
  | .expired _ p | .sendAck p _ | .answer p _ => [p.tag]
  | .received cmd | .fresh cmd | .timely cmd | .insert cmd | .refuse cmd _ => [cmd.tag]
  | _ => []

def Phase.hand : Phase → List Tag
  | .supervise (.session p) => p.hand
  | .supervise (.swept _ cmd) | .drained _ cmd => [cmd.tag]
  | _ => []

/-- All a worker owns: what is in its hand and what is in its map. -/
def Worker.carried (w : Worker) : List Tag :=
  w.phase.hand ++ w.session.pending.map Pending.tag

/-- Phases in which the map may hold entries. -/
def Phase.keeps : Phase → Bool
  | .supervise (.session _) | .supervise (.lost _) | .supervise (.unwind _) | .cancelled => true
  | _ => false

theorem perm_eraseP {α : Type*} {p : α → Bool} {l : List α} {a : α} (h : l.find? p = some a) :
    l.Perm (a :: l.eraseP p) := by
  induction l with
  | nil => simp at h
  | cons b l ih =>
    by_cases hb : p b = true
    · simp_all
    · simp only [Bool.not_eq_true] at hb
      rw [List.find?_cons_of_neg (by simp [hb])] at h
      rw [List.eraseP_cons_of_neg (by simp [hb])]
      exact ((ih h).cons b).trans (.swap a b _)

theorem perm_eraseIdx {α : Type*} {l : List α} {a : α} {k : ℕ} (h : l[k]? = some a) :
    l.Perm (a :: l.eraseIdx k) := by
  obtain ⟨hk, rfl⟩ := List.getElem?_eq_some_iff.mp h
  exact (List.getElem_cons_eraseIdx_perm hk).symm

namespace Worker

variable {cfg : Config} {r : RunId} {m : Memory} {w w' : Worker} {i : Input} {e : Effect} {l : Label}

/-- How an access moves the tags and the permit a worker owns. -/
def Custody (q : List Command) (w w' : Worker) : Effect → Prop
  | .release c => w.dropping = some c ∧ w'.dropping = none ∧ w'.carried.Perm w.carried
  | .drop c | .answer c _ =>
    w.dropping = none ∧ w'.dropping = some c ∧ ∃ id, w.carried.Perm ((c, id) :: w'.carried)
  | .dequeue =>
    w.dropping = none ∧ w'.dropping = none ∧
      ∃ cmd rest, q = cmd :: rest ∧ w'.carried.Perm (cmd.tag :: w.carried)
  | _ => w.dropping = none ∧ w'.dropping = none ∧ w'.carried.Perm w.carried

theorem perm_tags {l : List Pending} {id : String} {p : Pending}
    (h : l.find? (fun q => q.id = id) = some p) :
    (p.tag :: (l.eraseP fun q => q.id = id).map Pending.tag).Perm (l.map Pending.tag) :=
  ((perm_eraseP h).map Pending.tag).symm

/-- A frame settles the entry whose id it bears, with what the response and its
decoding give. -/
theorem react_answer {s : Session} {codec : Codec} {text : String} {p : Pending}
    {result : Except Error SendResult} (h : s.react codec text = .answer p result) :
    s.pending.find? (fun q => q.id = p.id) = some p ∧
    ∃ value, Protocol.parse codec text = .ok value ∧ value.strField "id" = some p.id ∧
      result = (Protocol.response value).bind (Protocol.decode Protocol.readSendResult) := by
  unfold Session.react at h
  split at h
  · cases h
  next value hparse =>
    split at h
    next id hid =>
      unfold Session.reactAnswer at h
      split at h
      · split at h <;> cases h
      · split at h
        next q hf =>
          cases h
          have heq := List.find?_some hf
          simp only [decide_eq_true_eq] at heq
          rw [heq]
          exact ⟨hf, value, hparse, hid, rfl⟩
        · cases h
    · unfold Session.reactNotice at h
      split at h
      · split at h <;> cases h
      · split at h <;> cases h
      all_goals cases h
    · cases h

/-- Points of `supervise` and `run` outside a session hold no map, apart from
those that empty it. -/
structure Tidy (w : Worker) : Prop where
  asleep : w.polling = false → w.dropping = none ∧ w.phase.hand = []
  empty : w.phase.keeps = false → w.session.pending = []
  ended : w.phase = .over → w.dropping = none

theorem next_custody (ht : Tidy w)
    (h : Access cfg r m w i w' e) : Custody (m.cells r).commands w w' e := by
  have hk := ht.empty
  cases h
  case retainDrop k p hd hp hj _ =>
    refine ⟨hd, rfl, p.id, ?_⟩
    simpa [carried, hp, Phase.hand, SessionPhase.hand, Pending.tag] using
      (perm_eraseIdx hj).map Pending.tag
  case expireFound p hd hp hf =>
    refine ⟨hd, hd, ?_⟩
    simpa [carried, hp, Phase.hand, SessionPhase.hand] using perm_tags hf
  case heardAck p _ hd hp hr | heardError p _ hd hp hr =>
    refine ⟨hd, hd, ?_⟩
    simpa [carried, hp, Phase.hand, SessionPhase.hand] using perm_tags (react_answer hr).1
  case replace cmd p hd hp hf =>
    refine ⟨hd, rfl, p.id, ?_⟩
    simpa [carried, hp, Phase.hand, SessionPhase.hand, Pending.tag] using
      ((perm_tags hf).symm.cons cmd.tag).trans (.swap ..)
  all_goals grind -linarith [Custody, List.Perm.refl, carried, Phase.hand, SessionPhase.hand,
      Phase.keeps, Command.tag, Pending.tag, Command.entry]

theorem next_tidy (ht : Tidy w) (hp : w.polling = true)
    (h : Access cfg r m w i w' e) : Tidy w' := by
  have hk := ht.empty
  cases h
  all_goals constructor <;> grind -linarith [Phase.keeps]

theorem Moves.custody (ht : Tidy w) (h : w.Moves cfg r m l w' e) :
    Custody (m.cells r).commands w w' e := by
  cases h with
  | next hp h => exact next_custody ht h
  | wake hp hw hc | resume hp hw => exact ⟨(ht.asleep hp).1, (ht.asleep hp).1, .rfl⟩
  | cancel hp hw hc =>
    refine ⟨(ht.asleep hp).1, (ht.asleep hp).1, .of_eq ?_⟩
    simp only [carried, (ht.asleep hp).2]
    rfl
  | suspend hp hd ha => exact ⟨hd, hd, .rfl⟩

theorem hand_of_awaits (h : awaits w.phase = true) : w.phase.hand = [] := by
  cases awaiting_of_awaits h
  all_goals simp [Phase.hand, SessionPhase.hand, *]

theorem Moves.tidy (ht : Tidy w) (h : w.Moves cfg r m l w' e) : Tidy w' := by
  cases h with
  | next hp h => exact next_tidy ht hp h
  | wake hp hw hc | resume hp hw => exact ⟨nofun, ht.empty, ht.ended⟩
  | cancel hp hw hc => exact ⟨nofun, nofun, nofun⟩
  | suspend hp hd ha => exact ⟨fun _ => ⟨hd, hand_of_awaits ha⟩, ht.empty, ht.ended⟩

end Worker

theorem tidy_of_reaches {cfg : Config} {labels : List Label} {s : State} (h : Reaches cfg labels s) :
    ∀ r, (s.workers r).Tidy := by
  refine h.invariant (I := fun s => ∀ r, (s.workers r).Tidy)
      (fun r => ⟨fun _ => ⟨rfl, rfl⟩, fun _ => rfl, fun _ => rfl⟩) ?_
  intro s l t ht _ hs r
  cases State.step_cases hs with
  | tick d => exact ht r
  | begin op hh => exact ht r
  | @call c i k a hx =>
    rcases s.spawnWorker_cases r a with hw | ⟨-, -, hw⟩
    · simpa [hw] using ht r
    · rw [State.served_workers, hw]
      exact ⟨fun _ => ⟨rfl, rfl⟩, fun _ => rfl, fun _ => rfl⟩
  | @worker r' l w e hx =>
    by_cases hr : r = r'
    · subst hr
      simpa using hx.tidy (ht r)
    · simpa [hr] using ht r
  | dropClient _ _ => exact ht r

end WukongSdk
