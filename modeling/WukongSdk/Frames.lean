import WukongSdk.Decoding
import WukongSdk.Worker

/-!
# What a session makes of a frame

The dispatch of a text frame, by what the frame is: a received message, a
heartbeat's answer, a disconnect notification, or one of the malformed frames
that a session only reports or ignores.
-/
namespace WukongSdk

variable {codec : Codec} {s : Session} {text : String} {m : RecvMessage} {e : Error}

/-- The message a text delivers: a notification `recv` whose parameters are read. -/
def delivered (codec : Codec) (text : String) : Option RecvMessage :=
  match Protocol.parse codec text with
  | .ok v =>
    if v.strField "id" = none ∧ v.strField "method" = some "recv" then
      (Protocol.recv codec ((v.get "params").getD .null)).toOption
    else none
  | .error _ => none

theorem delivered_eq_some : delivered codec text = some m ↔
    ∃ v, Protocol.parse codec text = .ok v ∧ v.strField "id" = none ∧
      v.strField "method" = some "recv" ∧
      Protocol.recv codec ((v.get "params").getD .null) = .ok m := by
  unfold delivered
  cases hp : Protocol.parse codec text with
  | error e => simp
  | ok v =>
    cases hr : Protocol.recv codec ((v.get "params").getD .null) <;>
      simp [hr, Except.toOption, and_assoc]

/-- A text without an id is dispatched by its method. -/
theorem react_notice {v : Value} {name : String} (hv : Protocol.parse codec text = .ok v)
    (hid : v.strField "id" = none) (hname : v.strField "method" = some name) :
    s.react codec text = Session.reactNotice codec name ((v.get "params").getD .null) := by
  simp [Session.react, hv, hid, hname]

theorem react_response {v : Value} {id : String} (hv : Protocol.parse codec text = .ok v)
    (hid : v.strField "id" = some id) : s.react codec text = s.reactAnswer id v := by
  simp [Session.react, hv, hid]

/-- A session delivers exactly the messages of the texts it gets. -/
theorem react_deliver : s.react codec text = .deliver m ↔ delivered codec text = some m := by
  rw [delivered_eq_some]
  constructor
  · intro h
    unfold Session.react at h
    split at h
    · cases h
    next v hv =>
      split at h
      next id hid =>
        unfold Session.reactAnswer at h
        split at h
        · split at h <;> cases h
        · split at h <;> cases h
      next name hid hname =>
        unfold Session.reactNotice at h
        split at h
        · split at h
          next m' hr =>
            cases h
            exact ⟨v, hv, hid, hname, hr⟩
          next => cases h
        · split at h <;> cases h
        all_goals cases h
      next => cases h
  · rintro ⟨v, hv, hid, hname, hr⟩
    rw [react_notice hv hid hname]
    simp [Session.reactNotice, hr]

/-- A frame a session cannot use: a binary one, one that is no JSON-RPC object,
a notification with parameters that are not read, of an unknown method or of
none, and a response to a request that is not outstanding. -/
inductive Garbage (codec : Codec) (s : Session) : Incoming → Prop
  | binary : Garbage codec s .binary
  | envelope {text : String} {e : Error} (h : Protocol.parse codec text = .error e) :
      Garbage codec s (.text text)
  | recv {text : String} {v : Value} {e : Error} (hv : Protocol.parse codec text = .ok v)
      (hid : v.strField "id" = none) (hname : v.strField "method" = some "recv")
      (he : Protocol.recv codec ((v.get "params").getD .null) = .error e) :
      Garbage codec s (.text text)
  | event {text : String} {v : Value} {e : Error} (hv : Protocol.parse codec text = .ok v)
      (hid : v.strField "id" = none) (hname : v.strField "method" = some "event")
      (he : Protocol.event codec ((v.get "params").getD .null) = .error e) :
      Garbage codec s (.text text)
  | method {text : String} {v : Value} {name : String} (hv : Protocol.parse codec text = .ok v)
      (hid : v.strField "id" = none) (hname : v.strField "method" = some name)
      (hn : name ∉ ["recv", "event", "disconnect", "pong"]) : Garbage codec s (.text text)
  | unnamed {text : String} {v : Value} (hv : Protocol.parse codec text = .ok v)
      (hid : v.strField "id" = none) (hname : v.strField "method" = none) :
      Garbage codec s (.text text)
  | response {text : String} {v : Value} {id : String} (hv : Protocol.parse codec text = .ok v)
      (hid : v.strField "id" = some id) (hping : ∀ p, s.ping = some p → p.1 ≠ id)
      (hpending : ∀ p ∈ s.pending, p.id ≠ id) : Garbage codec s (.text text)

/-- A session reports such a text, or ignores it. -/
theorem Garbage.react (h : Garbage codec s (.text text)) :
    (∃ e, s.react codec text = .emit (.error e)) ∨ s.react codec text = .ignore := by
  cases h with
  | @envelope _ e h => exact .inl ⟨e, by simp [Session.react, h]⟩
  | @recv _ v e hv hid hname he =>
    refine .inl ⟨e, ?_⟩
    rw [react_notice hv hid hname]
    simp [Session.reactNotice, he]
  | @event _ v e hv hid hname he =>
    refine .inl ⟨e, ?_⟩
    rw [react_notice hv hid hname]
    simp [Session.reactNotice, he]
  | @method _ v name hv hid hname hn =>
    right
    rw [react_notice hv hid hname, Session.reactNotice.eq_def]
    simp only [List.mem_cons, List.not_mem_nil, or_false, not_or] at hn
    obtain ⟨hrecv, hevent, hdisconnect, hpong⟩ := hn
    split <;> first | contradiction | rfl
  | unnamed hv hid hname =>
    exact .inl ⟨.protocol "missing response ID or method", by simp [Session.react, hv, hid, hname]⟩
  | @response _ v id hv hid hping hpending =>
    right
    have hnone : s.pending.find? (fun p => p.id = id) = none := by
      simpa [List.find?_eq_none] using hpending
    have hno : s.ping.any (fun p => p.1 = id) = false := by
      cases hp : s.ping with
      | none => rfl
      | some p => simpa using hping p hp
    rw [react_response hv hid, Session.reactAnswer, hno, hnone]
    rfl

end WukongSdk
