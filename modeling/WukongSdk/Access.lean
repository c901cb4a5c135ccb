import WukongSdk.Worker

/-!
# The accesses of a worker

A relation with one case for each branch of `Worker.next`. What a property of a
worker asks of an access is read off here, by the names of its cases, so that
the three functions are walked through once.
-/
namespace WukongSdk
namespace Worker

variable (cfg : Config) (r : RunId) (m : Memory) (w : Worker)

/-- An access and what it does. Apart from `release`, no permit waits to be released. -/
inductive Access : Input → Worker → Effect → Prop
  | release {i c} (hd : w.dropping = some c) : Access i w.undrop (.release c)
  -- `sessionNext`
  | head {i} (hd : w.dropping = none) (hp : w.phase = .supervise (.session .head)) :
      Access i (w.goSession (.retain m.clock 0)) .skip
  | retainEnd {i now k} (hd : w.dropping = none)
      (hp : w.phase = .supervise (.session (.retain now k))) (hk : w.session.pending[k]? = none) :
      Access i (w.goSession (.expire (w.session.due now))) .skip
  | retainDrop {i now k p} (hd : w.dropping = none)
      (hp : w.phase = .supervise (.session (.retain now k))) (hk : w.session.pending[k]? = some p)
      (ha : (m.replies p.reply).abandoned = true) :
      Access i ((w.put (w.session.withPending (w.session.pending.eraseIdx k))).discard p.reply)
        (.drop p.reply)
  | retainKeep {i now k p} (hd : w.dropping = none)
      (hp : w.phase = .supervise (.session (.retain now k))) (hk : w.session.pending[k]? = some p)
      (ha : (m.replies p.reply).abandoned = false) :
      Access i (w.goSession (.retain now (k + 1))) .skip
  | expireEnd {i} (hd : w.dropping = none) (hp : w.phase = .supervise (.session (.expire []))) :
      Access i (w.goSession .select) .skip
  | expireFound {i id ids p} (hd : w.dropping = none)
      (hp : w.phase = .supervise (.session (.expire (id :: ids))))
      (hf : (w.session.pending.find? fun p => p.id = id) = some p) :
      Access i ((w.goSession (.expired ids p)).put (w.session.forget id)) .skip
  | expireGone {i id ids} (hd : w.dropping = none)
      (hp : w.phase = .supervise (.session (.expire (id :: ids))))
      (hf : (w.session.pending.find? fun p => p.id = id) = none) :
      Access i (w.goSession (.expire ids)) .skip
  | expired {i ids p} (hd : w.dropping = none)
      (hp : w.phase = .supervise (.session (.expired ids p))) :
      Access i ((w.goSession (.expire ids)).discard p.reply) (.answer p.reply (.error .timeout))
  | wakeup (hd : w.dropping = none) (hp : w.phase = .supervise (.session .select))
      (ht : w.session.wakeup ≤ m.clock) :
      Access .timer (w.goSession .timer) .skip
  | receive {cmd rest} (hd : w.dropping = none) (hp : w.phase = .supervise (.session .select))
      (hq : (m.cells r).commands = cmd :: rest) :
      Access .command (w.goSession (.received cmd)) .dequeue
  | senderless (hd : w.dropping = none) (hp : w.phase = .supervise (.session .select))
      (hq : (m.cells r).commands = []) (hr : m.running ≠ some r) :
      Access .command (w.lose .disconnected) .skip
  | heardEvent {text event} (hd : w.dropping = none)
      (hp : w.phase = .supervise (.session .select))
      (hr : w.session.react cfg.codec text = .emit event) :
      Access (.message (.text text)) (w.goSession (.emit event))
        (.receive w.session.socket (.text text))
  | heardPong {text} (hd : w.dropping = none) (hp : w.phase = .supervise (.session .select))
      (hr : w.session.react cfg.codec text = .pong) :
      Access (.message (.text text))
        ((w.goSession .head).put (w.session.ponged (m.clock + cfg.options.pingInterval)))
        (.receive w.session.socket (.text text))
  | heardAck {text p ack} (hd : w.dropping = none) (hp : w.phase = .supervise (.session .select))
      (hr : w.session.react cfg.codec text = .answer p (.ok ack)) :
      Access (.message (.text text)) ((w.goSession (.sendAck p ack)).put (w.session.forget p.id))
        (.receive w.session.socket (.text text))
  | heardError {text p error} (hd : w.dropping = none)
      (hp : w.phase = .supervise (.session .select))
      (hr : w.session.react cfg.codec text = .answer p (.error error)) :
      Access (.message (.text text))
        ((w.goSession (.answer p (.error error))).put (w.session.forget p.id))
        (.receive w.session.socket (.text text))
  | heardRecv {text msg} (hd : w.dropping = none) (hp : w.phase = .supervise (.session .select))
      (hr : w.session.react cfg.codec text = .deliver msg) :
      Access (.message (.text text)) (w.goSession (.deliver msg))
        (.receive w.session.socket (.text text))
  | heardOther {text} (hd : w.dropping = none) (hp : w.phase = .supervise (.session .select))
      (hr : w.session.react cfg.codec text = .ignore) :
      Access (.message (.text text)) (w.goSession .head) (.receive w.session.socket (.text text))
  | heardFail {text error} (hd : w.dropping = none) (hp : w.phase = .supervise (.session .select))
      (hr : w.session.react cfg.codec text = .fail error) :
      Access (.message (.text text)) (w.lose error) (.receive w.session.socket (.text text))
  | framePing (hd : w.dropping = none) (hp : w.phase = .supervise (.session .select)) :
      Access (.message .ping) (w.goSession .flushing) (.receive w.session.socket .ping)
  | framePong (hd : w.dropping = none) (hp : w.phase = .supervise (.session .select)) :
      Access (.message .pong) (w.goSession .head) (.receive w.session.socket .pong)
  | frameBinary (hd : w.dropping = none) (hp : w.phase = .supervise (.session .select)) :
      Access (.message .binary)
        (w.goSession (.emit (.error (.protocol "expected a text message"))))
        (.receive w.session.socket .binary)
  | frameClosed (hd : w.dropping = none) (hp : w.phase = .supervise (.session .select)) :
      Access (.message .closed) (w.lose .transport) (.receive w.session.socket .closed)
  | pongLate {i p} (hd : w.dropping = none) (hp : w.phase = .supervise (.session .timer))
      (hb : w.session.ping = some p) (ht : p.2 ≤ m.clock) :
      Access i (w.lose .timeout) .skip
  | pongWait {i p} (hd : w.dropping = none) (hp : w.phase = .supervise (.session .timer))
      (hb : w.session.ping = some p) (ht : m.clock < p.2) :
      Access i (w.goSession .head) .skip
  | pingDue {i} (hd : w.dropping = none) (hp : w.phase = .supervise (.session .timer))
      (hb : w.session.ping = none) (ht : w.session.nextPing ≤ m.clock) :
      Access i (w.goSession .pingDue) .skip
  | pingWait {i} (hd : w.dropping = none) (hp : w.phase = .supervise (.session .timer))
      (hb : w.session.ping = none) (ht : m.clock < w.session.nextPing) :
      Access i (w.goSession .head) .skip
  | pingId {id} (hd : w.dropping = none) (hp : w.phase = .supervise (.session .pingDue))
      (hn : id ∉ m.uuids) :
      Access (.uuid id) (w.goSession (.ping id)) (.uuid id)
  | ping {i id} (hd : w.dropping = none) (hp : w.phase = .supervise (.session (.ping id)))
      (hl : (cfg.codec.render (Wire.ping id).value).utf8ByteSize ≤ cfg.options.maxMessageSize) :
      Access i (w.goSession (.writing (some (id, m.clock + cfg.options.pongTimeout))))
        (.write w.session.socket (.ping id))
  | pingTooLarge {i id} (hd : w.dropping = none) (hp : w.phase = .supervise (.session (.ping id)))
      (hl : cfg.options.maxMessageSize < (cfg.codec.render (Wire.ping id).value).utf8ByteSize) :
      Access i (w.lose .messageTooLarge) .skip
  | receivedGone {i cmd} (hd : w.dropping = none)
      (hp : w.phase = .supervise (.session (.received cmd)))
      (ha : (m.replies cmd.reply).abandoned = true) :
      Access i (w.settled cmd.reply) (.drop cmd.reply)
  | received {i cmd} (hd : w.dropping = none)
      (hp : w.phase = .supervise (.session (.received cmd)))
      (ha : (m.replies cmd.reply).abandoned = false) :
      Access i (w.goSession (.fresh cmd)) .skip
  | stale {i cmd} (hd : w.dropping = none) (hp : w.phase = .supervise (.session (.fresh cmd)))
      (hg : cmd.generation ≠ m.generation) :
      Access i (w.goSession (.refuse cmd .disconnected)) .skip
  | fresh {i cmd} (hd : w.dropping = none) (hp : w.phase = .supervise (.session (.fresh cmd)))
      (hg : cmd.generation = m.generation) :
      Access i (w.goSession (.timely cmd)) .skip
  | late {i cmd} (hd : w.dropping = none) (hp : w.phase = .supervise (.session (.timely cmd)))
      (ht : cmd.deadline ≤ m.clock) :
      Access i (w.goSession (.refuse cmd .timeout)) .skip
  | timely {i cmd} (hd : w.dropping = none) (hp : w.phase = .supervise (.session (.timely cmd)))
      (ht : m.clock < cmd.deadline) :
      Access i (w.goSession (.insert cmd)) .skip
  | replace {i cmd p} (hd : w.dropping = none)
      (hp : w.phase = .supervise (.session (.insert cmd)))
      (hf : (w.session.pending.find? fun p => p.id = cmd.id) = some p) :
      Access i ((w.put (w.session.forget cmd.id)).discard p.reply) (.drop p.reply)
  | insert {i cmd} (hd : w.dropping = none) (hp : w.phase = .supervise (.session (.insert cmd)))
      (hf : (w.session.pending.find? fun p => p.id = cmd.id) = none)
      (hl : (cfg.codec.render (Wire.send cmd).value).utf8ByteSize ≤ cfg.options.maxMessageSize) :
      Access i
        ((w.put (w.session.withPending (w.session.pending ++ [cmd.entry]))).goSession (.writing none))
        (.write w.session.socket (.send cmd))
  | insertTooLarge {i cmd} (hd : w.dropping = none)
      (hp : w.phase = .supervise (.session (.insert cmd)))
      (hf : (w.session.pending.find? fun p => p.id = cmd.id) = none)
      (hl : cfg.options.maxMessageSize < (cfg.codec.render (Wire.send cmd).value).utf8ByteSize) :
      Access i
        ((w.put (w.session.withPending (w.session.pending ++ [cmd.entry]))).lose .messageTooLarge)
        .skip
  | refuse {i cmd error} (hd : w.dropping = none)
      (hp : w.phase = .supervise (.session (.refuse cmd error))) :
      Access i (w.settled cmd.reply) (.answer cmd.reply (.error error))
  | written {ping} (hd : w.dropping = none) (hp : w.phase = .supervise (.session (.writing ping))) :
      Access (.io true) ((w.goSession .head).put (w.session.pinged ping)) .skip
  | unwritten {ping} (hd : w.dropping = none)
      (hp : w.phase = .supervise (.session (.writing ping))) :
      Access (.io false) (w.lose .transport) .skip
  | flushed (hd : w.dropping = none) (hp : w.phase = .supervise (.session .flushing)) :
      Access (.io true) (w.goSession .head) .skip
  | unflushed (hd : w.dropping = none) (hp : w.phase = .supervise (.session .flushing)) :
      Access (.io false) (w.lose .transport) .skip
  | emit {i event} (hd : w.dropping = none) (hp : w.phase = .supervise (.session (.emit event))) :
      Access i (w.goSession .head) (.emit event)
  | sendAck {i p ack} (hd : w.dropping = none)
      (hp : w.phase = .supervise (.session (.sendAck p ack))) :
      Access i (w.goSession (.answer p (.ok ack))) (.emit (.sendAck ack))
  | answer {i p result} (hd : w.dropping = none)
      (hp : w.phase = .supervise (.session (.answer p result))) :
      Access i (w.settled p.reply) (.answer p.reply result)
  | deliver {i msg} (hd : w.dropping = none) (hp : w.phase = .supervise (.session (.deliver msg))) :
      Access i (w.goSession (.recvAck msg)) (.emit (.message msg))
  | recvAck {i msg} (hd : w.dropping = none) (hp : w.phase = .supervise (.session (.recvAck msg)))
      (hl : (cfg.codec.render (Wire.recvAck msg).value).utf8ByteSize ≤ cfg.options.maxMessageSize) :
      Access i (w.goSession (.writing none)) (.write w.session.socket (.recvAck msg))
  | recvAckTooLarge {i msg} (hd : w.dropping = none)
      (hp : w.phase = .supervise (.session (.recvAck msg)))
      (hl : cfg.options.maxMessageSize < (cfg.codec.render (Wire.recvAck msg).value).utf8ByteSize) :
      Access i (w.lose .messageTooLarge) .skip
  -- `superviseNext`
  | dial {i} (hd : w.dropping = none) (hp : w.phase = .supervise .top) (ha : w.attempt = 0) :
      Access i (w.goSupervise (.dialing (m.clock + cfg.options.connectTimeout))) .dial
  | delay {n} (hd : w.dropping = none) (hp : w.phase = .supervise .top) (ha : w.attempt ≠ 0) :
      Access (.random n) (w.goSupervise (.backoff (reconnectDelay cfg.options w.attempt n)))
        (.emit (.reconnecting w.attempt (reconnectDelay cfg.options w.attempt n)))
  | sleep {i delay} (hd : w.dropping = none) (hp : w.phase = .supervise (.backoff delay)) :
      Access i (w.goSupervise (.sleeping (m.clock + delay))) .skip
  | redial {wake} (hd : w.dropping = none) (hp : w.phase = .supervise (.sleeping wake))
      (ht : wake ≤ m.clock) :
      Access .timer (w.goSupervise (.dialing (m.clock + cfg.options.connectTimeout))) .dial
  | dialTimeout {deadline} (hd : w.dropping = none)
      (hp : w.phase = .supervise (.dialing deadline)) (ht : deadline ≤ m.clock) :
      Access .timer (w.goSupervise (.failed .timeout)) (.rejected .timeout)
  | dialed {deadline} (hd : w.dropping = none) (hp : w.phase = .supervise (.dialing deadline)) :
      Access (.io true) (w.goSupervise (.opened deadline)) .skip
  | undialed {deadline} (hd : w.dropping = none) (hp : w.phase = .supervise (.dialing deadline)) :
      Access (.io false) (w.goSupervise (.failed .transport)) (.rejected .transport)
  | loginId {deadline id} (hd : w.dropping = none) (hp : w.phase = .supervise (.opened deadline))
      (hn : id ∉ m.uuids) :
      Access (.uuid id) (w.goSupervise (.hello deadline id)) (.uuid id)
  | loginTooLarge {deadline id timestamp} (hd : w.dropping = none)
      (hp : w.phase = .supervise (.hello deadline id))
      (hl : cfg.options.maxMessageSize <
        (cfg.codec.render (Protocol.connect cfg.auth timestamp id)).utf8ByteSize) :
      Access (.stamp timestamp) (w.goSupervise (.failed .messageTooLarge))
        (.rejected .messageTooLarge)
  | login {deadline id timestamp} (hd : w.dropping = none)
      (hp : w.phase = .supervise (.hello deadline id))
      (hl : (cfg.codec.render (Protocol.connect cfg.auth timestamp id)).utf8ByteSize ≤
        cfg.options.maxMessageSize) :
      Access (.stamp timestamp) (w.goSupervise (.greeting deadline id))
        (.login (Protocol.connect cfg.auth timestamp id))
  | greetTimeout {deadline id} (hd : w.dropping = none)
      (hp : w.phase = .supervise (.greeting deadline id)) (ht : deadline ≤ m.clock) :
      Access .timer (w.goSupervise (.failed .timeout)) (.rejected .timeout)
  | greeted {deadline id} (hd : w.dropping = none)
      (hp : w.phase = .supervise (.greeting deadline id)) :
      Access (.io true) (w.goSupervise (.awaiting deadline id)) .skip
  | ungreeted {deadline id} (hd : w.dropping = none)
      (hp : w.phase = .supervise (.greeting deadline id)) :
      Access (.io false) (w.goSupervise (.failed .transport)) (.rejected .transport)
  | loginTimeout {deadline id} (hd : w.dropping = none)
      (hp : w.phase = .supervise (.awaiting deadline id)) (ht : deadline ≤ m.clock) :
      Access .timer (w.goSupervise (.failed .timeout)) (.rejected .timeout)
  | accepted {deadline id text result} (hd : w.dropping = none)
      (hp : w.phase = .supervise (.awaiting deadline id))
      (hr : authReply cfg.codec id text = .ok result) :
      Access (.message (.text text)) ((w.goSupervise (.bump result)).setAttempt true 0)
        (.authenticated result)
  | refused {deadline id text error} (hd : w.dropping = none)
      (hp : w.phase = .supervise (.awaiting deadline id))
      (hr : authReply cfg.codec id text = .error error) :
      Access (.message (.text text)) (w.goSupervise (.failed error)) (.rejected error)
  | loginPing {deadline id} (hd : w.dropping = none)
      (hp : w.phase = .supervise (.awaiting deadline id)) :
      Access (.message .ping) (w.goSupervise (.flushing deadline id)) .skip
  | loginPong {deadline id} (hd : w.dropping = none)
      (hp : w.phase = .supervise (.awaiting deadline id)) :
      Access (.message .pong) (w.goSupervise (.awaiting deadline id)) .skip
  | loginEnd {deadline id msg} (hd : w.dropping = none)
      (hp : w.phase = .supervise (.awaiting deadline id)) (hm : msg = .binary ∨ msg = .closed) :
      Access (.message msg) (w.goSupervise (.failed .transport)) (.rejected .transport)
  | flushTimeout {deadline id} (hd : w.dropping = none)
      (hp : w.phase = .supervise (.flushing deadline id)) (ht : deadline ≤ m.clock) :
      Access .timer (w.goSupervise (.failed .timeout)) (.rejected .timeout)
  | loginFlushed {deadline id} (hd : w.dropping = none)
      (hp : w.phase = .supervise (.flushing deadline id)) :
      Access (.io true) (w.goSupervise (.awaiting deadline id)) .skip
  | loginUnflushed {deadline id} (hd : w.dropping = none)
      (hp : w.phase = .supervise (.flushing deadline id)) :
      Access (.io false) (w.goSupervise (.failed .transport)) (.rejected .transport)
  | bump {i result} (hd : w.dropping = none) (hp : w.phase = .supervise (.bump result)) :
      Access i ((w.goSupervise (.raise result)).put { socket := m.sockets + 1 }) .bump
  | raise {i result} (hd : w.dropping = none) (hp : w.phase = .supervise (.raise result)) :
      Access i (w.goSupervise (.ready result)) (.setConnected true)
  | ready {i result} (hd : w.dropping = none) (hp : w.phase = .supervise (.ready result)) :
      Access i (w.goSupervise (.first result)) (.setStatus (.ready result))
  | first {i result} (hd : w.dropping = none) (hp : w.phase = .supervise (.first result))
      (hf : (m.cells r).firstResult.isNone = true) :
      Access i (w.goSupervise (.announce result)) (.setFirst (.ok result))
  | notFirst {i result} (hd : w.dropping = none) (hp : w.phase = .supervise (.first result))
      (hf : (m.cells r).firstResult.isNone = false) :
      Access i (w.goSupervise (.announce result)) .skip
  | announce {i result} (hd : w.dropping = none) (hp : w.phase = .supervise (.announce result)) :
      Access i (w.goSupervise .begin) (.emit (.connect result))
  | begin {i} (hd : w.dropping = none) (hp : w.phase = .supervise .begin) :
      Access i ((w.goSession .head).put (w.session.ponged (m.clock + cfg.options.pingInterval)))
        .skip
  | lost {i error} (hd : w.dropping = none) (hp : w.phase = .supervise (.lost error)) :
      Access i (w.goSupervise (.unwind error)) (.lost w.session.socket error)
  | unwind {i error p rest} (hd : w.dropping = none) (hp : w.phase = .supervise (.unwind error))
      (hq : w.session.pending = p :: rest) :
      Access i ((w.put (w.session.withPending rest)).discard p.reply) (.drop p.reply)
  | unwound {i error} (hd : w.dropping = none) (hp : w.phase = .supervise (.unwind error))
      (hq : w.session.pending = []) :
      Access i (w.goSupervise (.lower error)) .skip
  | lower {i error} (hd : w.dropping = none) (hp : w.phase = .supervise (.lower error)) :
      Access i (w.goSupervise (.unready error)) (.setConnected false)
  | unready {i error} (hd : w.dropping = none) (hp : w.phase = .supervise (.unready error)) :
      Access i (w.goSupervise (.sweep error)) (.setStatus .connecting)
  | sweep {i error cmd rest} (hd : w.dropping = none) (hp : w.phase = .supervise (.sweep error))
      (hq : (m.cells r).commands = cmd :: rest) :
      Access i (w.goSupervise (.swept error cmd)) .dequeue
  | sweepEnd {i error} (hd : w.dropping = none) (hp : w.phase = .supervise (.sweep error))
      (hq : (m.cells r).commands = []) :
      Access i (w.goSupervise (.disconnected error)) .skip
  | swept {i error cmd} (hd : w.dropping = none) (hp : w.phase = .supervise (.swept error cmd)) :
      Access i ((w.goSupervise (.sweep error)).discard cmd.reply)
        (.answer cmd.reply (.error .disconnected))
  | serverGone {i code} (hd : w.dropping = none)
      (hp : w.phase = .supervise (.disconnected (.server code))) :
      Access i (w.goto (.lower (.server code))) (.emit (.disconnect (.server code)))
  | disconnected {i error reason} (hd : w.dropping = none)
      (hp : w.phase = .supervise (.disconnected error)) (hs : error.isServer = false)
      (hr : reason = if error = .timeout then .heartbeatTimeout else .transport) :
      Access i (w.goSupervise (.report error)) (.emit (.disconnect reason))
  | report {i error} (hd : w.dropping = none) (hp : w.phase = .supervise (.report error)) :
      Access i (w.goSupervise .budget) (.emit (.error error))
  | failedLast {i error} (hd : w.dropping = none) (hp : w.phase = .supervise (.failed error))
      (ht : w.established = false ∨ error.isTerminal = true) :
      Access i (w.goto (.lower error)) (.emit (.error error))
  | failed {i error} (hd : w.dropping = none) (hp : w.phase = .supervise (.failed error))
      (he : w.established = true) (ht : error.isTerminal = false) :
      Access i (w.goSupervise .budget) (.emit (.error error))
  | exhausted {i} (hd : w.dropping = none) (hp : w.phase = .supervise .budget)
      (ha : cfg.options.maxReconnectAttempts ≤ w.attempt) :
      Access i (w.goto (.lower .reconnectExhausted)) (.emit (.error .reconnectExhausted))
  | retry {i} (hd : w.dropping = none) (hp : w.phase = .supervise .budget)
      (ha : w.attempt < cfg.options.maxReconnectAttempts) :
      Access i ((w.goSupervise .top).setAttempt w.established (w.attempt + 1)) .skip
  -- `next`
  | cancelledDrop {i p rest} (hd : w.dropping = none) (hp : w.phase = .cancelled)
      (hq : w.session.pending = p :: rest) :
      Access i ((w.put (w.session.withPending rest)).discard p.reply) (.drop p.reply)
  | cancelledEnd {i} (hd : w.dropping = none) (hp : w.phase = .cancelled)
      (hq : w.session.pending = []) :
      Access i (w.goto .cancelLower) .skip
  | cancelLower {i} (hd : w.dropping = none) (hp : w.phase = .cancelLower) :
      Access i (w.goto .manual) (.setConnected false)
  | manual {i} (hd : w.dropping = none) (hp : w.phase = .manual) :
      Access i (w.goto (.lower .disconnected)) (.emit (.disconnect .manual))
  | runLower {i error} (hd : w.dropping = none) (hp : w.phase = .lower error) :
      Access i (w.goto (.first error)) (.setConnected false)
  | failFirst {i error} (hd : w.dropping = none) (hp : w.phase = .first error)
      (hf : (m.cells r).firstResult.isNone = true) :
      Access i (w.goto (.status error)) (.setFirst (.error error))
  | failKnown {i error} (hd : w.dropping = none) (hp : w.phase = .first error)
      (hf : (m.cells r).firstResult.isNone = false) :
      Access i (w.goto (.status error)) .skip
  | failStatus {i error} (hd : w.dropping = none) (hp : w.phase = .status error) :
      Access i (w.goto (.close error)) (.setStatus (.failed error))
  | close {i error} (hd : w.dropping = none) (hp : w.phase = .close error) :
      Access i (w.goto (.drain error)) .close
  | drain {i error cmd rest} (hd : w.dropping = none) (hp : w.phase = .drain error)
      (hq : (m.cells r).commands = cmd :: rest) :
      Access i (w.goto (.drained error cmd)) .dequeue
  | finish {i error} (hd : w.dropping = none) (hp : w.phase = .drain error)
      (hq : (m.cells r).commands = []) :
      Access i (w.goto .over) .finish
  | drained {i error cmd} (hd : w.dropping = none) (hp : w.phase = .drained error cmd) :
      Access i ((w.goto (.drain error)).discard cmd.reply) (.answer cmd.reply (.error error))

variable {cfg r m w} {w' : Worker} {i : Input} {e : Effect}

theorem access_of_onMessage (hd : w.dropping = none) (hp : w.phase = .supervise (.session .select))
    (msg : Incoming) :
    Access cfg r m w (.message msg) (w.onMessage cfg m msg) (.receive w.session.socket msg) := by
  fun_cases onMessage cfg m w msg
  all_goals grind -linarith [Access]

theorem access_of_sessionNext {q : SessionPhase} (hd : w.dropping = none)
    (hp : w.phase = .supervise (.session q)) (h : w.sessionNext cfg r m i q = some (w', e)) :
    Access cfg r m w i w' e := by
  cases q
  all_goals
    unfold sessionNext at h
    grind -linarith [Access, access_of_onMessage, write]

theorem access_of_superviseNext {q : SupervisePhase} (hd : w.dropping = none)
    (hp : w.phase = .supervise q) (h : w.superviseNext cfg r m i q = some (w', e)) :
    Access cfg r m w i w' e := by
  cases q with
  | session q => exact access_of_sessionNext hd hp h
  | awaiting deadline id =>
    -- the last arm of its match takes what the others leave
    cases i with
    | message msg =>
      cases msg
      all_goals
        simp only [superviseNext, bounded] at h
        grind -linarith [Access]
    | _ =>
      simp only [superviseNext, bounded] at h
      grind -linarith [Access]
  | _ =>
    simp only [superviseNext, bounded, reject] at h
    grind -linarith [Access, Error.isServer]

/-- Every access is one of the cases. -/
theorem access_of_next (h : w.next cfg r m i = some (w', e)) : Access cfg r m w i w' e := by
  cases hd : w.dropping with
  | some c =>
    simp only [next, hd, Option.some.injEq, Prod.mk.injEq] at h
    obtain ⟨rfl, rfl⟩ := h
    exact .release hd
  | none =>
    simp only [next, hd] at h
    cases hp : w.phase with
    | supervise q => exact access_of_superviseNext hd hp (by simpa [hp] using h)
    | _ =>
      simp only [hp] at h
      grind -linarith [Access]

/-- The points where a task may be suspended, by name. -/
inductive Awaiting (w : Worker) : Prop
  | sleeping {wake} (hp : w.phase = .supervise (.sleeping wake)) : Awaiting w
  | dialing {deadline} (hp : w.phase = .supervise (.dialing deadline)) : Awaiting w
  | greeting {deadline id} (hp : w.phase = .supervise (.greeting deadline id)) : Awaiting w
  | awaiting {deadline id} (hp : w.phase = .supervise (.awaiting deadline id)) : Awaiting w
  | flushing {deadline id} (hp : w.phase = .supervise (.flushing deadline id)) : Awaiting w
  | select (hp : w.phase = .supervise (.session .select)) : Awaiting w
  | writing {ping} (hp : w.phase = .supervise (.session (.writing ping))) : Awaiting w
  | sessionFlushing (hp : w.phase = .supervise (.session .flushing)) : Awaiting w
  | drain {error} (hp : w.phase = .drain error) : Awaiting w

theorem awaiting_of_awaits (h : awaits w.phase = true) : w.Awaiting := by
  unfold awaits at h
  split at h
  all_goals grind -linarith [Awaiting]

end Worker
end WukongSdk
