import WukongSdk.Stream

/-!
# The wire audit of the acceptance tests

`SendCounter` watches the bytes a client sends: an HTTP upgrade, then WebSocket
frames. It is fed whatever the socket yields and counts the SEND requests among
the text frames. The reference is a reader of WebSocket frames of any kind on
the whole stream.
-/
namespace WukongSdk

/-! ## WebSocket frames -/

/-- The parts of a frame, as they stand on the wire. -/
structure Frame where
  first : UInt8
  second : UInt8
  extended : List UInt8
  mask : List UInt8
  payload : List UInt8
  deriving DecidableEq, Repr

namespace Frame

def final (f : Frame) : Bool := f.first &&& 0x80 ≠ 0

def reserved (f : Frame) : UInt8 := f.first &&& 0x70

def opcode (f : Frame) : UInt8 := f.first &&& 15

def masked (f : Frame) : Bool := f.second &&& 0x80 ≠ 0

/-- A big-endian number. -/
def bigEndian (bytes : List UInt8) : ℕ := bytes.foldl (fun n b => 256 * n + b.toNat) 0

/-- Bytes of extended length that follow the two-byte header. -/
def extendedWidth (second : UInt8) : ℕ :=
  if second &&& 127 = 126 then 2 else if second &&& 127 = 127 then 8 else 0

def payloadLength (second : UInt8) (extended : List UInt8) : ℕ :=
  if extended = [] then (second &&& 127).toNat else bigEndian extended

/-- The payload under the mask, if there is one. -/
def body (f : Frame) : List UInt8 :=
  f.payload.mapIdx fun i b => b ^^^ f.mask.getD (i % 4) 0

/-- The frame at the front of a stream, when all of it is there. -/
def read : List UInt8 → Option (Frame × List UInt8)
  | first :: second :: bs => do
    let (extended, bs) ← chop (extendedWidth second) bs
    let (mask, bs) ← chop (if second &&& 0x80 ≠ 0 then 4 else 0) bs
    let (payload, bs) ← chop (payloadLength second extended) bs
    return (⟨first, second, extended, mask, payload⟩, bs)
  | _ => none

/-- The bytes of a frame. -/
def bytes (f : Frame) : List UInt8 :=
  f.first :: f.second :: (f.extended ++ (f.mask ++ f.payload))

/-- The lengths a frame announces are those of its parts. -/
structure Sized (f : Frame) : Prop where
  extended : f.extended.length = extendedWidth f.second
  mask : f.mask.length = if f.second &&& 0x80 ≠ 0 then 4 else 0
  payload : f.payload.length = payloadLength f.second f.extended

/-- What is read is a complete frame at the front of the stream. -/
theorem read_eq_some {bs rest : List UInt8} {f : Frame} :
    read bs = some (f, rest) ↔ bs = f.bytes ++ rest ∧ f.Sized := by
  constructor
  · intro h
    unfold read at h
    split at h
    next first second bs =>
      obtain ⟨⟨extended, bs₁⟩, h₁, h⟩ := Option.bind_eq_some_iff.mp h
      obtain ⟨⟨mask, bs₂⟩, h₂, h⟩ := Option.bind_eq_some_iff.mp h
      obtain ⟨⟨payload, bs₃⟩, h₃, h⟩ := Option.bind_eq_some_iff.mp h
      cases h
      obtain ⟨rfl, hextended⟩ := chop_eq_some.mp h₁
      obtain ⟨rfl, hmask⟩ := chop_eq_some.mp h₂
      obtain ⟨rfl, hpayload⟩ := chop_eq_some.mp h₃
      exact ⟨by simp [bytes], hextended, hmask, hpayload⟩
    · cases h
  · rintro ⟨rfl, hextended, hmask, hpayload⟩
    have h₁ := chop_eq_some.mpr
      ⟨(List.append_assoc f.extended (f.mask ++ f.payload) rest), hextended⟩
    have h₂ := chop_eq_some.mpr ⟨(List.append_assoc f.mask f.payload rest), hmask⟩
    have h₃ : chop (payloadLength f.second f.extended) (f.payload ++ rest) =
        some (f.payload, rest) := chop_eq_some.mpr ⟨rfl, hpayload⟩
    rw [bytes, List.cons_append, List.cons_append, read, h₁]
    simp only [Option.bind_eq_bind, Option.bind_some, h₂, h₃]
    rfl

/-- Frames are read off a stream one by one. -/
def reader : Reader UInt8 Frame where
  read := read
  shorter h := by
    obtain ⟨rfl, -⟩ := read_eq_some.mp h
    simp only [bytes, List.cons_append, List.length_cons, List.length_append]
    omega
  stable h data := by
    obtain ⟨rfl, hf⟩ := read_eq_some.mp h
    exact read_eq_some.mpr ⟨List.append_assoc .., hf⟩

/-- The frames of a stream and what is left make up the stream. -/
theorem drain_bytes (bs : List UInt8) :
    (reader.drain bs).1.flatMap bytes ++ (reader.drain bs).2 = bs := by
  induction bs using Reader.drain_induction (R := reader) with
  | stuck bs h => rw [Reader.drain_none h, List.flatMap_nil, List.nil_append]
  | item bs f rest h ih =>
    obtain ⟨hbytes, -⟩ := read_eq_some.mp h
    rw [Reader.drain_some h, List.flatMap_cons, List.append_assoc, ih, ← hbytes]

end Frame

/-! ## The counter -/

/-- What `json.loads` returns, as far as the counter looks at it. -/
inductive Json where
  | str (s : String)
  | dict (items : List (String × Json))
  | other

/-- A request for a SEND. -/
def Json.isSend : Json → Bool
  | .dict items =>
    match items.lookup "method" with
    | some (.str method) => method = "send"
    | _ => false
  | _ => false

def Json.isDict : Json → Bool
  | .dict _ => true
  | _ => false

/-- `count` is the number of calls of the callback. -/
structure SendCounter where
  buffer : List UInt8 := []
  upgraded : Bool := false
  count : ℕ := 0
  deriving DecidableEq, Repr

/-- A turn of the frame loop returns for lack of bytes, raises, or takes a frame. -/
inductive Turn where
  | wait
  | raise
  | frame (opcode : UInt8) (body rest : List UInt8)

/-- Framing the counter accepts. -/
structure Frame.Plain (f : Frame) : Prop where
  final : f.final = true
  masked : f.masked = true
  reserved : f.reserved = 0

/-- The turn agrees with the reader of frames: it waits where no frame is
complete, and takes the frame that is. -/
def Turn.Reads (buffer : List UInt8) : Turn → Prop
  | .wait => Frame.read buffer = none
  | .raise => True
  | .frame opcode body rest => ∃ f : Frame, f.Plain ∧ f.opcode = opcode ∧ f.body = body ∧
      Frame.read buffer = some (f, rest)

namespace SendCounter

def crlfcrlf : List UInt8 := [13, 10, 13, 10]

/-- `b"GET "`. -/
def get : List UInt8 := [71, 69, 84, 32]

/-- A turn from the check of the length on. -/
def take (buffer : List UInt8) (opcode : UInt8) (header length : ℕ) : Turn :=
  if length > 60000 ∨ opcode ≥ 8 ∧ length > 125 then .raise
  else if buffer.length < header + 4 + length then .wait
  else
    let mask := (buffer.drop header).take 4
    .frame opcode
      (((buffer.take (header + 4 + length)).drop (header + 4)).mapIdx
        fun index value => value ^^^ mask.getD (index % 4) 0)
      (buffer.drop (header + 4 + length))

/-- One turn of the frame loop on the buffer. -/
def turn (buffer : List UInt8) : Turn :=
  match buffer with
  | first :: second :: _ =>
    if first &&& 0x70 ≠ 0 ∨ first &&& 0x80 = 0 ∨ second &&& 0x80 = 0 then .raise
    else
      let opcode := first &&& 15
      if opcode ∉ [1, 8, 9, 10] then .raise
      else
        let length := second &&& 127
        if length = 126 ∨ length = 127 then
          let width := if length = 126 then 2 else 8
          if buffer.length < 2 + width then .wait
          else take buffer opcode (2 + width) (Frame.bigEndian ((buffer.drop 2).take width))
        else take buffer opcode 2 length.toNat
  | _ => .wait

/-- A masked frame is not complete while its announced length is not there. -/
theorem read_none_of_short {first second : UInt8} {extended tail : List UInt8}
    (hext : extended.length = Frame.extendedWidth second) (hmask : second &&& 0x80 ≠ 0)
    (hshort : tail.length < 4 + Frame.payloadLength second extended) :
    Frame.read (first :: second :: (extended ++ tail)) = none := by
  by_contra hsome
  obtain ⟨⟨f, rest⟩, h⟩ := Option.ne_none_iff_exists'.mp hsome
  obtain ⟨hbytes, hf⟩ := Frame.read_eq_some.mp h
  simp only [Frame.bytes, List.cons_append, List.cons.injEq, List.append_assoc] at hbytes
  obtain ⟨-, hsecond, hbytes⟩ := hbytes
  have hwidth : extended.length = f.extended.length := by rw [hext, hf.extended, hsecond]
  obtain ⟨rfl, rfl⟩ := List.append_inj hbytes hwidth
  have hmasked : f.mask.length = 4 := by rw [hf.mask, if_pos (hsecond ▸ hmask)]
  have hpayload := hf.payload
  rw [← hsecond] at hpayload
  simp only [List.length_append] at hshort
  omega

/-- The parts of a masked frame that is complete. -/
theorem read_of_long {first second : UInt8} {extended tail : List UInt8}
    (hext : extended.length = Frame.extendedWidth second) (hmask : second &&& 0x80 ≠ 0)
    (hlong : 4 + Frame.payloadLength second extended ≤ tail.length) :
    Frame.read (first :: second :: (extended ++ tail)) =
      some (⟨first, second, extended, tail.take 4,
        (tail.drop 4).take (Frame.payloadLength second extended)⟩,
        tail.drop (4 + Frame.payloadLength second extended)) := by
  refine Frame.read_eq_some.mpr ⟨?_, hext, ?_, ?_⟩
  · simp only [Frame.bytes, List.cons_append, List.append_assoc, ← List.drop_drop,
      List.take_append_drop]
  · rw [if_pos hmask, List.length_take]
    omega
  · show ((tail.drop 4).take _).length = Frame.payloadLength second extended
    rw [List.length_take, List.length_drop]
    omega

theorem take_reads {first second : UInt8} {extended tail : List UInt8}
    (hext : extended.length = Frame.extendedWidth second) (hmask : second &&& 0x80 ≠ 0)
    (hfinal : first &&& 0x80 ≠ 0) (hreserved : first &&& 0x70 = 0) :
    (take (first :: second :: (extended ++ tail)) (first &&& 15) (2 + extended.length)
      (Frame.payloadLength second extended)).Reads (first :: second :: (extended ++ tail)) := by
  have hlen : (first :: second :: (extended ++ tail)).length =
      2 + extended.length + tail.length := by
    simp only [List.length_cons, List.length_append]
    omega
  have hdrop : ∀ n, (first :: second :: (extended ++ tail)).drop (2 + extended.length + n) =
      tail.drop n := fun n => by
    rw [show 2 + extended.length + n = extended.length + n + 1 + 1 by omega, List.drop_succ_cons,
      List.drop_succ_cons, ← List.drop_drop, List.drop_left]
  unfold take
  rw [hlen]
  split
  · trivial
  split
  next hshort => exact read_none_of_short hext hmask (by omega)
  next hlong =>
    refine ⟨⟨first, second, extended, tail.take 4,
      (tail.drop 4).take (Frame.payloadLength second extended)⟩,
      ⟨by simpa [Frame.final] using hfinal, by simpa [Frame.masked] using hmask, hreserved⟩,
      rfl, ?_, ?_⟩
    · rw [List.drop_take, hdrop 4, Nat.add_sub_cancel_left, ← Nat.add_zero (2 + extended.length),
        hdrop 0, List.drop_zero]
      rfl
    · rw [Nat.add_assoc, hdrop]
      exact read_of_long hext hmask (by omega)

theorem turn_reads (buffer : List UInt8) : (turn buffer).Reads buffer := by
  match buffer with
  | [] => exact rfl
  | [_] => exact rfl
  | first :: second :: tail =>
    unfold turn
    dsimp only
    split
    · trivial
    next hheader =>
      simp only [not_or, not_not] at hheader
      obtain ⟨hreserved, hfinal, hmask⟩ := hheader
      split
      · trivial
      split
      next hlong =>
        have hwidth : Frame.extendedWidth second = if second &&& 127 = 126 then 2 else 8 := by
          unfold Frame.extendedWidth
          rcases hlong with h | h <;> simp [h]
        have hpos : Frame.extendedWidth second ≠ 0 := by
          rw [hwidth]
          split <;> decide
        rw [← hwidth]
        simp only [List.length_cons, List.drop_succ_cons, List.drop_zero]
        split
        next hshort =>
          have hchop : chop (Frame.extendedWidth second) tail = none := if_pos (by omega)
          simp only [Turn.Reads, Frame.read, hchop]
          rfl
        next hwide =>
          have hext : (tail.take (Frame.extendedWidth second)).length =
              Frame.extendedWidth second := List.length_take_of_le (by omega)
          have hlen : Frame.payloadLength second (tail.take (Frame.extendedWidth second)) =
              Frame.bigEndian (tail.take (Frame.extendedWidth second)) :=
            if_neg fun hnil => hpos (by rw [← hext, hnil, List.length_nil])
          have h := @take_reads first second _ (tail.drop (Frame.extendedWidth second)) hext hmask
            hfinal hreserved
          rwa [List.take_append_drop, hext, hlen] at h
      next hplain =>
        have hwidth : ([] : List UInt8).length = Frame.extendedWidth second := by
          simp only [not_or] at hplain
          simp [Frame.extendedWidth, hplain.1, hplain.2]
        exact @take_reads first second [] tail hwidth hmask hfinal hreserved

theorem turn_shorter {buffer body rest : List UInt8} {opcode : UInt8}
    (h : turn buffer = .frame opcode body rest) : rest.length < buffer.length := by
  have hreads := turn_reads buffer
  rw [h] at hreads
  obtain ⟨f, -, -, -, hread⟩ := hreads
  exact Frame.reader.shorter hread

/-- The frame loop. `loads` is `json.loads`; the result is `none` if it raises. -/
def loop (loads : List UInt8 → Option Json) (s : SendCounter) : Option SendCounter :=
  match h : turn s.buffer with
  | .wait => some s
  | .raise => none
  | .frame opcode body rest =>
    have := turn_shorter h
    if opcode = 1 then
      match loads body with
      | none => none
      | some request =>
        if request.isDict then
          loop loads { s with
            buffer := rest, count := if request.isSend then s.count + 1 else s.count }
        else none
    else loop loads { s with buffer := rest }
termination_by s.buffer.length

/-- `feed`: `none` if it raises. -/
def feed (loads : List UInt8 → Option Json) (s : SendCounter) (data : List UInt8) :
    Option SendCounter :=
  let buffer := s.buffer ++ data
  if buffer.length > 65536 then none
  else if s.upgraded then loop loads { s with buffer }
  else
    match find crlfcrlf buffer with
    | none => some { s with buffer }
    | some i =>
      if get <+: buffer then loop loads { s with buffer := buffer.drop (i + 4), upgraded := true }
      else none

/-- The frame counts for a SEND: a final masked text frame without reserved bits
whose body is a JSON object with that method. -/
def counts (loads : List UInt8 → Option Json) (f : Frame) : Bool :=
  f.final && f.masked && f.reserved = 0 && f.opcode = 1 && (loads f.body).any Json.isSend

variable {loads : List UInt8 → Option Json} {s t : SendCounter}

/-- What a turn takes is a frame of the reader, counted by its opcode and body. -/
theorem drain_turn (loads : List UInt8 → Option Json) {buffer body rest : List UInt8} {opcode : UInt8}
    (h : turn buffer = .frame opcode body rest) :
    (Frame.reader.drain buffer).2 = (Frame.reader.drain rest).2 ∧
      ((Frame.reader.drain buffer).1.filter (counts loads)).length =
        (if opcode = 1 ∧ (loads body).any Json.isSend = true then 1 else 0) +
          ((Frame.reader.drain rest).1.filter (counts loads)).length := by
  have hreads := turn_reads buffer
  rw [h] at hreads
  obtain ⟨f, hf, rfl, rfl, hread⟩ := hreads
  have hcounts : counts loads f = true ↔ f.opcode = 1 ∧ (loads f.body).any Json.isSend = true := by
    simp [counts, hf.final, hf.masked, hf.reserved]
  rw [Reader.drain_some hread, List.filter_cons]
  refine ⟨rfl, ?_⟩
  by_cases hc : f.opcode = 1 ∧ (loads f.body).any Json.isSend = true
  · rw [if_pos (hcounts.mpr hc), if_pos hc, List.length_cons, Nat.add_comm]
  · rw [if_neg (mt hcounts.mp hc), if_neg hc, Nat.zero_add]

/-- The loop takes the complete frames of the buffer and counts those of SENDs. -/
theorem loop_drain (h : loop loads s = some t) :
    t.upgraded = s.upgraded ∧ t.buffer = (Frame.reader.drain s.buffer).2 ∧
      t.count = s.count + ((Frame.reader.drain s.buffer).1.filter (counts loads)).length := by
  fun_induction loop loads s
  case case1 s hturn =>
    have hreads := turn_reads s.buffer
    rw [hturn] at hreads
    have hread : Frame.reader.read s.buffer = none := hreads
    rw [Reader.drain_none hread]
    cases h
    exact ⟨rfl, rfl, rfl⟩
  case case4 s body rest request hload hdict hturn _ ih =>
    obtain ⟨hup, hbuffer, hcount⟩ := ih h
    obtain ⟨hrest, hlength⟩ := drain_turn loads hturn
    refine ⟨hup, hbuffer.trans hrest.symm, ?_⟩
    rw [hcount, hlength, hload, Option.any_some]
    cases request.isSend
    · simp
    · simp
      omega
  case case6 s opcode body rest hturn _ hother ih =>
    obtain ⟨hup, hbuffer, hcount⟩ := ih h
    obtain ⟨hrest, hlength⟩ := drain_turn loads hturn
    refine ⟨hup, hbuffer.trans hrest.symm, ?_⟩
    rw [hcount, hlength, if_neg fun hc => hother hc.1, Nat.zero_add]
  all_goals cases h

/-- The chunks are fed one after the other. -/
def feedAll (loads : List UInt8 → Option Json) (s : SendCounter) (chunks : List (List UInt8)) :
    Option SendCounter :=
  chunks.foldlM (feed loads) s

/-- What the counter holds once it was fed `stream`: before the end of the upgrade
all of it; then the frames after it are counted and the bytes of an incomplete
one are left. -/
structure Counted (loads : List UInt8 → Option Json) (stream : List UInt8) (s : SendCounter) :
    Prop where
  waiting : find crlfcrlf stream = none → s = ⟨stream, false, 0⟩
  counting : ∀ i, find crlfcrlf stream = some i →
    s = ⟨(Frame.reader.drain (stream.drop (i + 4))).2, true,
      ((Frame.reader.drain (stream.drop (i + 4))).1.filter (counts loads)).length⟩

/-- The loop on a counter that has nothing incomplete left out. -/
theorem loop_counted {buffer : List UInt8} {up : Bool} {n : ℕ}
    (h : loop loads ⟨buffer, up, n⟩ = some t) :
    t = ⟨(Frame.reader.drain buffer).2, up,
      n + ((Frame.reader.drain buffer).1.filter (counts loads)).length⟩ := by
  obtain ⟨hup, hbuffer, hcount⟩ := loop_drain h
  cases t
  simp only at hup hbuffer hcount
  rw [hup, hbuffer, hcount]

/-- One more chunk. -/
theorem Counted.feed {stream data : List UInt8} (hs : Counted loads stream s)
    (h : feed loads s data = some t) : Counted loads (stream ++ data) t := by
  unfold SendCounter.feed at h
  obtain ⟨-, h⟩ := Option.ite_none_left_eq_some.mp h
  cases hfind : find crlfcrlf stream with
  | some i =>
    obtain rfl := hs.counting i hfind
    have hnext := find_append hfind data
    have hle : i + 4 ≤ stream.length := find_le hfind
    refine ⟨fun hnone => ?_, fun j hj => ?_⟩
    · rw [hnext] at hnone
      cases hnone
    · obtain rfl : i = j := Option.some.inj (hnext.symm.trans hj)
      rw [if_pos rfl] at h
      have ht := loop_counted h
      dsimp only at ht
      rw [ht, List.drop_append_of_le_length hle, Reader.drain_append (stream.drop (i + 4)),
        List.filter_append, List.length_append]
  | none =>
    obtain rfl := hs.waiting hfind
    rw [if_neg (by simp)] at h
    split at h
    next hnone =>
      cases h
      exact ⟨fun _ => rfl, fun i hi => by simp [hnone] at hi⟩
    next i hi =>
      obtain ⟨-, h⟩ := Option.ite_none_right_eq_some.mp h
      refine ⟨fun hnone => by simp [hi] at hnone, fun j hj => ?_⟩
      obtain rfl : i = j := Option.some.inj (hi.symm.trans hj)
      rw [loop_counted h, Nat.zero_add]

theorem counted_of_feedAll {chunks : List (List UInt8)} (h : feedAll loads {} chunks = some s) :
    Counted loads chunks.flatten s := by
  induction chunks using List.reverseRec generalizing s with
  | nil =>
    cases h
    exact ⟨fun _ => rfl, fun i hi => by simp [find, crlfcrlf] at hi⟩
  | append_singleton chunks data ih =>
    rw [feedAll, List.foldlM_append] at h
    obtain ⟨t, ht, hdata⟩ := Option.bind_eq_some_iff.mp h
    rw [List.flatten_append, List.flatten_singleton]
    exact (ih ht).feed (by simpa using hdata)

/-- However a stream is cut, a counter that never raised has counted the SEND
frames after the upgrade and kept the bytes of the frame that is not complete;
so two divisions of one stream agree. -/
theorem send_count_exact {chunks : List (List UInt8)} (h : feedAll loads {} chunks = some s) :
    (∀ i, find crlfcrlf chunks.flatten = some i →
      s.count = ((Frame.reader.drain (chunks.flatten.drop (i + 4))).1.filter
        (counts loads)).length ∧
      s.buffer = (Frame.reader.drain (chunks.flatten.drop (i + 4))).2 ∧
      chunks.flatten = chunks.flatten.take (i + 4) ++
        ((Frame.reader.drain (chunks.flatten.drop (i + 4))).1.flatMap Frame.bytes ++ s.buffer) ∧
      Frame.read s.buffer = none) ∧
    (find crlfcrlf chunks.flatten = none → s.count = 0 ∧ s.buffer = chunks.flatten) ∧
    ∀ chunks' s', feedAll loads {} chunks' = some s' → chunks'.flatten = chunks.flatten →
      s'.count = s.count ∧ s'.buffer = s.buffer := by
  have hs := counted_of_feedAll h
  refine ⟨fun i hi => ?_, fun hnone => ?_, fun chunks' s' h' heq => ?_⟩
  · obtain rfl := hs.counting i hi
    refine ⟨rfl, rfl, ?_, Reader.read_drain (R := Frame.reader) _⟩
    rw [Frame.drain_bytes, List.take_append_drop]
  · obtain rfl := hs.waiting hnone
    exact ⟨rfl, rfl⟩
  · have hs' := counted_of_feedAll h'
    rw [heq] at hs'
    cases hfind : find crlfcrlf chunks.flatten with
    | none => rw [hs.waiting hfind, hs'.waiting hfind]; exact ⟨rfl, rfl⟩
    | some i => rw [hs.counting i hfind, hs'.counting i hfind]; exact ⟨rfl, rfl⟩

/-- The body of a SEND with no other members, filled up with blanks to 130 bytes. -/
def sendBody : List UInt8 :=
  "\x7b\"method\":\"send\"\x7d".toUTF8.toList ++ List.replicate 113 32

/-- The upgrade and a text frame with that body, under a mask and with an extended length. -/
def sendStream : List UInt8 :=
  "GET / HTTP/1.1".toUTF8.toList ++ crlfcrlf ++ [0x81, 0xfe, 0, 130, 1, 2, 3, 4] ++
    sendBody.mapIdx fun i b => b ^^^ [1, 2, 3, 4].getD (i % 4) 0

def loadsSend (body : List UInt8) : Option Json :=
  if body = sendBody then some (.dict [("method", .str "send")]) else none

/-- The stream, cut inside the terminator of the upgrade, the extended length and the mask. -/
def sendChunks : List (List UInt8) :=
  [sendStream.take 16, (sendStream.drop 16).take 5, (sendStream.drop 21).take 3,
    sendStream.drop 24]

theorem send_count_exact_cut :
    ∃ s, feedAll loadsSend {} sendChunks = some s ∧ s.count = 1 ∧
      s.count = ((Frame.reader.drain (sendChunks.flatten.drop 18)).1.filter
        (counts loadsSend)).length := by
  obtain ⟨s, h, hcount⟩ : ∃ s, feedAll loadsSend {} sendChunks = some s ∧ s.count = 1 := by
    decide +kernel
  have hfind : find crlfcrlf sendChunks.flatten = some 14 := by decide +kernel
  exact ⟨s, h, hcount, ((send_count_exact h).1 14 hfind).1⟩

end SendCounter

end WukongSdk
