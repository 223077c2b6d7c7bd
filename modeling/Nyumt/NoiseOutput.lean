import Nyumt.Framed

/-!
# The encrypted stream

`NoiseOutput` of `libp2p-noise`: bytes that are written are gathered into frames as long as may be,
and bytes are read from the frame that came last. Two of them at the ends of a connection are a
`Connection`: what one writes to its io comes to the other, any part of it at any time.
-/

namespace Nyumt.Noise

structure NoiseOutput (σ : Type) where
  io : NoiseFramed σ
  recvBuffer : Bytes := []
  recvOffset : ℕ := 0
  sendBuffer : Bytes := []
  sendOffset : ℕ := 0
  deriving DecidableEq

namespace NoiseOutput

variable {σ : Type} (S : SessionState σ)

/-- `poll_read` into a buffer with this room: what the io answers while each of the frames is polled
that it polls. -/
def pollRead (inc : Incoming) (o : NoiseOutput σ) (room : ℕ) (polls : List (List IoRead)) :
    Poll (Except IoError Bytes) × Incoming × NoiseOutput σ :=
  if 0 < o.recvBuffer.length then
    let n := min (o.recvBuffer.length - o.recvOffset) room
    let read := (o.recvBuffer.drop o.recvOffset).take n
    let offset := o.recvOffset + n
    let buffer := if o.recvBuffer.length = offset then [] else o.recvBuffer
    (.ready (.ok read), inc, { o with recvBuffer := buffer, recvOffset := offset })
  else
    match NoiseFramed.pollNext S inc o.io (polls.headD []), polls with
    | (.pending, inc, io), _ => (.pending, inc, { o with io := io })
    | (.ready none, inc, io), _ => (.ready (.ok []), inc, { o with io := io })
    | (.ready (some (.error e)), inc, io), _ => (.ready (.error e), inc, { o with io := io })
    | (.ready (some (.ok _)), inc, io), [] =>
      (.pending, inc, { o with io := io }) -- not reached: `pollNext_nil`
    | (.ready (some (.ok frame)), inc, io), _ :: polls =>
      pollRead inc { o with io := io, recvBuffer := frame, recvOffset := 0 } room polls
termination_by structural polls

/-- What is written goes to the buffer, as much of it as there is room for. -/
def buffer (o : NoiseOutput σ) (buf : Bytes) : ℕ × NoiseOutput σ :=
  let off := o.sendOffset
  let sent := o.sendBuffer.takeD (min maxFrameLen (off + buf.length)) 0
  let n := min (maxFrameLen - off) buf.length
  (n, { o with
    sendBuffer := sent.take off ++ buf.take n ++ sent.drop (off + n)
    sendOffset := off + n })

/-- The frame that is gathered is sent once the io is ready. -/
def sendFrame (o : NoiseOutput σ) (as : List IoWrite) :
    Option (Poll (Except IoError Unit) × NoiseOutput σ × Bytes) :=
  match o.io.pollReady as with
  | (.ready (.ok ()), io, out) =>
    match io.startSend S o.sendBuffer with
    | some (.ok (), io) => some (.ready (.ok ()), { o with io := io, sendOffset := 0 }, out)
    | some (.error e, io) => some (.ready (.error e), { o with io := io }, out)
    | none => none
  | (r, io, out) => some (r, { o with io := io }, out)

/-- `poll_write`, with what is written to the io, or nothing where it panics. -/
def pollWrite (o : NoiseOutput σ) (buf : Bytes) (as : List IoWrite) :
    Option (Poll (Except IoError ℕ) × NoiseOutput σ × Bytes) :=
  if o.sendOffset = maxFrameLen then
    match o.sendFrame S as with
    | some (.ready (.ok ()), o, out) =>
      let (n, o) := o.buffer buf
      some (.ready (.ok n), o, out)
    | some (.ready (.error e), o, out) => some (.ready (.error e), o, out)
    | some (.pending, o, out) => some (.pending, o, out)
    | none => none
  else
    let (n, o) := o.buffer buf
    some (.ready (.ok n), o, [])

/-- What the io answers to a flush: while the frame gathered so far waits to be sent, while it is
written, and to its own flush. -/
structure Flush where
  ready : List IoWrite
  write : List IoWrite
  io : Poll (Except IoError Unit)

/-- `poll_flush`. -/
def pollFlush (o : NoiseOutput σ) (a : Flush) :
    Option (Poll (Except IoError Unit) × NoiseOutput σ × Bytes) :=
  let flush (o : NoiseOutput σ) (sent : Bytes) :=
    let (r, io, out) := o.io.pollFlush a.write a.io
    some (r, { o with io := io }, sent ++ out)
  if 0 < o.sendOffset then
    match o.sendFrame S a.ready with
    | some (.ready (.ok ()), o, sent) => flush o sent
    | r => r
  else flush o []

/-- `poll_close`: a flush, one of the frames, and the io is closed. -/
def pollClose (o : NoiseOutput σ) (a : Flush) (write : List IoWrite)
    (io close : Poll (Except IoError Unit)) :
    Option (Poll (Except IoError Unit) × NoiseOutput σ × Bytes) :=
  match o.pollFlush S a with
  | some (.ready (.ok ()), o, out) =>
    match o.io.pollFlush write io with
    | (.ready (.ok ()), io, out') => some (close, { o with io := io }, out ++ out')
    | (r, io, out') => some (r, { o with io := io }, out ++ out')
  | r => r

end NoiseOutput

/-- The state of a cipher for one direction: `encrypt` into a buffer with some room. -/
structure CipherState (κ : Type) where
  encrypt : κ → Bytes → ℕ → Option (Bytes × κ)
  decrypt : κ → Bytes → Option (Bytes × κ)

/-- `snow::TransportState`: a cipher for what is sent and one for what is received. -/
structure TransportState (κ : Type) where
  sending : κ
  receiving : κ
  deriving DecidableEq

def CipherState.session {κ : Type} (C : CipherState κ) : SessionState (TransportState κ) where
  readMessage s msg := (C.decrypt s.receiving msg).map fun r => (r.1, { s with receiving := r.2 })
  writeMessage s payload room :=
    (C.encrypt s.sending payload room).map fun r => (r.1, { s with sending := r.2 })

/-- Two ends, by which of them it is, and what each has been sent. -/
structure Connection (κ : Type) where
  ends : Bool → NoiseOutput (TransportState κ)
  incoming : Bool → Incoming := fun _ => {}

namespace Connection

variable {κ : Type} (C : CipherState κ)

/-- After a handshake: what each end sends is under a key, which the other one has to receive. -/
def start (key : Bool → κ) : Connection κ where
  ends e := { io := { session := ⟨key e, key !e⟩ } }

inductive Act
  | read (e : Bool) (room : ℕ) (polls : List (List IoRead))
  | write (e : Bool) (buf : Bytes) (as : List IoWrite)
  | flush (e : Bool) (a : NoiseOutput.Flush)
  | close (e : Bool) (a : NoiseOutput.Flush) (write : List IoWrite)
      (io close : Poll (Except IoError Unit))

/-- An end becomes another one, and its io has taken some bytes for the other end. -/
def put (c : Connection κ) (e : Bool) (o : NoiseOutput (TransportState κ)) (out : Bytes)
    (closed : Bool) : Connection κ where
  ends := Function.update c.ends e o
  incoming := Function.update c.incoming (!e)
    ⟨(c.incoming (!e)).bytes ++ out, (c.incoming (!e)).closed || closed⟩

/-- The end that polls. -/
def Act.by : Act → Bool
  | .read e _ _ | .write e _ _ | .flush e _ | .close e _ _ _ _ => e

/-- A poll by one of the ends, or nothing where it panics. -/
def step (c : Connection κ) : Act → Option (Connection κ)
  | .read e room polls =>
    let (_, inc, o) := (c.ends e).pollRead C.session (c.incoming e) room polls
    some { ends := Function.update c.ends e o, incoming := Function.update c.incoming e inc }
  | .write e buf as => do
    let (_, o, out) ← (c.ends e).pollWrite C.session buf as
    return c.put e o out false
  | .flush e a => do
    let (_, o, out) ← (c.ends e).pollFlush C.session a
    return c.put e o out false
  | .close e a write io close => do
    let (r, o, out) ← (c.ends e).pollClose C.session a write io close
    return c.put e o out (r == .ready (.ok ()))

end Connection

end Nyumt.Noise
