import Nyumt.Lib.Borsh
import Nyumt.Lib.Frames

/-!
# Noise frames

`NoiseFramed` of `libp2p-noise`: messages of a Noise session as frames on a byte stream, each behind
its length in two bytes. Reading and writing are loops over polls of the io below, which may leave
off at any byte and go on at the next poll. What the io answers to each of its polls is an argument:
a poll with no answer left is pending.
-/

namespace Nyumt.Noise

inductive Poll (α : Type)
  | pending
  | ready (a : α)
  deriving DecidableEq

inductive IoError
  /-- What the io below failed with. -/
  | io
  | unexpectedEof
  | invalidData
  | writeZero
  deriving DecidableEq

/-- An answer to `poll_read`: with `upTo n`, up to `n + 1` bytes of what there is. -/
inductive IoRead
  | pending
  | error
  | upTo (n : ℕ)
  deriving DecidableEq

/-- An answer to `poll_write`: with `upTo n`, up to `n` bytes are taken. -/
inductive IoWrite
  | pending
  | error
  | upTo (n : ℕ)
  deriving DecidableEq

/-- The bytes of an io that have come and are not read yet, and whether more may come. -/
structure Incoming where
  bytes : Bytes := []
  closed : Bool := false
  deriving DecidableEq

/-- `poll_read` into a buffer with this room. No bytes are the end of the stream. -/
def Incoming.pollRead (inc : Incoming) (room : ℕ) : IoRead → Poll (Except IoError Bytes) × Incoming
  | .pending => (.pending, inc)
  | .error => (.ready (.error .io), inc)
  | .upTo n =>
    if inc.bytes = [] ∧ inc.closed = false then (.pending, inc)
    else
      let k := min (n + 1) room
      (.ready (.ok (inc.bytes.take k)), { inc with bytes := inc.bytes.drop k })

/-- `poll_write` of a buffer. -/
def pollWrite (buf : Bytes) : IoWrite → Poll (Except IoError ℕ)
  | .pending => .pending
  | .error => .ready (.error .io)
  | .upTo n => .ready (.ok (min n buf.length))

/-- The trait `SessionState`: a message read, or written into a buffer with some room, and the
session after it; nothing if that fails. -/
structure SessionState (σ : Type) where
  readMessage : σ → Bytes → Option (Bytes × σ)
  writeMessage : σ → Bytes → ℕ → Option (Bytes × σ)

def maxNoiseMsgLen : ℕ := 65535

/-- Room for key material. -/
def extraEncryptSpace : ℕ := 1024

/-- The longest payload of a frame. -/
def maxFrameLen : ℕ := maxNoiseMsgLen - extraEncryptSpace

/-- `u16::to_be_bytes`. -/
def toBeBytes (n : ℕ) : Bytes := (Borsh.leBytes 2 n).reverse

/-- `u16::from_be_bytes`. -/
def fromBeBytes (b : Bytes) : ℕ := Borsh.ofLE b.reverse

inductive ReadState
  | ready
  /-- The bytes of the length that are read: `buf[..off]`. -/
  | readLen (buf : Bytes)
  /-- The length, and the bytes of the frame that are read: `read_buffer[..off]`. -/
  | readData (len : ℕ) (data : Bytes)
  /-- Whether the end was expected. -/
  | eof (expected : Bool)
  | decErr
  deriving DecidableEq

inductive WriteState
  | ready
  | writeLen (len : ℕ) (buf : Bytes) (off : ℕ)
  | writeData (len off : ℕ)
  | eof
  | encErr
  deriving DecidableEq

structure NoiseFramed (σ : Type) where
  session : σ
  readState : ReadState := .ready
  writeState : WriteState := .ready
  writeBuffer : Bytes := []
  deriving DecidableEq

namespace NoiseFramed

variable {σ : Type} (S : SessionState σ)

/-- The loop of `poll_next`. `buf` is the buffer of `read_frame_len` while that is running; the
state has it as it was before this poll, and is only given it back when the io is pending. -/
def readLoop (inc : Incoming) (f : NoiseFramed σ) (buf : Bytes) (as : List IoRead) :
    Poll (Option (Except IoError Bytes)) × Incoming × NoiseFramed σ :=
  match f.readState, as with
  | .ready, _ => (.pending, inc, f) -- not reached: `pollNext`
  | .readLen _, [] => (.pending, inc, { f with readState := .readLen buf })
  | .readLen _, a :: as =>
    match inc.pollRead (2 - buf.length) a with
    | (.pending, inc) => (.pending, inc, { f with readState := .readLen buf })
    | (.ready (.error e), inc) => (.ready (some (.error e)), inc, f)
    | (.ready (.ok []), inc) => (.ready none, inc, { f with readState := .eof true })
    | (.ready (.ok (b :: bs)), inc) =>
      let buf := buf ++ b :: bs
      if buf.length ≠ 2 then readLoop inc f buf as
      else if fromBeBytes buf = 0 then readLoop inc { f with readState := .readLen [] } [] as
      else readLoop inc { f with readState := .readData (fromBeBytes buf) [] } [] as
  | .readData _ _, [] => (.pending, inc, f)
  | .readData len data, a :: as =>
    match inc.pollRead (len - data.length) a with
    | (.pending, inc) => (.pending, inc, f)
    | (.ready (.error e), inc) => (.ready (some (.error e)), inc, f)
    | (.ready (.ok []), inc) =>
      (.ready (some (.error .unexpectedEof)), inc, { f with readState := .eof false })
    | (.ready (.ok (b :: bs)), inc) =>
      let data := data ++ b :: bs
      if data.length ≠ len then readLoop inc { f with readState := .readData len data } [] as
      else
        match S.readMessage f.session data with
        | some (payload, session) =>
          (.ready (some (.ok payload)), inc, { f with session := session, readState := .ready })
        | none => (.ready (some (.error .invalidData)), inc, { f with readState := .decErr })
  | .eof true, _ => (.ready none, inc, f)
  | .eof false, _ => (.ready (some (.error .unexpectedEof)), inc, f)
  | .decErr, _ => (.ready (some (.error .invalidData)), inc, f)
termination_by structural as

/-- `poll_next`. -/
def pollNext (inc : Incoming) (f : NoiseFramed σ) (as : List IoRead) :
    Poll (Option (Except IoError Bytes)) × Incoming × NoiseFramed σ :=
  match f.readState with
  | .ready => readLoop S inc { f with readState := .readLen [] } [] as
  | .readLen buf => readLoop S inc f buf as
  | _ => readLoop S inc f [] as

/-- The loop of `poll_ready`, with what is written to the io. `off` is the offset of
`write_frame_len` while that is running, as `buf` is in `readLoop`. -/
def writeLoop (f : NoiseFramed σ) (off : ℕ) (as : List IoWrite) :
    Poll (Except IoError Unit) × NoiseFramed σ × Bytes :=
  match f.writeState, as with
  | .ready, _ => (.ready (.ok ()), f, [])
  | .writeLen len buf _, [] => (.pending, { f with writeState := .writeLen len buf off }, [])
  | .writeLen len buf _, a :: as =>
    match pollWrite (buf.drop off) a with
    | .pending => (.pending, { f with writeState := .writeLen len buf off }, [])
    | .ready (.error e) => (.ready (.error e), f, [])
    | .ready (.ok 0) => (.ready (.error .writeZero), { f with writeState := .eof }, [])
    | .ready (.ok (n + 1)) =>
      let r := if off + (n + 1) = 2 then writeLoop { f with writeState := .writeData len 0 } 0 as
        else writeLoop f (off + (n + 1)) as
      (r.1, r.2.1, (buf.drop off).take (n + 1) ++ r.2.2)
  | .writeData _ _, [] => (.pending, f, [])
  | .writeData len off, a :: as =>
    let rest := (f.writeBuffer.take len).drop off
    match pollWrite rest a with
    | .pending => (.pending, f, [])
    | .ready (.error e) => (.ready (.error e), f, [])
    | .ready (.ok 0) => (.ready (.error .writeZero), { f with writeState := .eof }, [])
    | .ready (.ok (n + 1)) =>
      let r := if off + (n + 1) = len then writeLoop { f with writeState := .ready } 0 as
        else writeLoop { f with writeState := .writeData len (off + (n + 1)) } 0 as
      (r.1, r.2.1, rest.take (n + 1) ++ r.2.2)
  | .eof, _ => (.ready (.error .writeZero), f, [])
  | .encErr, _ => (.ready (.error .invalidData), f, [])
termination_by structural as

/-- `poll_ready`, with what is written to the io. -/
def pollReady (f : NoiseFramed σ) (as : List IoWrite) :
    Poll (Except IoError Unit) × NoiseFramed σ × Bytes :=
  match f.writeState with
  | .writeLen _ _ off => writeLoop f off as
  | _ => writeLoop f 0 as

/-- `start_send`, or nothing where one of its assertions fails. -/
def startSend (f : NoiseFramed σ) (frame : Bytes) : Option (Except IoError Unit × NoiseFramed σ) :=
  if frame.length ≤ maxFrameLen ∧ f.writeState = .ready then
    match S.writeMessage f.session frame (frame.length + extraEncryptSpace) with
    | some (msg, session) => some (.ok (), { f with
        session := session
        writeBuffer := msg
        writeState := .writeLen msg.length (toBeBytes msg.length) 0 })
    | none => some (.error .invalidData, { f with writeState := .encErr })
  else none

/-- `poll_flush`. The io is flushed last, and answers `io`. -/
def pollFlush (f : NoiseFramed σ) (as : List IoWrite) (io : Poll (Except IoError Unit)) :
    Poll (Except IoError Unit) × NoiseFramed σ × Bytes :=
  match f.pollReady as with
  | (.ready (.ok ()), f, out) => (io, f, out)
  | r => r

end NoiseFramed

end Nyumt.Noise
