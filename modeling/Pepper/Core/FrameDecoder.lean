import Pepper.Base.Bytes

/-!
# Frames of the Kafka Protocol

The decoder of `pepper-kafka-protocol` that cuts frames out of a connection's
bytes. A frame is its length, in four bytes, and that many bytes.

What an error leaves behind is modelled too: the frames that were cut in the same
call are lost, and they are gone from the buffer.

## Main definitions

* `FrameHead`, `frameHead`: What is at the front of the buffer.
* `cutFrames`: The loop.
* `FrameDecoder.push`: Some more bytes.
* `FrameDecoder.feed`: Chunk after chunk, until one fails.
-/

namespace Pepper

namespace Kafka

inductive ProtocolError where
  | negativeFrameLength (length : Int)
  | frameTooLarge (bytes : Nat)
deriving DecidableEq, Repr

/-- `i32::from_be_bytes` -/
def i32FromBeBytes (bytes : Bytes) : Int :=
  let n : Nat := bytes.foldl (fun n b => 256 * n + b.toNat) 0
  if n < 2 ^ 31 then n else n - 2 ^ 32

inductive FrameHead where
  | short
  | bad (e : ProtocolError)
  | frame (frame rest : Bytes)
deriving DecidableEq, Repr

/-- One turn of the loop. -/
def frameHead (maximum : Nat) (buffered : Bytes) : FrameHead :=
  if buffered.length < 4 then .short
  else
    let length := i32FromBeBytes (buffered.take 4)
    if length < 0 then .bad (.negativeFrameLength length)
    else if maximum < length.toNat then .bad (.frameTooLarge length.toNat)
    else if buffered.length < length.toNat + 4 then .short
    else .frame ((buffered.drop 4).take length.toNat) ((buffered.drop 4).drop length.toNat)

theorem frameHead_shorter {maximum : Nat} {buffered frame rest : Bytes}
    (h : frameHead maximum buffered = .frame frame rest) : rest.length < buffered.length := by
  unfold frameHead at h
  simp only at h
  split_ifs at h with hshort
  cases h
  rw [List.length_drop, List.length_drop]
  omega

/-- The frames, and what is left in the buffer. -/
def cutFrames (maximum : Nat) (buffered : Bytes) : Except ProtocolError (List Bytes) × Bytes :=
  match h : frameHead maximum buffered with
  | .short => (.ok [], buffered)
  | .bad e => (.error e, buffered)
  | .frame frame rest =>
    have := frameHead_shorter h
    ((cutFrames maximum rest).1.map (frame :: ·), (cutFrames maximum rest).2)
termination_by buffered.length

structure FrameDecoder where
  maximumFrameBytes : Nat
  buffered : Bytes

namespace FrameDecoder

def new (maximumFrameBytes : Nat) : FrameDecoder :=
  ⟨maximumFrameBytes, []⟩

/-- Take a chunk and cut out the frames that are whole. -/
def push (d : FrameDecoder) (bytes : Bytes) : Except ProtocolError (List Bytes) × FrameDecoder :=
  if d.maximumFrameBytes + 4 < d.buffered.length + bytes.length then
    (.error (.frameTooLarge (d.buffered.length + bytes.length)), d)
  else
    ((cutFrames d.maximumFrameBytes (d.buffered ++ bytes)).1,
      { d with buffered := (cutFrames d.maximumFrameBytes (d.buffered ++ bytes)).2 })

/-- The frames of all chunks, and the error that ended them. -/
def feed (d : FrameDecoder) : List Bytes → List Bytes × Option ProtocolError
  | [] => ([], none)
  | chunk :: chunks =>
    match d.push chunk with
    | (.ok frames, d') => (frames ++ (feed d' chunks).1, (feed d' chunks).2)
    | (.error e, _) => ([], some e)

end FrameDecoder

end Kafka

end Pepper
