import Pepper.Core.FrameDecoder

/-!
# Chunks of a Connection

A connection is one stream of bytes, and how it comes in chunks should not
matter. `streamFrames` is the meaning of a stream: its frames up to the first bad
length.

The decoder gives that meaning unless one of two things happens. Its guard counts
all the bytes that it holds, so that frames which come together can be refused
although none of them is too large. And a bad length takes those frames with it
that were cut in the same call. Both are read off the bytes before the call.

## Main definitions

* `streamFrames`: What a stream means.
* `FrameDecoder.Clean`: No chunk meets one of the two obstacles.

## Theorems

* `cutFrames_ok`, `cutFrames_error`: What a call cuts, and what comes later.
* `feed_eq_streamFrames_iff`: When the decoder gives the meaning of the stream.
* `feed_independent_of_chunks`: Two ways to split a stream.
-/

namespace Pepper

namespace Kafka

open List

variable {maximum : Nat} {buffered more frame rest left : Bytes} {frames : List Bytes}
  {e : ProtocolError}

/-- The frames of a stream up to the first bad length, and that one. -/
def streamFrames (maximum : Nat) (stream : Bytes) : List Bytes × Option ProtocolError :=
  match h : frameHead maximum stream with
  | .short => ([], none)
  | .bad e => ([], some e)
  | .frame frame rest =>
    have := frameHead_shorter h
    (frame :: (streamFrames maximum rest).1, (streamFrames maximum rest).2)
termination_by stream.length

/-- More bytes come in behind a frame. -/
def FrameHead.append (more : Bytes) : FrameHead → FrameHead
  | .frame frame rest => .frame frame (rest ++ more)
  | head => head

/-- What is at the front stays there when more comes in. -/
theorem frameHead_append (h : frameHead maximum buffered ≠ .short) (more : Bytes) :
    frameHead maximum (buffered ++ more) = (frameHead maximum buffered).append more := by
  have hlong : ¬ buffered.length < 4 := fun hshort => h (if_pos hshort)
  have htake : (buffered ++ more).take 4 = buffered.take 4 :=
    take_append_of_le_length (Nat.not_lt.mp hlong)
  unfold frameHead at h ⊢
  simp only [htake, length_append] at h ⊢
  rw [if_neg hlong] at h ⊢
  rw [if_neg (by omega)]
  generalize i32FromBeBytes (buffered.take 4) = length at h ⊢
  by_cases hneg : length < 0
  · simp only [if_pos hneg, FrameHead.append]
  by_cases hlarge : maximum < length.toNat
  · simp only [if_neg hneg, if_pos hlarge, FrameHead.append]
  by_cases hpart : buffered.length < length.toNat + 4
  · simp only [if_neg hneg, if_neg hlarge, if_pos hpart, ne_eq, not_true] at h
  · have hall : ¬ buffered.length + more.length < length.toNat + 4 := by omega
    simp only [if_neg hneg, if_neg hlarge, if_neg hpart, if_neg hall, FrameHead.append]
    have hdrop : (buffered ++ more).drop 4 = buffered.drop 4 ++ more :=
      drop_append_of_le_length (by omega)
    have hlen : length.toNat ≤ (buffered.drop 4).length := by
      rw [length_drop]
      omega
    rw [hdrop, take_append_of_le_length hlen, drop_append_of_le_length hlen]

theorem frameHead_append_frame (h : frameHead maximum buffered = .frame frame rest) (more : Bytes) :
    frameHead maximum (buffered ++ more) = .frame frame (rest ++ more) := by
  rw [frameHead_append (by rw [h]; simp), h, FrameHead.append]

theorem streamFrames_frame (h : frameHead maximum buffered = .frame frame rest) :
    streamFrames maximum buffered =
      (frame :: (streamFrames maximum rest).1, (streamFrames maximum rest).2) := by
  rw [streamFrames]
  split <;> simp_all

theorem streamFrames_bad (h : frameHead maximum buffered = .bad e) :
    streamFrames maximum buffered = ([], some e) := by
  rw [streamFrames]
  split <;> simp_all

theorem streamFrames_short (h : frameHead maximum buffered = .short) :
    streamFrames maximum buffered = ([], none) := by
  rw [streamFrames]
  split <;> simp_all

/-- Nothing but the start of a frame is left. -/
theorem cutFrames_left (h : (cutFrames maximum buffered).1 = .ok frames) :
    frameHead maximum (cutFrames maximum buffered).2 = .short := by
  fun_induction cutFrames maximum buffered generalizing frames with
  | case1 buffered hhead => exact hhead
  | case2 buffered e hhead => cases h
  | case3 buffered frame rest hhead hlt ih =>
    rcases hcut : (cutFrames maximum rest).1 with e | later
    · rw [hcut] at h
      cases h
    · exact ih hcut

/-- What a call cuts is the start of the stream, and the rest of it is left. -/
theorem cutFrames_ok (more : Bytes) (h : (cutFrames maximum buffered).1 = .ok frames) :
    streamFrames maximum (buffered ++ more) =
      (frames ++ (streamFrames maximum ((cutFrames maximum buffered).2 ++ more)).1,
        (streamFrames maximum ((cutFrames maximum buffered).2 ++ more)).2) := by
  fun_induction cutFrames maximum buffered generalizing frames with
  | case1 buffered hhead =>
    cases h
    rfl
  | case2 buffered e hhead => cases h
  | case3 buffered frame rest hhead hlt ih =>
    rcases hcut : (cutFrames maximum rest).1 with e | later
    · rw [hcut] at h
      cases h
    · rw [hcut] at h
      cases h
      rw [streamFrames_frame (frameHead_append_frame hhead more), ih hcut, cons_append]

/-- A call fails at the bad length of its bytes, which stays that of the stream. -/
theorem cutFrames_error (more : Bytes) (h : (cutFrames maximum buffered).1 = .error e) :
    streamFrames maximum (buffered ++ more) = ((streamFrames maximum buffered).1, some e) := by
  fun_induction cutFrames maximum buffered with
  | case1 buffered hhead => cases h
  | case2 buffered e' hhead =>
    cases h
    have hbad := frameHead_append (by rw [hhead]; simp) more
    rw [hhead] at hbad
    rw [streamFrames_bad hbad, streamFrames_bad hhead]
  | case3 buffered frame rest hhead hlt ih =>
    rw [streamFrames_frame (frameHead_append_frame hhead more), streamFrames_frame hhead]
    rcases hcut : (cutFrames maximum rest).1 with e' | later
    · rw [hcut] at h
      cases h
      rw [ih hcut]
    · rw [hcut] at h
      cases h

/-- Bytes that are more than the longest frame begin with a frame or with a bad
    length. -/
theorem frameHead_ne_short (h : maximum + 4 < buffered.length) :
    frameHead maximum buffered ≠ .short := by
  unfold frameHead
  rw [if_neg (by omega)]
  dsimp only
  split_ifs <;> first | omega | simp

namespace FrameDecoder

/-- Each chunk is fine until a length at the front of the bytes is bad: the decoder
    holds no more than the longest frame with it, and no length behind a frame is
    bad. -/
def Clean (d : FrameDecoder) : List Bytes → Prop
  | [] => True
  | chunk :: chunks =>
    (∃ e, frameHead d.maximumFrameBytes (d.buffered ++ chunk) = .bad e) ∨
      d.buffered.length + chunk.length ≤ d.maximumFrameBytes + 4 ∧
        (streamFrames d.maximumFrameBytes (d.buffered ++ chunk)).2 = none ∧
        Clean (d.push chunk).2 chunks

variable {d : FrameDecoder} {chunks chunks' : List Bytes}

/-- A run of the decoder gives the frames of the stream and fails if it does. -/
def Gives (outcome meaning : List Bytes × Option ProtocolError) : Prop :=
  outcome.1 = meaning.1 ∧ outcome.2.isSome = meaning.2.isSome

/-- The decoder gives the meaning of a stream exactly if the chunks are clean. -/
theorem feed_eq_streamFrames_iff
    (hshort : frameHead d.maximumFrameBytes d.buffered = .short) :
    Gives (d.feed chunks)
        (streamFrames d.maximumFrameBytes (d.buffered ++ chunks.flatten)) ↔ d.Clean chunks := by
  induction chunks generalizing d with
  | nil =>
    rw [flatten_nil, append_nil, streamFrames_short hshort]
    exact iff_of_true ⟨rfl, rfl⟩ trivial
  | cons chunk chunks ih =>
    rw [flatten_cons, ← append_assoc, feed, Clean, push]
    by_cases hbad : ∃ e, frameHead d.maximumFrameBytes (d.buffered ++ chunk) = .bad e
    · -- The guard and the loop both fail, and the stream has no frame here either.
      refine iff_of_true ?_ (.inl hbad)
      rcases hbad with ⟨e, hhead⟩
      have hstream := frameHead_append (by rw [hhead]; simp) chunks.flatten
      rw [hhead] at hstream
      have hcut : (cutFrames d.maximumFrameBytes (d.buffered ++ chunk)).1 = .error e := by
        rw [cutFrames]
        split <;> simp_all
      rw [streamFrames_bad hstream, hcut]
      split_ifs <;> exact ⟨rfl, rfl⟩
    rw [or_iff_right hbad]
    -- A call that fails has a whole frame among its bytes, which it does not give.
    have hlost : frameHead d.maximumFrameBytes (d.buffered ++ chunk) ≠ .short → ∀ e,
        ¬ Gives ([], some e) (streamFrames d.maximumFrameBytes
          (d.buffered ++ chunk ++ chunks.flatten)) := by
      rintro hlong e ⟨hnil, _⟩
      rcases hhead : frameHead d.maximumFrameBytes (d.buffered ++ chunk) with _ | e | ⟨frame, rest⟩
      · exact hlong hhead
      · exact hbad ⟨e, hhead⟩
      · rw [streamFrames_frame (frameHead_append_frame hhead _)] at hnil
        cases hnil
    by_cases hfits : d.maximumFrameBytes + 4 < d.buffered.length + chunk.length
    · rw [if_pos hfits]
      refine iff_of_false (hlost (frameHead_ne_short (by rwa [length_append])) _) fun hclean => ?_
      exact absurd hclean.1 (Nat.not_le.mpr hfits)
    rw [if_neg hfits, and_iff_right (Nat.not_lt.mp hfits)]
    rcases hcut : (cutFrames d.maximumFrameBytes (d.buffered ++ chunk)).1 with e | frames
    · have hsome := congrArg Prod.snd (cutFrames_error [] hcut)
      rw [append_nil] at hsome
      refine iff_of_false (hlost (fun hhead => ?_) e) fun hclean => ?_
      · rw [streamFrames_short hhead] at hsome
        cases hsome
      · cases hsome.symm.trans hclean.1
    · have hnone := congrArg Prod.snd (cutFrames_ok [] hcut)
      rw [append_nil, append_nil, streamFrames_short (cutFrames_left hcut)] at hnone
      rw [and_iff_right hnone, cutFrames_ok chunks.flatten hcut, ← ih (cutFrames_left hcut)]
      exact and_congr_left' (append_right_inj frames)

/-- Two ways to split a stream, the first of which is clean: the decoder gives the
    same frames and fails in both or in neither, exactly if the other one is clean
    too. -/
theorem feed_independent_of_chunks {maximum : Nat} (hsame : chunks.flatten = chunks'.flatten)
    (h : (new maximum).Clean chunks) :
    ((new maximum).feed chunks').1 = ((new maximum).feed chunks).1 ∧
        ((new maximum).feed chunks').2.isSome = ((new maximum).feed chunks).2.isSome ↔
      (new maximum).Clean chunks' := by
  have hmeaning := (feed_eq_streamFrames_iff (d := new maximum) rfl).mpr h
  rw [← feed_eq_streamFrames_iff rfl, ← hsame, Gives, ← hmeaning.1, ← hmeaning.2]

/-- Two frames and a bad length, split at their ends and in the middle of them. -/
theorem feed_independent_of_chunks_two :
    ((new 4).feed [[0, 0], [0, 1, 7, 0, 0], [0, 1, 8, 255], [255, 255, 255]]).1 =
        ((new 4).feed [[0, 0, 0, 1, 7], [0, 0, 0, 1, 8], [255, 255, 255, 255]]).1 ∧
      ((new 4).feed [[0, 0], [0, 1, 7, 0, 0], [0, 1, 8, 255], [255, 255, 255]]).2.isSome =
        ((new 4).feed [[0, 0, 0, 1, 7], [0, 0, 0, 1, 8], [255, 255, 255, 255]]).2.isSome := by
  refine (feed_independent_of_chunks (by decide) ?_).mpr ?_
  · exact .inr ⟨by decide, by decide +kernel, .inr ⟨by decide +kernel, by decide +kernel,
      .inl ⟨.negativeFrameLength (-1), by decide +kernel⟩⟩⟩
  · exact .inr ⟨by decide, by decide +kernel, .inr ⟨by decide +kernel, by decide +kernel,
      .inr ⟨by decide +kernel, by decide +kernel,
        .inl ⟨.negativeFrameLength (-1), by decide +kernel⟩⟩⟩⟩

/-- Two frames that come together are refused, and a frame is lost that comes
    together with a bad length. -/
theorem chunks_change_frames : (new 4).feed [[0, 0, 0, 4, 1, 2, 3, 4], [0, 0, 0, 4, 5, 6, 7, 8]] =
        ([[1, 2, 3, 4], [5, 6, 7, 8]], none) ∧
      (new 4).feed [[0, 0, 0, 4, 1, 2, 3, 4, 0, 0, 0, 4, 5, 6, 7, 8]] =
        ([], some (.frameTooLarge 16)) ∧
      (new 4).feed [[0, 0, 0, 0], [255, 255, 255, 255]] = ([[]], some (.negativeFrameLength (-1))) ∧
      (new 4).feed [[0, 0, 0, 0, 255, 255, 255, 255]] = ([], some (.negativeFrameLength (-1))) := by
  decide +kernel

end FrameDecoder

end Kafka

end Pepper
