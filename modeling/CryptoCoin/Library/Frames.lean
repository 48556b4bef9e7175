import CryptoCoin.Library.Words

/-!
# Frames on a byte stream

`frame w p` is the payload `p` behind its length in `w` big-endian bytes. A reader of the
stream takes frame after frame; `readFrames` returns the payloads of the complete frames
and the bytes behind the last of them.

A length of `256 ^ w` or more does not fit in front of its payload. A stream reads back to
what was written on it exactly when all lengths fit (`fst_readFrames_flatMap_eq_iff`). When
bytes are missing inside a stream, the frame that misses them is filled up with the bytes
behind it (`readFrame_gap`).
-/

namespace Frames

open Words

variable {w : ℕ}

def frame (w : ℕ) (payload : List UInt8) : List UInt8 := beBytes w payload.length ++ payload

def readFrame (w : ℕ) (bytes : List UInt8) : Option (List UInt8 × List UInt8) :=
  if bytes.length < w then none
  else
    let len := ofBeBytes (bytes.take w)
    let rest := bytes.drop w
    if rest.length < len then none else some (rest.take len, rest.drop len)

def readLoop (w : ℕ) : ℕ → List UInt8 → List (List UInt8) × List UInt8
  | 0, bytes => ([], bytes)
  | fuel + 1, bytes =>
      match readFrame w bytes with
      | none => ([], bytes)
      | some (payload, rest) =>
          (payload :: (readLoop w fuel rest).1, (readLoop w fuel rest).2)

/-- The payloads of the complete frames, and the bytes behind them. -/
def readFrames (w : ℕ) (bytes : List UInt8) : List (List UInt8) × List UInt8 :=
  readLoop w bytes.length bytes

/-! ### One frame -/

theorem readFrame_beBytes_append (n : ℕ) (bytes : List UInt8) :
    readFrame w (beBytes w n ++ bytes) =
      if bytes.length < n % 256 ^ w then none
      else some (bytes.take (n % 256 ^ w), bytes.drop (n % 256 ^ w)) := by
  have hlen : ¬ (beBytes w n ++ bytes).length < w := by
    rw [List.length_append, length_beBytes]
    omega
  have htake : (beBytes w n ++ bytes).take w = beBytes w n :=
    List.take_left' (length_beBytes w n)
  have hdrop : (beBytes w n ++ bytes).drop w = bytes := List.drop_left' (length_beBytes w n)
  simp only [readFrame, if_neg hlen, htake, hdrop, ofBeBytes_beBytes]

theorem readFrame_frame_append {payload : List UInt8} (h : payload.length < 256 ^ w)
    (rest : List UInt8) : readFrame w (frame w payload ++ rest) = some (payload, rest) := by
  rw [frame, List.append_assoc, readFrame_beBytes_append, Nat.mod_eq_of_lt h,
    if_neg (by rw [List.length_append]; omega), List.take_left, List.drop_left]

/-- When a stream breaks off inside a payload and goes on with other bytes, these fill up
the payload. -/
theorem readFrame_gap {payload later : List UInt8} (h : payload.length < 256 ^ w) {k : ℕ}
    (hk : k ≤ payload.length) (hlater : payload.length ≤ k + later.length) :
    readFrame w (beBytes w payload.length ++ (payload.take k ++ later)) =
      some (payload.take k ++ later.take (payload.length - k),
        later.drop (payload.length - k)) := by
  have htake : (payload.take k).length = k := List.length_take_of_le hk
  rw [readFrame_beBytes_append, Nat.mod_eq_of_lt h,
    if_neg (by rw [List.length_append, htake]; omega), List.take_append, List.drop_append, htake,
    List.take_of_length_le (htake.trans_le hk), List.drop_of_length_le (htake.trans_le hk),
    List.nil_append]

/-! ### Streams -/

theorem length_of_readFrame {bytes payload rest : List UInt8}
    (h : readFrame w bytes = some (payload, rest)) : w + rest.length ≤ bytes.length := by
  simp only [readFrame] at h
  split at h
  · cases h
  · split at h
    · cases h
    · next hlen _ =>
        obtain ⟨_, rfl⟩ := Prod.mk.inj (Option.some.inj h)
        rw [List.length_drop, List.length_drop]
        omega

theorem readLoop_of_le (hw : 0 < w) {fuel : ℕ} {bytes : List UInt8} (h : bytes.length ≤ fuel) :
    readLoop w fuel bytes = readFrames w bytes := by
  rw [readFrames]
  induction fuel using Nat.strong_induction_on generalizing bytes with
  | _ fuel ih =>
      cases hread : readFrame w bytes with
      | none =>
          cases fuel <;> cases bytes.length <;> simp [readLoop, hread]
      | some result =>
          obtain ⟨payload, rest⟩ := result
          have hlen := length_of_readFrame hread
          obtain ⟨fuel, rfl⟩ : ∃ k, fuel = k + 1 := ⟨fuel - 1, by omega⟩
          obtain ⟨n, hn⟩ : ∃ k, bytes.length = k + 1 := ⟨bytes.length - 1, by omega⟩
          rw [hn, readLoop, readLoop, hread]
          simp only
          rw [ih fuel (Nat.lt_succ_self fuel) (by omega), ih n (by omega) (by omega)]

theorem readFrames_of_readFrame_eq_none {bytes : List UInt8} (h : readFrame w bytes = none) :
    readFrames w bytes = ([], bytes) := by
  rw [readFrames]
  cases bytes.length <;> simp [readLoop, h]

theorem readFrames_of_readFrame_eq_some (hw : 0 < w) {bytes payload rest : List UInt8}
    (h : readFrame w bytes = some (payload, rest)) :
    readFrames w bytes = (payload :: (readFrames w rest).1, (readFrames w rest).2) := by
  have hlen := length_of_readFrame h
  obtain ⟨n, hn⟩ : ∃ k, bytes.length = k + 1 := ⟨bytes.length - 1, by omega⟩
  rw [readFrames, hn, readLoop, h]
  simp only
  rw [readLoop_of_le hw (by omega)]

theorem readFrames_flatMap_append (hw : 0 < w) {payloads : List (List UInt8)}
    (h : ∀ p ∈ payloads, p.length < 256 ^ w) (rest : List UInt8) :
    readFrames w (payloads.flatMap (frame w) ++ rest) =
      (payloads ++ (readFrames w rest).1, (readFrames w rest).2) := by
  induction payloads with
  | nil => rfl
  | cons p payloads ih =>
      obtain ⟨hp, hpayloads⟩ := List.forall_mem_cons.mp h
      rw [List.flatMap_cons, List.append_assoc,
        readFrames_of_readFrame_eq_some hw (readFrame_frame_append hp _), ih hpayloads]
      rfl

theorem readFrames_nil (hw : 0 < w) : readFrames w [] = ([], []) :=
  readFrames_of_readFrame_eq_none (by rw [readFrame, if_pos (by simpa using hw)])

/-- A stream of frames reads back to its payloads exactly when every length fits. -/
theorem fst_readFrames_flatMap_eq_iff (hw : 0 < w) (payloads : List (List UInt8)) :
    (readFrames w (payloads.flatMap (frame w))).1 = payloads ↔
      ∀ p ∈ payloads, p.length < 256 ^ w := by
  constructor
  · intro h
    induction payloads with
    | nil => simp
    | cons p payloads ih =>
        have hfit : p.length < 256 ^ w := by
          by_contra hlong
          -- the reader takes a shorter payload than the one that was written
          have hmod : p.length % 256 ^ w < 256 ^ w := Nat.mod_lt _ (Nat.pow_pos (by decide))
          have hread := readFrame_beBytes_append (w := w) p.length
            (p ++ payloads.flatMap (frame w))
          rw [if_neg (by rw [List.length_append]; omega)] at hread
          rw [List.flatMap_cons, frame, List.append_assoc,
            readFrames_of_readFrame_eq_some hw hread] at h
          have hlen := congrArg List.length (List.cons.inj h).1
          rw [List.length_take, List.length_append] at hlen
          omega
        rw [List.flatMap_cons, readFrames_of_readFrame_eq_some hw
          (readFrame_frame_append hfit _)] at h
        exact List.forall_mem_cons.mpr ⟨hfit, ih (List.cons.inj h).2⟩
  · intro h
    have hread := readFrames_flatMap_append hw h []
    rw [readFrames_nil hw, List.append_nil, List.append_nil] at hread
    rw [hread]

end Frames
