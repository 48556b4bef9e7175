import CryptoCoin.Library.Words

/-!
# Wire frames

`WireFrame` of the crate `p2p`: a header of 40 bytes (magic, big-endian length of the
payload, checksum) and the payload. The checksum function comes from another crate
and is a parameter. Lengths are natural numbers: on a 64-bit machine `40 + length`
does not overflow.

An index or a slice out of bounds stops the Rust program. `fromBytes` returns `none`
then, and `wireFrame_exact` says that it never does.
-/

namespace CryptoCoin

namespace Crates

namespace Wire

@[ext] structure Bytes (n : ℕ) where
  bytes : List UInt8
  size : bytes.length = n
  deriving DecidableEq

def Bytes.replicate (n : ℕ) (byte : UInt8) : Bytes n :=
  ⟨List.replicate n byte, List.length_replicate⟩

inductive ProtocolError where
  | invalidMagic
  | invalidLength
  | checksumMismatch
  | tooShort
  deriving DecidableEq

@[ext] structure WireFrame where
  magic : Bytes 4
  length : UInt32
  checksum : Bytes 32
  payload : List UInt8
  deriving DecidableEq

def magicBytes : Bytes 4 := ⟨[0x43, 0x43, 0x50, 0x31], rfl⟩

def toBeBytes (w : UInt32) : List UInt8 := Words.beBytes 4 w.toNat

def fromBeBytes (bs : List UInt8) : UInt32 := UInt32.ofNat (Words.ofBeBytes bs)

/-- `&bytes[lo..hi]`; `none` when the bounds are not those of a slice. -/
def slice (bytes : List UInt8) (lo hi : ℕ) : Option (List UInt8) :=
  if lo ≤ hi ∧ hi ≤ bytes.length then some ((bytes.drop lo).take (hi - lo)) else none

/-- `copy_from_slice` into an array; `none` when the lengths differ. -/
def copyFromSlice (n : ℕ) (src : List UInt8) : Option (Bytes n) :=
  if h : src.length = n then some ⟨src, h⟩ else none

namespace WireFrame

section Checksum

variable (computeChecksum : List UInt8 → Bytes 32)

/-- The length is cut off to 32 bits. -/
def new (payload : List UInt8) : WireFrame :=
  { magic := magicBytes
    length := UInt32.ofNat payload.length
    checksum := computeChecksum payload
    payload := payload }

def validate (frame : WireFrame) : Except ProtocolError Unit :=
  if frame.magic ≠ magicBytes then .error .invalidMagic
  else if UInt32.ofNat frame.payload.length ≠ frame.length then .error .invalidLength
  else if frame.checksum ≠ computeChecksum frame.payload then .error .checksumMismatch
  else .ok ()

end Checksum

def toBytes (frame : WireFrame) : List UInt8 :=
  frame.magic.bytes ++ toBeBytes frame.length ++ frame.checksum.bytes ++ frame.payload

def fromBytes (bytes : List UInt8) : Option (Except ProtocolError WireFrame) :=
  if bytes.length < 40 then some (.error .tooShort)
  else do
    let magic : Bytes 4 := ⟨[← bytes[0]?, ← bytes[1]?, ← bytes[2]?, ← bytes[3]?], rfl⟩
    let length := fromBeBytes [← bytes[4]?, ← bytes[5]?, ← bytes[6]?, ← bytes[7]?]
    let checksum ← copyFromSlice 32 (← slice bytes 8 40)
    if bytes.length < 40 + length.toNat then
      return .error .tooShort
    let payload ← slice bytes 40 (40 + length.toNat)
    return .ok { magic, length, checksum, payload }

end WireFrame

/-! ### Words and slices -/

@[simp] theorem length_toBeBytes (w : UInt32) : (toBeBytes w).length = 4 :=
  Words.length_beBytes 4 w.toNat

theorem fromBeBytes_toBeBytes (w : UInt32) : fromBeBytes (toBeBytes w) = w := by
  have hlt : w.toNat < 256 ^ 4 := w.toNat_lt
  rw [fromBeBytes, toBeBytes, Words.ofBeBytes_beBytes, Nat.mod_eq_of_lt hlt, UInt32.ofNat_toNat]

theorem toBeBytes_fromBeBytes {bs : List UInt8} (h : bs.length = 4) :
    toBeBytes (fromBeBytes bs) = bs := by
  have hlt : Words.ofBeBytes bs < 2 ^ 32 := by
    have hbound := Words.ofBeBytes_lt bs
    rw [h] at hbound
    exact hbound
  rw [fromBeBytes, toBeBytes, UInt32.toNat_ofNat_of_lt' hlt]
  have hread := Words.beBytes_ofBeBytes bs
  rwa [h] at hread

theorem slice_append {a b c : List UInt8} {lo hi : ℕ} (hlo : a.length = lo)
    (hhi : lo + b.length = hi) : slice (a ++ b ++ c) lo hi = some b := by
  have hdrop : (a ++ b ++ c).drop lo = b ++ c := by
    rw [List.append_assoc]
    exact List.drop_left' hlo
  have hle : lo ≤ hi ∧ hi ≤ (a ++ b ++ c).length := by
    simp only [List.length_append]
    omega
  rw [slice, if_pos hle, hdrop, List.take_left' (by omega)]

theorem copyFromSlice_bytes {n : ℕ} (a : Bytes n) : copyFromSlice n a.bytes = some a :=
  dif_pos a.size

/-! ### Headers -/

namespace WireFrame

def header (magic : Bytes 4) (length : UInt32) (checksum : Bytes 32) : List UInt8 :=
  magic.bytes ++ toBeBytes length ++ checksum.bytes

theorem length_header (magic : Bytes 4) (length : UInt32) (checksum : Bytes 32) :
    (header magic length checksum).length = 40 := by
  rw [header, List.length_append, List.length_append, magic.size, length_toBeBytes,
    checksum.size]

theorem exists_header {bs : List UInt8} (h : 40 ≤ bs.length) :
    ∃ magic length checksum tail, bs = header magic length checksum ++ tail := by
  have hlength : ((bs.drop 4).take 4).length = 4 := by
    rw [List.length_take, List.length_drop]
    omega
  refine ⟨⟨bs.take 4, by rw [List.length_take]; omega⟩, fromBeBytes ((bs.drop 4).take 4),
    ⟨(bs.drop 8).take 32, by rw [List.length_take, List.length_drop]; omega⟩, bs.drop 40, ?_⟩
  have hfirst : bs = bs.take 4 ++ bs.drop 4 := (List.take_append_drop 4 bs).symm
  have hsecond : bs.drop 4 = (bs.drop 4).take 4 ++ bs.drop 8 := by
    rw [← List.drop_drop (j := 4) (i := 4), List.take_append_drop]
  have hthird : bs.drop 8 = (bs.drop 8).take 32 ++ bs.drop 40 := by
    rw [← List.drop_drop (j := 8) (i := 32), List.take_append_drop]
  rw [header, toBeBytes_fromBeBytes hlength, List.append_assoc, List.append_assoc, ← hthird,
    ← hsecond, ← hfirst]

theorem fromBytes_header (magic : Bytes 4) (length : UInt32) (checksum : Bytes 32)
    (tail : List UInt8) :
    fromBytes (header magic length checksum ++ tail) =
      some (if tail.length < length.toNat then .error .tooShort
        else .ok ⟨magic, length, checksum, tail.take length.toNat⟩) := by
  obtain ⟨m₀, m₁, m₂, m₃, hmagic⟩ := List.length_eq_four.mp magic.size
  obtain ⟨l₀, l₁, l₂, l₃, hlength⟩ := List.length_eq_four.mp (length_toBeBytes length)
  have hsize : (header magic length checksum ++ tail).length = 40 + tail.length := by
    rw [List.length_append, length_header]
  have hbytes : header magic length checksum ++ tail =
      [m₀, m₁, m₂, m₃, l₀, l₁, l₂, l₃] ++ (checksum.bytes ++ tail) := by
    simp [header, hmagic, hlength]
  have hword : fromBeBytes [l₀, l₁, l₂, l₃] = length := by
    rw [← hlength, fromBeBytes_toBeBytes]
  have hchecksum : slice (header magic length checksum ++ tail) 8 40 = some checksum.bytes := by
    apply slice_append
    · rw [List.length_append, magic.size, length_toBeBytes]
    · rw [checksum.size]
  have hindex : ∀ i < 8, (header magic length checksum ++ tail)[i]? =
      [m₀, m₁, m₂, m₃, l₀, l₁, l₂, l₃][i]? := by
    intro i hi
    rw [hbytes]
    exact List.getElem?_append_left hi
  have hmagic' : (⟨[m₀, m₁, m₂, m₃], rfl⟩ : Bytes 4) = magic := Bytes.ext hmagic.symm
  rw [fromBytes, if_neg (by omega), hchecksum, hsize, hindex 0 (by decide), hindex 1 (by decide),
    hindex 2 (by decide), hindex 3 (by decide), hindex 4 (by decide), hindex 5 (by decide),
    hindex 6 (by decide), hindex 7 (by decide)]
  simp only [List.getElem?_cons_zero, List.getElem?_cons_succ, Option.bind_eq_bind,
    Option.bind_some, Option.pure_def]
  rw [copyFromSlice_bytes, Option.bind_some, hword, hmagic']
  by_cases hshort : tail.length < length.toNat
  · rw [if_pos (by omega), if_pos hshort]
  · have hpayload : slice (header magic length checksum ++ tail) 40 (40 + length.toNat) =
        some (tail.take length.toNat) := by
      have hsplit : header magic length checksum ++ tail =
          header magic length checksum ++ tail.take length.toNat ++ tail.drop length.toNat := by
        rw [List.append_assoc, List.take_append_drop]
      rw [hsplit]
      apply slice_append (length_header magic length checksum)
      rw [List.length_take]
      omega
    rw [if_neg (by omega), if_neg hshort, hpayload, Option.bind_some]

/-! ### Frames -/

theorem toBytes_eq (frame : WireFrame) :
    frame.toBytes = header frame.magic frame.length frame.checksum ++ frame.payload := rfl

/-- A frame that declares the length of its payload is read back, whatever follows. -/
theorem fromBytes_toBytes_append {frame : WireFrame}
    (h : frame.length.toNat = frame.payload.length) (rest : List UInt8) :
    fromBytes (frame.toBytes ++ rest) = some (.ok frame) := by
  rw [toBytes_eq, List.append_assoc, fromBytes_header, if_neg, h, List.take_left]
  rw [List.length_append, h]
  omega

/-- What is read is the header and the declared number of bytes behind it. -/
theorem fromBytes_eq_ok_iff {bytes : List UInt8} {frame : WireFrame} :
    fromBytes bytes = some (.ok frame) ↔
      ∃ tail, bytes = header frame.magic frame.length frame.checksum ++ tail ∧
        frame.length.toNat ≤ tail.length ∧ frame.payload = tail.take frame.length.toNat := by
  constructor
  · intro h
    have hlong : 40 ≤ bytes.length := by
      by_contra hshort
      rw [fromBytes, if_pos (Nat.not_le.mp hshort)] at h
      cases h
    obtain ⟨magic, length, checksum, tail, rfl⟩ := exists_header hlong
    rw [fromBytes_header] at h
    split at h
    · cases h
    · next henough =>
        cases h
        exact ⟨tail, rfl, Nat.not_lt.mp henough, rfl⟩
  · rintro ⟨tail, rfl, henough, hpayload⟩
    rw [fromBytes_header, if_neg (Nat.not_lt.mpr henough), ← hpayload]

theorem fromBytes_ne_none (bytes : List UInt8) : fromBytes bytes ≠ none := by
  by_cases hshort : bytes.length < 40
  · rw [fromBytes, if_pos hshort]
    exact Option.some_ne_none _
  · obtain ⟨magic, length, checksum, tail, rfl⟩ := exists_header (Nat.not_lt.mp hshort)
    rw [fromBytes_header]
    exact Option.some_ne_none _

theorem toBytes_of_fromBytes {bytes : List UInt8} {frame : WireFrame}
    (h : fromBytes bytes = some (.ok frame)) :
    frame.toBytes = bytes.take (40 + frame.length.toNat) := by
  obtain ⟨tail, rfl, _, hpayload⟩ := fromBytes_eq_ok_iff.mp h
  have hheader := length_header frame.magic frame.length frame.checksum
  rw [toBytes_eq, hpayload, ← hheader, List.take_length_add_append]

theorem ofBeBytes_header (magic : Bytes 4) (length : UInt32) (checksum : Bytes 32)
    (tail : List UInt8) :
    Words.ofBeBytes (((header magic length checksum ++ tail).drop 4).take 4) = length.toNat := by
  have hdrop : (header magic length checksum ++ tail).drop 4 =
      toBeBytes length ++ (checksum.bytes ++ tail) := by
    simp only [header, List.append_assoc]
    exact List.drop_left' magic.size
  have hlt : length.toNat < 256 ^ 4 := length.toNat_lt
  rw [hdrop, List.take_left' (length_toBeBytes length), toBeBytes, Words.ofBeBytes_beBytes,
    Nat.mod_eq_of_lt hlt]

theorem length_new (computeChecksum : List UInt8 → Bytes 32) {payload : List UInt8}
    (h : payload.length < 2 ^ 32) :
    (new computeChecksum payload).length.toNat = (new computeChecksum payload).payload.length :=
  UInt32.toNat_ofNat_of_lt' h

theorem validate_new (computeChecksum : List UInt8 → Bytes 32) (payload : List UInt8) :
    validate computeChecksum (new computeChecksum payload) = .ok () := by
  simp [validate, new]

/-- The framing is exact: frames are read back from the front of any byte string,
and reading a byte string never fails but for want of bytes and gives a frame that
is written as the bytes it was read from. -/
theorem wireFrame_exact (computeChecksum : List UInt8 → Bytes 32) :
    (∀ (frame : WireFrame) (rest : List UInt8), frame.length.toNat = frame.payload.length →
        fromBytes (frame.toBytes ++ rest) = some (.ok frame)) ∧
      (∀ payload : List UInt8, payload.length < 2 ^ 32 →
        (new computeChecksum payload).length.toNat =
          (new computeChecksum payload).payload.length) ∧
      ∀ bytes : List UInt8,
        fromBytes bytes ≠ none ∧
          ((∃ frame, fromBytes bytes = some (.ok frame)) ↔
            40 ≤ bytes.length ∧
              40 + Words.ofBeBytes ((bytes.drop 4).take 4) ≤ bytes.length) ∧
          ∀ frame, fromBytes bytes = some (.ok frame) →
            frame.toBytes = bytes.take (40 + frame.length.toNat) := by
  refine ⟨fun frame rest h => fromBytes_toBytes_append h rest,
    fun payload h => length_new computeChecksum h, ?_⟩
  intro bytes
  refine ⟨fromBytes_ne_none bytes, ?_, fun frame h => toBytes_of_fromBytes h⟩
  constructor
  · rintro ⟨frame, h⟩
    obtain ⟨tail, rfl, henough, _⟩ := fromBytes_eq_ok_iff.mp h
    rw [ofBeBytes_header, List.length_append, length_header]
    exact ⟨Nat.le_add_right 40 _, Nat.add_le_add_left henough 40⟩
  · rintro ⟨hlong, henough⟩
    obtain ⟨magic, length, checksum, tail, rfl⟩ := exists_header hlong
    rw [ofBeBytes_header, List.length_append, length_header] at henough
    refine ⟨⟨magic, length, checksum, tail.take length.toNat⟩, ?_⟩
    exact fromBytes_eq_ok_iff.mpr ⟨tail, rfl, Nat.le_of_add_le_add_left henough, rfl⟩

/-! ### Long payloads -/

/-- Of a new frame, as many bytes of the payload are read as the declared length says. -/
theorem fromBytes_toBytes_new (computeChecksum : List UInt8 → Bytes 32) (payload : List UInt8) :
    fromBytes (new computeChecksum payload).toBytes =
      some (.ok ⟨magicBytes, UInt32.ofNat payload.length, computeChecksum payload,
        payload.take (payload.length % 2 ^ 32)⟩) := by
  have hlength : (UInt32.ofNat payload.length).toNat = payload.length % 2 ^ 32 :=
    UInt32.toNat_ofNat'
  have henough : ¬ payload.length < payload.length % 2 ^ 32 :=
    Nat.not_lt.mpr (Nat.mod_le _ _)
  rw [toBytes_eq, new, fromBytes_header, hlength, if_neg henough]

/-- A new frame passes its validation and comes back from its bytes with its payload and
valid. -/
def Survives (computeChecksum : List UInt8 → Bytes 32) (payload : List UInt8) : Prop :=
  validate computeChecksum (new computeChecksum payload) = .ok () →
    ∃ frame, fromBytes (new computeChecksum payload).toBytes = some (.ok frame) ∧
      frame.payload = payload ∧ validate computeChecksum frame = .ok ()

/-- It does so exactly when the length of the payload fits into 32 bits: the validation
cuts the length off as the constructor does. -/
theorem survives_iff (computeChecksum : List UInt8 → Bytes 32) (payload : List UInt8) :
    Survives computeChecksum payload ↔ payload.length < 2 ^ 32 := by
  constructor
  · intro hsurvives
    obtain ⟨frame, hread, hpayload, _⟩ := hsurvives (validate_new computeChecksum payload)
    rw [fromBytes_toBytes_new] at hread
    cases hread
    have hlen := congrArg List.length hpayload
    rw [List.length_take, Nat.min_eq_left (Nat.mod_le _ _)] at hlen
    rw [← hlen]
    exact Nat.mod_lt _ (by decide)
  · intro hfits hvalid
    have hread := fromBytes_toBytes_append (length_new computeChecksum hfits) []
    rw [List.append_nil] at hread
    exact ⟨new computeChecksum payload, hread, rfl, hvalid⟩

/-- A valid frame of `2 ^ 32` bytes is read as an empty one. -/
theorem fromBytes_toBytes_two_pow :
    (List.replicate (2 ^ 32) (0 : UInt8)).length = 2 ^ 32 ∧
      ∀ computeChecksum : List UInt8 → Bytes 32,
        validate computeChecksum (new computeChecksum (List.replicate (2 ^ 32) 0)) = .ok () ∧
          ∃ frame, fromBytes (new computeChecksum (List.replicate (2 ^ 32) 0)).toBytes =
            some (.ok frame) ∧ frame.payload = [] := by
  have hlen : (List.replicate (2 ^ 32) (0 : UInt8)).length = 2 ^ 32 := List.length_replicate
  refine ⟨hlen, fun computeChecksum => ⟨validate_new computeChecksum _, _,
    fromBytes_toBytes_new computeChecksum _, ?_⟩⟩
  rw [hlen, Nat.mod_self, List.take_zero]

end WireFrame

end Wire

end Crates

end CryptoCoin
