import CryptoCoin.Crates.Transport
import CryptoCoin.Library.Frames

/-!
# What the peer reads

The transport writes every message behind its length in four bytes and leaves the reading
to later. `readFrames` of `CryptoCoin.Library.Frames` is the reader that such a length is
meant for. It finds the messages of a line exactly when each of them is shorter than
`2 ^ 32` bytes (`received_iff`): the length is cut off to 32 bits and nothing checks the
size.

A write that fails in the middle of a message leaves the connection in the table, and later
messages go on behind the fragment. The reader completes the fragment with the first bytes
of these messages (`received_gap`).
-/

namespace CryptoCoin

namespace Crates

namespace Transport

open Wire (toBeBytes)
open Discovery (zeroBytes AddressFormat)

section Bytes

variable (serialize : P2PMessage → Except String (List UInt8))

theorem toBeBytes_length_eq (data : List UInt8) :
    toBeBytes (UInt32.ofNat data.length) = Words.beBytes 4 data.length := by
  have hread := Words.beBytes_ofBeBytes (Words.beBytes 4 data.length)
  rw [Words.length_beBytes, Words.ofBeBytes_beBytes] at hread
  rw [toBeBytes, UInt32.toNat_ofNat', ← hread]
  rfl

theorem written_complete {msg : P2PMessage} {data : List UInt8} (h : serialize msg = .ok data) :
    written serialize msg ⟨.complete, .complete⟩ = Frames.frame 4 data := by
  simp only [written, h, toBeBytes_length_eq]
  rfl

end Bytes

namespace TransportManager

variable {SocketAddr : Type} (format : AddressFormat SocketAddr)
  (serialize : P2PMessage → Except String (List UInt8))

namespace Operation

/-- The data of the messages that an operation sends on the line. -/
def payloads : Operation SocketAddr → List (List UInt8)
  | .send peerId msg _ => if peerId = zeroBytes then (serialize msg).toOption.toList else []
  | .broadcast msg _ _ => (serialize msg).toOption.toList
  | _ => []

/-- The writes of the operation to the line do not fail. -/
def Complete : Operation SocketAddr → Prop
  | .send _ _ delivery => delivery = ⟨.complete, .complete⟩
  | .broadcast _ _ delivery => delivery zeroBytes = ⟨.complete, .complete⟩
  | _ => True

theorem written_eq_flatMap_frame (msg : P2PMessage) :
    written serialize msg ⟨.complete, .complete⟩ =
      (serialize msg).toOption.toList.flatMap (Frames.frame 4) := by
  cases hser : serialize msg with
  | error e => simp [written, hser, Except.toOption]
  | ok data =>
      rw [written_complete serialize hser]
      simp [Except.toOption]

theorem bytes_eq_flatMap_frame {op : Operation SocketAddr} (h : op.Complete) :
    op.bytes serialize = (op.payloads serialize).flatMap (Frames.frame 4) := by
  cases op with
  | send peerId msg delivery =>
      have hdelivery : delivery = ⟨.complete, .complete⟩ := h
      rw [bytes, payloads, hdelivery]
      split
      · exact written_eq_flatMap_frame serialize msg
      · rfl
  | broadcast msg iter delivery =>
      have hdelivery : delivery zeroBytes = ⟨.complete, .complete⟩ := h
      rw [bytes, payloads, hdelivery]
      exact written_eq_flatMap_frame serialize msg
  | _ => rfl

theorem flatMap_bytes_eq {ops : List (Operation SocketAddr)} (h : ∀ op ∈ ops, op.Complete) :
    ops.flatMap (bytes serialize) =
      (ops.flatMap (payloads serialize)).flatMap (Frames.frame 4) := by
  rw [List.flatMap_assoc]
  exact List.flatMap_congr fun op hop => bytes_eq_flatMap_frame serialize (h op hop)

end Operation

variable (config : TransportConfig) (pre : List (Operation SocketAddr)) (addr : SocketAddr)
  {attempt : Attempt}

/-- When no write has failed since the last dial, the peer that was dialed reads the messages
sent since then, and no others, exactly when each of them is shorter than `2 ^ 32` bytes. -/
theorem received_iff {since : List (Operation SocketAddr)}
    (hdial : attempt.Succeeds config.dialTimeout)
    (hsince : ∀ op ∈ since, ¬ op.Cuts config.dialTimeout) (hcomplete : ∀ op ∈ since, op.Complete) :
    ∃ sent, (Runs.run (perform format serialize) (new config)
        (pre ++ .dial addr attempt :: since)).line = some ⟨addr, sent⟩ ∧
      ((Frames.readFrames 4 sent).1 = since.flatMap (Operation.payloads serialize) ↔
        ∀ data ∈ since.flatMap (Operation.payloads serialize), data.length < 2 ^ 32) := by
  refine ⟨_, line_run_of_not_cuts format serialize config hdial hsince, ?_⟩
  rw [Operation.flatMap_bytes_eq serialize hcomplete]
  exact Frames.fst_readFrames_flatMap_eq_iff (by decide) _

/-- An encoder with two bytes for a ping. -/
def encodePing : P2PMessage → Except String (List UInt8)
  | .ping => .ok [7, 8]
  | _ => .error "not a ping"

def promptDial (addr : String) : Operation String := .dial addr ⟨0, .ok ()⟩

def wholePing : Operation String := .send zeroBytes .ping ⟨.complete, .complete⟩

theorem received_pings :
    ∃ sent, (Runs.run (perform ⟨some, id, ""⟩ encodePing) (new ⟨5⟩)
        ([] ++ promptDial "a" :: [wholePing, wholePing])).line = some ⟨"a", sent⟩ ∧
      (Frames.readFrames 4 sent).1 = [[7, 8], [7, 8]] := by
  have hdial : Attempt.Succeeds 5 ⟨0, .ok ()⟩ := ⟨by decide, rfl⟩
  have hsince : ∀ op ∈ [wholePing, wholePing], ¬ op.Cuts 5 := by
    simp [wholePing, Operation.Cuts]
  have hcomplete : ∀ op ∈ [wholePing, wholePing], op.Complete := by
    simp [wholePing, Operation.Complete]
  obtain ⟨sent, hline, hread⟩ :=
    received_iff ⟨some, id, ""⟩ encodePing ⟨5⟩ [] "a" hdial hsince hcomplete
  exact ⟨sent, hline, hread.mpr (by decide)⟩

/-- A write that fails behind `k` bytes of its data leaves the line open. The peer reads the
messages before it, and then one that ends in the bytes of the messages after it. -/
theorem received_gap {before after : List (Operation SocketAddr)} {msg : P2PMessage}
    {data : List UInt8} {k : ℕ} (error : String)
    (hdial : attempt.Succeeds config.dialTimeout)
    (hbefore : ∀ op ∈ before, ¬ op.Cuts config.dialTimeout ∧ op.Complete)
    (hafter : ∀ op ∈ after, ¬ op.Cuts config.dialTimeout)
    (hshort : ∀ p ∈ before.flatMap (Operation.payloads serialize), p.length < 2 ^ 32)
    (hser : serialize msg = .ok data) (hdata : data.length < 2 ^ 32) (hk : k ≤ data.length)
    (hlater : data.length ≤ k + (after.flatMap (Operation.bytes serialize)).length) :
    ∃ sent, (Runs.run (perform format serialize) (new config) (pre ++ .dial addr attempt ::
          (before ++ .send zeroBytes msg ⟨.complete, .broken k error⟩ :: after))).line =
        some ⟨addr, sent⟩ ∧
      (Frames.readFrames 4 sent).1 =
        before.flatMap (Operation.payloads serialize) ++
          (data.take k ++
            (after.flatMap (Operation.bytes serialize)).take (data.length - k)) ::
          (Frames.readFrames 4
            ((after.flatMap (Operation.bytes serialize)).drop (data.length - k))).1 := by
  have hsince : ∀ op ∈ before ++ .send zeroBytes msg ⟨.complete, .broken k error⟩ :: after,
      ¬ op.Cuts config.dialTimeout := by
    intro op hop
    rcases List.mem_append.mp hop with hmem | hmem
    · exact (hbefore op hmem).1
    · rcases List.mem_cons.mp hmem with rfl | hmem
      · exact not_false
      · exact hafter op hmem
  have hbroken : (Operation.send zeroBytes msg ⟨.complete, .broken k error⟩ :
      Operation SocketAddr).bytes serialize = Words.beBytes 4 data.length ++ data.take k := by
    rw [Operation.bytes, if_pos rfl]
    simp only [written, hser, toBeBytes_length_eq]
  refine ⟨_, line_run_of_not_cuts format serialize config hdial hsince, ?_⟩
  have hread := Frames.readFrames_of_readFrame_eq_some (by decide)
    (Frames.readFrame_gap (w := 4) hdata hk hlater)
  rw [List.flatMap_append, List.flatMap_cons, hbroken,
    Operation.flatMap_bytes_eq serialize fun op hop => (hbefore op hop).2,
    Frames.readFrames_flatMap_append (by decide) hshort, List.append_assoc, hread]

/-- Of the first ping one byte is taken. The second byte is the first one of the length of
the next ping. -/
theorem received_broken_ping :
    ∃ sent, (Runs.run (perform ⟨some, id, ""⟩ encodePing) (new ⟨5⟩) ([] ++ promptDial "a" ::
        ([] ++ .send zeroBytes .ping ⟨.complete, .broken 1 "reset"⟩ :: [wholePing]))).line =
        some ⟨"a", sent⟩ ∧
      (Frames.readFrames 4 sent).1 = [[7, 0]] := by
  have hdial : Attempt.Succeeds 5 ⟨0, .ok ()⟩ := ⟨by decide, rfl⟩
  have hbefore : ∀ op ∈ ([] : List (Operation String)), ¬ op.Cuts 5 ∧ op.Complete := by simp
  have hafter : ∀ op ∈ [wholePing], ¬ op.Cuts 5 := by simp [wholePing, Operation.Cuts]
  have hser : encodePing .ping = .ok [7, 8] := rfl
  obtain ⟨sent, hline, hread⟩ := received_gap ⟨some, id, ""⟩ encodePing ⟨5⟩ [] "a" "reset"
    hdial hbefore hafter (by simp) hser (by decide) (by decide : 1 ≤ 2) (by decide)
  exact ⟨sent, hline, hread.trans (by decide)⟩

end TransportManager

end Transport

end Crates

end CryptoCoin
