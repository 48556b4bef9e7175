import CryptoCoin.Crates.Discovery

/-!
# The transport of the peer-to-peer layer

`TransportManager` of the crate `p2p`. What the network does is an input of every call: how
long a connection attempt takes and how it ends, and how many bytes of a `write_all` the
socket takes before it fails. A stream is the address of the peer with the bytes that the
socket has taken so far. `bincode::serialize` comes from another crate and is a parameter.

`perform_handshake` returns the same identifier for every stream, so the table of
connections never has more than one entry (`Single`), a new connection takes the place of
the last one, and the transport is a single line (`line_perform`). `connections_run` says
for every run where the line leads and which bytes it carries.

Every opened connection is announced, also an accepted one, which the table does not get,
and nothing else is. `followed_always_iff` says when the events of a run tell which
connections are open.
-/

namespace CryptoCoin

namespace Crates

namespace Transport

open Wire (toBeBytes)
open Discovery (PeerId zeroBytes Duration Shuffle AddressFormat)

inductive P2PMessage where
  | blockProposal (data : List UInt8)
  | consensusVote (data : List UInt8)
  | transaction (data : List UInt8)
  | findPeer (data : List UInt8)
  | peerList (data : List UInt8)
  | syncRequest (data : List UInt8)
  | syncResponse (data : List UInt8)
  | ping
  | pong
  deriving DecidableEq

inductive TransportEvent (SocketAddr : Type) where
  | connectionEstablished (peerId : PeerId) (addr : SocketAddr)
  | connectionClosed (peerId : PeerId) (addr : SocketAddr) (reason : String)
  | messageReceived (peerId : PeerId) (message : P2PMessage)
  | acceptError (text : String)
  | dialError (addr : SocketAddr) (text : String)

structure TransportConfig where
  dialTimeout : Duration

/-- The peer's address and the bytes that the socket has taken. -/
@[ext] structure Stream (SocketAddr : Type) where
  addr : SocketAddr
  sent : List UInt8

/-- `closed` records the streams that the manager has given up. No function of the source
reads it. -/
structure TransportManager (SocketAddr : Type) where
  config : TransportConfig
  connections : AList fun _ : PeerId => Stream SocketAddr
  events : List (TransportEvent SocketAddr)
  closed : List (Stream SocketAddr)

/-! ### What the network does -/

/-- A connection attempt: the time it takes and how it ends. -/
structure Attempt where
  elapsed : Duration
  result : Except String Unit

def Attempt.Succeeds (timeout : Duration) (attempt : Attempt) : Prop :=
  attempt.elapsed ≤ timeout ∧ attempt.result.isOk = true

instance (timeout : Duration) (attempt : Attempt) : Decidable (attempt.Succeeds timeout) :=
  inferInstanceAs (Decidable (_ ∧ _))

/-- What the socket does with a `write_all`: it takes all bytes, or the first ones and
fails. -/
inductive Write where
  | complete
  | broken (taken : ℕ) (error : String)

structure Delivery where
  header : Write
  body : Write

namespace Stream

variable {SocketAddr : Type}

def write (stream : Stream SocketAddr) (bytes : List UInt8) : Stream SocketAddr :=
  { stream with sent := stream.sent ++ bytes }

def writeAll (stream : Stream SocketAddr) (bytes : List UInt8) :
    Write → Stream SocketAddr × Except String Unit
  | .complete => (stream.write bytes, .ok ())
  | .broken taken error => (stream.write (bytes.take taken), .error ("Write error: " ++ error))

theorem write_write (stream : Stream SocketAddr) (a b : List UInt8) :
    (stream.write a).write b = stream.write (a ++ b) := by
  rw [write, write, write, List.append_assoc]

end Stream

def hexEncode (bytes : List UInt8) : String :=
  String.ofList (bytes.flatMap fun b =>
    [Nat.digitChar (b.toNat / 16), Nat.digitChar (b.toNat % 16)])

namespace TransportManager

variable {SocketAddr : Type} (format : AddressFormat SocketAddr)
  (serialize : P2PMessage → Except String (List UInt8))

def new (config : TransportConfig) : TransportManager SocketAddr := ⟨config, ∅, [], []⟩

def emit (m : TransportManager SocketAddr) (event : TransportEvent SocketAddr) :
    TransportManager SocketAddr :=
  { m with events := event :: m.events }

/-! ### Connections -/

/-- Every stream gets the same identifier. -/
def performHandshake (_stream : Stream SocketAddr) : Except String PeerId := .ok zeroBytes

/-- The stream is dropped when the function returns. -/
def handleConnection (stream : Stream SocketAddr) (_addr : SocketAddr) : Except String PeerId :=
  performHandshake stream

/-- One round of the loop of `listen`. The connection is not entered in the table. -/
def accept (m : TransportManager SocketAddr) (addr : SocketAddr) : TransportManager SocketAddr :=
  let stream : Stream SocketAddr := ⟨addr, []⟩
  let m := { m with closed := stream :: m.closed }
  match handleConnection stream addr with
  | .ok peerId => m.emit (.connectionEstablished peerId addr)
  | .error e =>
      m.emit (.acceptError
        ("Failed to handle connection from " ++ format.toString addr ++ ": " ++ e))

/-- `connections.insert`: a stream that was there before is dropped. -/
def insertConnection (m : TransportManager SocketAddr) (peerId : PeerId)
    (stream : Stream SocketAddr) : TransportManager SocketAddr :=
  { m with
    connections := m.connections.insert peerId stream
    closed := (m.connections.lookup peerId).toList ++ m.closed }

def connect (m : TransportManager SocketAddr) (addr : SocketAddr) (attempt : Attempt) :
    Except String (Stream SocketAddr) :=
  if m.config.dialTimeout < attempt.elapsed then .error "deadline has elapsed"
  else attempt.result.map fun _ => ⟨addr, []⟩

def dial (m : TransportManager SocketAddr) (addr : SocketAddr) (attempt : Attempt) :
    TransportManager SocketAddr × Except String Unit :=
  match m.connect addr attempt with
  | .error e => (m, .error e)
  | .ok stream =>
      match performHandshake stream with
      | .error e => (m, .error e)
      | .ok peerId =>
          ((m.insertConnection peerId stream).emit (.connectionEstablished peerId addr), .ok ())

def disconnect (m : TransportManager SocketAddr) (peerId : PeerId) :
    TransportManager SocketAddr :=
  match m.connections.lookup peerId with
  | some stream =>
      { m with connections := m.connections.erase peerId, closed := stream :: m.closed }
  | none => m

def activeConnections (m : TransportManager SocketAddr) : ℕ := m.connections.entries.length

/-! ### Messages -/

/-- `get_mut` hands out the stream, and what is written stays in the table. -/
def setStream (m : TransportManager SocketAddr) (peerId : PeerId) (stream : Stream SocketAddr) :
    TransportManager SocketAddr :=
  { m with connections := m.connections.insert peerId stream }

def send (m : TransportManager SocketAddr) (peerId : PeerId) (msg : P2PMessage)
    (delivery : Delivery) : TransportManager SocketAddr × Except String Unit :=
  match m.connections.lookup peerId with
  | some stream =>
      match serialize msg with
      | .error e => (m, .error ("Serialization error: " ++ e))
      | .ok data =>
          let len := toBeBytes (UInt32.ofNat data.length)
          match stream.writeAll len delivery.header with
          | (stream, .error e) => (m.setStream peerId stream, .error e)
          | (stream, .ok ()) =>
              let (stream, result) := stream.writeAll data delivery.body
              (m.setStream peerId stream, result)
  | none =>
      (m, .error ("No connection to peer \"" ++ hexEncode (peerId.bytes.take 8) ++ "\""))

/-- The order of the keys of a hash map is arbitrary, and errors are dropped. -/
def broadcast (m : TransportManager SocketAddr) (msg : P2PMessage) (iter : Shuffle PeerId)
    (delivery : PeerId → Delivery) : TransportManager SocketAddr :=
  (iter.apply m.connections.keys).foldl
    (fun m peerId => (m.send serialize peerId msg (delivery peerId)).1) m

/-! ### Runs -/

/-- The calls with what the network does to them. -/
inductive Operation (SocketAddr : Type) where
  | accept (addr : SocketAddr)
  | dial (addr : SocketAddr) (attempt : Attempt)
  | send (peerId : PeerId) (msg : P2PMessage) (delivery : Delivery)
  | broadcast (msg : P2PMessage) (iter : Shuffle PeerId) (delivery : PeerId → Delivery)
  | disconnect (peerId : PeerId)

def perform (m : TransportManager SocketAddr) :
    Operation SocketAddr → TransportManager SocketAddr
  | .accept addr => m.accept format addr
  | .dial addr attempt => (m.dial addr attempt).1
  | .send peerId msg delivery => (m.send serialize peerId msg delivery).1
  | .broadcast msg iter delivery => m.broadcast serialize msg iter delivery
  | .disconnect peerId => m.disconnect peerId

end TransportManager

theorem entries_eq_of_lookup_eq_none {α β : Type} [DecidableEq α] {s : AList fun _ : α => β} {k : α}
    (h : ∀ a, a ≠ k → s.lookup a = none) :
    s.entries = (s.lookup k).toList.map fun b => ⟨k, b⟩ := by
  have hkeys : ∀ e ∈ s.entries, e.1 = k := by
    intro e he
    by_contra hne
    have hlookup := AList.mem_lookup_iff.mpr he
    rw [h e.1 hne] at hlookup
    cases hlookup
  have hnodup := s.nodupKeys
  cases hentries : s.entries with
  | nil =>
      have hnone : s.lookup k = none := by rw [AList.lookup, hentries, List.dlookup_nil]
      rw [hnone]
      rfl
  | cons e rest =>
      obtain ⟨a, b⟩ := e
      rw [hentries] at hkeys hnodup
      obtain rfl : a = k := hkeys ⟨a, b⟩ List.mem_cons_self
      have hsome : s.lookup a = some b := by rw [AList.lookup, hentries, List.dlookup_cons_eq]
      cases rest with
      | nil =>
          rw [hsome]
          rfl
      | cons e' rest =>
          -- a second entry would have the same key
          have hkey : e'.1 = a := hkeys e' (by simp)
          have hnot := (List.nodupKeys_cons.mp hnodup).1
          rw [List.keys_cons, hkey] at hnot
          exact absurd List.mem_cons_self hnot

/-! ### The bytes of a message -/

section Bytes

variable (serialize : P2PMessage → Except String (List UInt8))

/-- The bytes of a message that reach the stream. -/
def written (msg : P2PMessage) (delivery : Delivery) : List UInt8 :=
  match serialize msg, delivery.header, delivery.body with
  | .error _, _, _ => []
  | .ok data, .broken taken _, _ => (toBeBytes (UInt32.ofNat data.length)).take taken
  | .ok data, .complete, .broken taken _ =>
      toBeBytes (UInt32.ofNat data.length) ++ data.take taken
  | .ok data, .complete, .complete => toBeBytes (UInt32.ofNat data.length) ++ data

end Bytes

namespace TransportManager

variable {SocketAddr : Type} (format : AddressFormat SocketAddr)
  (serialize : P2PMessage → Except String (List UInt8)) {m : TransportManager SocketAddr}

/-! ### One call -/

theorem lookup_send (peerId other : PeerId) (msg : P2PMessage) (delivery : Delivery) :
    ((m.send serialize peerId msg delivery).1.connections.lookup other) =
      (m.connections.lookup other).map fun stream =>
        if other = peerId then stream.write (written serialize msg delivery) else stream := by
  have hset : ∀ {stream stream' : Stream SocketAddr} {bytes : List UInt8},
      m.connections.lookup peerId = some stream → stream' = stream.write bytes →
      (m.setStream peerId stream').connections.lookup other =
        (m.connections.lookup other).map fun stream =>
          if other = peerId then stream.write bytes else stream := by
    rintro stream _ bytes hlookup rfl
    by_cases hother : other = peerId
    · subst hother
      simp [setStream, hlookup]
    · simp [setStream, AList.lookup_insert_ne hother, hother]
  cases hlookup : m.connections.lookup peerId with
  | none =>
      simp only [send, hlookup]
      by_cases hother : other = peerId
      · rw [hother, hlookup]
        rfl
      · simp [hother]
  | some stream =>
      simp only [send, hlookup, written]
      cases hser : serialize msg with
      | error e => simp [Stream.write]
      | ok data =>
          cases hheader : delivery.header with
          | broken taken e => exact hset hlookup rfl
          | complete =>
              cases hbody : delivery.body with
              | broken taken e => exact hset hlookup (Stream.write_write ..)
              | complete => exact hset hlookup (Stream.write_write ..)

theorem config_send (peerId : PeerId) (msg : P2PMessage) (delivery : Delivery) :
    (m.send serialize peerId msg delivery).1.config = m.config ∧
      (m.send serialize peerId msg delivery).1.events = m.events := by
  simp only [send]
  split
  · split
    · exact ⟨rfl, rfl⟩
    · split
      · exact ⟨rfl, rfl⟩
      · exact ⟨rfl, rfl⟩
  · exact ⟨rfl, rfl⟩

theorem lookup_sendAll (msg : P2PMessage) (delivery : PeerId → Delivery) {ids : List PeerId}
    (hids : ids.Nodup) (other : PeerId) :
    (ids.foldl (fun m peerId => (m.send serialize peerId msg (delivery peerId)).1)
        m).connections.lookup other =
      (m.connections.lookup other).map fun stream =>
        if other ∈ ids then stream.write (written serialize msg (delivery other)) else stream := by
  induction ids generalizing m with
  | nil => simp
  | cons id ids ih =>
      obtain ⟨hid, hids⟩ := List.nodup_cons.mp hids
      rw [List.foldl_cons, ih hids, lookup_send, Option.map_map]
      congr 1
      funext stream
      by_cases hother : other = id
      · simp [hother, hid]
      · simp [hother]

theorem lookup_broadcast (msg : P2PMessage) (iter : Shuffle PeerId)
    (delivery : PeerId → Delivery) (other : PeerId) :
    (m.broadcast serialize msg iter delivery).connections.lookup other =
      (m.connections.lookup other).map fun stream =>
        stream.write (written serialize msg (delivery other)) := by
  have hperm := iter.perm m.connections.keys
  rw [broadcast, lookup_sendAll serialize msg delivery
    (hperm.nodup_iff.mpr m.connections.keys_nodup)]
  cases hlookup : m.connections.lookup other with
  | none => rfl
  | some stream =>
      have hkey : other ∈ iter.apply m.connections.keys := by
        rw [hperm.mem_iff]
        exact AList.lookup_isSome.mp (by rw [hlookup]; rfl)
      simp only [Option.map_some, if_pos hkey]

theorem config_broadcast (msg : P2PMessage) (iter : Shuffle PeerId)
    (delivery : PeerId → Delivery) :
    (m.broadcast serialize msg iter delivery).config = m.config ∧
      (m.broadcast serialize msg iter delivery).events = m.events := by
  rw [broadcast]
  generalize iter.apply m.connections.keys = ids
  induction ids generalizing m with
  | nil => exact ⟨rfl, rfl⟩
  | cons id ids ih =>
      obtain ⟨hconfig, hevents⟩ := config_send (m := m) serialize id msg (delivery id)
      rw [List.foldl_cons, ← hconfig, ← hevents]
      exact ih

theorem dial_eq (addr : SocketAddr) (attempt : Attempt) :
    (m.dial addr attempt).1 =
      if attempt.Succeeds m.config.dialTimeout then
        (m.insertConnection zeroBytes ⟨addr, []⟩).emit (.connectionEstablished zeroBytes addr)
      else m := by
  obtain ⟨elapsed, result⟩ := attempt
  by_cases hlate : m.config.dialTimeout < elapsed
  · have hfail : ¬ Attempt.Succeeds m.config.dialTimeout ⟨elapsed, result⟩ :=
      fun h => Nat.not_lt.mpr h.1 hlate
    simp only [dial, connect, if_pos hlate, if_neg hfail]
  · cases result with
    | error e =>
        have hfail : ¬ Attempt.Succeeds m.config.dialTimeout ⟨elapsed, .error e⟩ :=
          fun h => Bool.false_ne_true h.2
        simp only [dial, connect, if_neg hlate, if_neg hfail]
        rfl
    | ok _ =>
        have hsucceeds : Attempt.Succeeds m.config.dialTimeout ⟨elapsed, .ok ()⟩ :=
          ⟨Nat.not_lt.mp hlate, rfl⟩
        rw [if_pos hsucceeds]
        simp only [dial, connect, if_neg hlate]
        rfl

theorem connections_disconnect (peerId : PeerId) :
    (m.disconnect peerId).connections = m.connections.erase peerId := by
  cases hlookup : m.connections.lookup peerId with
  | some stream => simp only [disconnect, hlookup]
  | none =>
      have hnot : peerId ∉ m.connections := AList.lookup_eq_none.mp hlookup
      simp only [disconnect, hlookup]
      apply AList.ext
      exact (List.kerase_of_notMem_keys hnot).symm

/-! ### The single line -/

/-- No peer but the one of the handshake is connected. -/
def Single (m : TransportManager SocketAddr) : Prop := ∀ id, id ≠ zeroBytes →
  m.connections.lookup id = none

def line (m : TransportManager SocketAddr) : Option (Stream SocketAddr) :=
  m.connections.lookup zeroBytes

namespace Operation

def bytes : Operation SocketAddr → List UInt8
  | .send peerId msg delivery => if peerId = zeroBytes then written serialize msg delivery else []
  | .broadcast msg _ delivery => written serialize msg (delivery zeroBytes)
  | _ => []

/-- The operation ends the line: it is a dial that succeeds, or it closes the line. -/
def Cuts (timeout : Duration) : Operation SocketAddr → Prop
  | .dial _ attempt => attempt.Succeeds timeout
  | .disconnect peerId => peerId = zeroBytes
  | _ => False

instance (timeout : Duration) (op : Operation SocketAddr) : Decidable (op.Cuts timeout) :=
  match op with
  | .accept _ => inferInstanceAs (Decidable False)
  | .dial _ _ => inferInstanceAs (Decidable (Attempt.Succeeds _ _))
  | .send _ _ _ => inferInstanceAs (Decidable False)
  | .broadcast _ _ _ => inferInstanceAs (Decidable False)
  | .disconnect _ => inferInstanceAs (Decidable (_ = _))

def opened : Operation SocketAddr → Option (Stream SocketAddr)
  | .dial addr _ => some ⟨addr, []⟩
  | _ => none

def announced (timeout : Duration) : Operation SocketAddr → Option (TransportEvent SocketAddr)
  | .accept addr => some (.connectionEstablished zeroBytes addr)
  | .dial addr attempt =>
      if attempt.Succeeds timeout then some (.connectionEstablished zeroBytes addr) else none
  | _ => none

end Operation

theorem config_perform (op : Operation SocketAddr) :
    (m.perform format serialize op).config = m.config := by
  cases op with
  | accept addr => rfl
  | dial addr attempt =>
      rw [perform, dial_eq]
      split
      · rfl
      · rfl
  | send peerId msg delivery => exact (config_send serialize peerId msg delivery).1
  | broadcast msg iter delivery => exact (config_broadcast serialize msg iter delivery).1
  | disconnect peerId =>
      simp only [perform, disconnect]
      split
      · rfl
      · rfl

/-- What an operation does to the line: it cuts the line, or it writes to it. -/
theorem line_perform (op : Operation SocketAddr) :
    (m.perform format serialize op).line =
      if op.Cuts m.config.dialTimeout then op.opened
      else m.line.map fun stream => stream.write (op.bytes serialize) := by
  have hsame : m.line.map (fun stream => stream.write []) = m.line := by
    simp [Stream.write]
  cases op with
  | accept addr => exact hsame.symm
  | dial addr attempt =>
      rw [perform, dial_eq]
      by_cases hsucceeds : attempt.Succeeds m.config.dialTimeout
      · have hcuts : (Operation.dial addr attempt).Cuts m.config.dialTimeout := hsucceeds
        rw [if_pos hsucceeds, if_pos hcuts]
        exact AList.lookup_insert _
      · have hcuts : ¬ (Operation.dial addr attempt).Cuts m.config.dialTimeout := hsucceeds
        rw [if_neg hsucceeds, if_neg hcuts]
        exact hsame.symm
  | send peerId msg delivery =>
      have hsend := lookup_send (m := m) serialize peerId zeroBytes msg delivery
      by_cases hid : peerId = zeroBytes
      · rw [hid] at hsend ⊢
        simp only [if_true] at hsend
        exact hsend
      · have hbytes : (Operation.send peerId msg delivery : Operation SocketAddr).bytes
            serialize = [] := if_neg hid
        rw [hbytes]
        simp only [if_neg (Ne.symm hid), Option.map_id'] at hsend
        exact hsend.trans hsame.symm
  | broadcast msg iter delivery => exact lookup_broadcast serialize msg iter delivery zeroBytes
  | disconnect peerId =>
      rw [perform, line, connections_disconnect]
      by_cases hid : peerId = zeroBytes
      · have hcuts : (Operation.disconnect peerId : Operation SocketAddr).Cuts
            m.config.dialTimeout := hid
        rw [if_pos hcuts, hid]
        exact AList.lookup_erase _ _
      · have hcuts : ¬ (Operation.disconnect peerId : Operation SocketAddr).Cuts
            m.config.dialTimeout := hid
        rw [if_neg hcuts, AList.lookup_erase_ne (Ne.symm hid)]
        exact hsame.symm

theorem single_perform (h : m.Single) (op : Operation SocketAddr) :
    (m.perform format serialize op).Single := by
  intro id hid
  cases op with
  | accept addr => exact h id hid
  | dial addr attempt =>
      rw [perform, dial_eq]
      split
      · exact (AList.lookup_insert_ne hid).trans (h id hid)
      · exact h id hid
  | send peerId msg delivery => rw [perform, lookup_send, h id hid, Option.map_none]
  | broadcast msg iter delivery => rw [perform, lookup_broadcast, h id hid, Option.map_none]
  | disconnect peerId =>
      rw [perform, connections_disconnect]
      by_cases hgone : id = peerId
      · rw [hgone]
        exact AList.lookup_erase _ _
      · rw [AList.lookup_erase_ne hgone]
        exact h id hid

theorem events_perform (op : Operation SocketAddr) :
    (m.perform format serialize op).events =
      (op.announced m.config.dialTimeout).toList ++ m.events := by
  cases op with
  | accept addr => rfl
  | dial addr attempt =>
      rw [perform, dial_eq, Operation.announced]
      split
      · rfl
      · rfl
  | send peerId msg delivery => exact (config_send serialize peerId msg delivery).2
  | broadcast msg iter delivery => exact (config_broadcast serialize msg iter delivery).2
  | disconnect peerId =>
      simp only [perform, disconnect]
      split
      · rfl
      · rfl

/-! ### Whole runs -/

section Runs

variable (config : TransportConfig) (ops : List (Operation SocketAddr))

theorem config_run :
    (Runs.run (perform format serialize) (new config) ops).config = config := by
  apply Runs.invariant (P := fun m : TransportManager SocketAddr => m.config = config) rfl
  intro x _ h
  rw [config_perform, h]

theorem single_run : (Runs.run (perform format serialize) (new config) ops).Single := by
  apply Runs.invariant (P := fun m : TransportManager SocketAddr => m.Single)
  · intro id _
    exact AList.lookup_empty id
  · intro x _ h
    exact single_perform format serialize h x.2

/-- Behind a successful dial and operations that do not cut, the line leads to the address
that was dialed and carries what the operations have written. -/
theorem line_run_of_not_cuts {pre since : List (Operation SocketAddr)} {addr : SocketAddr}
    {attempt : Attempt} (hdial : attempt.Succeeds config.dialTimeout)
    (hsince : ∀ op ∈ since, ¬ op.Cuts config.dialTimeout) :
    (Runs.run (perform format serialize) (new config) (pre ++ .dial addr attempt :: since)).line =
      some ⟨addr, since.flatMap (Operation.bytes serialize)⟩ := by
  induction since using List.reverseRecOn with
  | nil =>
      rw [Runs.run_append, Runs.run_cons, Runs.run_nil, line_perform, config_run]
      exact if_pos hdial
  | append_singleton since op ih =>
      have hbefore := ih fun o ho => hsince o (List.mem_append_left _ ho)
      have hop := hsince op (by simp)
      rw [← List.cons_append, ← List.append_assoc, Runs.run_append, Runs.run_cons, Runs.run_nil,
        line_perform, config_run, if_neg hop, hbefore]
      simp [Stream.write]

theorem line_run_eq_none
    (h : ∀ pre addr attempt since, ops = pre ++ .dial addr attempt :: since →
      attempt.Succeeds config.dialTimeout → ∃ op ∈ since, op.Cuts config.dialTimeout) :
    (Runs.run (perform format serialize) (new config) ops).line = none := by
  induction ops using List.reverseRecOn with
  | nil => rfl
  | append_singleton ops op ih =>
      rw [Runs.run_append, Runs.run_cons, Runs.run_nil, line_perform, config_run]
      by_cases hcuts : op.Cuts config.dialTimeout
      · rw [if_pos hcuts]
        cases op with
        | dial addr attempt =>
            obtain ⟨_, hmem, _⟩ := h ops addr attempt [] rfl hcuts
            cases hmem
        | _ => rfl
      · rw [if_neg hcuts, ih, Option.map_none]
        rintro pre addr attempt since rfl hdial
        obtain ⟨o, ho, hocuts⟩ := h pre addr attempt (since ++ [op]) (by simp) hdial
        rcases List.mem_append.mp ho with hmem | hmem
        · exact ⟨o, hmem, hocuts⟩
        · rw [List.mem_singleton.mp hmem] at hocuts
          exact absurd hocuts hcuts

/-- After every run the table has one entry, under the identifier of the handshake, for the
address of the last successful dial, with the bytes of the operations since then; or it is
empty, and every successful dial was followed by an operation that ended its line. -/
theorem connections_run :
    (∃ pre addr attempt since, ops = pre ++ .dial addr attempt :: since ∧
        attempt.Succeeds config.dialTimeout ∧ (∀ op ∈ since, ¬ op.Cuts config.dialTimeout) ∧
        (Runs.run (perform format serialize) (new config) ops).connections.entries =
          [⟨zeroBytes, addr, since.flatMap (Operation.bytes serialize)⟩]) ∨
      (Runs.run (perform format serialize) (new config) ops).connections.entries = [] ∧
        ∀ pre addr attempt since, ops = pre ++ .dial addr attempt :: since →
          attempt.Succeeds config.dialTimeout → ∃ op ∈ since, op.Cuts config.dialTimeout := by
  have hentries := entries_eq_of_lookup_eq_none (single_run format serialize config ops)
  change _ = (line _).toList.map _ at hentries
  by_cases hcut : ∀ pre addr attempt since, ops = pre ++ .dial addr attempt :: since →
      attempt.Succeeds config.dialTimeout → ∃ op ∈ since, op.Cuts config.dialTimeout
  · right
    rw [hentries, line_run_eq_none format serialize config ops hcut]
    exact ⟨rfl, hcut⟩
  · left
    push Not at hcut
    obtain ⟨pre, addr, attempt, since, rfl, hdial, hsince⟩ := hcut
    refine ⟨pre, addr, attempt, since, rfl, hdial, hsince, ?_⟩
    rw [hentries, line_run_of_not_cuts format serialize config hdial hsince]
    rfl

end Runs

/-! ### What the events tell -/

/-- The addresses of the connections, for a subscriber that has received all events; the
newest one comes first. -/
def followed : List (TransportEvent SocketAddr) → PeerId → Option SocketAddr
  | [] => fun _ => none
  | .connectionEstablished peerId addr :: events =>
      Function.update (followed events) peerId (some addr)
  | .connectionClosed peerId _ _ :: events => Function.update (followed events) peerId none
  | _ :: events => followed events

def addressOf (m : TransportManager SocketAddr) (id : PeerId) : Option SocketAddr :=
  (m.connections.lookup id).map Stream.addr

/-- The subscriber knows which connections are open and where they lead. -/
def Followed (m : TransportManager SocketAddr) : Prop := followed m.events = m.addressOf

/-- What an operation must not do behind the back of a subscriber: announce a connection that
does not enter the table, or close one. -/
def Told (m : TransportManager SocketAddr) : Operation SocketAddr → Prop
  | .accept addr => m.addressOf zeroBytes = some addr
  | .disconnect peerId => m.addressOf peerId = none
  | _ => True

/-- What an operation does to the addresses. -/
def Operation.move (timeout : Duration) (known : PeerId → Option SocketAddr) :
    Operation SocketAddr → PeerId → Option SocketAddr
  | .dial addr attempt =>
      if attempt.Succeeds timeout then Function.update known zeroBytes (some addr) else known
  | .disconnect peerId => Function.update known peerId none
  | _ => known

theorem addressOf_perform (op : Operation SocketAddr) :
    (m.perform format serialize op).addressOf = op.move m.config.dialTimeout m.addressOf := by
  funext id
  cases op with
  | accept addr => rfl
  | dial addr attempt =>
      rw [perform, dial_eq, Operation.move]
      split
      · by_cases hid : id = zeroBytes
        · subst hid
          have hlookup : (m.connections.insert zeroBytes ⟨addr, []⟩).lookup zeroBytes =
              some ⟨addr, []⟩ := AList.lookup_insert _
          rw [Function.update_self]
          exact congrArg (Option.map Stream.addr) hlookup
        · have hlookup : (m.connections.insert zeroBytes ⟨addr, []⟩).lookup id =
              m.connections.lookup id := AList.lookup_insert_ne hid
          rw [Function.update_of_ne hid]
          exact congrArg (Option.map Stream.addr) hlookup
      · rfl
  | send peerId msg delivery =>
      rw [perform, addressOf, lookup_send, Option.map_map]
      apply Option.map_congr
      intro stream _
      rw [Function.comp_apply]
      split
      · rfl
      · rfl
  | broadcast msg iter delivery =>
      rw [perform, addressOf, lookup_broadcast, Option.map_map]
      rfl
  | disconnect peerId =>
      rw [perform, addressOf, connections_disconnect, Operation.move]
      by_cases hid : id = peerId
      · subst hid
        rw [Function.update_self, AList.lookup_erase, Option.map_none]
      · rw [Function.update_of_ne hid, AList.lookup_erase_ne hid]
        rfl

theorem followed_perform_iff (h : m.Followed) (op : Operation SocketAddr) :
    (m.perform format serialize op).Followed ↔ m.Told op := by
  rw [Followed, events_perform, addressOf_perform]
  cases op with
  | accept addr =>
      change Function.update (followed m.events) zeroBytes (some addr) = m.addressOf ↔ _
      rw [h, Function.update_eq_self_iff, eq_comm]
      rfl
  | dial addr attempt =>
      refine iff_of_true ?_ trivial
      simp only [Operation.announced, Operation.move]
      split
      · change Function.update (followed m.events) zeroBytes (some addr) = _
        rw [h]
      · exact h
  | send peerId msg delivery => exact iff_of_true h trivial
  | broadcast msg iter delivery => exact iff_of_true h trivial
  | disconnect peerId =>
      change followed m.events = Function.update m.addressOf peerId none ↔ _
      rw [h, eq_comm, Function.update_eq_self_iff, eq_comm]
      rfl

/-- A subscriber of the events knows throughout a run which connections are open and where
they lead, exactly when connections are accepted only from the address that the node is
connected to, and no open connection is closed. -/
theorem followed_always_iff (config : TransportConfig) (ops : List (Operation SocketAddr)) :
    Runs.Always (perform format serialize) Followed (new config) ops ↔
      ∀ x ∈ Runs.trace (perform format serialize) (new config) ops, x.1.Told x.2 := by
  apply Runs.always_iff
  · funext id
    rw [addressOf, new, AList.lookup_empty]
    rfl
  · intro x _ h
    exact followed_perform_iff format serialize h x.2

end TransportManager

end Transport

end Crates

end CryptoCoin
