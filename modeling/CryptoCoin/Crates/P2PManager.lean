import CryptoCoin.Crates.Dialing
import CryptoCoin.Crates.Transport

/-!
# The manager of the peer-to-peer layer

`P2PManager` holds the transport and the discovery, each behind a lock of its own. A call
of `start` enters the seeds and chooses the peers to connect under the first lock, and
dials them under the second; the other calls take the second lock only. `Threads` runs any
number of such calls, with their locked sections in any order.

The discovery never hears of what the transport does: no call marks a peer as connected.
And all seeds are entered under the identifier of zeros. So in every state the node has at
most one connection, believes that it has none, wants more of them, and knows at most one
of its seeds, the last one (`manager_run`).
-/

namespace CryptoCoin

namespace Crates

namespace P2P

open Discovery (PeerId Instant Duration Shuffle AddressFormat TrackedPeer DiscoveryConfig
  DiscoveryManager zeroBytes)
open Transport (TransportConfig TransportManager TransportEvent P2PMessage Attempt Delivery)
open Wire (Bytes)

structure P2PConfig (SocketAddr : Type) where
  bootstrapPeers : List SocketAddr
  maxPeers : ℕ
  dialTimeout : Duration

structure PeerInfo (SocketAddr : Type) where
  id : PeerId
  addr : SocketAddr
  publicKey : Bytes 32
  agentVersion : String
  latestHeight : UInt64
  isValidator : Bool
  connectedSince : Instant
  score : Float

structure P2PManager (SocketAddr : Type) where
  config : P2PConfig SocketAddr
  transport : TransportManager SocketAddr
  discovery : DiscoveryManager SocketAddr
  peers : AList fun _ : PeerId => PeerInfo SocketAddr

variable {SocketAddr : Type}

def P2PConfig.toTransportConfig (config : P2PConfig SocketAddr) : TransportConfig :=
  ⟨config.dialTimeout⟩

/-- The timeout of an hour and the eight outgoing peers are the defaults of the discovery. -/
def P2PConfig.toDiscoveryConfig (config : P2PConfig SocketAddr) : DiscoveryConfig SocketAddr :=
  { bootstrapPeers := config.bootstrapPeers
    maxPeers := config.maxPeers
    peerTimeout := 3600
    targetOutgoing := 8 }

namespace P2PManager

variable (format : AddressFormat SocketAddr)
  (serialize : P2PMessage → Except String (List UInt8))

def new (config : P2PConfig SocketAddr) : P2PManager SocketAddr :=
  { config := config
    transport := .new config.toTransportConfig
    discovery := .new config.toDiscoveryConfig
    peers := ∅ }

/-- The first section of `start`: the seeds are entered and the addresses to dial are
chosen. -/
def chooseSeeds (now : ℕ → Instant) (iter shuffle : Shuffle (PeerId × TrackedPeer))
    (p : P2PManager SocketAddr) : P2PManager SocketAddr × List SocketAddr :=
  let discovery := p.discovery.bootstrap format now
  let peersToConnect := discovery.peersToConnect format iter shuffle p.config.maxPeers
  ({ p with discovery := discovery }, peersToConnect.map Prod.fst)

/-- The second section of `start`: the addresses are dialed, and errors are logged. The
attempt number `i` is the one for the address number `i`. -/
def dialSeeds (attempts : ℕ → Attempt) (p : P2PManager SocketAddr) (addrs : List SocketAddr) :
    P2PManager SocketAddr :=
  { p with
    transport := addrs.zipIdx.foldl
      (fun transport e => (transport.dial e.1 (attempts e.2)).1) p.transport }

def dialPeer (p : P2PManager SocketAddr) (addr : SocketAddr) (attempt : Attempt) :
    P2PManager SocketAddr :=
  { p with transport := (p.transport.dial addr attempt).1 }

def broadcast (p : P2PManager SocketAddr) (msg : P2PMessage) (iter : Shuffle PeerId)
    (delivery : PeerId → Delivery) : P2PManager SocketAddr :=
  { p with transport := p.transport.broadcast serialize msg iter delivery }

def sendTo (p : P2PManager SocketAddr) (msg : P2PMessage) (peerId : PeerId)
    (delivery : Delivery) : P2PManager SocketAddr :=
  { p with transport := (p.transport.send serialize peerId msg delivery).1 }

def peerCount (p : P2PManager SocketAddr) : ℕ := p.transport.activeConnections

def peerList (p : P2PManager SocketAddr) : List (PeerInfo SocketAddr) :=
  p.peers.entries.map fun e => e.2

end P2PManager

/-! ### Threads -/

/-- The manager and, for every thread inside `start`, the addresses it has chosen. -/
structure Threads (τ SocketAddr : Type) where
  manager : P2PManager SocketAddr
  chosen : τ → Option (List SocketAddr)

/-- A section under a lock, with what the clock, the hash map and the network do. -/
inductive Section (τ SocketAddr : Type) where
  | chooseSeeds (t : τ) (now : ℕ → Instant) (iter shuffle : Shuffle (PeerId × TrackedPeer))
  | dialSeeds (t : τ) (attempts : ℕ → Attempt)
  | dialPeer (addr : SocketAddr) (attempt : Attempt)
  | broadcast (msg : P2PMessage) (iter : Shuffle PeerId) (delivery : PeerId → Delivery)
  | sendTo (msg : P2PMessage) (peerId : PeerId) (delivery : Delivery)

namespace Threads

variable {τ : Type} [DecidableEq τ] (format : AddressFormat SocketAddr)
  (serialize : P2PMessage → Except String (List UInt8))

def new (config : P2PConfig SocketAddr) : Threads τ SocketAddr := ⟨.new config, fun _ => none⟩

/-- A thread inside `start` does not call it, and only such a thread dials seeds. -/
def step (s : Threads τ SocketAddr) : Section τ SocketAddr → Threads τ SocketAddr
  | .chooseSeeds t now iter shuffle =>
      match s.chosen t with
      | some _ => s
      | none =>
          let (manager, addrs) := s.manager.chooseSeeds format now iter shuffle
          ⟨manager, Function.update s.chosen t (some addrs)⟩
  | .dialSeeds t attempts =>
      match s.chosen t with
      | some addrs => ⟨s.manager.dialSeeds attempts addrs, Function.update s.chosen t none⟩
      | none => s
  | .dialPeer addr attempt => { s with manager := s.manager.dialPeer addr attempt }
  | .broadcast msg iter delivery =>
      { s with manager := s.manager.broadcast serialize msg iter delivery }
  | .sendTo msg peerId delivery =>
      { s with manager := s.manager.sendTo serialize msg peerId delivery }

end Threads

/-! ### What the discovery knows -/

section Seeds

variable (format : AddressFormat SocketAddr) (config : P2PConfig SocketAddr)

/-- The address is read off the last of the configured seeds. -/
def IsSeed (addr : SocketAddr) : Prop :=
  ∃ seed, config.bootstrapPeers.getLast? = some seed ∧
    format.parse (format.toString seed) = some addr

/-- No peer is known but the last seed, and it is not connected. -/
structure Seeded (m : DiscoveryManager SocketAddr) : Prop where
  configured : m.config = config.toDiscoveryConfig
  banned : m.banned = ∅
  unknown : ∀ id, id ≠ zeroBytes → m.peers.lookup id = none
  seed : ∀ peer, m.peers.lookup zeroBytes = some peer →
    ∃ now seed, config.bootstrapPeers.getLast? = some seed ∧
      peer = .discovered now (DiscoveryManager.seedRecord format seed)

variable {format config} {m : DiscoveryManager SocketAddr}

theorem Seeded.new : Seeded format config (.new config.toDiscoveryConfig) := by
  refine ⟨rfl, rfl, fun id _ => AList.lookup_empty id, ?_⟩
  intro peer hlookup
  rw [DiscoveryManager.new, AList.lookup_empty] at hlookup
  cases hlookup

def seedRecords (format : AddressFormat SocketAddr) (seeds : List SocketAddr)
    (now : ℕ → Instant) : List (Instant × Discovery.PeerRecord) :=
  seeds.zipIdx.map fun e => (now e.2, DiscoveryManager.seedRecord format e.1)

theorem peerId_of_mem_seedRecords {seeds : List SocketAddr} {now : ℕ → Instant}
    {entry : Instant × Discovery.PeerRecord} (h : entry ∈ seedRecords format seeds now) :
    entry.2.peerId = zeroBytes := by
  obtain ⟨_, _, rfl⟩ := List.mem_map.mp h
  rfl

theorem getLast?_seedRecords {seeds : List SocketAddr} {now : ℕ → Instant}
    {entry : Instant × Discovery.PeerRecord}
    (h : (seedRecords format seeds now).getLast? = some entry) :
    ∃ seed, seeds.getLast? = some seed ∧ entry.2 = DiscoveryManager.seedRecord format seed := by
  rcases List.eq_nil_or_concat seeds with rfl | ⟨init, seed, rfl⟩
  · cases h
  · rw [List.concat_eq_append] at h ⊢
    rw [seedRecords, List.zipIdx_append, List.map_append, List.zipIdx_singleton,
      List.map_singleton, List.getLast?_concat, Option.some_inj] at h
    exact ⟨seed, List.getLast?_concat, by rw [← h]⟩

theorem Seeded.bootstrap (h : Seeded format config m) (now : ℕ → Instant) :
    Seeded format config (m.bootstrap format now) := by
  have hrecords : m.bootstrap format now =
      m.addPeers format (seedRecords format config.bootstrapPeers now) := by
    rw [DiscoveryManager.bootstrap, h.configured]
    rfl
  have hbanned : ∀ id, id ∉ m.banned := by
    intro id
    rw [h.banned]
    exact Finset.notMem_empty id
  rw [hrecords]
  refine ⟨?_, ?_, ?_, ?_⟩
  · rw [DiscoveryManager.config_addPeers, h.configured]
  · rw [DiscoveryManager.banned_addPeers, h.banned]
  · intro id hid
    rw [DiscoveryManager.lookup_addPeers format _ (hbanned id), h.unknown id hid]
    cases hlast : Latest.latest (fun entry : Instant × Discovery.PeerRecord =>
        entry.2.peerId = id) (seedRecords format config.bootstrapPeers now) with
    | none => rfl
    | some entry =>
        have hzero := peerId_of_mem_seedRecords (Latest.mem_of_latest hlast)
        have hentry := Latest.prop_of_latest hlast
        exact absurd (hentry.symm.trans hzero) hid
  · intro peer hlookup
    rw [DiscoveryManager.lookup_addPeers format _ (hbanned zeroBytes),
      Latest.latest_of_forall fun entry hentry => peerId_of_mem_seedRecords hentry] at hlookup
    cases hlast : (seedRecords format config.bootstrapPeers now).getLast? with
    | none =>
        rw [hlast] at hlookup
        exact h.seed peer hlookup
    | some entry =>
        rw [hlast] at hlookup
        obtain ⟨seed, hseed, hrecord⟩ := getLast?_seedRecords hlast
        refine ⟨entry.1, seed, hseed, ?_⟩
        rw [← hrecord]
        exact (Option.some.inj hlookup).symm

theorem Seeded.of_mem_entries (h : Seeded format config m) {e : PeerId × TrackedPeer}
    (he : e ∈ m.entries) :
    ∃ now seed, config.bootstrapPeers.getLast? = some seed ∧
      e.2 = .discovered now (DiscoveryManager.seedRecord format seed) := by
  have hlookup := DiscoveryManager.lookup_of_mem_entries he
  by_cases hid : e.1 = zeroBytes
  · rw [hid] at hlookup
    exact h.seed e.2 hlookup
  · rw [h.unknown e.1 hid] at hlookup
    cases hlookup

theorem Seeded.isSeed_of_mem (h : Seeded format config m)
    {iter shuffle : Shuffle (PeerId × TrackedPeer)} {count : ℕ} {addr : SocketAddr}
    (haddr : addr ∈ (m.peersToConnect format iter shuffle count).map Prod.fst) :
    IsSeed format config addr := by
  obtain ⟨x, hx, rfl⟩ := List.mem_map.mp haddr
  obtain ⟨e, he, hparse⟩ := List.mem_filterMap.mp hx
  obtain ⟨parsed, hparsed, rfl⟩ := Option.map_eq_some_iff.mp hparse
  have hcandidate := (shuffle.perm _).mem_iff.mp (List.mem_of_mem_take he)
  have hentry := (iter.perm _).mem_iff.mp (List.mem_of_mem_filter hcandidate)
  obtain ⟨now, seed, hseed, hpeer⟩ := h.of_mem_entries hentry
  rw [hpeer] at hparsed
  exact ⟨seed, hseed, hparsed⟩

theorem Seeded.connectedCount_eq_zero (h : Seeded format config m)
    (iter : Shuffle (PeerId × TrackedPeer)) : m.connectedCount iter = 0 := by
  have hnone : (iter.apply m.entries).filter (fun e => e.2.status = .connected) = [] := by
    rw [List.filter_eq_nil_iff]
    intro e he
    obtain ⟨now, seed, _, hpeer⟩ := h.of_mem_entries ((iter.perm _).mem_iff.mp he)
    rw [hpeer]
    simp [TrackedPeer.discovered]
  rw [DiscoveryManager.connectedCount, DiscoveryManager.connectedPeers, hnone]
  rfl

theorem Seeded.needsMorePeers (h : Seeded format config m)
    (iter : Shuffle (PeerId × TrackedPeer)) : m.needsMorePeers iter = true := by
  have hzero := h.connectedCount_eq_zero iter
  rw [DiscoveryManager.connectedCount] at hzero
  simp only [DiscoveryManager.needsMorePeers, hzero, h.configured, P2PConfig.toDiscoveryConfig]
  rfl

theorem Seeded.knownPeersCount_le (h : Seeded format config m) : m.knownPeersCount ≤ 1 := by
  rw [DiscoveryManager.knownPeersCount, Transport.entries_eq_of_lookup_eq_none h.unknown,
    List.length_map]
  cases m.peers.lookup zeroBytes with
  | none => exact Nat.zero_le 1
  | some peer => exact le_rfl

end Seeds

/-! ### Whole runs -/

namespace Threads

variable {τ : Type} [DecidableEq τ] (format : AddressFormat SocketAddr)
  (serialize : P2PMessage → Except String (List UInt8)) (config : P2PConfig SocketAddr)

/-- The event announces a connection to the last seed or to an address in `dialed`. -/
def Announces (dialed : SocketAddr → Prop) (event : TransportEvent SocketAddr) : Prop :=
  ∃ addr, event = .connectionEstablished zeroBytes addr ∧ (IsSeed format config addr ∨ dialed addr)

/-- What holds in every state: the discovery knows at most the last seed, the transport has
at most one connection, and only the last seed is dialed without being asked for. -/
structure Lonely (dialed : SocketAddr → Prop) (s : Threads τ SocketAddr) : Prop where
  peers : s.manager.peers = ∅
  seeded : Seeded format config s.manager.discovery
  single : s.manager.transport.Single
  chosen : ∀ t addrs, s.chosen t = some addrs → ∀ addr ∈ addrs, IsSeed format config addr
  events : ∀ event ∈ s.manager.transport.events, Announces format config dialed event

variable {format config} {dialed : SocketAddr → Prop}

theorem transport_perform {m : TransportManager SocketAddr} (hsingle : m.Single)
    (hevents : ∀ event ∈ m.events, Announces format config dialed event)
    (op : TransportManager.Operation SocketAddr)
    (hop : ∀ event, op.announced m.config.dialTimeout = some event →
      Announces format config dialed event) :
    (m.perform format serialize op).Single ∧
      ∀ event ∈ (m.perform format serialize op).events, Announces format config dialed event := by
  refine ⟨TransportManager.single_perform format serialize hsingle op, ?_⟩
  intro event hevent
  rw [TransportManager.events_perform, List.mem_append, Option.mem_toList] at hevent
  rcases hevent with hnew | hold
  · exact hop event hnew
  · exact hevents event hold

theorem transport_dial {m : TransportManager SocketAddr} (hsingle : m.Single)
    (hevents : ∀ event ∈ m.events, Announces format config dialed event) {addr : SocketAddr}
    (haddr : IsSeed format config addr ∨ dialed addr) (attempt : Attempt) :
    (m.dial addr attempt).1.Single ∧
      ∀ event ∈ (m.dial addr attempt).1.events, Announces format config dialed event := by
  apply transport_perform (fun _ => .ok []) hsingle hevents (.dial addr attempt)
  intro event hevent
  simp only [TransportManager.Operation.announced] at hevent
  split at hevent
  · cases hevent
    exact ⟨addr, rfl, haddr⟩
  · cases hevent

theorem transport_dialSeeds {m : TransportManager SocketAddr} (hsingle : m.Single)
    (hevents : ∀ event ∈ m.events, Announces format config dialed event)
    {addrs : List (SocketAddr × ℕ)} (haddrs : ∀ e ∈ addrs, IsSeed format config e.1)
    (attempts : ℕ → Attempt) :
    (addrs.foldl (fun transport e => (transport.dial e.1 (attempts e.2)).1) m).Single ∧
      ∀ event ∈ (addrs.foldl (fun transport e =>
          (transport.dial e.1 (attempts e.2)).1) m).events,
        Announces format config dialed event := by
  induction addrs generalizing m with
  | nil => exact ⟨hsingle, hevents⟩
  | cons e addrs ih =>
      obtain ⟨he, haddrs⟩ := List.forall_mem_cons.mp haddrs
      obtain ⟨hsingle', hevents'⟩ := transport_dial hsingle hevents (Or.inl he) (attempts e.2)
      exact ih hsingle' hevents' haddrs

theorem forall_update {chosen : τ → Option (List SocketAddr)} {P : List SocketAddr → Prop}
    (h : ∀ t addrs, chosen t = some addrs → P addrs) {t : τ} {choice : Option (List SocketAddr)}
    (hchoice : ∀ addrs, choice = some addrs → P addrs) :
    ∀ t' addrs, Function.update chosen t choice t' = some addrs → P addrs := by
  intro t' addrs haddrs
  by_cases ht : t' = t
  · rw [ht, Function.update_self] at haddrs
    exact hchoice addrs haddrs
  · rw [Function.update_of_ne ht] at haddrs
    exact h t' addrs haddrs

omit [DecidableEq τ] in
theorem Lonely.new : Lonely format config dialed (new config : Threads τ SocketAddr) := by
  refine ⟨rfl, Seeded.new, fun id _ => AList.lookup_empty id, ?_, ?_⟩
  · intro t addrs h
    cases h
  · intro event h
    cases h

/-- Every section keeps the invariant; a call of `dial_peer` is asked for its address. -/
theorem Lonely.step {s : Threads τ SocketAddr} (h : Lonely format config dialed s)
    (sec : Section τ SocketAddr)
    (hdialed : ∀ addr attempt, sec = .dialPeer addr attempt → dialed addr) :
    Lonely format config dialed (s.step format serialize sec) := by
  cases sec with
  | chooseSeeds t now iter shuffle =>
      cases hchosen : s.chosen t with
      | some addrs =>
          simp only [Threads.step, hchosen]
          exact h
      | none =>
          simp only [Threads.step, hchosen, P2PManager.chooseSeeds]
          have hseeded := h.seeded.bootstrap now
          refine ⟨h.peers, hseeded, h.single, forall_update h.chosen ?_, h.events⟩
          rintro addrs haddrs addr haddr
          cases haddrs
          exact hseeded.isSeed_of_mem haddr
  | dialSeeds t attempts =>
      cases hchosen : s.chosen t with
      | none =>
          simp only [Threads.step, hchosen]
          exact h
      | some addrs =>
          simp only [Threads.step, hchosen, P2PManager.dialSeeds]
          have haddrs : ∀ e ∈ addrs.zipIdx, IsSeed format config e.1 := fun e he =>
            h.chosen t addrs hchosen e.1 (List.fst_mem_of_mem_zipIdx he)
          obtain ⟨hsingle, hevents⟩ := transport_dialSeeds h.single h.events haddrs attempts
          refine ⟨h.peers, h.seeded, hsingle, forall_update h.chosen ?_, hevents⟩
          intro addrs' haddrs'
          cases haddrs'
  | dialPeer addr attempt =>
      obtain ⟨hsingle, hevents⟩ := transport_dial h.single h.events
        (Or.inr (hdialed addr attempt rfl)) attempt
      exact ⟨h.peers, h.seeded, hsingle, h.chosen, hevents⟩
  | broadcast msg iter delivery =>
      obtain ⟨hsingle, hevents⟩ := transport_perform serialize h.single h.events
        (.broadcast msg iter delivery) fun event hevent => by cases hevent
      exact ⟨h.peers, h.seeded, hsingle, h.chosen, hevents⟩
  | sendTo msg peerId delivery =>
      obtain ⟨hsingle, hevents⟩ := transport_perform serialize h.single h.events
        (.send peerId msg delivery) fun event hevent => by cases hevent
      exact ⟨h.peers, h.seeded, hsingle, h.chosen, hevents⟩

omit [DecidableEq τ] in
theorem Lonely.peerCount_le {s : Threads τ SocketAddr} (h : Lonely format config dialed s) :
    s.manager.peerCount ≤ 1 := by
  rw [P2PManager.peerCount, TransportManager.activeConnections,
    Transport.entries_eq_of_lookup_eq_none h.single, List.length_map]
  cases s.manager.transport.connections.lookup zeroBytes with
  | none => exact Nat.zero_le 1
  | some stream => exact le_rfl

/-- However the calls interleave, the node always has at most one connection, lists no peer,
counts none as connected and wants more, knows at most one peer, and has connected to no
address but the last seed and those passed to `dial_peer`. -/
theorem manager_run (format : AddressFormat SocketAddr)
    (serialize : P2PMessage → Except String (List UInt8)) (config : P2PConfig SocketAddr)
    (sections : List (Section τ SocketAddr)) :
    Runs.Always (Threads.step format serialize)
      (fun s => s.manager.peerCount ≤ 1 ∧ s.manager.peerList = [] ∧
        (∀ iter, s.manager.discovery.connectedCount iter = 0 ∧
          s.manager.discovery.needsMorePeers iter = true) ∧
        s.manager.discovery.knownPeersCount ≤ 1 ∧
        ∀ event ∈ s.manager.transport.events, ∃ addr,
          event = .connectionEstablished zeroBytes addr ∧
          (IsSeed format config addr ∨ ∃ attempt, .dialPeer addr attempt ∈ sections))
      (Threads.new config) sections := by
  intro pre post hpre
  have hlonely : Lonely format config
      (fun addr => ∃ attempt, .dialPeer addr attempt ∈ sections)
      (Runs.run (Threads.step format serialize) (Threads.new config) pre) := by
    apply Runs.invariant (P := Lonely format config
      fun addr => ∃ attempt, .dialPeer addr attempt ∈ sections) Lonely.new
    rintro ⟨s, sec⟩ hmem hs
    obtain ⟨before, after, hsections, _⟩ := Runs.mem_trace_iff.mp hmem
    apply hs.step serialize sec
    rintro addr attempt rfl
    exact ⟨attempt, by rw [hpre, hsections]; simp⟩
  refine ⟨hlonely.peerCount_le, ?_, ?_, hlonely.seeded.knownPeersCount_le, hlonely.events⟩
  · rw [P2PManager.peerList, hlonely.peers]
    rfl
  · intro iter
    exact ⟨hlonely.seeded.connectedCount_eq_zero iter, hlonely.seeded.needsMorePeers iter⟩

end Threads

end P2P

end Crates

end CryptoCoin
