import CryptoCoin.Crates.Wire
import CryptoCoin.Library.Runs
import Mathlib.Data.Finset.Insert
import Mathlib.Data.List.AList

/-!
# Peer discovery

`DiscoveryManager` of the crate `p2p`. The hash map of peers is an association list
without repeated keys, the channel of events is the list of events sent. Instants and
durations are natural numbers, and every function that reads the clock takes the
instant it reads. Socket addresses and their text form are parameters.

The order in which a hash map is iterated and the order a shuffle gives are arbitrary:
the queries take a `Shuffle` for each. The order in which `prune_stale_peers` removes
peers does not matter, and it takes none.

`Consistent` is the invariant of the manager: no banned peer is known, and every peer
is known under the identifier of its record. Every operation keeps it, and no
operation lifts a ban.
-/

namespace CryptoCoin

namespace Crates

namespace Discovery

open Wire (Bytes)

abbrev PeerId := Bytes 32

abbrev Instant := ℕ

abbrev Duration := ℕ

/-! ### Records -/

structure Capabilities where
  version : UInt32
  chainId : String
  listenPort : UInt16
  agentVersion : String
  isValidator : Bool
  latestHeight : UInt64
  latestHash : Bytes 32

def zeroBytes : Bytes 32 := Bytes.replicate 32 0

def Capabilities.default : Capabilities :=
  { version := 1
    chainId := "crypto-coin-mainnet-1"
    listenPort := 26656
    agentVersion := "crypto-coin-node/0.1.0"
    isValidator := false
    latestHeight := 0
    latestHash := zeroBytes }

structure PeerRecord where
  peerId : PeerId
  addr : String
  publicKey : Bytes 32
  capabilities : Capabilities
  score : Float

inductive PeerStatus where
  | discovered
  | connecting
  | connected
  | disconnected
  | banned
  deriving DecidableEq

structure TrackedPeer where
  record : PeerRecord
  status : PeerStatus
  firstSeen : Instant
  lastSeen : Instant
  lastAttempt : Option Instant
  connectionAttempts : UInt32
  successRate : Float

def TrackedPeer.discovered (now : Instant) (record : PeerRecord) : TrackedPeer :=
  { record := record
    status := .discovered
    firstSeen := now
    lastSeen := now
    lastAttempt := none
    connectionAttempts := 0
    successRate := 1.0 }

/-- Socket addresses with their text form; `default` is what an address that does not
parse is reported as. -/
structure AddressFormat (SocketAddr : Type) where
  parse : String → Option SocketAddr
  toString : SocketAddr → String
  default : SocketAddr

inductive DiscoveryEvent (SocketAddr : Type) where
  | newPeerDiscovered (peerId : PeerId) (addr : SocketAddr)
  | peerConnected (peerId : PeerId)
  | peerDisconnected (peerId : PeerId)
  | peerBanned (peerId : PeerId) (reason : String)

structure DiscoveryConfig (SocketAddr : Type) where
  bootstrapPeers : List SocketAddr
  maxPeers : ℕ
  peerTimeout : Duration
  targetOutgoing : ℕ

structure DiscoveryManager (SocketAddr : Type) where
  config : DiscoveryConfig SocketAddr
  peers : AList fun _ : PeerId => TrackedPeer
  banned : Finset PeerId
  events : List (DiscoveryEvent SocketAddr)

structure Shuffle (α : Type) where
  apply : List α → List α
  perm : ∀ l, (apply l).Perm l

namespace DiscoveryManager

variable {SocketAddr : Type} (format : AddressFormat SocketAddr)

def new (config : DiscoveryConfig SocketAddr) : DiscoveryManager SocketAddr :=
  ⟨config, ∅, ∅, []⟩

def send (m : DiscoveryManager SocketAddr) (event : DiscoveryEvent SocketAddr) :
    DiscoveryManager SocketAddr :=
  { m with events := event :: m.events }

/-! ### Operations -/

/-- A known peer is entered anew. -/
def addPeer (now : Instant) (m : DiscoveryManager SocketAddr) (record : PeerRecord) :
    DiscoveryManager SocketAddr :=
  if record.peerId ∈ m.banned then m
  else
    let tracked := TrackedPeer.discovered now record
    let isNew := record.peerId ∉ m.peers
    let m' := { m with peers := m.peers.insert record.peerId tracked }
    if isNew then
      m'.send (.newPeerDiscovered record.peerId ((format.parse record.addr).getD format.default))
    else m'

/-- The records are added one after the other, each at its own instant. -/
def addPeers (m : DiscoveryManager SocketAddr) (records : List (Instant × PeerRecord)) :
    DiscoveryManager SocketAddr :=
  records.foldl (fun m entry => m.addPeer format entry.1 entry.2) m

def modifyPeer (m : DiscoveryManager SocketAddr) (peerId : PeerId)
    (f : TrackedPeer → TrackedPeer) : DiscoveryManager SocketAddr :=
  match m.peers.lookup peerId with
  | some peer => { m with peers := m.peers.insert peerId (f peer) }
  | none => m

def markConnected (now : Instant) (m : DiscoveryManager SocketAddr) (peerId : PeerId) :
    DiscoveryManager SocketAddr :=
  (m.modifyPeer peerId fun peer =>
    { peer with
      status := .connected
      lastSeen := now
      connectionAttempts := 0
      successRate := 1.0 }).send (.peerConnected peerId)

def markDisconnected (now : Instant) (m : DiscoveryManager SocketAddr) (peerId : PeerId) :
    DiscoveryManager SocketAddr :=
  (m.modifyPeer peerId fun peer =>
    { peer with
      status := .disconnected
      lastSeen := now }).send (.peerDisconnected peerId)

def banPeer (m : DiscoveryManager SocketAddr) (peerId : PeerId) (reason : String) :
    DiscoveryManager SocketAddr :=
  let m := { m with banned := insert peerId m.banned }
  let m := { m with peers := m.peers.erase peerId }
  m.send (.peerBanned peerId reason)

def entries (m : DiscoveryManager SocketAddr) : List (PeerId × TrackedPeer) :=
  m.peers.entries.map fun e => (e.1, e.2)

/-- A peer is removed when it is not connected and was last seen longer ago than the
timeout; `duration_since` is zero for a later instant. -/
def pruneStalePeers (now : Instant) (m : DiscoveryManager SocketAddr) :
    DiscoveryManager SocketAddr :=
  let timeout := m.config.peerTimeout
  let stale := (m.entries.filter fun e =>
    e.2.status ≠ .connected ∧ now - e.2.lastSeen > timeout).map Prod.fst
  { m with peers := stale.foldl (fun peers peerId => peers.erase peerId) m.peers }

/-- The record that stands for a seed address until the handshake. -/
def seedRecord (addr : SocketAddr) : PeerRecord :=
  { peerId := zeroBytes
    addr := format.toString addr
    publicKey := zeroBytes
    capabilities := .default
    score := 0.5 }

/-- `now i` is the instant at which the seed number `i` is added. -/
def bootstrap (now : ℕ → Instant) (m : DiscoveryManager SocketAddr) :
    DiscoveryManager SocketAddr :=
  m.addPeers format (m.config.bootstrapPeers.zipIdx.map fun e =>
    (now e.2, seedRecord format e.1))

/-! ### Queries -/

def peersToConnect (iter shuffle : Shuffle (PeerId × TrackedPeer))
    (m : DiscoveryManager SocketAddr) (count : ℕ) : List (SocketAddr × PeerId) :=
  let candidates := (iter.apply m.entries).filter fun e =>
    (e.2.status = .discovered ∨ e.2.status = .disconnected) ∧ e.2.record.peerId ∉ m.banned
  let candidates := shuffle.apply candidates
  let candidates := candidates.take count
  candidates.filterMap fun e => (format.parse e.2.record.addr).map fun addr => (addr, e.1)

def connectedPeers (iter : Shuffle (PeerId × TrackedPeer)) (m : DiscoveryManager SocketAddr) :
    List PeerRecord :=
  ((iter.apply m.entries).filter fun e => e.2.status = .connected).map fun e => e.2.record

def peerExchangeSubset (iter : Shuffle (PeerId × TrackedPeer)) (shuffle : Shuffle PeerRecord)
    (m : DiscoveryManager SocketAddr) (count : ℕ) : List PeerRecord :=
  let connected := ((iter.apply m.entries).filter fun e => e.2.status = .connected).map
    fun e => e.2.record
  (shuffle.apply connected).take count

def needsMorePeers (iter : Shuffle (PeerId × TrackedPeer)) (m : DiscoveryManager SocketAddr) :
    Bool :=
  let connectedCount := (m.connectedPeers iter).length
  connectedCount < m.config.targetOutgoing

def knownPeersCount (m : DiscoveryManager SocketAddr) : ℕ := m.peers.entries.length

def connectedCount (iter : Shuffle (PeerId × TrackedPeer)) (m : DiscoveryManager SocketAddr) :
    ℕ :=
  (m.connectedPeers iter).length

end DiscoveryManager

/-! ### The invariant -/

theorem mem_of_lookup {peers : AList fun _ : PeerId => TrackedPeer} {id : PeerId}
    {peer : TrackedPeer} (h : peers.lookup id = some peer) : id ∈ peers :=
  AList.lookup_isSome.mp (by rw [h]; rfl)

/-- No banned peer is known, and every peer is known under its own identifier. -/
structure Consistent (peers : AList fun _ : PeerId => TrackedPeer) (banned : Finset PeerId) :
    Prop where
  notBanned : ∀ id ∈ banned, id ∉ peers
  ownId : ∀ id peer, peers.lookup id = some peer → peer.record.peerId = id

namespace Consistent

variable {peers : AList fun _ : PeerId => TrackedPeer} {banned : Finset PeerId}

theorem empty : Consistent ∅ ∅ := by
  constructor
  · intro id hid
    exact absurd hid (Finset.notMem_empty id)
  · intro id peer hlookup
    rw [AList.lookup_empty] at hlookup
    cases hlookup

theorem insert (h : Consistent peers banned) (peer : TrackedPeer)
    (hban : peer.record.peerId ∉ banned) :
    Consistent (peers.insert peer.record.peerId peer) banned := by
  constructor
  · intro id hid hmem
    rcases (AList.mem_insert peers).mp hmem with rfl | hmem
    · exact hban hid
    · exact h.notBanned id hid hmem
  · intro id other hlookup
    by_cases hid : id = peer.record.peerId
    · subst hid
      rw [AList.lookup_insert] at hlookup
      cases hlookup
      rfl
    · rw [AList.lookup_insert_ne hid] at hlookup
      exact h.ownId id other hlookup

theorem erase (h : Consistent peers banned) (gone : PeerId) :
    Consistent (peers.erase gone) banned := by
  constructor
  · intro id hid hmem
    exact h.notBanned id hid (AList.mem_erase.mp hmem).2
  · intro id peer hlookup
    by_cases hid : id = gone
    · subst hid
      rw [AList.lookup_erase] at hlookup
      cases hlookup
    · rw [AList.lookup_erase_ne hid] at hlookup
      exact h.ownId id peer hlookup

theorem eraseAll (h : Consistent peers banned) (gone : List PeerId) :
    Consistent (gone.foldl (fun peers peerId => peers.erase peerId) peers) banned := by
  induction gone generalizing peers with
  | nil => exact h
  | cons id gone ih => exact ih (h.erase id)

theorem ban (h : Consistent peers banned) (peerId : PeerId) :
    Consistent (peers.erase peerId) (Insert.insert peerId banned) := by
  refine ⟨?_, (h.erase peerId).ownId⟩
  intro id hid hmem
  obtain ⟨hne, hmem⟩ := AList.mem_erase.mp hmem
  exact h.notBanned id ((Finset.mem_insert.mp hid).resolve_left hne) hmem

end Consistent

namespace DiscoveryManager

variable {SocketAddr : Type} (format : AddressFormat SocketAddr)
  {m : DiscoveryManager SocketAddr}

theorem addPeer_spec (now : Instant) (record : PeerRecord) :
    (m.addPeer format now record).config = m.config ∧
      (m.addPeer format now record).banned = m.banned ∧
      (m.addPeer format now record).peers =
        if record.peerId ∈ m.banned then m.peers
        else m.peers.insert record.peerId (.discovered now record) := by
  simp only [addPeer]
  split
  · exact ⟨rfl, rfl, rfl⟩
  · split
    · exact ⟨rfl, rfl, rfl⟩
    · exact ⟨rfl, rfl, rfl⟩

theorem config_addPeer (now : Instant) (record : PeerRecord) :
    (m.addPeer format now record).config = m.config :=
  (addPeer_spec format now record).1

theorem banned_addPeer (now : Instant) (record : PeerRecord) :
    (m.addPeer format now record).banned = m.banned :=
  (addPeer_spec format now record).2.1

theorem peers_addPeer (now : Instant) (record : PeerRecord) :
    (m.addPeer format now record).peers =
      if record.peerId ∈ m.banned then m.peers
      else m.peers.insert record.peerId (.discovered now record) :=
  (addPeer_spec format now record).2.2

theorem addPeers_keeps {β : Type} {f : DiscoveryManager SocketAddr → β}
    (hf : ∀ m now record, f (m.addPeer format now record) = f m)
    (records : List (Instant × PeerRecord)) : f (m.addPeers format records) = f m := by
  induction records generalizing m with
  | nil => rfl
  | cons entry records ih =>
      have hrest := ih (m := m.addPeer format entry.1 entry.2)
      exact hrest.trans (hf m entry.1 entry.2)

theorem banned_addPeers (records : List (Instant × PeerRecord)) :
    (m.addPeers format records).banned = m.banned :=
  addPeers_keeps format (fun _ now record => banned_addPeer format now record) records

theorem config_addPeers (records : List (Instant × PeerRecord)) :
    (m.addPeers format records).config = m.config :=
  addPeers_keeps format (fun _ now record => config_addPeer format now record) records

theorem banned_modifyPeer (peerId : PeerId) (f : TrackedPeer → TrackedPeer) :
    (m.modifyPeer peerId f).banned = m.banned := by
  simp only [modifyPeer]
  split
  · rfl
  · rfl

theorem consistent_addPeer (h : Consistent m.peers m.banned) (now : Instant)
    (record : PeerRecord) :
    Consistent (m.addPeer format now record).peers (m.addPeer format now record).banned := by
  rw [banned_addPeer, peers_addPeer]
  split_ifs with hban
  · exact h
  · exact h.insert (.discovered now record) hban

theorem consistent_addPeers (h : Consistent m.peers m.banned)
    (records : List (Instant × PeerRecord)) :
    Consistent (m.addPeers format records).peers (m.addPeers format records).banned := by
  induction records generalizing m with
  | nil => exact h
  | cons entry records ih => exact ih (consistent_addPeer format h entry.1 entry.2)

theorem consistent_modifyPeer (h : Consistent m.peers m.banned) (peerId : PeerId)
    {f : TrackedPeer → TrackedPeer} (hf : ∀ peer, (f peer).record = peer.record) :
    Consistent (m.modifyPeer peerId f).peers (m.modifyPeer peerId f).banned := by
  cases hlookup : m.peers.lookup peerId with
  | none =>
      simp only [modifyPeer, hlookup]
      exact h
  | some peer =>
      have hid : (f peer).record.peerId = peerId := by
        rw [hf]
        exact h.ownId peerId peer hlookup
      have hmem : peerId ∈ m.peers := mem_of_lookup hlookup
      have hinsert := h.insert (f peer) (by
        rw [hid]
        intro hban
        exact h.notBanned peerId hban hmem)
      simp only [modifyPeer, hlookup]
      rwa [hid] at hinsert

/-! ### Runs -/

/-- The operations with the instants they read. -/
inductive Operation where
  | addPeer (now : Instant) (record : PeerRecord)
  | addPeers (records : List (Instant × PeerRecord))
  | markConnected (now : Instant) (peerId : PeerId)
  | markDisconnected (now : Instant) (peerId : PeerId)
  | banPeer (peerId : PeerId) (reason : String)
  | pruneStalePeers (now : Instant)
  | bootstrap (now : ℕ → Instant)

def perform (m : DiscoveryManager SocketAddr) : Operation → DiscoveryManager SocketAddr
  | .addPeer now record => m.addPeer format now record
  | .addPeers records => m.addPeers format records
  | .markConnected now peerId => m.markConnected now peerId
  | .markDisconnected now peerId => m.markDisconnected now peerId
  | .banPeer peerId reason => m.banPeer peerId reason
  | .pruneStalePeers now => m.pruneStalePeers now
  | .bootstrap now => m.bootstrap format now

theorem consistent_perform (h : Consistent m.peers m.banned) (op : Operation) :
    Consistent (m.perform format op).peers (m.perform format op).banned := by
  cases op with
  | addPeer now record => exact consistent_addPeer format h now record
  | addPeers records => exact consistent_addPeers format h records
  | markConnected now peerId => exact consistent_modifyPeer h peerId fun _ => rfl
  | markDisconnected now peerId => exact consistent_modifyPeer h peerId fun _ => rfl
  | banPeer peerId reason => exact h.ban peerId
  | pruneStalePeers now => exact h.eraseAll _
  | bootstrap now => exact consistent_addPeers format h _

theorem banned_subset_perform (op : Operation) : m.banned ⊆ (m.perform format op).banned := by
  cases op with
  | addPeer now record => exact (banned_addPeer format now record).ge
  | addPeers records => exact (banned_addPeers format records).ge
  | markConnected now peerId => exact (banned_modifyPeer peerId _).ge
  | markDisconnected now peerId => exact (banned_modifyPeer peerId _).ge
  | banPeer peerId reason => exact Finset.subset_insert peerId m.banned
  | pruneStalePeers now => exact Finset.Subset.refl _
  | bootstrap now => exact (banned_addPeers format _).ge

theorem consistent_run (config : DiscoveryConfig SocketAddr) (ops : List Operation) :
    Consistent (Runs.run (perform format) (new config) ops).peers
      (Runs.run (perform format) (new config) ops).banned := by
  apply Runs.invariant (P := fun m : DiscoveryManager SocketAddr => Consistent m.peers m.banned)
  · exact Consistent.empty
  · intro x _ h
    exact consistent_perform format h x.2

theorem mem_banned_run (config : DiscoveryConfig SocketAddr) (pre post : List Operation)
    (peerId : PeerId) (reason : String) :
    peerId ∈ (Runs.run (perform format) (new config)
      (pre ++ .banPeer peerId reason :: post)).banned := by
  rw [Runs.run_append, Runs.run_cons]
  apply Runs.invariant (P := fun m : DiscoveryManager SocketAddr => peerId ∈ m.banned)
  · exact Finset.mem_insert_self peerId _
  · intro x _ h
    exact banned_subset_perform format x.2 h

/-! ### What the queries return -/

theorem lookup_of_mem_entries {e : PeerId × TrackedPeer} (h : e ∈ m.entries) :
    m.peers.lookup e.1 = some e.2 := by
  obtain ⟨entry, hentry, rfl⟩ := List.mem_map.mp h
  exact AList.mem_lookup_iff.mpr hentry

theorem mem_of_mem_entries {e : PeerId × TrackedPeer} (h : e ∈ m.entries) : e.1 ∈ m.peers :=
  mem_of_lookup (lookup_of_mem_entries h)

theorem exists_of_mem_peersToConnect {iter shuffle : Shuffle (PeerId × TrackedPeer)} {count : ℕ}
    {x : SocketAddr × PeerId} (h : x ∈ m.peersToConnect format iter shuffle count) :
    ∃ peer, m.peers.lookup x.2 = some peer ∧
      (peer.status = .discovered ∨ peer.status = .disconnected) ∧
      peer.record.peerId ∉ m.banned := by
  obtain ⟨e, he, hparse⟩ := List.mem_filterMap.mp h
  obtain ⟨addr, _, rfl⟩ := Option.map_eq_some_iff.mp hparse
  have hcandidate := (shuffle.perm _).mem_iff.mp (List.mem_of_mem_take he)
  obtain ⟨hentry, hcondition⟩ := List.mem_filter.mp hcandidate
  exact ⟨e.2, lookup_of_mem_entries ((iter.perm _).mem_iff.mp hentry),
    of_decide_eq_true hcondition⟩

theorem mem_of_mem_peersToConnect {iter shuffle : Shuffle (PeerId × TrackedPeer)} {count : ℕ}
    {x : SocketAddr × PeerId} (h : x ∈ m.peersToConnect format iter shuffle count) :
    x.2 ∈ m.peers := by
  obtain ⟨peer, hlookup, _⟩ := exists_of_mem_peersToConnect format h
  exact mem_of_lookup hlookup

theorem mem_of_mem_connectedPeers (hm : Consistent m.peers m.banned)
    {iter : Shuffle (PeerId × TrackedPeer)} {record : PeerRecord}
    (h : record ∈ m.connectedPeers iter) : record.peerId ∈ m.peers := by
  obtain ⟨e, he, rfl⟩ := List.mem_map.mp h
  have hentry := (iter.perm _).mem_iff.mp (List.mem_of_mem_filter he)
  rw [hm.ownId e.1 e.2 (lookup_of_mem_entries hentry)]
  exact mem_of_mem_entries hentry

theorem mem_connectedPeers_of_mem_peerExchangeSubset {iter : Shuffle (PeerId × TrackedPeer)}
    {shuffle : Shuffle PeerRecord} {count : ℕ} {record : PeerRecord}
    (h : record ∈ m.peerExchangeSubset iter shuffle count) : record ∈ m.connectedPeers iter :=
  (shuffle.perm _).mem_iff.mp (List.mem_of_mem_take h)

/-- A ban is permanent: every reachable state is consistent, and after a ban of a peer
no query returns it, whatever the order of iteration and the shuffle. -/
theorem ban_permanent (config : DiscoveryConfig SocketAddr) (ops : List Operation) :
    Consistent (Runs.run (perform format) (new config) ops).peers
        (Runs.run (perform format) (new config) ops).banned ∧
      ∀ pre peerId reason post, ops = pre ++ .banPeer peerId reason :: post →
        (∀ iter shuffle count, peerId ∉ ((Runs.run (perform format) (new config)
          ops).peersToConnect format iter shuffle count).map Prod.snd) ∧
        (∀ iter, peerId ∉ ((Runs.run (perform format) (new config)
          ops).connectedPeers iter).map PeerRecord.peerId) ∧
        ∀ iter shuffle count, peerId ∉ ((Runs.run (perform format) (new config)
          ops).peerExchangeSubset iter shuffle count).map PeerRecord.peerId := by
  have hconsistent := consistent_run format config ops
  refine ⟨hconsistent, ?_⟩
  intro pre peerId reason post hops
  have hunknown : peerId ∉ (Runs.run (perform format) (new config) ops).peers := by
    apply hconsistent.notBanned
    rw [hops]
    exact mem_banned_run format config pre post peerId reason
  refine ⟨?_, ?_, ?_⟩
  · intro iter shuffle count hmem
    obtain ⟨x, hx, rfl⟩ := List.mem_map.mp hmem
    exact hunknown (mem_of_mem_peersToConnect format hx)
  · intro iter hmem
    obtain ⟨record, hrecord, rfl⟩ := List.mem_map.mp hmem
    exact hunknown (mem_of_mem_connectedPeers hconsistent hrecord)
  · intro iter shuffle count hmem
    obtain ⟨record, hrecord, rfl⟩ := List.mem_map.mp hmem
    exact hunknown (mem_of_mem_connectedPeers hconsistent
      (mem_connectedPeers_of_mem_peerExchangeSubset hrecord))

end DiscoveryManager

end Discovery

end Crates

end CryptoCoin
