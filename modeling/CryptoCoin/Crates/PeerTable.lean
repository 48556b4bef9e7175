import CryptoCoin.Crates.Discovery
import CryptoCoin.Library.Latest
import Mathlib.Data.Finset.Card

/-!
# The table of known peers

`add_peer` enters a known peer anew, and never looks at the size of the table. What the
table holds after a list of records is the last record for each identifier that is not
banned (`lookup_addPeers`). Two properties of the table follow from that.

A record of a connected peer makes it a discovered one: `add_peers` leaves the
connections alone exactly when no record is about a connected peer
(`keepsConnections_addPeers_iff`). And the table grows by the identifiers that are
neither known nor banned, so it stays within `max_peers` exactly as long as no operation
offers more of those than there is room (`always_knownPeersCount_le_iff`).
-/

namespace CryptoCoin

namespace Crates

namespace Discovery

open Latest

open Wire (Bytes)

namespace DiscoveryManager

variable {SocketAddr : Type} (format : AddressFormat SocketAddr)
  {m : DiscoveryManager SocketAddr}

/-! ### Adding records -/

theorem lookup_addPeer (now : Instant) (record : PeerRecord) {id : PeerId} (hid : id ∉ m.banned) :
    (m.addPeer format now record).peers.lookup id =
      if record.peerId = id then some (.discovered now record) else m.peers.lookup id := by
  rw [peers_addPeer]
  by_cases heq : record.peerId = id
  · subst heq
    rw [if_neg hid, if_pos rfl, AList.lookup_insert]
  · rw [if_neg heq]
    split_ifs
    · rfl
    · rw [AList.lookup_insert_ne (Ne.symm heq)]

/-- The table holds the last record for an identifier that is not banned. -/
theorem lookup_addPeers (records : List (Instant × PeerRecord)) {id : PeerId}
    (hid : id ∉ m.banned) :
    (m.addPeers format records).peers.lookup id =
      ((latest (fun entry : Instant × PeerRecord => entry.2.peerId = id) records).map
        fun entry => TrackedPeer.discovered entry.1 entry.2).or (m.peers.lookup id) := by
  apply lookup_foldl (I := fun m : DiscoveryManager SocketAddr => id ∉ m.banned) ?_
    (fun m => m.peers.lookup id) (fun entry : Instant × PeerRecord => .discovered entry.1 entry.2)
  · intro m entry h
    exact lookup_addPeer format entry.1 entry.2 h
  · exact hid
  · intro m entry h
    rwa [banned_addPeer]

theorem mem_entries_iff {e : PeerId × TrackedPeer} :
    e ∈ m.entries ↔ m.peers.lookup e.1 = some e.2 := by
  constructor
  · exact lookup_of_mem_entries
  · intro h
    exact List.mem_map.mpr ⟨⟨e.1, e.2⟩, AList.mem_lookup_iff.mp h, rfl⟩

theorem map_fst_entries (m : DiscoveryManager SocketAddr) :
    m.entries.map Prod.fst = m.peers.keys := by
  rw [entries, List.map_map]
  rfl

theorem nodup_map_fst_entries (m : DiscoveryManager SocketAddr) :
    (m.entries.map Prod.fst).Nodup := by
  rw [map_fst_entries]
  exact m.peers.keys_nodup

/-! ### Connections -/

def connectedIds (m : DiscoveryManager SocketAddr) : Finset PeerId :=
  ((m.entries.filter fun e => e.2.status = .connected).map Prod.fst).toFinset

theorem mem_connectedIds {id : PeerId} :
    id ∈ m.connectedIds ↔
      ∃ peer, m.peers.lookup id = some peer ∧ peer.status = .connected := by
  rw [connectedIds, List.mem_toFinset, List.mem_map]
  constructor
  · rintro ⟨e, he, rfl⟩
    obtain ⟨hentry, hstatus⟩ := List.mem_filter.mp he
    exact ⟨e.2, lookup_of_mem_entries hentry, of_decide_eq_true hstatus⟩
  · rintro ⟨peer, hlookup, hstatus⟩
    exact ⟨(id, peer), List.mem_filter.mpr ⟨mem_entries_iff.mpr hlookup, decide_eq_true hstatus⟩,
      rfl⟩

/-- The number of connected peers does not depend on the order of iteration. -/
theorem connectedCount_eq_card (iter : Shuffle (PeerId × TrackedPeer))
    (m : DiscoveryManager SocketAddr) : m.connectedCount iter = m.connectedIds.card := by
  have hnodup : ((m.entries.filter fun e => e.2.status = .connected).map Prod.fst).Nodup :=
    (nodup_map_fst_entries m).sublist (List.filter_sublist.map Prod.fst)
  rw [connectedCount, connectedPeers, List.length_map, connectedIds,
    List.toFinset_card_of_nodup hnodup, List.length_map]
  exact ((iter.perm m.entries).filter _).length_eq

/-- From `m` to `after` no connection is lost or made, and no connected peer becomes a
candidate for a connection. -/
structure KeepsConnections (m after : DiscoveryManager SocketAddr) : Prop where
  ids : after.connectedIds = m.connectedIds
  count : ∀ iter iter', after.connectedCount iter = m.connectedCount iter'
  needs : ∀ iter iter', after.needsMorePeers iter = m.needsMorePeers iter'
  notDialed : ∀ id ∈ m.connectedIds, ∀ iter shuffle count,
    id ∉ (after.peersToConnect format iter shuffle count).map Prod.snd

theorem not_mem_peersToConnect_of_connected {id : PeerId} (hid : id ∈ m.connectedIds)
    (iter shuffle : Shuffle (PeerId × TrackedPeer)) (count : ℕ) :
    id ∉ (m.peersToConnect format iter shuffle count).map Prod.snd := by
  intro hmem
  obtain ⟨x, hx, rfl⟩ := List.mem_map.mp hmem
  obtain ⟨peer, hlookup, hconnected⟩ := mem_connectedIds.mp hid
  obtain ⟨other, hother, hstatus, _⟩ := exists_of_mem_peersToConnect format hx
  rw [hlookup, Option.some.injEq] at hother
  subst hother
  rw [hconnected] at hstatus
  rcases hstatus with h | h
  · cases h
  · cases h

theorem keepsConnections_iff {after : DiscoveryManager SocketAddr}
    (hconfig : after.config = m.config) :
    KeepsConnections format m after ↔ after.connectedIds = m.connectedIds := by
  constructor
  · intro h
    exact h.ids
  · intro hids
    have hcount : ∀ iter iter', after.connectedCount iter = m.connectedCount iter' := by
      intro iter iter'
      rw [connectedCount_eq_card, connectedCount_eq_card, hids]
    refine ⟨hids, hcount, ?_, ?_⟩
    · intro iter iter'
      have h := hcount iter iter'
      rw [connectedCount, connectedCount] at h
      rw [needsMorePeers, needsMorePeers, h, hconfig]
    · intro id hid iter shuffle count
      exact not_mem_peersToConnect_of_connected format (hids ▸ hid) iter shuffle count

theorem notMem_banned_of_connected (hm : Consistent m.peers m.banned) {id : PeerId}
    (hid : id ∈ m.connectedIds) : id ∉ m.banned := by
  intro hban
  obtain ⟨peer, hlookup, _⟩ := mem_connectedIds.mp hid
  exact hm.notBanned id hban (mem_of_lookup hlookup)

theorem mem_connectedIds_addPeers (hm : Consistent m.peers m.banned)
    (records : List (Instant × PeerRecord)) {id : PeerId} :
    id ∈ (m.addPeers format records).connectedIds ↔
      id ∈ m.connectedIds ∧ ∀ entry ∈ records, entry.2.peerId ≠ id := by
  by_cases hban : id ∈ m.banned
  · constructor
    · intro h
      refine absurd ?_ (notMem_banned_of_connected (consistent_addPeers format hm records) h)
      rwa [banned_addPeers]
    · rintro ⟨h, _⟩
      exact absurd hban (notMem_banned_of_connected hm h)
  · rw [mem_connectedIds, mem_connectedIds, lookup_addPeers format records hban]
    cases hlast : latest (fun entry : Instant × PeerRecord => entry.2.peerId = id) records with
    | none =>
        have hnone : ∀ entry ∈ records, entry.2.peerId ≠ id := by
          intro entry hentry heq
          obtain ⟨last, h⟩ :=
            exists_latest (p := fun entry : Instant × PeerRecord => entry.2.peerId = id) hentry heq
          rw [hlast] at h
          cases h
        exact (and_iff_left hnone).symm
    | some last =>
        constructor
        · rintro ⟨peer, hpeer, hstatus⟩
          cases hpeer
          cases hstatus
        · rintro ⟨_, h⟩
          exact absurd (prop_of_latest hlast) (h last (mem_of_latest hlast))

theorem connectedIds_addPeers_eq_iff (hm : Consistent m.peers m.banned)
    (records : List (Instant × PeerRecord)) :
    (m.addPeers format records).connectedIds = m.connectedIds ↔
      ∀ entry ∈ records, entry.2.peerId ∉ m.connectedIds := by
  constructor
  · intro heq entry hentry hconnected
    rw [← heq, mem_connectedIds_addPeers format hm] at hconnected
    exact hconnected.2 entry hentry rfl
  · intro h
    ext id
    rw [mem_connectedIds_addPeers format hm, and_iff_left_iff_imp]
    intro hid entry hentry heq
    exact h entry hentry (heq ▸ hid)

/-- `add_peers` leaves the connections of a reachable state alone exactly when none of the
records is about a connected peer. -/
theorem keepsConnections_addPeers_iff (config : DiscoveryConfig SocketAddr)
    (ops : List Operation) (records : List (Instant × PeerRecord)) :
    KeepsConnections format (Runs.run (perform format) (new config) ops)
        ((Runs.run (perform format) (new config) ops).addPeers format records) ↔
      ∀ entry ∈ records,
        entry.2.peerId ∉ (Runs.run (perform format) (new config) ops).connectedIds := by
  rw [keepsConnections_iff format (config_addPeers format records)]
  exact connectedIds_addPeers_eq_iff format (consistent_run format config ops) records

def textFormat : AddressFormat String := ⟨some, id, ""⟩

def oneSlot : DiscoveryConfig String := ⟨[], 1, 0, 1⟩

def peerAt (peerId : PeerId) (addr : String) : PeerRecord :=
  { peerId := peerId
    addr := addr
    publicKey := zeroBytes
    capabilities := .default
    score := 0.5 }

/-- A table with one connected peer, of which a record comes in again. -/
theorem gossip_disconnects :
    zeroBytes ∈ (Runs.run (perform textFormat) (new oneSlot)
        [.addPeer 0 (peerAt zeroBytes ""), .markConnected 1 zeroBytes]).connectedIds ∧
      ¬ KeepsConnections textFormat
        (Runs.run (perform textFormat) (new oneSlot)
          [.addPeer 0 (peerAt zeroBytes ""), .markConnected 1 zeroBytes])
        ((Runs.run (perform textFormat) (new oneSlot)
          [.addPeer 0 (peerAt zeroBytes ""), .markConnected 1 zeroBytes]).addPeers textFormat
            [(2, peerAt zeroBytes "")]) := by
  have hconnected : zeroBytes ∈ (Runs.run (perform textFormat) (new oneSlot)
      [.addPeer 0 (peerAt zeroBytes ""), .markConnected 1 zeroBytes]).connectedIds :=
    mem_connectedIds.mpr ⟨_, rfl, rfl⟩
  refine ⟨hconnected, ?_⟩
  intro h
  rw [keepsConnections_iff textFormat (config_addPeers textFormat _),
    connectedIds_addPeers_eq_iff textFormat (consistent_run textFormat _ _)] at h
  exact h _ List.mem_cons_self hconnected

/-! ### The size of the table -/

def knownIds (m : DiscoveryManager SocketAddr) : Finset PeerId := m.peers.keys.toFinset

theorem mem_knownIds {id : PeerId} : id ∈ m.knownIds ↔ id ∈ m.peers := by
  rw [knownIds, List.mem_toFinset, AList.mem_keys]

theorem card_knownIds (m : DiscoveryManager SocketAddr) : m.knownIds.card = m.knownPeersCount := by
  rw [knownIds, List.toFinset_card_of_nodup m.peers.keys_nodup, AList.keys, List.keys,
    List.length_map, knownPeersCount]

theorem knownPeersCount_le_of_subset {after : DiscoveryManager SocketAddr}
    (h : after.knownIds ⊆ m.knownIds) : after.knownPeersCount ≤ m.knownPeersCount := by
  rw [← card_knownIds, ← card_knownIds]
  exact Finset.card_le_card h

def offeredIds (m : DiscoveryManager SocketAddr) : Operation → List PeerId
  | .addPeer _ record => [record.peerId]
  | .addPeers records => records.map fun entry => entry.2.peerId
  | .bootstrap _ => m.config.bootstrapPeers.map fun _ => zeroBytes
  | .markConnected _ _ | .markDisconnected _ _ | .banPeer _ _ | .pruneStalePeers _ => []

/-- The offered identifiers that are neither known nor banned. -/
def newIds (m : DiscoveryManager SocketAddr) (op : Operation) : Finset PeerId :=
  (m.offeredIds op).toFinset.filter fun id => id ∉ m.peers ∧ id ∉ m.banned

theorem mem_peers_addPeer (now : Instant) (record : PeerRecord) {id : PeerId} :
    id ∈ (m.addPeer format now record).peers ↔
      id ∈ m.peers ∨ id ∉ m.banned ∧ id = record.peerId := by
  rw [peers_addPeer]
  split_ifs with hban
  · constructor
    · exact Or.inl
    · rintro (hknown | ⟨hnot, rfl⟩)
      · exact hknown
      · exact absurd hban hnot
  · rw [AList.mem_insert]
    constructor
    · rintro (rfl | hknown)
      · exact Or.inr ⟨hban, rfl⟩
      · exact Or.inl hknown
    · rintro (hknown | ⟨_, rfl⟩)
      · exact Or.inr hknown
      · exact Or.inl rfl

theorem mem_peers_addPeers (records : List (Instant × PeerRecord)) {id : PeerId} :
    id ∈ (m.addPeers format records).peers ↔
      id ∈ m.peers ∨ id ∉ m.banned ∧ id ∈ records.map fun entry => entry.2.peerId := by
  induction records generalizing m with
  | nil => simp [addPeers]
  | cons entry records ih =>
      have hrest := ih (m := m.addPeer format entry.1 entry.2)
      rw [mem_peers_addPeer, banned_addPeer] at hrest
      rw [List.map_cons, List.mem_cons, and_or_left, ← or_assoc]
      exact hrest

theorem knownPeersCount_addPeers (records : List (Instant × PeerRecord)) :
    (m.addPeers format records).knownPeersCount =
      m.knownPeersCount + (m.newIds (.addPeers records)).card := by
  have hunion : (m.addPeers format records).knownIds =
      m.knownIds ∪ m.newIds (.addPeers records) := by
    ext id
    rw [mem_knownIds, mem_peers_addPeers, Finset.mem_union, mem_knownIds, newIds,
      Finset.mem_filter, List.mem_toFinset, offeredIds]
    tauto
  have hdisjoint : Disjoint m.knownIds (m.newIds (.addPeers records)) := by
    rw [Finset.disjoint_left]
    intro id hknown hnew
    exact (Finset.mem_filter.mp hnew).2.1 (mem_knownIds.mp hknown)
  rw [← card_knownIds, hunion, Finset.card_union_of_disjoint hdisjoint, card_knownIds]

theorem knownIds_modifyPeer_subset (peerId : PeerId) (f : TrackedPeer → TrackedPeer) :
    (m.modifyPeer peerId f).knownIds ⊆ m.knownIds := by
  intro id hid
  rw [mem_knownIds] at hid ⊢
  cases hlookup : m.peers.lookup peerId with
  | none =>
      simp only [modifyPeer, hlookup] at hid
      exact hid
  | some peer =>
      simp only [modifyPeer, hlookup] at hid
      rcases (AList.mem_insert _).mp hid with rfl | hid
      · exact mem_of_lookup hlookup
      · exact hid

theorem mem_of_mem_eraseAll {gone : List PeerId} {peers : AList fun _ : PeerId => TrackedPeer}
    {id : PeerId} (h : id ∈ gone.foldl (fun peers peerId => peers.erase peerId) peers) :
    id ∈ peers := by
  induction gone generalizing peers with
  | nil => exact h
  | cons peerId gone ih => exact (AList.mem_erase.mp (ih h)).2

theorem knownPeersCount_perform_le_iff {bound : ℕ} (hbound : m.knownPeersCount ≤ bound)
    (op : Operation) :
    (m.perform format op).knownPeersCount ≤ bound ↔
      m.knownPeersCount + (m.newIds op).card ≤ bound := by
  -- The operations that add are runs of `add_peers`; the others offer nothing.
  have hadds : ∀ records, m.perform format op = m.addPeers format records →
      m.offeredIds op = m.offeredIds (.addPeers records) →
      ((m.perform format op).knownPeersCount ≤ bound ↔
        m.knownPeersCount + (m.newIds op).card ≤ bound) := by
    intro records hperform hoffered
    rw [hperform, knownPeersCount_addPeers, newIds, newIds, hoffered]
  have hshrinks : (m.perform format op).knownIds ⊆ m.knownIds → m.offeredIds op = [] →
      ((m.perform format op).knownPeersCount ≤ bound ↔
        m.knownPeersCount + (m.newIds op).card ≤ bound) := by
    intro hsubset hoffered
    have hnone : m.newIds op = ∅ := by
      rw [newIds, hoffered]
      rfl
    rw [hnone, Finset.card_empty, Nat.add_zero]
    exact iff_of_true ((knownPeersCount_le_of_subset hsubset).trans hbound) hbound
  cases op with
  | addPeer now record => exact hadds [(now, record)] rfl rfl
  | addPeers records => exact hadds records rfl rfl
  | bootstrap now =>
      refine hadds _ rfl ?_
      simp only [offeredIds, List.map_map]
      rw [List.map_const', ← List.length_zipIdx, ← List.map_const']
      rfl
  | markConnected now peerId => exact hshrinks (knownIds_modifyPeer_subset peerId _) rfl
  | markDisconnected now peerId => exact hshrinks (knownIds_modifyPeer_subset peerId _) rfl
  | banPeer peerId reason =>
      refine hshrinks ?_ rfl
      intro id hid
      rw [mem_knownIds] at hid ⊢
      exact (AList.mem_erase.mp hid).2
  | pruneStalePeers now =>
      refine hshrinks ?_ rfl
      intro id hid
      rw [mem_knownIds] at hid ⊢
      exact mem_of_mem_eraseAll hid

/-- The table stays within `max_peers` exactly as long as every operation offers at most as
many new identifiers as there is room for. -/
theorem always_knownPeersCount_le_iff (config : DiscoveryConfig SocketAddr)
    (ops : List Operation) :
    Runs.Always (perform format) (fun m => m.knownPeersCount ≤ config.maxPeers) (new config) ops ↔
      ∀ x ∈ Runs.trace (perform format) (new config) ops,
        x.1.knownPeersCount + (x.1.newIds x.2).card ≤ config.maxPeers := by
  apply Runs.always_iff (C := fun (m : DiscoveryManager SocketAddr) op =>
    m.knownPeersCount + (m.newIds op).card ≤ config.maxPeers)
  · exact Nat.zero_le config.maxPeers
  · intro x _ hbound
    exact knownPeersCount_perform_le_iff format hbound x.2

/-- A table for one peer that holds two. -/
theorem table_overflows :
    ¬ Runs.Always (perform textFormat) (fun m => m.knownPeersCount ≤ oneSlot.maxPeers)
      (new oneSlot)
      [.addPeers [(0, peerAt zeroBytes ""), (0, peerAt (Bytes.replicate 32 1) "")]] := by
  intro h
  have htwo := h _ [] (List.append_nil _).symm
  exact absurd htwo (by decide)

end DiscoveryManager

end Discovery

end Crates

end CryptoCoin
