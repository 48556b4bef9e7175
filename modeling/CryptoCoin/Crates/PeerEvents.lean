import CryptoCoin.Crates.PeerTable

/-!
# What the events tell about the table

A subscriber of `DiscoveryManager` receives its events and can keep a table of its own: a
discovered peer is entered, a connected or disconnected one gets that status when it is
known, and a banned one is removed (`replay`).

Two things happen without an event: a record for a known peer sets its status back to
discovered, and stale peers are removed. `mirrored_always_iff` says that the subscriber's
table agrees with the manager's along a run exactly when neither of them happens.
-/

namespace CryptoCoin

namespace Crates

namespace Discovery

namespace DiscoveryManager

variable {SocketAddr : Type} (format : AddressFormat SocketAddr)
  {m : DiscoveryManager SocketAddr}

/-! ### The two tables -/

/-- What an event does to the table of a subscriber. -/
def follow (known : PeerId → Option PeerStatus) :
    DiscoveryEvent SocketAddr → PeerId → Option PeerStatus
  | .newPeerDiscovered peerId _ => Function.update known peerId (some .discovered)
  | .peerConnected peerId =>
      Function.update known peerId ((known peerId).map fun _ => .connected)
  | .peerDisconnected peerId =>
      Function.update known peerId ((known peerId).map fun _ => .disconnected)
  | .peerBanned peerId _ => Function.update known peerId none

/-- The table of a subscriber that has received all events; the newest one comes first. -/
def replay : List (DiscoveryEvent SocketAddr) → PeerId → Option PeerStatus
  | [] => fun _ => none
  | event :: events => follow (replay events) event

def statusOf (m : DiscoveryManager SocketAddr) (id : PeerId) : Option PeerStatus :=
  (m.peers.lookup id).map TrackedPeer.status

def Mirrored (m : DiscoveryManager SocketAddr) : Prop := replay m.events = m.statusOf

/-! ### Records -/

theorem statusOf_addPeer (now : Instant) (record : PeerRecord) (id : PeerId) :
    (m.addPeer format now record).statusOf id =
      if record.peerId = id ∧ id ∉ m.banned then some .discovered else m.statusOf id := by
  rw [statusOf, peers_addPeer]
  by_cases hid : record.peerId = id
  · subst hid
    by_cases hban : record.peerId ∈ m.banned
    · rw [if_pos hban, if_neg fun h => h.2 hban]
      rfl
    · rw [if_neg hban, if_pos ⟨rfl, hban⟩, AList.lookup_insert]
      rfl
  · have hother : ¬ (record.peerId = id ∧ id ∉ m.banned) := fun h => hid h.1
    rw [if_neg hother]
    by_cases hban : record.peerId ∈ m.banned
    · rw [if_pos hban]
      rfl
    · rw [if_neg hban, AList.lookup_insert_ne (Ne.symm hid)]
      rfl

theorem replay_addPeer (now : Instant) (record : PeerRecord) (id : PeerId) :
    replay (m.addPeer format now record).events id =
      if record.peerId = id ∧ id ∉ m.banned ∧ m.statusOf id = none then some .discovered
      else replay m.events id := by
  have hknown : ∀ id, m.statusOf id = none ↔ id ∉ m.peers := by
    intro id
    rw [statusOf, Option.map_eq_none_iff, AList.lookup_eq_none]
  by_cases hban : record.peerId ∈ m.banned
  · simp only [addPeer, if_pos hban]
    rw [if_neg]
    rintro ⟨rfl, hnot, _⟩
    exact hnot hban
  · by_cases hnew : record.peerId ∉ m.peers
    · simp only [addPeer, if_neg hban, if_pos hnew]
      change Function.update (replay m.events) record.peerId (some .discovered) id = _
      by_cases hid : record.peerId = id
      · subst hid
        rw [Function.update_self, if_pos ⟨rfl, hban, (hknown _).mpr hnew⟩]
      · rw [Function.update_of_ne (Ne.symm hid), if_neg fun h => hid h.1]
    · simp only [addPeer, if_neg hban, if_neg hnew]
      rw [if_neg]
      rintro ⟨rfl, _, hnone⟩
      exact hnew ((hknown _).mp hnone)

theorem statusOf_addPeers (records : List (Instant × PeerRecord)) (id : PeerId) :
    (m.addPeers format records).statusOf id =
      if id ∈ records.map (fun entry => entry.2.peerId) ∧ id ∉ m.banned then some .discovered
      else m.statusOf id := by
  induction records generalizing m with
  | nil => simp [addPeers]
  | cons entry records ih =>
      have hrest := ih (m := m.addPeer format entry.1 entry.2)
      rw [banned_addPeer, statusOf_addPeer] at hrest
      refine hrest.trans ?_
      have hmem : id ∈ (entry :: records).map (fun entry => entry.2.peerId) ↔
          entry.2.peerId = id ∨ id ∈ records.map fun entry => entry.2.peerId := by
        rw [List.map_cons, List.mem_cons, eq_comm]
      by_cases hid : entry.2.peerId = id
      · by_cases hban : id ∈ m.banned
        · simp [hban]
        · simp [hban, hid]
      · rw [if_neg (c := entry.2.peerId = id ∧ _) fun h => hid h.1]
        exact if_congr (by rw [hmem, or_iff_right hid]) rfl rfl

theorem replay_addPeers (records : List (Instant × PeerRecord)) (id : PeerId) :
    replay (m.addPeers format records).events id =
      if id ∈ records.map (fun entry => entry.2.peerId) ∧ id ∉ m.banned ∧
          m.statusOf id = none then some .discovered
      else replay m.events id := by
  induction records generalizing m with
  | nil => simp [addPeers]
  | cons entry records ih =>
      have hrest := ih (m := m.addPeer format entry.1 entry.2)
      rw [banned_addPeer, statusOf_addPeer, replay_addPeer] at hrest
      refine hrest.trans ?_
      have hmem : id ∈ (entry :: records).map (fun entry => entry.2.peerId) ↔
          entry.2.peerId = id ∨ id ∈ records.map fun entry => entry.2.peerId := by
        rw [List.map_cons, List.mem_cons, eq_comm]
      by_cases hid : entry.2.peerId = id
      · by_cases hban : id ∈ m.banned
        · simp [hban]
        · simp [hban, hid]
      · rw [if_neg (c := entry.2.peerId = id ∧ _ ∧ _) fun h => hid h.1]
        exact if_congr (by rw [if_neg fun h => hid h.1, hmem, or_iff_right hid]) rfl rfl

/-- No record is for a known peer with another status than discovered. -/
def Unheard (m : DiscoveryManager SocketAddr) (ids : List PeerId) : Prop :=
  ∀ id ∈ ids, id ∉ m.banned → ∀ status, m.statusOf id = some status → status = .discovered

theorem unheard_nil (m : DiscoveryManager SocketAddr) : m.Unheard [] := fun _ h => by cases h

theorem mirrored_addPeers_iff (h : m.Mirrored) (records : List (Instant × PeerRecord)) :
    (m.addPeers format records).Mirrored ↔
      m.Unheard (records.map fun entry => entry.2.peerId) := by
  have hsame : ∀ id, replay m.events id = m.statusOf id := congrFun h
  rw [Mirrored, funext_iff]
  simp only [statusOf_addPeers, replay_addPeers, hsame]
  constructor
  · intro hall id hid hban status hstatus
    have heq := hall id
    rw [if_neg (by simp [hstatus]), if_pos ⟨hid, hban⟩, hstatus] at heq
    exact Option.some.inj heq
  · intro hunheard id
    by_cases hoffered : id ∈ records.map (fun entry => entry.2.peerId) ∧ id ∉ m.banned
    · cases hstatus : m.statusOf id with
      | none => rw [if_pos ⟨hoffered.1, hoffered.2, rfl⟩, if_pos hoffered]
      | some status =>
          rw [if_neg (by simp), if_pos hoffered, hunheard id hoffered.1 hoffered.2 status hstatus]
    · rw [if_neg hoffered, if_neg fun hnew => hoffered ⟨hnew.1, hnew.2.1⟩]

/-! ### Marks, bans and stale peers -/

theorem statusOf_modifyPeer (peerId : PeerId) {f : TrackedPeer → TrackedPeer}
    {status : PeerStatus} (hf : ∀ peer, (f peer).status = status) :
    (m.modifyPeer peerId f).statusOf =
      Function.update m.statusOf peerId ((m.statusOf peerId).map fun _ => status) := by
  funext id
  cases hlookup : m.peers.lookup peerId with
  | none =>
      have hnone : m.statusOf peerId = none := by rw [statusOf, hlookup]; rfl
      simp only [modifyPeer, hlookup, hnone, Option.map_none]
      rw [← hnone, Function.update_eq_self]
  | some peer =>
      have hsome : m.statusOf peerId = some peer.status := by rw [statusOf, hlookup]; rfl
      simp only [modifyPeer, hlookup, hsome, Option.map_some]
      by_cases hid : id = peerId
      · rw [hid, Function.update_self, statusOf, AList.lookup_insert, Option.map_some, hf]
      · rw [Function.update_of_ne hid, statusOf, AList.lookup_insert_ne hid]
        rfl

theorem events_modifyPeer (peerId : PeerId) (f : TrackedPeer → TrackedPeer) :
    (m.modifyPeer peerId f).events = m.events := by
  simp only [modifyPeer]
  split
  · rfl
  · rfl

theorem mirrored_markConnected (h : m.Mirrored) (now : Instant) (peerId : PeerId) :
    (m.markConnected now peerId).Mirrored := by
  rw [Mirrored, markConnected, send]
  simp only [replay, follow, events_modifyPeer]
  rw [show replay m.events = m.statusOf from h]
  symm
  apply statusOf_modifyPeer peerId
  intro peer
  rfl

theorem mirrored_markDisconnected (h : m.Mirrored) (now : Instant) (peerId : PeerId) :
    (m.markDisconnected now peerId).Mirrored := by
  rw [Mirrored, markDisconnected, send]
  simp only [replay, follow, events_modifyPeer]
  rw [show replay m.events = m.statusOf from h]
  symm
  apply statusOf_modifyPeer peerId
  intro peer
  rfl

theorem mirrored_banPeer (h : m.Mirrored) (peerId : PeerId) (reason : String) :
    (m.banPeer peerId reason).Mirrored := by
  funext id
  simp only [banPeer, send, replay, follow, statusOf]
  rw [show replay m.events = m.statusOf from h]
  by_cases hid : id = peerId
  · rw [hid, Function.update_self, AList.lookup_erase]
    rfl
  · rw [Function.update_of_ne hid, AList.lookup_erase_ne hid]
    rfl

theorem lookup_eraseAll (gone : List PeerId) (peers : AList fun _ : PeerId => TrackedPeer)
    (id : PeerId) :
    (gone.foldl (fun peers peerId => peers.erase peerId) peers).lookup id =
      if id ∈ gone then none else peers.lookup id := by
  induction gone generalizing peers with
  | nil => simp
  | cons first gone ih =>
      rw [List.foldl_cons, ih]
      by_cases hid : id = first
      · subst hid
        simp [AList.lookup_erase]
      · simp [hid, AList.lookup_erase_ne hid]

def Stale (m : DiscoveryManager SocketAddr) (now : Instant) (peer : TrackedPeer) : Prop :=
  peer.status ≠ .connected ∧ now - peer.lastSeen > m.config.peerTimeout

instance (now : Instant) (peer : TrackedPeer) : Decidable (m.Stale now peer) :=
  inferInstanceAs (Decidable (_ ∧ _))

theorem mem_stale_iff {now : Instant} {id : PeerId} :
    id ∈ (m.entries.filter fun e => m.Stale now e.2).map Prod.fst ↔
      ∃ peer, m.peers.lookup id = some peer ∧ m.Stale now peer := by
  simp only [List.mem_map, List.mem_filter, mem_entries_iff, decide_eq_true_eq]
  constructor
  · rintro ⟨e, h, rfl⟩
    exact ⟨e.2, h⟩
  · rintro ⟨peer, h⟩
    exact ⟨(id, peer), h, rfl⟩

theorem mirrored_pruneStalePeers_iff (h : m.Mirrored) (now : Instant) :
    (m.pruneStalePeers now).Mirrored ↔
      ∀ id peer, m.peers.lookup id = some peer → ¬ m.Stale now peer := by
  have hlookup : ∀ id, (m.pruneStalePeers now).peers.lookup id =
      if id ∈ (m.entries.filter fun e => m.Stale now e.2).map Prod.fst then none
      else m.peers.lookup id := lookup_eraseAll _ _
  rw [Mirrored, show replay (m.pruneStalePeers now).events = m.statusOf from h, funext_iff]
  constructor
  · intro hall id peer hpeer hstale
    have hgone := hall id
    rw [statusOf, statusOf, hlookup, if_pos (mem_stale_iff.mpr ⟨peer, hpeer, hstale⟩), hpeer]
      at hgone
    cases hgone
  · intro hfresh id
    rw [statusOf, statusOf, hlookup, if_neg]
    intro hmem
    obtain ⟨peer, hpeer, hstale⟩ := mem_stale_iff.mp hmem
    exact hfresh id peer hpeer hstale

/-! ### Whole runs -/

/-- The operation changes no status without an event. -/
def Told (m : DiscoveryManager SocketAddr) : Operation → Prop
  | .pruneStalePeers now => ∀ id peer, m.peers.lookup id = some peer → ¬ m.Stale now peer
  | op => m.Unheard (m.offeredIds op)

theorem mirrored_perform_iff (h : m.Mirrored) (op : Operation) :
    (m.perform format op).Mirrored ↔ m.Told op := by
  cases op with
  | addPeer now record => exact mirrored_addPeers_iff format h [(now, record)]
  | addPeers records => exact mirrored_addPeers_iff format h records
  | bootstrap now =>
      -- Every seed is offered under the same identifier.
      have hoffered : m.offeredIds (.bootstrap now) =
          (m.config.bootstrapPeers.zipIdx.map fun e => (now e.2, seedRecord format e.1)).map
            fun entry => entry.2.peerId := by
        simp only [offeredIds, List.map_map]
        rw [List.map_const', ← List.length_zipIdx, ← List.map_const']
        rfl
      rw [Told, hoffered]
      · exact mirrored_addPeers_iff format h _
      · rintro _ ⟨⟩
  | markConnected now peerId =>
      exact iff_of_true (mirrored_markConnected h now peerId) (unheard_nil m)
  | markDisconnected now peerId =>
      exact iff_of_true (mirrored_markDisconnected h now peerId) (unheard_nil m)
  | banPeer peerId reason => exact iff_of_true (mirrored_banPeer h peerId reason) (unheard_nil m)
  | pruneStalePeers now => exact mirrored_pruneStalePeers_iff h now

/-- A subscriber that replays the events knows the status of every peer throughout a run
exactly when no operation sets a known peer back to discovered and none removes a stale
one. -/
theorem mirrored_always_iff (config : DiscoveryConfig SocketAddr) (ops : List Operation) :
    Runs.Always (perform format) Mirrored (new config) ops ↔
      ∀ x ∈ Runs.trace (perform format) (new config) ops, x.1.Told x.2 := by
  apply Runs.always_iff
  · funext id
    rw [statusOf, new, AList.lookup_empty]
    rfl
  · intro x _ h
    exact mirrored_perform_iff format h x.2

end DiscoveryManager

end Discovery

end Crates

end CryptoCoin
