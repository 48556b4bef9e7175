import CryptoCoin.Crates.PeerTable
import Mathlib.Data.List.Perm.Subperm

/-!
# Choosing peers to connect

`peers_to_connect` shuffles the peers that may be dialed, keeps the first `count` of them
and drops those whose address does not parse. Whatever the order of iteration and the
shuffle, the peers that are kept are the first ones of some permutation of `dialable`,
and every permutation occurs (`forall_peersToConnect_iff`).

An address that does not parse is dropped after the truncation, so it may take the place of
one that does (`dialsFully_iff`). The seeds of the configuration are all entered under
the identifier of zeros, so that only the last one can be dialed (`seedsKept_iff`).
-/

namespace CryptoCoin

namespace Crates

namespace Discovery

open Wire (Bytes)

/-! ### Truncating a shuffled list -/

section

variable {α : Type}

def Shuffle.keep : Shuffle α := ⟨id, List.Perm.refl⟩

theorem Shuffle.exists_apply_eq {l order : List α} (h : order.Perm l) :
    ∃ shuffle : Shuffle α, shuffle.apply l = order := by
  classical
  refine ⟨⟨fun k => if k = l then order else k, ?_⟩, if_pos rfl⟩
  intro k
  by_cases hk : k = l
  · rw [if_pos hk, hk]
    exact h
  · rw [if_neg hk]

theorem countP_take_filter_append (p : α → Bool) (l : List α) (n : ℕ) :
    ((l.filter (fun a => !p a) ++ l.filter p).take n).countP p =
      min (n - (l.filter fun a => !p a).length) (l.countP p) := by
  have hbad : ((l.filter fun a => !p a).take n).countP p = 0 := by
    rw [List.countP_eq_zero]
    intro a ha
    have hnot := (List.mem_filter.mp (List.mem_of_mem_take ha)).2
    simpa using hnot
  have hgood : ∀ k, ((l.filter p).take k).countP p = min k (l.countP p) := by
    intro k
    rw [List.countP_eq_length_filter (l := l), ← List.length_take, List.countP_eq_length]
    intro a ha
    exact (List.mem_filter.mp (List.mem_of_mem_take ha)).2
  rw [List.take_append, List.countP_append, hbad, hgood, Nat.zero_add]

/-- The first `n` members of every permutation hold as many members with a property as
possible when the truncation is trivial or all members are alike. -/
theorem forall_perm_countP_take_iff (p : α → Bool) (l : List α) (n : ℕ) :
    (∀ order : List α, order.Perm l → (order.take n).countP p = min n (l.countP p)) ↔
      n = 0 ∨ (∀ a ∈ l, p a = false) ∨ (∀ a ∈ l, p a = true) ∨ l.length ≤ n := by
  constructor
  · intro h
    -- the worst order: the members with the property come last
    have hlast := h _ (List.perm_append_comm.trans (List.filter_append_perm p l))
    rw [countP_take_filter_append] at hlast
    have hlength : (l.filter fun a => !p a).length + l.countP p = l.length := by
      rw [List.countP_eq_length_filter, ← List.length_append]
      exact (List.perm_append_comm.trans (List.filter_append_perm p l)).length_eq
    by_cases hnone : l.countP p = 0
    · refine Or.inr (Or.inl ?_)
      intro a ha
      simpa using List.countP_eq_zero.mp hnone a ha
    · by_cases hall : (l.filter fun a => !p a).length = 0
      · refine Or.inr (Or.inr (Or.inl ?_))
        intro a ha
        exact List.countP_eq_length.mp (by omega) a ha
      · by_cases hn : n = 0
        · exact Or.inl hn
        · exact Or.inr (Or.inr (Or.inr (by omega)))
  · rintro (rfl | hnone | hall | hle) order horder
    · rw [List.take_zero, List.countP_nil, Nat.zero_min]
    · have hzero : ∀ k : List α, (∀ a ∈ k, a ∈ l) → k.countP p = 0 := by
        intro k hk
        rw [List.countP_eq_zero]
        intro a ha
        rw [hnone a (hk a ha)]
        exact Bool.false_ne_true
      rw [hzero _ fun a ha => horder.mem_iff.mp (List.mem_of_mem_take ha), hzero l fun a ha => ha,
        Nat.min_zero]
    · have hlength : ∀ k : List α, (∀ a ∈ k, a ∈ l) → k.countP p = k.length := by
        intro k hk
        rw [List.countP_eq_length]
        intro a ha
        exact hall a (hk a ha)
      rw [hlength _ fun a ha => horder.mem_iff.mp (List.mem_of_mem_take ha),
        hlength l fun a ha => ha, List.length_take, horder.length_eq]
    · rw [List.take_of_length_le (horder.length_eq.trans_le hle), horder.countP_eq p,
        Nat.min_eq_right (List.countP_le_length.trans hle)]

end

namespace DiscoveryManager

variable {SocketAddr : Type} (format : AddressFormat SocketAddr)
  {m : DiscoveryManager SocketAddr}

/-! ### Dialable peers -/

/-- The known peers that are not banned and that are discovered or disconnected. -/
def dialable (m : DiscoveryManager SocketAddr) : List (PeerId × TrackedPeer) :=
  m.entries.filter fun e =>
    e.1 ∉ m.banned ∧ (e.2.status = .discovered ∨ e.2.status = .disconnected)

def parses (e : PeerId × TrackedPeer) : Bool := (format.parse e.2.record.addr).isSome

def dialed (chosen : List (PeerId × TrackedPeer)) : List (SocketAddr × PeerId) :=
  chosen.filterMap fun e => (format.parse e.2.record.addr).map fun addr => (addr, e.1)

theorem map_snd_dialed (chosen : List (PeerId × TrackedPeer)) :
    (dialed format chosen).map Prod.snd = (chosen.filter (parses format)).map Prod.fst := by
  induction chosen with
  | nil => rfl
  | cons e chosen ih =>
      rw [dialed, List.filterMap_cons, List.filter_cons, parses]
      cases hparse : format.parse e.2.record.addr with
      | none => exact ih
      | some addr => exact congrArg (e.1 :: ·) ih

theorem length_dialed (chosen : List (PeerId × TrackedPeer)) :
    (dialed format chosen).length = chosen.countP (parses format) := by
  rw [← List.length_map (f := Prod.snd), map_snd_dialed, List.length_map,
    List.countP_eq_length_filter]

/-- In a consistent table the check of the record's identifier is one of the key. -/
theorem candidates_eq_dialable (hm : Consistent m.peers m.banned) :
    (m.entries.filter fun e => (e.2.status = .discovered ∨ e.2.status = .disconnected) ∧
      e.2.record.peerId ∉ m.banned) = m.dialable := by
  apply List.filter_congr
  intro e he
  rw [hm.ownId e.1 e.2 (lookup_of_mem_entries he)]
  exact decide_eq_decide.mpr and_comm

/-- The outcomes of `peers_to_connect` are those of the permutations of the dialable
peers. -/
theorem forall_peersToConnect_iff (hm : Consistent m.peers m.banned) (count : ℕ)
    (P : List (SocketAddr × PeerId) → Prop) :
    (∀ iter shuffle, P (m.peersToConnect format iter shuffle count)) ↔
      ∀ order : List (PeerId × TrackedPeer), order.Perm m.dialable →
        P (dialed format (order.take count)) := by
  constructor
  · intro h order horder
    rw [← candidates_eq_dialable hm] at horder
    obtain ⟨shuffle, hshuffle⟩ := Shuffle.exists_apply_eq horder
    have hP := h .keep shuffle
    rw [← hshuffle]
    exact hP
  · intro h iter shuffle
    apply h
    rw [← candidates_eq_dialable hm]
    exact (shuffle.perm _).trans ((iter.perm _).filter _)

/-- Distinct peers that may be dialed, as many as there are up to `count`. -/
structure DialsFully (m : DiscoveryManager SocketAddr) (count : ℕ) : Prop where
  distinct : ∀ iter shuffle, ((m.peersToConnect format iter shuffle count).map Prod.snd).Nodup
  allowed : ∀ iter shuffle, ∀ x ∈ m.peersToConnect format iter shuffle count,
    ∃ peer, m.peers.lookup x.2 = some peer ∧ x.2 ∉ m.banned ∧
      (peer.status = .discovered ∨ peer.status = .disconnected)
  full : ∀ iter shuffle, (m.peersToConnect format iter shuffle count).length =
    min count (m.dialable.countP (parses format))

theorem nodup_map_snd_peersToConnect (hm : Consistent m.peers m.banned)
    (iter shuffle : Shuffle (PeerId × TrackedPeer)) (count : ℕ) :
    ((m.peersToConnect format iter shuffle count).map Prod.snd).Nodup := by
  revert iter shuffle
  rw [forall_peersToConnect_iff format hm count fun l => (l.map Prod.snd).Nodup]
  intro order horder
  have hdialable : (m.dialable.map Prod.fst).Nodup :=
    (nodup_map_fst_entries m).sublist (List.filter_sublist.map Prod.fst)
  have horder : (order.map Prod.fst).Nodup := (horder.map Prod.fst).nodup_iff.mpr hdialable
  rw [map_snd_dialed]
  exact horder.sublist ((List.filter_sublist.trans (List.take_sublist count order)).map Prod.fst)

theorem allowed_of_mem_peersToConnect (hm : Consistent m.peers m.banned)
    {iter shuffle : Shuffle (PeerId × TrackedPeer)} {count : ℕ} {x : SocketAddr × PeerId}
    (h : x ∈ m.peersToConnect format iter shuffle count) :
    ∃ peer, m.peers.lookup x.2 = some peer ∧ x.2 ∉ m.banned ∧
      (peer.status = .discovered ∨ peer.status = .disconnected) := by
  obtain ⟨peer, hlookup, hstatus, hban⟩ := exists_of_mem_peersToConnect format h
  rw [hm.ownId x.2 peer hlookup] at hban
  exact ⟨peer, hlookup, hban, hstatus⟩

theorem dialsFully_iff_of_consistent (hm : Consistent m.peers m.banned) (count : ℕ) :
    DialsFully format m count ↔
      count = 0 ∨ (∀ e ∈ m.dialable, parses format e = false) ∨
        (∀ e ∈ m.dialable, parses format e = true) ∨ m.dialable.length ≤ count := by
  rw [← forall_perm_countP_take_iff (parses format) m.dialable count]
  have hfull := forall_peersToConnect_iff format hm count fun l =>
    l.length = min count (m.dialable.countP (parses format))
  simp only [length_dialed] at hfull
  rw [← hfull]
  constructor
  · intro h
    exact h.full
  · intro h
    exact ⟨fun iter shuffle => nodup_map_snd_peersToConnect format hm iter shuffle count,
      fun iter shuffle x hx => allowed_of_mem_peersToConnect format hm hx, h⟩

/-- In a reachable state as many peers as possible are dialed, whatever the shuffle,
exactly when nothing is truncated or the addresses of the dialable peers all parse or all do
not. -/
theorem dialsFully_iff (config : DiscoveryConfig SocketAddr) (ops : List Operation) (count : ℕ) :
    DialsFully format (Runs.run (perform format) (new config) ops) count ↔
      count = 0 ∨
        (∀ e ∈ (Runs.run (perform format) (new config) ops).dialable, parses format e = false) ∨
        (∀ e ∈ (Runs.run (perform format) (new config) ops).dialable, parses format e = true) ∨
        (Runs.run (perform format) (new config) ops).dialable.length ≤ count :=
  dialsFully_iff_of_consistent format (consistent_run format config ops) count

/-- One address, and the empty text is none. -/
def homeFormat : AddressFormat Unit :=
  ⟨fun text => if text = "" then none else some (), fun _ => "home", ()⟩

/-- Of two peers one has an address that parses. A shuffle that puts the other first leaves
nothing to dial. -/
theorem bad_address_dialed :
    ¬ DialsFully homeFormat (Runs.run (perform homeFormat) (new ⟨[], 10, 0, 1⟩)
      [.addPeers [(0, peerAt zeroBytes "home"), (0, peerAt (Bytes.replicate 32 1) "")]]) 1 := by
  rw [dialsFully_iff_of_consistent homeFormat (consistent_run homeFormat _ _)]
  decide

/-! ### Seeds -/

/-- After `bootstrap` of a new manager every seed is dialed once, whatever the shuffle. -/
def SeedsKept [DecidableEq SocketAddr] (config : DiscoveryConfig SocketAddr) : Prop :=
  ∀ (now : ℕ → Instant) (count : ℕ), config.bootstrapPeers.length ≤ count →
    ∀ iter shuffle, ∀ addr ∈ config.bootstrapPeers,
      ((((new config).bootstrap format now).peersToConnect format iter shuffle count).map
        Prod.fst).count addr = 1

theorem consistent_bootstrap (config : DiscoveryConfig SocketAddr) (now : ℕ → Instant) :
    Consistent ((new config).bootstrap format now).peers
      ((new config).bootstrap format now).banned :=
  consistent_run format config [.bootstrap now]

/-- All seeds share one identifier. -/
theorem knownPeersCount_bootstrap_le (config : DiscoveryConfig SocketAddr) (now : ℕ → Instant) :
    ((new config).bootstrap format now).knownPeersCount ≤ 1 := by
  have hzero : ((new config).bootstrap format now).knownIds ⊆ {zeroBytes} := by
    intro id hid
    rw [mem_knownIds, bootstrap, mem_peers_addPeers] at hid
    rcases hid with hid | ⟨_, hid⟩
    · exact absurd hid (AList.notMem_empty id)
    · rw [List.map_map, List.mem_map] at hid
      obtain ⟨_, _, rfl⟩ := hid
      exact Finset.mem_singleton_self zeroBytes
  rw [← card_knownIds]
  exact Finset.card_le_card hzero

theorem length_peersToConnect_le (iter shuffle : Shuffle (PeerId × TrackedPeer))
    (m : DiscoveryManager SocketAddr) (count : ℕ) :
    (m.peersToConnect format iter shuffle count).length ≤ m.knownPeersCount := by
  refine (List.length_filterMap_le _ _).trans ((List.length_take_le' _ _).trans ?_)
  rw [(shuffle.perm _).length_eq]
  refine (List.length_filter_le _ _).trans ?_
  rw [(iter.perm _).length_eq, entries, List.length_map, knownPeersCount]

theorem length_le_one_of_seedsKept [DecidableEq SocketAddr]
    {config : DiscoveryConfig SocketAddr} (hdistinct : config.bootstrapPeers.Nodup)
    (h : SeedsKept format config) : config.bootstrapPeers.length ≤ 1 := by
  have hsubset : config.bootstrapPeers ⊆ (((new config).bootstrap format id).peersToConnect format
      .keep .keep config.bootstrapPeers.length).map Prod.fst := by
    intro addr haddr
    apply List.count_pos_iff.mp
    rw [h id _ le_rfl .keep .keep addr haddr]
    exact Nat.one_pos
  calc config.bootstrapPeers.length
      ≤ _ := (List.subperm_of_subset hdistinct hsubset).length_le
    _ = _ := List.length_map _
    _ ≤ _ := length_peersToConnect_le format .keep .keep _ _
    _ ≤ 1 := knownPeersCount_bootstrap_le format config id

theorem seedsKept_of_length_le_one [DecidableEq SocketAddr]
    (hround : ∀ addr, format.parse (format.toString addr) = some addr)
    {config : DiscoveryConfig SocketAddr} (hone : config.bootstrapPeers.length ≤ 1) :
    SeedsKept format config := by
  obtain ⟨seeds, maxPeers, peerTimeout, targetOutgoing⟩ := config
  intro now count hcount iter shuffle addr haddr
  obtain ⟨seed, rfl⟩ :=
    List.length_eq_one_iff.mp (le_antisymm hone (List.length_pos_of_mem haddr))
  obtain rfl := List.mem_singleton.mp haddr
  revert iter shuffle
  rw [forall_peersToConnect_iff format (consistent_bootstrap format _ now) count
    fun l => (l.map Prod.fst).count addr = 1]
  intro order horder
  -- the table has the one seed, so there is nothing to shuffle
  have horder : order = [(zeroBytes, .discovered (now 0) (seedRecord format addr))] :=
    List.perm_singleton.mp horder
  have hdialed : dialed format [(zeroBytes, .discovered (now 0) (seedRecord format addr))] =
      [(addr, zeroBytes)] := by
    simp [dialed, TrackedPeer.discovered, seedRecord, hround]
  have htake : order.take count = order := by
    apply List.take_of_length_le
    rw [horder]
    exact hcount
  rw [htake, horder, hdialed, List.map_singleton, List.count_singleton_self]

/-- Distinct seeds are all dialed exactly when there is at most one. -/
theorem seedsKept_iff [DecidableEq SocketAddr]
    (hround : ∀ addr, format.parse (format.toString addr) = some addr)
    (config : DiscoveryConfig SocketAddr) (hdistinct : config.bootstrapPeers.Nodup) :
    SeedsKept format config ↔ config.bootstrapPeers.length ≤ 1 :=
  ⟨length_le_one_of_seedsKept format hdistinct, seedsKept_of_length_le_one format hround⟩

theorem single_seed_kept :
    (∀ addr, textFormat.parse (textFormat.toString addr) = some addr) ∧ ["seed"].Nodup ∧
      SeedsKept textFormat ⟨["seed"], 10, 0, 1⟩ := by
  have hround : ∀ addr, textFormat.parse (textFormat.toString addr) = some addr := by
    intro addr
    rfl
  have hdistinct : ["seed"].Nodup := List.nodup_singleton "seed"
  exact ⟨hround, hdistinct,
    (seedsKept_iff textFormat hround ⟨["seed"], 10, 0, 1⟩ hdistinct).mpr le_rfl⟩

theorem two_seeds_lost : ¬ SeedsKept textFormat ⟨["seed", "other"], 10, 0, 1⟩ := by
  intro h
  have hone := length_le_one_of_seedsKept textFormat (by decide) h
  exact absurd hone (by decide)

end DiscoveryManager

end Discovery

end Crates

end CryptoCoin
