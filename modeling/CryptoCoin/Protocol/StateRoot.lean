import CryptoCoin.Library.FreeHash
import CryptoCoin.Protocol.Block
import CryptoCoin.Protocol.FirstLeaf

/-!
# State roots

`computeStateRoot` hashes the bytes of every entry of the map and takes the Merkle root of
these hashes. The bytes of an entry hold its identifier, its address and its amount. The
data that an output may carry is not among them, so sets that differ only there have one
root under every hash function. All the rest is fixed, up to a collision.

Entries of 68 bytes and concatenated pairs of 64 bytes go through the same hash function.
The collisions are therefore taken among the byte strings that are hashed, not among pairs.

`computeGenesisStateRoot` does the same for the initial outputs of a configuration. It files
all of them under one identifier.
-/

namespace CryptoCoin

namespace Protocol

/-! ### Entries -/

/-- Sets with 32-byte transaction hashes and 20-byte addresses. -/
structure UTxOSet.Sized (s : UTxOSet) : Prop where
  txId : ∀ entry ∈ s.unUTxOSet.toAscList, entry.1.unUTxOId.1.hash.bytes.length = 32
  uAddress : ∀ entry ∈ s.unUTxOSet.toAscList, entry.2.uAddress.bytes.length = 20

theorem UTxOSet.sized_singleton {uid : UTxOId} {utxo : UTxO}
    (htxId : uid.unUTxOId.1.hash.bytes.length = 32)
    (haddress : utxo.uAddress.bytes.length = 20) :
    UTxOSet.Sized ⟨AscMap.singleton uid utxo⟩ := by
  constructor
  · intro entry hentry
    rw [List.mem_singleton.mp hentry]
    exact htxId
  · intro entry hentry
    rw [List.mem_singleton.mp hentry]
    exact haddress

/-- What an entry says apart from its data. -/
def coinOf (entry : UTxOId × UTxO) : UTxOId × Address × Amount :=
  (entry.1, entry.2.uAddress, entry.2.uAmount)

def UTxOSet.coins (s : UTxOSet) : List (UTxOId × Address × Amount) :=
  s.unUTxOSet.toAscList.map coinOf

def UTxOSet.entryBytes (s : UTxOSet) : List ByteString :=
  s.unUTxOSet.toAscList.map fun entry => serializeUTxOEntry entry.1 entry.2

theorem entryBytes_eq_of_coins_eq {s₁ s₂ : UTxOSet} (h : s₁.coins = s₂.coins) :
    s₁.entryBytes = s₂.entryBytes := by
  have hcoins : ∀ s : UTxOSet, s.entryBytes = s.coins.map fun coin =>
      serializeUTxOId coin.1 ++ serializeAddress coin.2.1 ++ serializeAmount coin.2.2 := by
    intro s
    rw [UTxOSet.coins, List.map_map]
    rfl
  rw [hcoins, hcoins, h]

theorem UTxOSet.Sized.length_of_mem {s : UTxOSet} (hs : s.Sized) {bs : ByteString}
    (h : bs ∈ s.entryBytes) : bs.length = 68 := by
  obtain ⟨entry, hentry, rfl⟩ := List.mem_map.mp h
  simp only [serializeUTxOEntry, serializeUTxOId, serializeTxId, serializeAddress,
    serializeAmount, List.length_append, length_serializeWord64, hs.txId entry hentry,
    hs.uAddress entry hentry]

theorem coinOf_eq_of_serializeUTxOEntry_eq {a b : UTxOId × UTxO}
    (htxId : a.1.unUTxOId.1.hash.bytes.length = b.1.unUTxOId.1.hash.bytes.length)
    (haddress : a.2.uAddress.bytes.length = b.2.uAddress.bytes.length)
    (h : serializeUTxOEntry a.1 a.2 = serializeUTxOEntry b.1 b.2) : coinOf a = coinOf b := by
  obtain ⟨⟨⟨⟨⟨txId₁⟩⟩, index₁⟩⟩, _, ⟨address₁⟩, ⟨amount₁⟩, data₁⟩ := a
  obtain ⟨⟨⟨⟨⟨txId₂⟩⟩, index₂⟩⟩, _, ⟨address₂⟩, ⟨amount₂⟩, data₂⟩ := b
  simp only [serializeUTxOEntry, serializeUTxOId, List.append_assoc] at h
  obtain ⟨htx, h⟩ := List.append_inj h htxId
  obtain ⟨hindex, h⟩ := List.append_inj h rfl
  obtain ⟨haddr, hamount⟩ := List.append_inj h haddress
  cases (show txId₁ = txId₂ from htx)
  cases (show address₁ = address₂ from haddr)
  cases serializeWord64_inj hindex
  cases serializeWord64_inj hamount
  rfl

theorem coins_eq_of_entryBytes_eq {s₁ s₂ : UTxOSet} (hs₁ : s₁.Sized) (hs₂ : s₂.Sized)
    (h : s₁.entryBytes = s₂.entryBytes) : s₁.coins = s₂.coins := by
  apply Words.map_eq_map_of_imp _ h
  intro a ha b hb hbytes
  exact coinOf_eq_of_serializeUTxOEntry_eq ((hs₁.txId a ha).trans (hs₂.txId b hb).symm)
    ((hs₁.uAddress a ha).trans (hs₂.uAddress b hb).symm) hbytes

theorem UTxOSet.Sized.nodup_entryBytes {s : UTxOSet} (hs : s.Sized) : s.entryBytes.Nodup := by
  rw [UTxOSet.entryBytes, List.Nodup, List.pairwise_map]
  apply s.unUTxOSet.ascending.imp_of_mem
  intro a b ha hb hlt hbytes
  have hcoin := coinOf_eq_of_serializeUTxOEntry_eq ((hs.txId a ha).trans (hs.txId b hb).symm)
    ((hs.uAddress a ha).trans (hs.uAddress b hb).symm) hbytes
  have hkey : a.1 = b.1 := (Prod.mk.inj hcoin).1
  rw [hkey] at hlt
  exact UTxOId.lt_irrefl b.1 hlt

/-! ### Roots -/

section

variable (hash : ByteString → Hash)

/-- `computeStateRoot` with an arbitrary hash function. -/
def stateRoot (s : UTxOSet) : Hash := Merkle.computeRoot hash (s.entryBytes.map hash)

theorem computeStateRoot_eq (s : UTxOSet) : computeStateRoot s = stateRoot Crypto.hash s := by
  rw [computeStateRoot, stateRoot, UTxOSet.entryBytes, List.map_map]
  rfl

/-- The byte strings that are hashed while the root of a set is computed. -/
def stateRootInputs (s : UTxOSet) : List ByteString :=
  s.entryBytes ++
    (Merkle.rootInputs hash (s.entryBytes.map hash)).map fun p => p.1.bytes ++ p.2.bytes

/-- Two different byte strings of the list have the same hash. -/
def HashCollision (inputs : List ByteString) : Prop :=
  ∃ x ∈ inputs, ∃ y ∈ inputs, x ≠ y ∧ hash x = hash y

/-- Sets with one root are equal, or a collision occurred. -/
def StateRootBinds (s₁ s₂ : UTxOSet) : Prop :=
  stateRoot hash s₁ = stateRoot hash s₂ →
    s₁ = s₂ ∨ HashCollision hash (stateRootInputs hash s₁ ++ stateRootInputs hash s₂)

variable {hash} (hdigest : ∀ bs, (hash bs).bytes.length = 32)
include hdigest

/-- A collision of pairs of leaves or nodes is one of byte strings: the two hashes of a pair
can be told apart in their concatenation. -/
theorem hashCollision_of_collision {s₁ s₂ : UTxOSet}
    (h : HashTree.Collision (Merkle.combineHashes hash)
      (Merkle.rootInputs hash (s₁.entryBytes.map hash) ++
        Merkle.rootInputs hash (s₂.entryBytes.map hash))) :
    HashCollision hash (stateRootInputs hash s₁ ++ stateRootInputs hash s₂) := by
  have hsized : ∀ s : UTxOSet, ∀ x ∈ s.entryBytes.map hash, x.bytes.length = 32 := by
    intro s x hx
    obtain ⟨bs, _, rfl⟩ := List.mem_map.mp hx
    exact hdigest bs
  have hmem : ∀ p ∈ Merkle.rootInputs hash (s₁.entryBytes.map hash) ++
      Merkle.rootInputs hash (s₂.entryBytes.map hash), p.1.bytes.length = 32 ∧
        p.1.bytes ++ p.2.bytes ∈ stateRootInputs hash s₁ ++ stateRootInputs hash s₂ := by
    intro p hp
    rcases List.mem_append.mp hp with hp | hp
    · exact ⟨(Merkle.length_of_mem_rootInputs hash hdigest (hsized s₁) hp).1,
        List.mem_append_left _ (List.mem_append_right _ (List.mem_map_of_mem hp))⟩
    · exact ⟨(Merkle.length_of_mem_rootInputs hash hdigest (hsized s₂) hp).1,
        List.mem_append_right _ (List.mem_append_right _ (List.mem_map_of_mem hp))⟩
  obtain ⟨p, hp, q, hq, hne, heq⟩ := h
  obtain ⟨hpl, hpmem⟩ := hmem p hp
  obtain ⟨hql, hqmem⟩ := hmem q hq
  refine ⟨_, hpmem, _, hqmem, ?_, heq⟩
  intro hbytes
  obtain ⟨hfst, hsnd⟩ := List.append_inj hbytes (hpl.trans hql.symm)
  exact hne (Prod.ext (congrArg Hash.mk hfst) (congrArg Hash.mk hsnd))

theorem coins_eq_of_stateRoot_eq {s₁ s₂ : UTxOSet} (hs₁ : s₁.Sized) (hs₂ : s₂.Sized)
    (hsize : s₁.entryBytes.length = s₂.entryBytes.length)
    (hroot : stateRoot hash s₁ = stateRoot hash s₂)
    (hcol : ¬ HashCollision hash (stateRootInputs hash s₁ ++ stateRootInputs hash s₂)) :
    s₁.coins = s₂.coins := by
  have hhashes : s₁.entryBytes.map hash = s₂.entryBytes.map hash := by
    apply Merkle.eq_of_computeRoot_eq hash _ hroot
    · exact fun hc => hcol (hashCollision_of_collision hdigest hc)
    · rw [List.length_map, List.length_map, hsize]
  apply coins_eq_of_entryBytes_eq hs₁ hs₂
  have hbytes : s₁.entryBytes.map id = s₂.entryBytes.map id := by
    apply Words.map_eq_map_of_imp _ hhashes
    intro x hx y hy heq
    by_contra hne
    exact hcol ⟨x, List.mem_append_left _ (List.mem_append_left _ hx), y,
      List.mem_append_right _ (List.mem_append_left _ hy), hne, heq⟩
  rwa [List.map_id, List.map_id] at hbytes

end

/-! ### A hash without collisions -/

/-- The digest of the entries from position `start` on, `size` in number. -/
def span (start size : ℕ) : Hash := ⟨Words.beBytes 16 start ++ Words.beBytes 16 size⟩

def spanStart (h : Hash) : ℕ := Words.ofBeBytes (h.bytes.take 16)

def spanSize (h : Hash) : ℕ := Words.ofBeBytes (h.bytes.drop 16)

/-- The hash that finds the position of an entry, and joins the spans of a pair. -/
def spanHash (entries : List ByteString) (bs : ByteString) : Hash :=
  if bs.length = 64 then
    span (spanStart ⟨bs.take 32⟩) (spanSize ⟨bs.take 32⟩ + spanSize ⟨bs.drop 32⟩)
  else span (entries.idxOf bs) 1

theorem length_span (start size : ℕ) : (span start size).bytes.length = 32 := by
  simp [span]

theorem length_spanHash (entries : List ByteString) (bs : ByteString) :
    (spanHash entries bs).bytes.length = 32 := by
  rw [spanHash]
  split <;> exact length_span _ _

theorem spanStart_span {start : ℕ} (h : start ≤ 2 ^ 63) (size : ℕ) :
    spanStart (span start size) = start := by
  have hbound : (2 : ℕ) ^ 63 < 256 ^ 16 := by decide
  rw [spanStart, span, List.take_left' (Words.length_beBytes 16 start), Words.ofBeBytes_beBytes,
    Nat.mod_eq_of_lt (by omega)]

theorem spanSize_span (start : ℕ) {size : ℕ} (h : size ≤ 2 ^ 63) :
    spanSize (span start size) = size := by
  have hbound : (2 : ℕ) ^ 63 < 256 ^ 16 := by decide
  rw [spanSize, span, List.drop_left' (Words.length_beBytes 16 start), Words.ofBeBytes_beBytes,
    Nat.mod_eq_of_lt (by omega)]

theorem combineHashes_spanHash (entries : List ByteString) {a b : Hash}
    (ha : a.bytes.length = 32) (hb : b.bytes.length = 32) :
    Merkle.combineHashes (spanHash entries) a b = span (spanStart a) (spanSize a + spanSize b) := by
  rw [Merkle.combineHashes, spanHash, if_pos (by rw [List.length_append, ha, hb]),
    List.take_left' ha, List.drop_left' ha]

theorem combineHashes_span (entries : List ByteString) {start m n : ℕ}
    (h : start + m + n ≤ 2 ^ 63) :
    Merkle.combineHashes (spanHash entries) (span start m) (span (start + m) n) =
      span start (m + n) := by
  rw [combineHashes_spanHash entries (length_span _ _) (length_span _ _),
    spanStart_span (by omega), spanSize_span _ (by omega), spanSize_span _ (by omega)]

theorem map_spanHash {entries : List ByteString} (hnodup : entries.Nodup)
    (hlen : ∀ bs ∈ entries, bs.length = 68) :
    entries.map (spanHash entries) = (List.range' 0 entries.length).map fun i => span i 1 := by
  apply List.ext_getElem (by simp)
  intro i hi _
  rw [List.length_map] at hi
  rw [List.getElem_map, List.getElem_map, List.getElem_range', spanHash,
    hlen _ (List.getElem_mem hi), if_neg (by decide), hnodup.idxOf_getElem i hi, Nat.one_mul,
    Nat.zero_add]

theorem not_hashCollision_of_spans {hash : ByteString → Hash} {inputs : List ByteString}
    (read : ℕ → ℕ → ByteString)
    (h : ∀ x ∈ inputs, ∃ s k, s + k ≤ 2 ^ 63 ∧ hash x = span s k ∧ x = read s k) :
    ¬ HashCollision hash inputs := by
  rintro ⟨x, hx, y, hy, hne, heq⟩
  obtain ⟨s, k, hk, hxhash, rfl⟩ := h x hx
  obtain ⟨s', k', hk', hyhash, rfl⟩ := h y hy
  rw [hxhash, hyhash] at heq
  have hstart := congrArg spanStart heq
  have hsize := congrArg spanSize heq
  rw [spanStart_span (by omega), spanStart_span (by omega)] at hstart
  rw [spanSize_span _ (by omega), spanSize_span _ (by omega)] at hsize
  exact hne (by rw [hstart, hsize])

theorem rootInputs_spanHash {entries : List ByteString} (hnodup : entries.Nodup)
    (hlen : ∀ bs ∈ entries, bs.length = 68) (htwo : 2 ≤ entries.length)
    (hsize : entries.length < 2 ^ 63) :
    ∀ p ∈ Merkle.rootInputs (spanHash entries) (entries.map (spanHash entries)),
      ∃ s k, 2 ≤ k ∧ s + k ≤ 2 ^ 63 ∧ p = HashTree.spanPair span s k ∧
        spanHash entries (p.1.bytes ++ p.2.bytes) = span s k := by
  intro p hp
  have htwo' : 2 ≤ (entries.map (spanHash entries)).length := by rwa [List.length_map]
  have htree := Merkle.halves_paddedTree (spanHash entries) htwo'
  rw [Merkle.rootInputs_of_two_le _ htwo'] at hp
  generalize Merkle.paddedTree (spanHash entries) (entries.map (spanHash entries)) = tree
    at htree hp
  have hjoin : ∀ s m n, s + m + n ≤ 2 ^ 63 → Merkle.combineHashes (spanHash entries) (span s m)
      (span (s + m) n) = span s (m + n) := fun s m n h => combineHashes_span entries h
  rw [map_spanHash hnodup hlen] at htree
  obtain ⟨s, k, hk, hbound, rfl⟩ := (htree.of_spans hjoin (by omega)).2 p hp
  exact ⟨s, k, hk, hbound, rfl, HashTree.combine_spanPair hjoin hbound⟩

theorem not_hashCollision_singleton {entry : ByteString} (hlen : entry.length = 68) :
    ¬ HashCollision (spanHash [entry]) [entry, (spanHash [entry] entry).bytes ++
      (spanHash [entry] entry).bytes] := by
  have hentry : spanHash [entry] entry = span 0 1 := by
    rw [spanHash, hlen, if_neg (by decide), List.idxOf_cons_self]
  have hpair : spanHash [entry] ((span 0 1).bytes ++ (span 0 1).bytes) = span 0 2 :=
    combineHashes_spanHash [entry] (length_span 0 1) (length_span 0 1)
  rw [hentry]
  apply not_hashCollision_of_spans fun _ k => if k = 1 then entry else
    (span 0 1).bytes ++ (span 0 1).bytes
  intro x hx
  rcases List.mem_cons.mp hx with rfl | hx
  · exact ⟨0, 1, by decide, hentry, rfl⟩
  · rw [List.mem_singleton.mp hx]
    exact ⟨0, 2, by decide, hpair, rfl⟩

/-- For every set there is a hash function without a collision in the computation of its
root. -/
theorem exists_not_hashCollision {s : UTxOSet} (hs : s.Sized)
    (hsize : s.entryBytes.length < 2 ^ 63) :
    ∃ hash : ByteString → Hash, (∀ bs, (hash bs).bytes.length = 32) ∧
      ¬ HashCollision hash (stateRootInputs hash s) := by
  have hnodup := hs.nodup_entryBytes
  have hlen : ∀ bs ∈ s.entryBytes, bs.length = 68 := fun bs h => hs.length_of_mem h
  refine ⟨spanHash s.entryBytes, length_spanHash _, ?_⟩
  rw [stateRootInputs]
  generalize s.entryBytes = entries at hnodup hlen hsize
  rcases entries with _ | ⟨entry, _ | ⟨entry', entries⟩⟩
  · rintro ⟨x, hx, _⟩
    cases hx
  · exact not_hashCollision_singleton (hlen entry List.mem_cons_self)
  · generalize hall : entry :: entry' :: entries = all at hnodup hlen hsize
    have htwo : 2 ≤ all.length := by simp [← hall]
    apply not_hashCollision_of_spans fun s k => if k = 1 then (all[s]?).getD [] else
      (HashTree.spanPair span s k).1.bytes ++ (HashTree.spanPair span s k).2.bytes
    intro x hx
    rcases List.mem_append.mp hx with hx | hx
    · -- an entry is found at its position
      have hidx := List.idxOf_lt_length_of_mem hx
      refine ⟨all.idxOf x, 1, by omega, ?_, ?_⟩
      · rw [spanHash, hlen x hx, if_neg (by decide)]
      · rw [if_pos rfl, List.getElem?_eq_getElem hidx, Option.getD_some, List.getElem_idxOf]
    · obtain ⟨p, hp, rfl⟩ := List.mem_map.mp hx
      obtain ⟨s, k, hk, hbound, rfl, hspan⟩ := rootInputs_spanHash hnodup hlen htwo hsize p hp
      exact ⟨s, k, hbound, hspan, by rw [if_neg (by omega)]⟩

/-! ### The state root and the data -/

theorem length_entryBytes (s : UTxOSet) :
    s.entryBytes.length = s.unUTxOSet.toAscList.length := List.length_map _

theorem exists_not_stateRootBinds {s₁ s₂ : UTxOSet} (hs₁ : s₁.Sized)
    (hsize : s₁.unUTxOSet.toAscList.length < 2 ^ 63) (hcoins : s₁.coins = s₂.coins)
    (hne : s₁ ≠ s₂) :
    ∃ hash : ByteString → Hash, (∀ bs, (hash bs).bytes.length = 32) ∧
      ¬ StateRootBinds hash s₁ s₂ := by
  obtain ⟨hash, hdigest, hcol⟩ := exists_not_hashCollision hs₁ (by rwa [length_entryBytes])
  have hbytes := entryBytes_eq_of_coins_eq hcoins
  refine ⟨hash, hdigest, ?_⟩
  intro hbinds
  rcases hbinds (by rw [stateRoot, stateRoot, hbytes]) with heq | ⟨x, hx, y, hy, hxy⟩
  · exact hne heq
  · have hinputs : stateRootInputs hash s₂ = stateRootInputs hash s₁ := by
      rw [stateRootInputs, stateRootInputs, hbytes]
    rw [hinputs, List.mem_append, or_self] at hx hy
    exact hcol ⟨x, hx, y, hy, hxy⟩

/-- Under every hash function the roots of equally large sets bind them exactly when the
sets differ apart from their data, or do not differ at all. -/
theorem stateRootBinds_iff_coins {s₁ s₂ : UTxOSet} (hs₁ : s₁.Sized) (hs₂ : s₂.Sized)
    (hsize : s₁.unUTxOSet.toAscList.length = s₂.unUTxOSet.toAscList.length) :
    ((s₁.coins = s₂.coins → s₁ = s₂) →
      ∀ hash : ByteString → Hash, (∀ bs, (hash bs).bytes.length = 32) →
        StateRootBinds hash s₁ s₂) ∧
    (s₁.unUTxOSet.toAscList.length < 2 ^ 63 →
      (∀ hash : ByteString → Hash, (∀ bs, (hash bs).bytes.length = 32) →
        StateRootBinds hash s₁ s₂) → s₁.coins = s₂.coins → s₁ = s₂) := by
  constructor
  · intro hdata hash hdigest hroot
    by_cases hcol : HashCollision hash (stateRootInputs hash s₁ ++ stateRootInputs hash s₂)
    · exact Or.inr hcol
    · refine Or.inl (hdata (coins_eq_of_stateRoot_eq hdigest hs₁ hs₂ ?_ hroot hcol))
      rw [length_entryBytes, length_entryBytes, hsize]
  · intro hbound hbinds hcoins
    by_contra hne
    obtain ⟨hash, hdigest, hnot⟩ := exists_not_stateRootBinds hs₁ hbound hcoins hne
    exact hnot (hbinds hash hdigest)

def noteOutput (note : Option ByteString) : UTxO :=
  { uId := ⟨⟨⟨List.replicate 32 1⟩⟩, 0⟩
    uAddress := ⟨List.replicate 20 2⟩
    uAmount := ⟨5⟩
    uData := note }

def noteSet (note : Option ByteString) : UTxOSet :=
  ⟨AscMap.singleton (noteOutput note).uId (noteOutput note)⟩

theorem sized_noteSet (note : Option ByteString) : (noteSet note).Sized :=
  UTxOSet.sized_singleton rfl rfl

def richerSet : UTxOSet :=
  ⟨AscMap.singleton (noteOutput none).uId { noteOutput none with uAmount := ⟨6⟩ }⟩

/-- The amounts 5 and 6. -/
theorem stateRootBinds_richerSet :
    (noteSet none).Sized ∧ richerSet.Sized ∧ (noteSet none).coins ≠ richerSet.coins ∧
      ∀ hash : ByteString → Hash, (∀ bs, (hash bs).bytes.length = 32) →
        StateRootBinds hash (noteSet none) richerSet := by
  have hsized : richerSet.Sized := UTxOSet.sized_singleton rfl rfl
  have hne : (noteSet none).coins ≠ richerSet.coins := by decide
  exact ⟨sized_noteSet none, hsized, hne,
    (stateRootBinds_iff_coins (sized_noteSet none) hsized rfl).1 fun h => absurd h hne⟩

theorem noteSet_injective {n₁ n₂ : Option ByteString} (h : noteSet n₁ = noteSet n₂) : n₁ = n₂ := by
  have hlist : [((noteOutput n₁).uId, noteOutput n₁)] = [((noteOutput n₂).uId, noteOutput n₂)] :=
    congrArg (fun s : UTxOSet => s.unUTxOSet.toAscList) h
  exact congrArg UTxO.uData (Prod.mk.inj (List.cons.inj hlist).1).2

/-- The same output with and without a note. -/
theorem note_not_fixed :
    (noteSet none).Sized ∧ (noteSet (some [1])).Sized ∧ noteSet none ≠ noteSet (some [1]) ∧
      computeStateRoot (noteSet none) = computeStateRoot (noteSet (some [1])) ∧
      ∃ hash : ByteString → Hash, (∀ bs, (hash bs).bytes.length = 32) ∧
        ¬ StateRootBinds hash (noteSet none) (noteSet (some [1])) := by
  have hne : noteSet none ≠ noteSet (some [1]) := fun h => by cases noteSet_injective h
  exact ⟨sized_noteSet _, sized_noteSet _, hne, rfl,
    exists_not_stateRootBinds (sized_noteSet none) (by decide) rfl hne⟩

/-! ### The repository's own hash -/

/-- With the repository's own hash every set with an output meets a collision: the bytes of
the first entry and the last pair are both hashed to the entry's transaction hash. -/
theorem hashCollision_stateRootInputs {s : UTxOSet} (hs : s.Sized) (hne : s.entryBytes ≠ []) :
    HashCollision Crypto.hash (stateRootInputs Crypto.hash s) := by
  obtain ⟨entry, entries, hcons⟩ := List.exists_cons_of_ne_nil hne
  have hlen : entry.length = 68 := hs.length_of_mem (by rw [hcons]; exact List.mem_cons_self)
  have hsized : ∀ x ∈ s.entryBytes.map Crypto.hash, x.bytes.length = 32 := by
    intro x hx
    obtain ⟨bs, _, rfl⟩ := List.mem_map.mp hx
    exact Crypto.length_hash bs
  -- the root is computed from one pair, and it is the hash of the first entry
  obtain ⟨p, hp, hroot⟩ := Merkle.exists_mem_rootInputs Crypto.hash
    (show s.entryBytes.map Crypto.hash ≠ [] by simpa using hne)
  obtain ⟨hfst, hsnd⟩ := Merkle.length_of_mem_rootInputs Crypto.hash Crypto.length_hash hsized hp
  refine ⟨entry, ?_, p.1.bytes ++ p.2.bytes, ?_, ?_, ?_⟩
  · exact List.mem_append_left _ (by rw [hcons]; exact List.mem_cons_self)
  · exact List.mem_append_right _ (List.mem_map_of_mem hp)
  · intro heq
    rw [heq, List.length_append, hfst, hsnd] at hlen
    exact absurd hlen (by decide)
  · rw [hcons, List.map_cons] at hsized hroot
    rw [Merkle.computeRoot_hash hsized] at hroot
    exact hroot

/-! ### The genesis state -/

/-- The first component. The source writes this function for triples and applies it to the
pair that its `unzip3` returns. -/
def fst3 {α β : Type} (p : α × β) : α := p.1

/-- The source's own `unzip3`, which unzips nothing. -/
def unzip3 (xs : List (Address × Amount)) : List (Address × Amount) × List (Address × Amount) :=
  (xs.map fun (a, b) => (a, b), [])

def genesisId (initial : Address × Amount) : UTxOId :=
  ⟨⟨⟨[]⟩⟩, UInt64.ofNat (fst3 (unzip3 [(initial.1, initial.2)])).length⟩

def genesisOutput (initial : Address × Amount) : UTxO :=
  { uId := genesisId initial
    uAddress := initial.1
    uAmount := initial.2
    uData := none }

def computeGenesisStateRoot (gc : GenesisConfig) : Hash :=
  Merkle.computeRoot Crypto.hash (gc.gcInitialUtxos.map fun initial =>
    Crypto.hash (serializeUTxOEntry (genesisId initial) (genesisOutput initial)))

/-- The set holds every initial output under its identifier. -/
def UTxOSet.HoldsInitial (utxoSet : UTxOSet) (gc : GenesisConfig) : Prop :=
  ∀ initial ∈ gc.gcInitialUtxos,
    AscMap.lookup (genesisId initial) utxoSet.unUTxOSet = some (genesisOutput initial)

/-- The list whose length is the index has one member, whatever the output. -/
theorem genesisId_eq (initial : Address × Amount) : genesisId initial = ⟨⟨⟨[]⟩⟩, 1⟩ := rfl

theorem nodup_genesisIds_iff (gc : GenesisConfig) :
    (gc.gcInitialUtxos.map genesisId).Nodup ↔ gc.gcInitialUtxos.length ≤ 1 := by
  have hids : gc.gcInitialUtxos.map genesisId =
      List.replicate gc.gcInitialUtxos.length ⟨⟨⟨[]⟩⟩, 1⟩ :=
    List.map_eq_replicate_iff.mpr fun initial _ => genesisId_eq initial
  rw [hids, List.nodup_replicate]

/-- The identifiers of the initial outputs are distinct, and the root is that of a set which
holds them all, exactly when there is at most one. -/
theorem genesis_distinct_iff (gc : GenesisConfig) :
    ((gc.gcInitialUtxos.map genesisId).Nodup ∧
      ∃ utxoSet : UTxOSet, utxoSet.HoldsInitial gc ∧
        computeGenesisStateRoot gc = computeStateRoot utxoSet) ↔
      gc.gcInitialUtxos.length ≤ 1 := by
  constructor
  · rintro ⟨hnodup, _⟩
    exact (nodup_genesisIds_iff gc).mp hnodup
  · intro hlen
    refine ⟨(nodup_genesisIds_iff gc).mpr hlen, ?_⟩
    obtain ⟨initials⟩ := gc
    match initials, hlen with
    | [], _ =>
        refine ⟨⟨AscMap.empty⟩, ?_, rfl⟩
        intro initial hmem
        cases hmem
    | [initial], _ =>
        refine ⟨⟨AscMap.singleton (genesisId initial) (genesisOutput initial)⟩, ?_, rfl⟩
        intro initial' hmem
        rw [List.mem_singleton.mp hmem]
        exact AscMap.lookup_singleton _ _

def twoAccounts : GenesisConfig :=
  ⟨[(⟨List.replicate 20 1⟩, ⟨5⟩), (⟨List.replicate 20 2⟩, ⟨7⟩)]⟩

/-- The two accounts share an identifier, and no set holds both of their outputs. -/
theorem twoAccounts_share_id :
    ¬ (twoAccounts.gcInitialUtxos.map genesisId).Nodup ∧
      ∀ utxoSet : UTxOSet, ¬ utxoSet.HoldsInitial twoAccounts := by
  refine ⟨by decide, ?_⟩
  intro utxoSet hholds
  have hfst := hholds (⟨List.replicate 20 1⟩, ⟨5⟩) (by simp [twoAccounts])
  have hsnd := hholds (⟨List.replicate 20 2⟩, ⟨7⟩) (by simp [twoAccounts])
  rw [genesisId_eq] at hfst hsnd
  rw [hfst] at hsnd
  exact absurd (congrArg (Option.map UTxO.uAmount) hsnd) (by decide)

end Protocol

end CryptoCoin
