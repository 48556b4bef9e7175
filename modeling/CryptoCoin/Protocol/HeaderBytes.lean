import CryptoCoin.Protocol.Serialize

/-!
# What the bytes of a header fix

`serializeHeader` concatenates ten fields. With hashes of 32 and addresses of 20 bytes
every field has a fixed width, and all of them but the time can be read back. A time is
rounded to a second and reduced modulo `2 ^ 64` first, so the bytes fix it only among times
that are rounded differently. The hash of a block and its signature are computed from these
bytes and fix no more.
-/

namespace CryptoCoin

namespace Protocol

structure BlockHeader.Sized (h : BlockHeader) : Prop where
  bhParentHash : h.bhParentHash.bytes.length = 32
  bhValidator : h.bhValidator.address.bytes.length = 20
  bhMerkleRoot : h.bhMerkleRoot.unMerkleRoot.bytes.length = 32
  bhStateRoot : h.bhStateRoot.bytes.length = 32

/-- The headers agree on every field but the signature. -/
def BlockHeader.SameFields (h₁ h₂ : BlockHeader) : Prop :=
  { h₁ with bhSignature := h₂.bhSignature } = h₂

theorem sameFields_of_serializeHeader_eq {h₁ h₂ : BlockHeader} (hs₁ : h₁.Sized) (hs₂ : h₂.Sized)
    (htime : h₁.bhTimestamp.round = h₂.bhTimestamp.round → h₁.bhTimestamp = h₂.bhTimestamp)
    (h : serializeHeader h₁ = serializeHeader h₂) : h₁.SameFields h₂ := by
  obtain ⟨⟨parent₁⟩, ⟨number₁⟩, ⟨slot₁⟩, ⟨epoch₁⟩, time₁, ⟨⟨address₁⟩⟩, ⟨⟨root₁⟩⟩, ⟨state₁⟩, nonce₁,
    version₁, sig₁⟩ := h₁
  obtain ⟨⟨parent₂⟩, ⟨number₂⟩, ⟨slot₂⟩, ⟨epoch₂⟩, time₂, ⟨⟨address₂⟩⟩, ⟨⟨root₂⟩⟩, ⟨state₂⟩, nonce₂,
    version₂, sig₂⟩ := h₂
  simp only [serializeHeader, List.append_assoc] at h
  obtain ⟨hparent, h⟩ := List.append_inj h (hs₁.bhParentHash.trans hs₂.bhParentHash.symm)
  obtain ⟨hnumber, h⟩ := List.append_inj h rfl
  obtain ⟨hslot, h⟩ := List.append_inj h rfl
  obtain ⟨hepoch, h⟩ := List.append_inj h rfl
  obtain ⟨hround, h⟩ := List.append_inj h rfl
  obtain ⟨haddress, h⟩ := List.append_inj h (hs₁.bhValidator.trans hs₂.bhValidator.symm)
  obtain ⟨hroot, h⟩ := List.append_inj h (hs₁.bhMerkleRoot.trans hs₂.bhMerkleRoot.symm)
  obtain ⟨hstate, h⟩ := List.append_inj h (hs₁.bhStateRoot.trans hs₂.bhStateRoot.symm)
  obtain ⟨hnonce, hversion⟩ := List.append_inj h rfl
  cases (show parent₁ = parent₂ from hparent)
  cases (show address₁ = address₂ from haddress)
  cases (show root₁ = root₂ from hroot)
  cases (show state₁ = state₂ from hstate)
  cases serializeWord64_inj hnumber
  cases serializeWord64_inj hslot
  cases serializeWord64_inj hepoch
  cases serializeWord64_inj hnonce
  cases serializeWord32_inj hversion
  cases htime (serializeWord64_inj hround)
  rfl

def headerAt (t : Timestamp) : BlockHeader :=
  { bhParentHash := ⟨List.replicate 32 0⟩
    bhBlockNumber := ⟨1⟩
    bhSlotNumber := ⟨1⟩
    bhEpochNumber := ⟨0⟩
    bhTimestamp := t
    bhValidator := ⟨⟨List.replicate 20 1⟩⟩
    bhMerkleRoot := ⟨⟨List.replicate 32 0⟩⟩
    bhStateRoot := ⟨List.replicate 32 0⟩
    bhNonce := 0
    bhVersion := 1
    bhSignature := ⟨[]⟩ }

theorem sized_headerAt (t : Timestamp) : (headerAt t).Sized := ⟨rfl, rfl, rfl, rfl⟩

theorem serializeHeader_headerAt_eq {t₁ t₂ : Timestamp} (h : t₁.round = t₂.round) :
    serializeHeader (headerAt t₁) = serializeHeader (headerAt t₂) := by
  simp only [serializeHeader, headerAt, serializeTimestamp, h]

/-- For given times, equal bytes come from headers with equal fields exactly when the times
are equal or rounded differently. -/
theorem serializeHeader_injective_iff (t₁ t₂ : Timestamp) :
    (∀ h₁ h₂ : BlockHeader, h₁.Sized → h₂.Sized → h₁.bhTimestamp = t₁ → h₂.bhTimestamp = t₂ →
        serializeHeader h₁ = serializeHeader h₂ → h₁.SameFields h₂) ↔
      t₁ = t₂ ∨ t₁.round ≠ t₂.round := by
  constructor
  · intro hinj
    by_contra htimes
    rw [not_or, not_not] at htimes
    obtain ⟨hne, hround⟩ := htimes
    have hsame := hinj _ _ (sized_headerAt t₁) (sized_headerAt t₂) rfl rfl
      (serializeHeader_headerAt_eq hround)
    exact hne (congrArg BlockHeader.bhTimestamp hsame)
  · rintro htimes h₁ h₂ hs₁ hs₂ rfl rfl hbytes
    apply sameFields_of_serializeHeader_eq hs₁ hs₂ _ hbytes
    intro hround
    exact htimes.resolve_right (not_not.mpr hround)

/-- Two headers at the epoch and a picosecond later. -/
theorem headerAt_one_not_fixed :
    (headerAt ⟨0⟩).Sized ∧ (headerAt ⟨1⟩).Sized ∧
      serializeHeader (headerAt ⟨0⟩) = serializeHeader (headerAt ⟨1⟩) ∧
      ¬ (headerAt ⟨0⟩).SameFields (headerAt ⟨1⟩) := by
  refine ⟨sized_headerAt _, sized_headerAt _, serializeHeader_headerAt_eq (by decide), ?_⟩
  intro hsame
  exact absurd (congrArg BlockHeader.bhTimestamp hsame) (by decide)

end Protocol

end CryptoCoin
