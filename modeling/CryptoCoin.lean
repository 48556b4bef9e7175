import CryptoCoin.Protocol.Types
import CryptoCoin.Protocol.Crypto
import CryptoCoin.Protocol.Encryption
import CryptoCoin.Protocol.Digest
import CryptoCoin.Library.Bits
import CryptoCoin.Library.HashTree
import CryptoCoin.Protocol.Merkle
import CryptoCoin.Protocol.Block
import CryptoCoin.Protocol.Authority
import CryptoCoin.Protocol.Conservation
import CryptoCoin.Protocol.Fees
import CryptoCoin.Protocol.Checks
import CryptoCoin.Protocol.Outputs
import CryptoCoin.Protocol.Signing
import CryptoCoin.Protocol.HeaderBytes
import CryptoCoin.Protocol.RoundTrip
import CryptoCoin.Protocol.Keys
import CryptoCoin.Protocol.BodyRoot
import CryptoCoin.Protocol.FirstLeaf
import CryptoCoin.Protocol.StateRoot
import CryptoCoin.Protocol.MerkleProof
import CryptoCoin.Protocol.MerkleSoundness
import CryptoCoin.Protocol.Producer
import CryptoCoin.Protocol.FreeFields
import CryptoCoin.Protocol.Roots
import CryptoCoin.Protocol.Disclosure
import CryptoCoin.Protocol.Chain
import CryptoCoin.Library.HashPath
import CryptoCoin.Library.FreeHash
import CryptoCoin.Crates.Merkle
import CryptoCoin.Crates.MerkleProof
import CryptoCoin.Crates.MerkleSoundness
import CryptoCoin.Crates.MerkleAgreement
import CryptoCoin.Crates.MerkleRoot
import CryptoCoin.Crates.MerkleShape
import CryptoCoin.Crates.Wire
import CryptoCoin.Library.Frames
import CryptoCoin.Crates.Signatures
import CryptoCoin.Library.Latest
import CryptoCoin.Crates.Discovery
import CryptoCoin.Crates.PeerTable
import CryptoCoin.Crates.Dialing
import CryptoCoin.Crates.PeerEvents
import CryptoCoin.Crates.Transport
import CryptoCoin.Crates.TransportFrames
import CryptoCoin.Crates.P2PManager
import CryptoCoin.Crates.Storage
import CryptoCoin.Crates.StorageIndex
import CryptoCoin.Crates.StorageThreads
import CryptoCoin.Crates.StorageOrder
import CryptoCoin.Crates.Runtime
import CryptoCoin.Library.Quorum
import CryptoCoin.Library.VoteHistory
import CryptoCoin.Library.Runs
import CryptoCoin.Library.Counter
import CryptoCoin.Consensus.Thresholds
import CryptoCoin.Consensus.Payload
import CryptoCoin.Consensus.Engine
import CryptoCoin.Consensus.Rotation
import CryptoCoin.Consensus.Machine
import CryptoCoin.Consensus.Moves
import CryptoCoin.Consensus.Finality
import CryptoCoin.Consensus.Decisions
import CryptoCoin.Consensus.Locks
import CryptoCoin.Consensus.Termination
import CryptoCoin.Consensus.MessageQueue
import CryptoCoin.Consensus.Timeouts
import CryptoCoin.Consensus.Equivocation
import CryptoCoin.Consensus.Accounting
import CryptoCoin.Consensus.Shipped
import CryptoCoin.Consensus.Phases
import CryptoCoin.Consensus.Disclosure
import CryptoCoin.Consensus.SignatureSizes
import CryptoCoin.Consensus.ValueQuorum
import CryptoCoin.Consensus.Network
import CryptoCoin.Consensus.Agreement
import CryptoCoin.Consensus.Validity
import CryptoCoin.Consensus.Progress
