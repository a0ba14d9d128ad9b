import ProcessChain.Lib.FailStop
import ProcessChain.Lib.Supplied
import ProcessChain.Lib.Separated
import ProcessChain.Lib.Numerals
import ProcessChain.Lib.Lines
import ProcessChain.Lib.Transducer
import ProcessChain.Lib.BoundedQueue
import ProcessChain.Lib.Alphabet
import ProcessChain.Lib.HashTree
import ProcessChain.Lib.WatchedCopy
import ProcessChain.Lib.MerkleDamgard
import ProcessChain.Lib.RoundRobin
import ProcessChain.CString
import ProcessChain.Block
import ProcessChain.Sha256
import ProcessChain.Sha256Memory
import ProcessChain.Crypto
import ProcessChain.MerkleSlots
import ProcessChain.Validation
import ProcessChain.Blockchain
import ProcessChain.Protocol
import ProcessChain.Wire
import ProcessChain.Node
import ProcessChain.NodeQueue
import ProcessChain.NodeServer
import ProcessChain.ChainFile
import ProcessChain.BashVerifier
import ProcessChain.Mempool
import ProcessChain.MempoolSlots
import ProcessChain.Miner
import ProcessChain.MinerEvents
import ProcessChain.Network
import ProcessChain.ProcessInfo
import ProcessChain.Bootstrap
import ProcessChain.Commands
import ProcessChain.Client
import ProcessChain.ClientNetwork
import ProcessChain.SyncConnections
import ProcessChain.Restart
import ProcessChain.ProposalExchange
import ProcessChain.Proofs.Csv
import ProcessChain.Proofs.RoundTrip
import ProcessChain.Proofs.Crypto
import ProcessChain.Proofs.MerkleTree
import ProcessChain.Proofs.Validation
import ProcessChain.Proofs.Storage
import ProcessChain.Proofs.Handlers
import ProcessChain.Proofs.NodeSafety
import ProcessChain.Proofs.Allocation
import ProcessChain.Proofs.Proposals
import ProcessChain.Proofs.Tamper
import ProcessChain.Proofs.NodeQueue
import ProcessChain.Proofs.NodeServer
import ProcessChain.Proofs.Wire
import ProcessChain.Proofs.Sha256
import ProcessChain.Proofs.Sha256Memory
import ProcessChain.Proofs.Compression
import ProcessChain.Proofs.ChainFile
import ProcessChain.Proofs.Sending
import ProcessChain.Proofs.Recovery
import ProcessChain.Proofs.BashVerifier
import ProcessChain.Proofs.Compatibility
import ProcessChain.Proofs.Loading
import ProcessChain.Proofs.MinerSteps
import ProcessChain.Proofs.Pool
import ProcessChain.Proofs.Mining
import ProcessChain.Proofs.Coordinator
import ProcessChain.Proofs.Agreement
import ProcessChain.Proofs.MinerActions
import ProcessChain.Proofs.View
import ProcessChain.Proofs.FreshAttempts
import ProcessChain.Proofs.History
import ProcessChain.Proofs.Pending
import ProcessChain.Proofs.Accounting
import ProcessChain.Proofs.EmptyStart
import ProcessChain.Proofs.Repetition
import ProcessChain.Proofs.Provenance
import ProcessChain.Proofs.Payments
import ProcessChain.Proofs.Delivery
import ProcessChain.Proofs.Spawning
import ProcessChain.Proofs.Processes
import ProcessChain.Proofs.Canonical
import ProcessChain.Proofs.BothSides
import ProcessChain.Proofs.Saving
import ProcessChain.Proofs.Lookups
import ProcessChain.Proofs.ChainQuery
import ProcessChain.Proofs.Links
import ProcessChain.Proofs.Submission
import ProcessChain.Proofs.SaveCommand
import ProcessChain.Proofs.Rejection
import ProcessChain.Proofs.Restart
