import Kora.BigEndian
import Kora.OrderedMap
import Kora.Selection
import Kora.SaturatingRun
import Kora.KeyValueStore
import Kora.Run
import Kora.Tabulation
import Kora.ReadProgram
import Kora.Bisection
import Kora.ChangeSet
import Kora.Encoding
import Kora.QmdbStore
import Kora.StateDb
import Kora.Extract
import Kora.Overlay
import Kora.Frame
import Kora.CommitView
import Kora.Lifetimes
import Kora.Cadence
import Kora.Block
import Kora.Snapshot
import Kora.Ledger
import Kora.BlockIndex
import Kora.Application
import Kora.Reporter
import Kora.Chain
import Kora.Node
import Kora.FeeCache
import Kora.Durability
import Kora.Environment
import Kora.Recovery
import Kora.CommitMarker
import Kora.Fees
import Kora.Executor
import Kora.Txpool
import Kora.Inclusion
import Kora.Framing
import Kora.RootHistory
import Kora.PersistProtocol
import Kora.Vote
import Kora.Replay
import Kora.Genesis
import Kora.Redelivery
import Kora.Soundness
import Kora.Code
import Kora.Intervals
import Kora.Archive
import Kora.Gossip
import Kora.Randomness
import Kora.Bookkeeping
import Kora.TornCommit
import Kora.WriteFault
import Kora.LiveState
import Kora.Acknowledgement
import Kora.PoolCoherence
import Kora.Handover
import Kora.Wire
import Kora.BlockFormat
import Kora.DkgMessage
import Kora.DkgParticipant
import Kora.DkgFilter
import Kora.DkgNetwork
import Kora.DkgAgreement
import Kora.DkgCeremony
import Kora.DkgHonest
import Kora.DkgFormat
import Kora.DkgState
import Kora.DkgSending
import Kora.DkgBarrier
import Kora.DkgLiveness
import Kora.DkgRestart
import Kora.Disk
import Kora.DkgOutput
import Kora.PoolRejection
import Kora.PoolCapacity
import Kora.PoolEvents
import Kora.PoolQueues
import Kora.BlockBuilding
import Kora.PoolInsertion
import Kora.PoolPruning
import Kora.TxValidator
import Kora.PoolArrival
import Kora.Submission
import Kora.Ancestry
import Kora.Retention
import Kora.Receipts
import Kora.BaseFee
import Kora.GasOracle
import Kora.PendingCache
import Kora.Simulation
import Kora.GasEstimation
import Kora.ChainIndex
import Kora.FinalizedLogs
import Kora.LogQuery
import Kora.LogPolling
import Kora.VerifyWalk
import Kora.CallConsistency
