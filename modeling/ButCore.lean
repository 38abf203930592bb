import ButCore.Compressor
import ButCore.Llmq.DkgOrder
import ButCore.Llmq.DkgFinalize
import ButCore.Llmq.DkgSessionHandler
import ButCore.Llmq.FinalCommitment
import ButCore.Llmq.CbTxRuns
import ButCore.Validation.Schedule
import ButCore.Mining.Coinbase
import ButCore.Mining.Header
import ButCore.Coins.IndexUndo
import ButCore.Llmq.LockRuns
import ButCore.Llmq.Votes
import ButCore.Coins.CacheStack
import ButCore.Coins.ChainCoins
import ButCore.BlockWeight
import ButCore.Validation.SkipList
import ButCore.PartialMerkle
import ButCore.Llmq.LockIndex
import ButCore.Llmq.LockArchive
import ButCore.Llmq.SessionVectors
import ButCore.Evo.Collaterals
import ButCore.Llmq.Connections
import ButCore.SporkCheck
import ButCore.Llmq.MinableCommitments
import ButCore.Llmq.CommitmentThreads
import ButCore.Llmq.QuorumScans
import ButCore.Evo.ListIndex
import ButCore.Evo.Projection
import ButCore.SporkText
import ButCore.Mempool.Expire
import ButCore.Evo.SimplifiedDiff
import ButCore.Governance.VoteFile
import ButCore.Mempool.ProviderConflicts
import ButCore.Net.CompactBlock
import ButCore.VersionBits
