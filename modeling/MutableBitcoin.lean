import MutableBitcoin.Lib.PowMod
import MutableBitcoin.Lib.Numeral
import MutableBitcoin.Lib.Sha256
import MutableBitcoin.Lib.ExceptOk
import MutableBitcoin.Lib.Ledger
import MutableBitcoin.Uint256
import MutableBitcoin.Chameleon
import MutableBitcoin.Script
import MutableBitcoin.Transaction
import MutableBitcoin.Redact
import MutableBitcoin.Collision
import MutableBitcoin.RedactIdentity
import MutableBitcoin.RedactHistory
import MutableBitcoin.Block
import MutableBitcoin.BlockFile
import MutableBitcoin.CheckBlock
import MutableBitcoin.Coins
import MutableBitcoin.ConnectBlock
import MutableBitcoin.ConnectStep
import MutableBitcoin.ConnectSafety
import MutableBitcoin.Supply
import MutableBitcoin.Inflation
import MutableBitcoin.RewrittenBlock
import MutableBitcoin.Lib.KeyMap
import MutableBitcoin.UChain
import MutableBitcoin.StoredVersion
import MutableBitcoin.VersionScan
import MutableBitcoin.VersionMap
import MutableBitcoin.VersionRun
import MutableBitcoin.IncrementalTrie
import MutableBitcoin.ActiveChain
import MutableBitcoin.VersionCheck
import MutableBitcoin.VersionCache
import MutableBitcoin.VersionCalls
import MutableBitcoin.Unserialize
import MutableBitcoin.DuplicateIds
import MutableBitcoin.Lib.WriteBack
import MutableBitcoin.CoinsRefinement
import MutableBitcoin.Lib.UndoLog
import MutableBitcoin.Disconnect
import MutableBitcoin.CoinsMap
import MutableBitcoin.UndoneBlock
import MutableBitcoin.NodeLookup
import MutableBitcoin.SignatureChecker
import MutableBitcoin.ScriptCache
import MutableBitcoin.RoundTrip
import MutableBitcoin.Lib.MerkleTree
import MutableBitcoin.MerkleRoot
import MutableBitcoin.CheckQueue
import MutableBitcoin.Lib.Worklist
import MutableBitcoin.Lib.Dag
import MutableBitcoin.Mempool
import MutableBitcoin.MempoolIndex
import MutableBitcoin.MempoolCounters
import MutableBitcoin.MempoolRemoval
import MutableBitcoin.MempoolAddition
import MutableBitcoin.MempoolInvariant
import MutableBitcoin.MempoolExact
import MutableBitcoin.MempoolReorg
import MutableBitcoin.AcceptToMemoryPool
import MutableBitcoin.MempoolCollision
import MutableBitcoin.MempoolAccounting
import MutableBitcoin.AcceptReplacement
import MutableBitcoin.Lib.Lineage
import MutableBitcoin.Lib.StateRun
import MutableBitcoin.Interpreter
import MutableBitcoin.VerifyScript
import MutableBitcoin.SigOpBound
import MutableBitcoin.PartialMerkleTree
import MutableBitcoin.PartialMerkleMatches
import MutableBitcoin.CompactBlock
import MutableBitcoin.CompactMessage
import MutableBitcoin.CompactPositions
import MutableBitcoin.CompactScan
import MutableBitcoin.CompactSafety
import MutableBitcoin.CompactReconstruction
import MutableBitcoin.ArrivalOrders
import MutableBitcoin.WitnessSignature
import MutableBitcoin.Lib.FinmapCount
import MutableBitcoin.BlockDownload
import MutableBitcoin.VersionBits
import MutableBitcoin.LockPoints
import MutableBitcoin.ScriptNumEncoding
import MutableBitcoin.MultisigMatching
import MutableBitcoin.Compressor
import MutableBitcoin.MempoolLimits
import MutableBitcoin.MerkleBranch
import MutableBitcoin.LaxSignature
import MutableBitcoin.EvalSafety
import MutableBitcoin.BlockTemplate
import MutableBitcoin.MessageTransport
import MutableBitcoin.Ancestors
import MutableBitcoin.ChainLocator
import MutableBitcoin.BlockTransactionsRequest
import MutableBitcoin.VerifyTxOutProof
import MutableBitcoin.DownloadWindow
import MutableBitcoin.ImportedRecords
import MutableBitcoin.HeaderTimes
import MutableBitcoin.MinConfSelection
import MutableBitcoin.RollingBloom
import MutableBitcoin.CuckooCache
import MutableBitcoin.Base58RoundTrip
import MutableBitcoin.Base64
import MutableBitcoin.MoneyText
import MutableBitcoin.LimitedMap
import MutableBitcoin.WalletOrder
import MutableBitcoin.VarInt
import MutableBitcoin.Standard
import MutableBitcoin.SolverGrammar
import MutableBitcoin.CombineSignatures
import MutableBitcoin.SolverFailures
import MutableBitcoin.Lib.OrderedContainers
import MutableBitcoin.Lib.Components
import MutableBitcoin.AddressGroupings
import MutableBitcoin.Lib.BlockChaining
import MutableBitcoin.CbcRoundTrip
import MutableBitcoin.BloomPeers
import MutableBitcoin.Eviction
import MutableBitcoin.HexBlobs
import MutableBitcoin.ScriptItems
import MutableBitcoin.SipHasher
import MutableBitcoin.Sha256Hasher
import MutableBitcoin.PrevectorRuns
import MutableBitcoin.SupplyCap
import MutableBitcoin.RedactedChain
import MutableBitcoin.SignatureCache
import MutableBitcoin.Addresses
