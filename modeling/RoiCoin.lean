import RoiCoin.BlockIndexDb
import RoiCoin.Script.Recognisers
import RoiCoin.CoinsCacheRuns
import RoiCoin.Validation.CoinbaseBound
import RoiCoin.Validation.NoDoubleSpend
import RoiCoin.Validation.UndoBlock
import RoiCoin.Validation.PoolValue
import RoiCoin.InterestOrder
import RoiCoin.InterestRollover
import RoiCoin.NextWork
import RoiCoin.Script.SignatureHash
import RoiCoin.Validation.TermLock
import RoiCoin.Validation.BestChain
import RoiCoin.Validation.Lockstep
import RoiCoin.Validation.Durability
import RoiCoin.Base58
import RoiCoin.AmountCode
import RoiCoin.Net.TimeData
import RoiCoin.Base64RoundTrip
import RoiCoin.MoneyString
import RoiCoin.Net.MessageFraming
import RoiCoin.Net.RollingBloomFilter
import RoiCoin.Net.InFlightInvariant
import RoiCoin.Validation.MerkleRoot
import RoiCoin.Net.PartialMerkleMatches
import RoiCoin.MempoolStructure
import RoiCoin.PatternSearch
import RoiCoin.Wire
import RoiCoin.CoinsRecord
import RoiCoin.PatternThreads
import RoiCoin.Validation.HaveData
import RoiCoin.Wallet.KeyPool
import RoiCoin.CheckQueue
import RoiCoin.Script.Pushes
import RoiCoin.Script.StackSizes
import RoiCoin.Wallet.SendMoney
import RoiCoin.CheckQueueWait
import RoiCoin.Validation.ParallelChecks
import RoiCoin.Validation.Reconnect
import RoiCoin.Validation.VerifyDB
import RoiCoin.Validation.StartUp
import RoiCoin.Validation.VerifyAgrees
import RoiCoin.Validation.ValueSums
import RoiCoin.Validation.MedianTime
import RoiCoin.Script.StrictDer
import RoiCoin.Lib.Ancestors
import RoiCoin.SkipList
import RoiCoin.ForkPoints
import RoiCoin.Lib.EarlyExit
import RoiCoin.Validation.InputsStandard
import RoiCoin.Script.Numbers
import RoiCoin.Wallet.DepositScript
import RoiCoin.OnSchedule
import RoiCoin.Script.CheckSigCalls
import RoiCoin.Script.EvalSafe
import RoiCoin.BufferedFileRuns
import RoiCoin.MruSet
import RoiCoin.LimitedMap
import RoiCoin.VarInt
import RoiCoin.Sha256
import RoiCoin.Script.ScriptNum
import RoiCoin.Script.Building
import RoiCoin.Net.DownloadSound
import RoiCoin.Validation.SigOpBudget
import RoiCoin.Wallet.SelectionSound
import RoiCoin.Wallet.FeePaid
import RoiCoin.Wallet.Debit
import RoiCoin.Wallet.CacheCoherence
import RoiCoin.CompactTargets
import RoiCoin.Validation.BlockPositions
import RoiCoin.Validation.PruneSafe
import RoiCoin.Lib.InverseIndex
import RoiCoin.Lib.RollingWindow
import RoiCoin.OrphanPool
import RoiCoin.Validation.MerkleBranch
import RoiCoin.Wallet.CryptoKeyStore
import RoiCoin.Wallet.KeyStoreDiscipline
import RoiCoin.FeeEstimator
import RoiCoin.EstimatorCounts
import RoiCoin.Wallet.ReorderTransactions
import RoiCoin.Wallet.AddressGroupings
import RoiCoin.Wallet.GroupingsLinked
import RoiCoin.Validation.BlockScan
import RoiCoin.Validation.DataPositions
import RoiCoin.Validation.LoadBlocks
import RoiCoin.Validation.Reindex
import RoiCoin.Script.Spending
import RoiCoin.Script.Multisig
import RoiCoin.Net.Locators
import RoiCoin.Net.HeadersSync
import RoiCoin.Net.TxMessages
import RoiCoin.Net.AddrManRuns
