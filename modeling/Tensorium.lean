import Tensorium.Core.Params
import Tensorium.Core.Block
import Tensorium.Lib.BulkMap
import Tensorium.Lib.GuardedRun
import Tensorium.Lib.ParentLinked
import Tensorium.Core.Utxo
import Tensorium.Utxo.Accept
import Tensorium.Utxo.Supply
import Tensorium.Utxo.Frame
import Tensorium.Core.Difficulty
import Tensorium.Core.Validation
import Tensorium.Core.Storage
import Tensorium.Core.State
import Tensorium.State.Effects
import Tensorium.State.Atomicity
import Tensorium.State.Ledger
import Tensorium.State.Refinement
import Tensorium.State.Runs
import Tensorium.State.CanonicalIndex
import Tensorium.State.UtxoSync
import Tensorium.State.ForkChoice
import Tensorium.State.Poison
import Tensorium.Commit.Signature
import Tensorium.Commit.Header
import Tensorium.State.Mining
import Tensorium.State.Context
import Tensorium.Assets.Conservation
import Tensorium.Core.Wallet
import Tensorium.Script.P2pkh
import Tensorium.Wallet.SignInput
import Tensorium.Indexer.Index
import Tensorium.Indexer.Source
import Tensorium.Core.Mempool
import Tensorium.Node.Handlers
import Tensorium.Script.Height
import Tensorium.Utxo.Height
import Tensorium.Node.Template
import Tensorium.Node.Runs
import Tensorium.Node.Retention
import Tensorium.State.Submissions
import Tensorium.Node.Spendable
import Tensorium.Lib.CatchUp
import Tensorium.State.PeerChain
import Tensorium.Node.CatchUp
import Tensorium.State.GrownChains
import Tensorium.Node.SyncAdoption
import Tensorium.Node.SyncRequeue
import Tensorium.Lib.Apportion
import Tensorium.Pool.Accounting
import Tensorium.Pool.Server
import Tensorium.Pool.Credit
import Tensorium.Pool.ShareOnce
import Tensorium.Pool.WinningNonce
import Tensorium.Pool.Dues
import Tensorium.Node.Rpc
import Tensorium.Wallet.Payment
import Tensorium.Pool.Payout
import Tensorium.Pool.LedgerFile
import Tensorium.Pool.Backed
import Tensorium.Indexer.Follow
import Tensorium.Indexer.Incremental
import Tensorium.Indexer.Poll
import Tensorium.Indexer.MidScan
import Tensorium.Core.Settlement
import Tensorium.Wallet.AssetAccept
import Tensorium.Adapter.Ledger
import Tensorium.Adapter.Deposits
import Tensorium.Adapter.Polling
import Tensorium.Utxo.InPlace
import Tensorium.Commit.Merkle
import Tensorium.Lib.Panicking
import Tensorium.Script.Machine
import Tensorium.Lib.Traced
import Tensorium.Script.Conditional
import Tensorium.Bridge.Contracts
import Tensorium.Bridge.Safety
import Tensorium.Lib.Blake2b
import Tensorium.Miner.TensorHash
import Tensorium.Miner.PowHash
import Tensorium.Lib.Quoted
import Tensorium.Miner.Job
import Tensorium.Miner.Notify
import Tensorium.Pool.Notify
import Tensorium.Miner.Fields
import Tensorium.Miner.SameHeader
import Tensorium.Miner.Lockstep
import Tensorium.Core.Script.Contracts
import Tensorium.Lib.OrderedMatching
import Tensorium.Script.Evaluate
import Tensorium.Script.Locks
import Tensorium.Lib.Layout
import Tensorium.Script.Grammar
import Tensorium.Script.P2sh
import Tensorium.Node.MempoolInvariant
import Tensorium.Lib.Stepwise
import Tensorium.Pool.Pplns
import Tensorium.Utxo.Emission
import Tensorium.Pool.Interleaved
import Tensorium.Pool.Marking
import Tensorium.Pool.Tip
import Tensorium.Pool.StaleShare
import Tensorium.Assets.Codec
import Tensorium.Assets.Limits
import Tensorium.Settlement.Build
import Tensorium.Settlement.Layout
import Tensorium.Settlement.Dues
import Tensorium.Assets.Transfer
import Tensorium.Assets.Operation
import Tensorium.Settlement.Delivery
import Tensorium.Lib.Positional
import Tensorium.Wallet.Cosign
import Tensorium.Wallet.MultisigCombine
import Tensorium.Miner.LeadingZeros
import Tensorium.Pool.NonceText
import Tensorium.Indexer.Checkpoint
import Tensorium.Lib.Rekeyed
import Tensorium.Indexer.Store
import Tensorium.Indexer.Restart
import Tensorium.Adapter.Amounts
import Tensorium.Wallet.Vesting
import Tensorium.Lib.ReadModifyWrite
import Tensorium.Node.BanList
import Tensorium.Miner.BlockText
import Tensorium.Miner.NonceEdit
import Tensorium.Utxo.Complete
import Tensorium.Node.Admission
import Tensorium.Wallet.Funding
import Tensorium.Wallet.Admitted
import Tensorium.Wallet.Contracts
import Tensorium.Wallet.MultisigSpend
import Tensorium.Indexer.Round
import Tensorium.Wallet.AssetCommands
import Tensorium.Indexer.Api
import Tensorium.Wallet.Sale
import Tensorium.Wallet.Settled
import Tensorium.Lib.ParallelSearch
import Tensorium.Node.GenesisMining
import Tensorium.Miner.Kernels
import Tensorium.Miner.GenesisMode
import Tensorium.Lib.RingBuffer
import Tensorium.Miner.PoolMode
import Tensorium.Miner.Submissions
import Tensorium.Miner.ValidAtPool
import Tensorium.State.Rooted
import Tensorium.Node.Network
import Tensorium.Node.Convergence
