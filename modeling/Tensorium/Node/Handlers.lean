import Tensorium.Core.Mempool
import Tensorium.Core.State

/-! # The node's handlers

    `tensorium-node/src/main.rs`: what a peer message or an RPC request does to
    the database and to the file that holds the mempool. Every handler opens
    the database anew, so nothing survives in a `ChainState` from one request
    to the next. The files are read and written without failure.
-/

namespace Tensorium

open Saturating

/-- What a node keeps between two requests. -/
structure Node where
  db : Db
  mempool : Mempool

/-- The errors a handler reports, before they are turned into text. -/
inductive NodeError where
  | state (error : StateError)
  | mempool (error : MempoolError)
  deriving DecidableEq, Repr

namespace Node

/-- `load_state` and `rpc_state`. -/
def loadState (node : Node) : ChainState := ChainState.openDb node.db

/-- `seed_utxos_for_tx`. -/
def seedUtxosForTx (s : ChainState) (tx : Transaction) : UtxoSet :=
  (tx.inputs.map TxInput.previousOutput).foldl s.seedInput ∅

/-! ## Requeueing -/

/-- One round of the loop of `requeue_reorged_transactions`. -/
def requeueOne (P : Primitives) (params : ConsensusParams) (order : PendingOrder)
    (s : ChainState) (tipHeight : Nat) (acc : Mempool × Nat) (tx : Transaction) : Mempool × Nat :=
  match acc.1.add P order (seedUtxosForTx s tx) params tx tipHeight with
  | .ok m => (m, acc.2 + 1)
  | .error _ => acc

/-- `requeue_reorged_transactions`. Returns the state, the mempool and how many
    transactions were requeued. -/
def requeueReorgedTransactions (P : Primitives) (params : ConsensusParams) (order : PendingOrder)
    (s : ChainState) (m : Mempool) : ChainState × Mempool × Nat :=
  let (candidates, s) := s.takeReorgRequeueCandidates
  if candidates.isEmpty then (s, m, 0)
  else (s, candidates.foldl (requeueOne P params order s (s.height.getD 0)) (m, 0))

/-! ## Transactions -/

/-- `accept_peer_tx`. -/
def acceptPeerTx (P : Primitives) (params : ConsensusParams) (order : PendingOrder) (node : Node)
    (tx : Transaction) : Except NodeError Unit × Node :=
  match node.loadState.ensureUtxoSynced P params with
  | (.error e, s) => (.error (.state e), { node with db := s.db })
  | (.ok (), s) =>
    match node.mempool.add P order (seedUtxosForTx s tx) params tx (s.height.getD 0) with
    | .error e => (.error (.mempool e), { node with db := s.db })
    | .ok m => (.ok (), ⟨s.db, m⟩)

/-- `POST /sendrawtransaction`: what `accept_peer_tx` does, and the identifier
    and the size of the mempool in reply. -/
def sendRawTransaction (P : Primitives) (params : ConsensusParams) (order : PendingOrder)
    (node : Node) (tx : Transaction) : Except NodeError (Hash256 × Nat) × Node :=
  match node.acceptPeerTx P params order tx with
  | (.error e, node) => (.error e, node)
  | (.ok (), node) => (.ok (tx.id, node.mempool.pending.keys.card), node)

/-! ## Blocks -/

/-- How `submit_block` can succeed for a handler. -/
inductive Submission where
  | alreadyKnown
  | accepted (canonical : Bool)
  deriving DecidableEq, Repr

/-- The common part of `accept_peer_block` and `POST /submitblock`: submit the
    block; if it is new and accepted, on whatever branch, remove what it
    confirms from the mempool and requeue what it disconnected. -/
def takeBlock (P : Primitives) (params : ConsensusParams) (order : PendingOrder) (node : Node)
    (block : Block) (nowSeconds : Nat) : Except NodeError Submission × Node :=
  match node.loadState.submitBlock P params block nowSeconds with
  | (.error .alreadyKnown, s) => (.ok .alreadyKnown, { node with db := s.db })
  | (.error e, s) => (.error (.state e), { node with db := s.db })
  | (.ok accepted, s) =>
    let (s, m, _) :=
      requeueReorgedTransactions P params order s (node.mempool.removeConfirmed accepted)
    (.ok (.accepted (decide (s.tipHash P = accepted.hash P))), ⟨s.db, m⟩)

/-- `accept_peer_block`. -/
def acceptPeerBlock (P : Primitives) (params : ConsensusParams) (order : PendingOrder)
    (node : Node) (block : Block) (nowSeconds : Nat) :
    Except NodeError (Nat × Hash256) × Node :=
  match node.takeBlock P params order block nowSeconds with
  | (.error e, node) => (.error e, node)
  | (.ok _, node) => (.ok (block.header.height, block.hash P), node)

/-- The reply of `POST /submitblock`. A block that was known already is answered
    with a note in place of `canonical`. -/
structure SubmitReply where
  accepted : Bool
  height : Nat
  hash : Hash256
  canonical : Option Bool
  deriving DecidableEq

/-- `POST /submitblock`. -/
def submitBlock (P : Primitives) (params : ConsensusParams) (order : PendingOrder) (node : Node)
    (block : Block) (nowSeconds : Nat) : Except NodeError SubmitReply × Node :=
  match node.takeBlock P params order block nowSeconds with
  | (.error e, node) => (.error e, node)
  | (.ok .alreadyKnown, node) => (.ok ⟨true, block.header.height, block.hash P, none⟩, node)
  | (.ok (.accepted canonical), node) =>
    (.ok ⟨true, block.header.height, block.hash P, some canonical⟩, node)

/-! ## Templates -/

/-- The reply of `GET /getblocktemplate`; the other fields of the reply repeat
    what the template says. -/
structure BlockTemplate where
  epochSeed : Hash256
  template : Block
  deriving DecidableEq

/-- One round of the revalidation loop of `GET /getblocktemplate`. -/
def revalidate (P : Primitives) (params : ConsensusParams) (s : ChainState) (tipHeight : Nat)
    (acc : List Transaction × UInt64) (tx : Transaction) : List Transaction × UInt64 :=
  match validateTransaction P (seedUtxosForTx s tx) tx tipHeight params with
  | .ok fee => (acc.1 ++ [tx], satAdd64 acc.2 fee)
  | .error _ => acc

/-- `GET /getblocktemplate/<miner>` on a state it has opened, for a miner that is
    not empty. -/
def getBlockTemplate (P : Primitives) (params : ConsensusParams) (order : PendingOrder)
    (s : ChainState) (m : Mempool) (nowSeconds : Nat) (miner : String) :
    Outcome BlockTemplate :=
  match s.ensureUtxoSynced P params with
  | (.error e, s) => (.error e, s)
  | (.ok (), s) =>
    let (candidateTxs, _) := m.selectForBlock order
    let (extraTxs, totalFees) :=
      candidateTxs.foldl (revalidate P params s (s.height.getD 0)) ([], 0)
    match s.candidateBlockWithMempool P params nowSeconds miner extraTxs totalFees with
    | .error e => (.error e, s)
    | .ok block => (.ok ⟨s.epochSeedForHeight P block.header.height, block⟩, s)

end Node

end Tensorium
