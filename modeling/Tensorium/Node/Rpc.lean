import Tensorium.Node.Handlers

/-! # What clients read from the node

    `GET /getutxos`, and the texts of the errors that `POST /sendrawtransaction`
    answers with: clients of the node tell one error from another by them.
-/

namespace Tensorium

open Saturating ByteCodec BulkMap

/-! ## Error texts -/

def UtxoError.message : UtxoError → String
  | .missingInput => "transaction spends an output that does not exist"
  | .duplicateInput => "transaction spends the same output more than once"
  | .missingCoinbase => "coinbase transaction is missing"
  | .coinbaseOutputTooHigh => "coinbase output exceeds block reward plus transaction fees"
  | .invalidSignature => "transaction signature is invalid"
  | .immatureCoinbaseSpend => "coinbase output is not mature enough to spend"
  | .outputExceedsInput => "transaction outputs exceed inputs (would inflate supply)"

def ValidationError.message : ValidationError → String
  | .wrongChainId => "block chain id does not match consensus params"
  | .wrongHeight => "block height is not the expected next height"
  | .wrongPreviousHash => "previous hash does not match parent"
  | .futureTimestamp => "block timestamp is too far in the future"
  | .invalidMerkleRoot => "block merkle root is invalid"
  | .invalidProofOfWork => "block proof-of-work is invalid"
  | .unexpectedDifficulty =>
    "block declares an unexpected difficulty (consensus retarget mismatch)"
  | .missingCoinbase => "coinbase transaction is missing"
  | .firstTransactionNotCoinbase => "first transaction must be coinbase"

def StateError.message : StateError → String
  | .genesisAlreadyExists => "chain state already has a genesis block"
  | .missingGenesis => "chain state has no genesis block"
  | .miningFailed => "mining failed before nonce limit"
  | .alreadyKnown => "block is already known"
  | .unknownParent => "block's parent is not known"
  | .validation error => error.message
  | .utxo error => error.message

def MempoolError.message : MempoolError → String
  | .coinbaseNotAllowed => "coinbase transactions are not allowed in the mempool"
  | .alreadyKnown => "transaction is already in the mempool"
  | .pendingConflict => "transaction conflicts with a transaction already in the mempool"
  | .feeTooLow fee min =>
    "transaction fee " ++ toString fee.toNat ++ " atoms is below minimum relay fee "
      ++ toString min.toNat ++ " atoms"
  | .mempoolFull fee max =>
    "mempool is full (" ++ toString max ++ " txs); fee " ++ toString fee.toNat
      ++ " does not exceed the lowest-fee entry"
  | .invalidTransaction error => error.message

/-- The text of an error reply. -/
def NodeError.message : NodeError → String
  | .state error => error.message
  | .mempool error => error.message

/-! ## Unspent outputs of an address -/

/-- One element of the reply of `GET /getutxos`, as a wallet reads it. -/
structure RpcUtxo where
  outpoint : OutPoint
  valueAtoms : UInt64
  mature : Bool
  deriving DecidableEq

namespace Node

/-- The script that `GET /getutxos/<param>` looks for. -/
def utxoParam (P : Primitives) (param : String) : Option Bytes :=
  if "txm1".toList.isPrefixOf param.toList then (Script.p2pkhFromAddress P param).toOption
  else hexDecode param

/-- `GET /getutxos/<param>`; the outer `none` is an error reply. -/
def getUtxos (P : Primitives) (params : ConsensusParams) (node : Node) (param : String) :
    Option (List RpcUtxo) × Node :=
  match utxoParam P param with
  | none => (none, node)
  | some script =>
    match node.loadState.ensureUtxoSynced P params with
    | (.error _, s) => (none, { node with db := s.db })
    | (.ok (), s) =>
      let tipHeight := s.height.getD 0
      (some ((s.utxosForScript script).map fun e =>
          { outpoint := e.1
            valueAtoms := e.2.output.valueAtoms
            mature := !e.2.coinbase
              || decide (tipHeight ≥ satAdd 64 e.2.createdHeight params.coinbaseMaturityBlocks) }),
        { node with db := s.db })

end Node

end Tensorium
