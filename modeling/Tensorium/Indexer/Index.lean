import Tensorium.Core.Assets

/-! # The asset indexer

    `tensorium-indexer/src/index.rs`. The indexer reads the canonical chain
    block by block, keeps the address of every output it has seen, and applies
    the asset operation of each transaction with the address of the first
    input's output as its source.
-/

namespace Tensorium

open BulkMap Assets

/-- `HistoryEntry`. -/
structure HistoryEntry where
  height : Nat
  txid : String
  op : String
  assetId : String
  fromAddr : String
  toAddr : String
  amount : UInt64
  deriving DecidableEq

/-- `Indexer`, less the fields that only the reorg handling of `sync.rs` reads. -/
structure Indexer where
  state : AssetState
  outpoints : Map String String
  history : Map String (List HistoryEntry)
  lastHeight : Nat
  scannedAny : Bool

namespace Indexer

/-- `outpoint_key`, of the two fields of an outpoint. -/
def outpointKey (op : OutPoint) : String :=
  op.txid.toHex ++ ":" ++ Nat.repr op.outputIndex.toNat

/-- `Indexer::default`. -/
def default : Indexer := ⟨AssetState.default, ∅, ∅, 0, false⟩

/-- The bindings `record_outputs` inserts: the outputs of the transaction that
    carry an address. The index is cast to `u32`. -/
def addressBindings (encode : String → Bytes → String) (tx : Transaction) :
    List (String × String) :=
  tx.outputs.zipIdx.filterMap fun o =>
    (Script.extractAddress encode o.1.scriptPubkey).map fun addr =>
      (outpointKey ⟨tx.id, UInt32.ofNat o.2⟩, addr)

/-- `record_outputs`. -/
def recordOutputs (encode : String → Bytes → String) (idx : Indexer) (tx : Transaction) :
    Indexer :=
  { idx with outpoints := insertAll idx.outpoints (addressBindings encode tx) }

/-- `resolve_source`. -/
def resolveSource (idx : Indexer) (tx : Transaction) : Option String :=
  tx.inputs.head?.bind fun first => idx.outpoints.lookup (outpointKey first.previousOutput)

/-- `history.entry(addr).or_default().push(entry)`. -/
def pushHistory (idx : Indexer) (addr : String) (entry : HistoryEntry) : Indexer :=
  { idx with history :=
      idx.history.insert addr ((idx.history.lookup addr).getD [] ++ [entry]) }

/-- `record_history`. -/
def recordHistory (idx : Indexer) (height : Nat) (txid : Hash256) (source : String)
    (dest : Option String) (op : AssetOp) : Indexer :=
  let (kind, assetId, toAddr, amount) : String × Hash256 × String × UInt64 :=
    match op with
    | .issue d => ("issue", txid, "", d.supply)
    | .nftMint _ => ("nft_mint", txid, "", 1)
    | .transfer d => ("transfer", d.assetId, dest.getD "", d.amount)
  let entry : HistoryEntry :=
    { height := height, txid := txid.toHex, op := kind, assetId := assetId.toHex,
      fromAddr := source, toAddr := toAddr, amount := amount }
  let idx := idx.pushHistory source entry
  if toAddr ≠ "" ∧ toAddr ≠ source then idx.pushHistory toAddr entry else idx

/-- The address of the output an operation names as its destination. -/
def destOf (encode : String → Bytes → String) (tx : Transaction) : AssetOp → Option String
  | .transfer d =>
    tx.outputs[d.destOutputIndex.toNat]?.bind fun o => Script.extractAddress encode o.scriptPubkey
  | _ => none

/-- The part of the loop of `apply_block` that applies the operation of a
    transaction; `none` when `AssetState::apply` panics. -/
def applyOp (encode : String → Bytes → String) (idx : Indexer) (tx : Transaction)
    (height : Nat) : Option Indexer :=
  match extractAssetOp tx, idx.resolveSource tx with
  | some op, some src => do
    let dest := destOf encode tx op
    let (result, state) ← idx.state.apply tx.id height src dest op
    let idx := { idx with state := state }
    return if result = .applied then idx.recordHistory height tx.id src dest op else idx
  | _, _ => some idx

/-- One round of the loop of `apply_block`. The source is resolved before the
    outputs of the transaction are recorded. -/
def applyTx (encode : String → Bytes → String) (height : Nat) (idx : Indexer)
    (tx : Transaction) : Option Indexer :=
  (idx.applyOp encode tx height).map fun idx => idx.recordOutputs encode tx

/-- The loop of `apply_block`. -/
def applyTxs (encode : String → Bytes → String) (height : Nat) (idx : Indexer)
    (txs : List Transaction) : Option Indexer :=
  txs.foldlM (applyTx encode height) idx

/-- `Indexer::apply_block`. -/
def applyBlock (encode : String → Bytes → String) (idx : Indexer) (block : Block)
    (height : Nat) : Option Indexer :=
  (idx.applyTxs encode height block.transactions).map fun idx =>
    { idx with lastHeight := height, scannedAny := true }

/-- A chain fed in order, every block with its height. -/
def applyChain (encode : String → Bytes → String) (idx : Indexer) (chain : List Block) :
    Option Indexer :=
  chain.foldlM (fun idx b => idx.applyBlock encode b b.header.height) idx

/-- An encoding of addresses. -/
def sampleEncode (hrp : String) (bytes : Bytes) : String := hrp ++ ByteCodec.hexEncode bytes

end Indexer

end Tensorium
