import Tensorium.Core.Utxo

/-! # The mempool

    `mempool.rs`, as far as the node's handlers use it. Where the source
    iterates over its hash map, the order is a parameter.
-/

namespace Tensorium

open Saturating BulkMap

/-- `MIN_RELAY_FEE_ATOMS`. -/
def minRelayFeeAtoms : UInt64 := 10000

/-- `MAX_MEMPOOL_TXS`. -/
def maxMempoolTxs : Nat := 5000

structure MempoolEntry where
  tx : Transaction
  feeAtoms : UInt64
  deriving DecidableEq

/-- `MempoolError`. -/
inductive MempoolError where
  | coinbaseNotAllowed
  | alreadyKnown
  | pendingConflict
  | feeTooLow (fee min : UInt64)
  | mempoolFull (fee : UInt64) (max : Nat)
  | invalidTransaction (error : UtxoError)
  deriving DecidableEq, Repr

/-- `Mempool`. The keys are the hexadecimal transaction identifiers. -/
structure Mempool where
  pending : Map String MempoolEntry

/-- An order in which `pending` may be iterated. -/
abbrev PendingOrder : Type := Iteration String MempoolEntry

namespace Mempool

/-- `Mempool::new`. -/
def new : Mempool := ⟨∅⟩

/-- Whether a transaction has an input with an outpoint in `spent`. -/
def spendsAny (spent : OutPoint → Bool) (tx : Transaction) : Bool :=
  tx.inputs.any fun input => spent input.previousOutput

/-- `conflicts_with_pending`. -/
def conflictsWithPending (m : Mempool) (tx : Transaction) : Bool :=
  let newInputs := (tx.inputs.map TxInput.previousOutput).toFinset
  m.pending.any fun _ entry => spendsAny (fun op => decide (op ∈ newInputs)) entry.tx

/-- `min_by_key(|(_, e)| e.fee_atoms)`: the first of the lowest fees. -/
def lowestFee (entries : List (String × MempoolEntry)) : Option (String × MempoolEntry) :=
  entries.foldl (fun best e =>
    match best with
    | none => some e
    | some b => if e.2.feeAtoms < b.2.feeAtoms then some e else some b) none

/-- The size cap of `add`: make room for a transaction that pays `fee`. -/
def makeRoom (order : PendingOrder) (m : Mempool) (fee : UInt64) : Except MempoolError Mempool :=
  if m.pending.keys.card ≥ maxMempoolTxs then
    match lowestFee (order.list m.pending) with
    | some (lowKey, low) =>
      if fee > low.feeAtoms then .ok ⟨m.pending.erase lowKey⟩
      else .error (.mempoolFull fee maxMempoolTxs)
    | none => .error (.mempoolFull fee maxMempoolTxs)
  else .ok m

/-- `Mempool::add`. -/
def add (P : Primitives) (order : PendingOrder) (m : Mempool) (utxos : UtxoSet)
    (params : ConsensusParams) (tx : Transaction) (tipHeight : Nat) :
    Except MempoolError Mempool :=
  if tx.isCoinbase then .error .coinbaseNotAllowed
  else if (m.pending.lookup tx.id.toHex).isSome then .error .alreadyKnown
  else if m.conflictsWithPending tx then .error .pendingConflict
  else match validateTransaction P utxos tx tipHeight params with
    | .error e => .error (.invalidTransaction e)
    | .ok fee =>
      if fee < minRelayFeeAtoms then .error (.feeTooLow fee minRelayFeeAtoms)
      else match m.makeRoom order fee with
        | .error e => .error e
        | .ok m => .ok ⟨m.pending.insert tx.id.toHex ⟨tx, fee⟩⟩

/-! ## Selection -/

/-- The entries by descending fee; the sort is stable. -/
def byFeeDescending (entries : List MempoolEntry) : List MempoolEntry :=
  entries.insertionSort fun a b => b.feeAtoms ≤ a.feeAtoms

/-- What the loop of `select_for_block` carries along. -/
structure Selection where
  spent : Finset OutPoint
  selected : List Transaction
  totalFees : UInt64

/-- One round of the loop of `select_for_block`. -/
def selectEntry (sel : Selection) (entry : MempoolEntry) : Selection :=
  if spendsAny (fun op => decide (op ∈ sel.spent)) entry.tx then sel
  else
    { spent := sel.spent ∪ (entry.tx.inputs.map TxInput.previousOutput).toFinset
      selected := sel.selected ++ [entry.tx]
      totalFees := satAdd64 sel.totalFees entry.feeAtoms }

/-- `select_for_block`. -/
def selectForBlock (order : PendingOrder) (m : Mempool) : List Transaction × UInt64 :=
  let entries := byFeeDescending ((order.list m.pending).map Prod.snd)
  let sel := entries.foldl selectEntry ⟨∅, [], 0⟩
  (sel.selected, sel.totalFees)

/-! ## Removal -/

/-- Whether a block makes an entry obsolete: its key names a transaction of the
    block, or it spends what a transaction of the block spends. All
    transactions of the block count, the first one included. -/
def obsoletedBy (block : Block) (key : String) (entry : MempoolEntry) : Bool :=
  decide (key ∈ block.transactions.map fun tx => tx.id.toHex)
    || spendsAny (fun op => decide (op ∈ block.transactions.flatMap fun tx =>
      tx.inputs.map TxInput.previousOutput)) entry.tx

/-- `remove_confirmed`. -/
def removeConfirmed (m : Mempool) (block : Block) : Mempool :=
  ⟨retain (fun key entry => !obsoletedBy block key entry) m.pending⟩

end Mempool

end Tensorium
