import Tensorium.Lib.BulkMap
import Tensorium.Lib.ExceptFold
import Tensorium.Core.Block
import Tensorium.Core.Params

/-! # The set of unspent outputs

    `utxo.rs`. `apply_block` writes to the set only in its third phase, behind
    the last error exit; it is a function to the new set, or to the error that
    left the set as it was. The two copies of the input loop, in
    `validate_transaction` and in `apply_block`, differ only in whether the
    set of outpoints seen so far starts empty; they are one definition here.
-/

namespace Tensorium

open Saturating BulkMap

/-! ## Data model -/

structure UtxoEntry where
  output : TxOutput
  createdHeight : Nat
  coinbase : Bool
  deriving DecidableEq

/-- `UtxoSet`; the only field of the source's structure is its map. -/
abbrev UtxoSet : Type := Map OutPoint UtxoEntry

/-- `UtxoError`. -/
inductive UtxoError where
  | missingInput
  | duplicateInput
  | missingCoinbase
  | coinbaseOutputTooHigh
  | invalidSignature
  | immatureCoinbaseSpend
  | outputExceedsInput
  deriving DecidableEq, Repr

/-! ## Transactions against a set -/

/-- The body of the loop over a transaction's inputs; the accumulator is the
    set of outpoints seen and the running input sum. -/
def checkInput (P : Primitives) (params : ConsensusParams) (u : UtxoSet) (height : Nat)
    (tx : Transaction) (acc : Finset OutPoint × UInt64) (input : TxInput) :
    Except UtxoError (Finset OutPoint × UInt64) :=
  if input.previousOutput ∈ acc.1 then .error .duplicateInput
  else match u.lookup input.previousOutput with
    | none => .error .missingInput
    | some entry =>
      -- A coinbase entry is spendable only so many blocks after its creation.
      if entry.coinbase
          && decide (height < satAdd 64 entry.createdHeight params.coinbaseMaturityBlocks) then
        .error .immatureCoinbaseSpend
      else match Script.execute P input.signatureScript entry.output.scriptPubkey
          ⟨tx.signatureHash P, height⟩ with
        -- A script that fails and one that leaves `false` are reported alike.
        | .error _ => .error .invalidSignature
        | .ok false => .error .invalidSignature
        | .ok true =>
          .ok (insert input.previousOutput acc.1, satAdd64 acc.2 entry.output.valueAtoms)

/-- One transaction against the set: its inputs, then its output sum. Returns
    the outpoints seen and the fee. -/
def checkTransaction (P : Primitives) (params : ConsensusParams) (u : UtxoSet) (height : Nat)
    (seen : Finset OutPoint) (tx : Transaction) : Except UtxoError (Finset OutPoint × UInt64) := do
  let (seen, inputSum) ← tx.inputs.foldlM (checkInput P params u height tx) (seen, 0)
  if tx.totalOutputAtoms > inputSum then .error .outputExceedsInput
  else .ok (seen, satSub64 inputSum tx.totalOutputAtoms)

/-- `UtxoSet::validate_transaction`. -/
def validateTransaction (P : Primitives) (u : UtxoSet) (tx : Transaction) (tipHeight : Nat)
    (params : ConsensusParams) : Except UtxoError UInt64 := do
  let (_, fee) ← checkTransaction P params u tipHeight ∅ tx
  return fee

/-! ## Blocks against a set -/

/-- The outpoints a block spends: the inputs of every transaction but the first. -/
def Block.spends (b : Block) : List OutPoint :=
  (b.transactions.drop 1).flatMap fun tx => tx.inputs.map TxInput.previousOutput

/-- The entry a transaction creates for one output; none for an `OP_RETURN`
    output, which is unspendable. The index is cast to `u32`. -/
def Transaction.createdEntry (tx : Transaction) (height : Nat) (output : TxOutput)
    (index : Nat) : Option (OutPoint × UtxoEntry) :=
  if output.scriptPubkey.head? = some Script.opReturnByte then none
  else some (⟨tx.id, UInt32.ofNat index⟩, ⟨output, height, tx.isCoinbase⟩)

/-- The entries a transaction creates, in output order. -/
def Transaction.creates (tx : Transaction) (height : Nat) : List (OutPoint × UtxoEntry) :=
  tx.outputs.zipIdx.filterMap fun o => tx.createdEntry height o.1 o.2

/-- The entries a block creates, in order. -/
def Block.creates (b : Block) : List (OutPoint × UtxoEntry) :=
  b.transactions.flatMap fun tx => tx.creates b.header.height

/-- Phase 1 of `apply_block`: check the transactions behind the coinbase
    against the unmodified set, one set of seen outpoints for the whole block,
    and sum their fees. -/
def totalFees (P : Primitives) (params : ConsensusParams) (u : UtxoSet) (height : Nat)
    (txs : List Transaction) : Except UtxoError (Finset OutPoint × UInt64) :=
  txs.foldlM (fun acc tx => do
    let (seen, fee) ← checkTransaction P params u height acc.1 tx
    .ok (seen, satAdd64 acc.2 fee)) (∅, 0)

/-- The coinbase limit of phase 2. -/
def maxCoinbaseAtoms (params : ConsensusParams) (height : Nat) (fees : UInt64) : UInt64 :=
  if height = 0 ∧ hasGenesisPremint params then
    satAdd64 (satAdd64 (rewardAtHeight params 0) (premintAtoms params)) fees
  else satAdd64 (rewardAtHeight params height) fees

/-- Phase 3 of `apply_block`: spend the inputs, then create the outputs. -/
def applyDelta (b : Block) (u : UtxoSet) : UtxoSet :=
  insertAll (eraseAll u b.spends) b.creates

/-- `UtxoSet::apply_block`. -/
def applyBlock (P : Primitives) (params : ConsensusParams) (b : Block) (u : UtxoSet) :
    Except UtxoError UtxoSet :=
  match b.transactions with
  | [] => .error .missingCoinbase
  | coinbase :: txs => do
    let (_, fees) ← totalFees P params u b.header.height txs
    if coinbase.totalOutputAtoms > maxCoinbaseAtoms params b.header.height fees then
      .error .coinbaseOutputTooHigh
    else .ok (applyDelta b u)

/-- `ChainState::replay_utxo`: apply a chain, genesis first, to the empty set. -/
def replayUtxo (P : Primitives) (params : ConsensusParams) (chain : List Block) :
    Except UtxoError UtxoSet :=
  chain.foldlM (fun u b => applyBlock P params b u) ∅

/-- A block of which only the height and the transactions matter: `apply_block`
    reads no other field of a header. -/
def bareBlock (height : Nat) (transactions : List Transaction) : Block where
  header :=
    { version := 1, chainId := "", height := height, previousHash := Hash256.zero,
      merkleRoot := Hash256.zero, timestampSeconds := 0, leadingZeroBits := 0, nonce := 0 }
  transactions := transactions

end Tensorium
