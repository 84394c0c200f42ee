import Tensorium.Lib.Saturating
import Tensorium.Core.Script.Standard
import Tensorium.Core.TensorHash

/-! # Transactions, headers and blocks

    `block.rs`: the data model, transaction identifiers, the signature hash,
    header hashes and the merkle root.
-/

namespace Tensorium

open ByteCodec Saturating

/-! ## Data model -/

structure OutPoint where
  txid : Hash256
  outputIndex : UInt32
  deriving DecidableEq

structure TxInput where
  previousOutput : OutPoint
  signatureScript : Bytes
  deriving DecidableEq

structure TxOutput where
  valueAtoms : UInt64
  scriptPubkey : Bytes
  deriving DecidableEq

/-- A transaction. The `id` is a field of the message like any other; nothing
    in the type ties it to the contents. -/
@[ext] structure Transaction where
  id : Hash256
  inputs : List TxInput
  outputs : List TxOutput
  payload : Bytes
  deriving DecidableEq

structure BlockHeader where
  version : UInt32
  chainId : String
  height : Nat
  previousHash : Hash256
  merkleRoot : Hash256
  timestampSeconds : Nat
  leadingZeroBits : UInt8
  nonce : UInt64
  deriving DecidableEq

structure Block where
  header : BlockHeader
  transactions : List Transaction
  deriving DecidableEq

/-! ## Transaction identifiers -/

/-- What one input contributes to the preimage of `transaction_id`. -/
def TxInput.encode (i : TxInput) : Bytes :=
  i.previousOutput.txid.bytes ++ leBytes 4 i.previousOutput.outputIndex.toNat
    ++ i.signatureScript

/-- What one output contributes to the preimage of `transaction_id`. -/
def TxOutput.encode (o : TxOutput) : Bytes :=
  leBytes 8 o.valueAtoms.toNat ++ o.scriptPubkey

/-- The bytes `transaction_id` hashes. -/
def transactionPreimage (inputs : List TxInput) (outputs : List TxOutput) (payload : Bytes) :
    Bytes :=
  inputs.flatMap TxInput.encode ++ outputs.flatMap TxOutput.encode ++ payload

/-- `transaction_id`. -/
def transactionId (P : Primitives) (inputs : List TxInput) (outputs : List TxOutput)
    (payload : Bytes) : Hash256 :=
  P.doubleSha256 (transactionPreimage inputs outputs payload)

/-- The inputs with their scripts emptied, as `signature_hash` hashes them. -/
def TxInput.unsigned (i : TxInput) : TxInput := { i with signatureScript := [] }

namespace Transaction

/-- The bytes `signature_hash` feeds to `double_sha256`. -/
def signaturePreimage (tx : Transaction) : Bytes :=
  transactionPreimage (tx.inputs.map TxInput.unsigned) tx.outputs tx.payload

/-- `Transaction::signature_hash`. -/
def signatureHash (P : Primitives) (tx : Transaction) : Hash256 :=
  transactionId P (tx.inputs.map TxInput.unsigned) tx.outputs tx.payload

/-- The hash `refresh_id` would store as the identifier. -/
def computedId (P : Primitives) (tx : Transaction) : Hash256 :=
  transactionId P tx.inputs tx.outputs tx.payload

/-- The prefix of a coinbase payload. -/
def coinbaseTag : Bytes := asBytes "coinbase:"

/-- `Transaction::is_coinbase`. -/
def isCoinbase (tx : Transaction) : Bool :=
  tx.inputs.isEmpty && coinbaseTag.isPrefixOf tx.payload

/-- `Transaction::total_output_atoms`. -/
def totalOutputAtoms (tx : Transaction) : UInt64 :=
  tx.outputs.foldl (fun sum o => satAdd64 sum o.valueAtoms) 0

/-- The payload `format!("coinbase:{height}:{reward_atoms}:{miner}")`. -/
def coinbasePayload (height : Nat) (rewardAtoms : UInt64) (miner : String) : Bytes :=
  coinbaseTag ++ asBytes (toString height) ++ asBytes ":" ++ asBytes (toString rewardAtoms.toNat)
    ++ asBytes ":" ++ asBytes miner

/-- `p2pkh_from_address(addr).unwrap_or_default()`. -/
def payTo (P : Primitives) (addr : String) : Bytes :=
  match Script.p2pkhFromAddress P addr with
  | .ok script => script
  | .error _ => []

/-- A transaction without inputs whose `id` is computed from its contents. -/
def withoutInputs (P : Primitives) (outputs : List TxOutput) (payload : Bytes) : Transaction where
  id := transactionId P [] outputs payload
  inputs := []
  outputs := outputs
  payload := payload

/-- `Transaction::coinbase`. -/
def coinbase (P : Primitives) (height : Nat) (rewardAtoms : UInt64) (miner : String) :
    Transaction :=
  withoutInputs P
    (if rewardAtoms = 0 then [] else [⟨rewardAtoms, payTo P miner⟩])
    (coinbasePayload height rewardAtoms miner)

/-- The pre-mint outputs of `Transaction::genesis_coinbase`. -/
def premintOutputs (P : Primitives) (founderAtoms : UInt64) (founderAddr : String)
    (genesisAllocations : List (String × UInt64)) : List TxOutput :=
  if !genesisAllocations.isEmpty then
    (genesisAllocations.filter fun a => decide (a.2 > 0)).map fun a => ⟨a.2, payTo P a.1⟩
  else if founderAtoms > 0 ∧ !founderAddr.isEmpty then [⟨founderAtoms, payTo P founderAddr⟩]
  else []

/-- `Transaction::genesis_coinbase`. -/
def genesisCoinbase (P : Primitives) (rewardAtoms : UInt64) (miner : String)
    (founderAtoms : UInt64) (founderAddr : String)
    (genesisAllocations : List (String × UInt64)) : Transaction :=
  withoutInputs P
    ((if rewardAtoms > 0 then [⟨rewardAtoms, payTo P miner⟩] else [])
      ++ premintOutputs P founderAtoms founderAddr genesisAllocations)
    (coinbasePayload 0 rewardAtoms miner)

/-- A transaction built by the node itself carries the coinbase tag. -/
theorem isCoinbase_withoutInputs (P : Primitives) (outputs : List TxOutput) (height : Nat)
    (rewardAtoms : UInt64) (miner : String) :
    (withoutInputs P outputs (coinbasePayload height rewardAtoms miner)).isCoinbase = true := by
  have hpre : coinbaseTag <+: coinbasePayload height rewardAtoms miner := by
    simp only [coinbasePayload, List.append_assoc]
    exact List.prefix_append _ _
  simp [isCoinbase, withoutInputs, List.isPrefixOf_iff_prefix, hpre]

end Transaction

/-! ## Headers and blocks -/

namespace BlockHeader

/-- `BlockHeader::pow_prefix_bytes`. -/
def powPrefixBytes (h : BlockHeader) : Bytes :=
  leBytes 4 h.version.toNat ++ asBytes h.chainId ++ leBytes 8 h.height
    ++ h.previousHash.bytes ++ h.merkleRoot.bytes ++ leBytes 8 h.timestampSeconds
    ++ [h.leadingZeroBits]

/-- The bytes `BlockHeader::hash` hashes. -/
def preimage (h : BlockHeader) : Bytes := h.powPrefixBytes ++ leBytes 8 h.nonce.toNat

/-- `BlockHeader::hash`. -/
def hash (P : Primitives) (h : BlockHeader) : Hash256 := P.doubleSha256 h.preimage

/-- `BlockHeader::pow_hash`. -/
def powHash (P : Primitives) (h : BlockHeader) (epochSeed : Hash256) : Hash256 :=
  TensorHash.powHash P h.powPrefixBytes h.nonce epochSeed

end BlockHeader

/-- `Block::hash`. -/
def Block.hash (P : Primitives) (b : Block) : Hash256 := b.header.hash P

/-! ## Merkle root -/

/-- One inner node of the merkle tree. -/
def merkleNode (P : Primitives) (left right : Hash256) : Hash256 :=
  P.doubleSha256 (left.bytes ++ right.bytes)

/-- One pass of the `while` loop of `merkle_root`: pair up a layer, the last
    node with itself when the layer is odd. -/
def merkleLayer (P : Primitives) : List Hash256 → List Hash256
  | [] => []
  | [a] => [merkleNode P a a]
  | a :: b :: rest => merkleNode P a b :: merkleLayer P rest

/-- The `while` loop of `merkle_root`. Halving a layer at least decrements its
    length, so its length is enough fuel. -/
def merkleLoop (P : Primitives) : Nat → List Hash256 → Hash256
  | _, [] => Hash256.zero
  | _, [a] => a
  | 0, a :: _ => a
  | fuel + 1, layer => merkleLoop P fuel (merkleLayer P layer)

/-- `merkle_root`. -/
def merkleRoot (P : Primitives) (transactions : List Transaction) : Hash256 :=
  merkleLoop P transactions.length (transactions.map Transaction.id)

end Tensorium
