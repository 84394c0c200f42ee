import Tensorium.Settlement.Layout
import Tensorium.Wallet.AssetAccept
import Tensorium.Wallet.AssetCommands
import Tensorium.Wallet.Cosign

/-! # Buying an asset

    `txmwallet asset-buy`, from the order of the seller and the listing of the node to
    the file that goes back to the seller; and `asset-build-settlement`, which leaves the
    signature to another program.
-/

namespace Tensorium

open Assets ByteCodec ExceptFold

/-! ## The programs -/

/-- `hex::decode(text)` into 32 bytes. -/
def decodeHash (text badHex badLength : String) : Except String Hash256 :=
  match hexDecode text with
  | none => .error badHex
  | some bytes => if hsize : bytes.length = 32 then .ok ⟨bytes, hsize⟩ else .error badLength

namespace AssetOrder

/-- The terms of the sale, with the royalty that the indexer has recorded. -/
def terms (order : AssetOrder) (buyerAddr : String) (royaltyBps : UInt16) (royaltyAddr : String) :
    Except String SettlementTerms :=
  (decodeHash order.assetIdHex "bad asset_id hex" "asset_id must be 32 bytes").map fun assetId =>
    { assetId := assetId
      amount := order.amount
      priceAtoms := order.priceAtoms
      royaltyBps := royaltyBps
      royaltyAddr := royaltyAddr
      sellerAddr := order.sellerAddr
      buyerAddr := buyerAddr
      minerFeeAtoms := minRelayFeeAtoms }

/-- The input of the seller. -/
def sellerInput (order : AssetOrder) : Except String (OutPoint × UInt64) :=
  (decodeHash order.sellerTxidHex "bad seller txid hex" "seller txid must be 32 bytes").map
    fun txid => (⟨txid, order.sellerVout⟩, order.sellerValue)

end AssetOrder

/-- `fetch_mature_utxos`, on what the node has listed. -/
def fetchMatureUtxos (utxos : List RpcUtxo) : List (OutPoint × UInt64) :=
  (utxos.filter RpcUtxo.mature).map fun utxo => (utxo.outpoint, utxo.valueAtoms)

/-- The loop that funds the side of the buyer, from a total on; `none` when the total
    overflows. -/
def fundBuyer (need total : UInt64) :
    List (OutPoint × UInt64) → Option (List (OutPoint × UInt64) × UInt64)
  | [] => some ([], total)
  | input :: inputs => (checkedAdd total input.2).bind fun total =>
    if total ≥ need then some ([input], total)
    else (fundBuyer need total inputs).map fun funded => (input :: funded.1, funded.2)

/-- The `Debug` form of the mismatches, which hold nothing to escape. -/
def debugTexts (texts : List String) : String :=
  "[" ++ ", ".intercalate (texts.map fun text => "\"" ++ text ++ "\"") ++ "]"

/-- `build_settlement_tx` and `verify_settlement` behind it; `text` is the error of a
    check that fails. -/
def buildVerified (P : Primitives) (encode : String → Bytes → String) (text : String)
    (terms : SettlementTerms) (sellerInput : OutPoint × UInt64)
    (buyerInputs : List (OutPoint × UInt64)) : Option (Except String Transaction) :=
  (buildSettlementTx P terms sellerInput buyerInputs).bind fun built =>
    match built with
    | .error e => some (.error e)
    | .ok tx => (verifySettlement encode tx terms).map fun mismatches =>
      if mismatches ≠ [] then .error (text ++ ": " ++ debugTexts mismatches) else .ok tx

/-- `UnsignedSettlement`. -/
structure UnsignedSettlement where
  tx : Transaction
  terms : SettlementTerms
  seller : List Nat
  buyer : List Nat

/-- `build_unsigned_settlement`. -/
def buildUnsignedSettlement (P : Primitives) (encode : String → Bytes → String)
    (order : AssetOrder) (buyerAddr : String) (buyerInputs : List (OutPoint × UInt64))
    (royaltyBps : UInt16) (royaltyAddr : String) : Option (Except String UnsignedSettlement) :=
  match order.terms buyerAddr royaltyBps royaltyAddr with
  | .error e => some (.error e)
  | .ok terms =>
    match order.sellerInput with
    | .error e => some (.error e)
    | .ok sellerInput =>
      (buildVerified P encode "built settlement failed verify" terms sellerInput buyerInputs).map
        fun built => built.map fun tx =>
          { tx := tx
            terms := terms
            seller := [0]
            buyer := List.range' 1 (tx.inputs.length - 1) }

/-- The sum that both programs ask of the buyer; `none` when it overflows. -/
def AssetOrder.need (order : AssetOrder) : Option UInt64 :=
  (checkedAdd order.priceAtoms carrierAtoms).bind fun sum => checkedAdd sum minRelayFeeAtoms

/-- The inputs of the buyer. -/
def AssetOrder.fund (order : AssetOrder) (utxos : List RpcUtxo) :
    Option (Except String (List (OutPoint × UInt64))) :=
  order.need.bind fun need =>
    (fundBuyer need 0 (fetchMatureUtxos utxos)).map fun funded =>
      if funded.2 < need then
        .error ("insufficient buyer funds: have " ++ toString funded.2 ++ ", need " ++
          toString need)
      else .ok funded.1

/-- `asset-build-settlement`; `info` is the answer of the indexer. -/
def assetBuildSettlement (P : Primitives) (encode : String → Bytes → String) (order : AssetOrder)
    (buyerAddr : String) (info : AssetInfo) (utxos : List RpcUtxo) :
    Option (Except String UnsignedSettlement) :=
  (order.fund utxos).bind fun funded =>
    match funded with
    | .error e => some (.error e)
    | .ok buyerInputs => buildUnsignedSettlement P encode order buyerAddr buyerInputs
      info.royaltyBps info.royaltyAddr

variable {P : Primitives} {E : Ecdsa P} {encode : String → Bytes → String}

/-! ## The funds -/

variable {terms : SettlementTerms} {sellerInput : OutPoint × UInt64}
  {buyerInputs : List (OutPoint × UInt64)}

open WalletKeypair

end Tensorium
