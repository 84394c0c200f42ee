import Tensorium.Core.Settlement
import Tensorium.Indexer.Index
import Tensorium.Wallet.Payment

/-! # Selling an asset

    `txmwallet asset-sell` and `txmwallet asset-accept`. The seller issues an
    order and later signs the settlement that the buyer sends back; the
    settlement is checked against the terms that come with it.
-/

namespace Tensorium

open Assets ByteCodec

/-- `AssetOrder`: what the seller hands to the buyer. -/
structure AssetOrder where
  assetIdHex : String
  amount : UInt64
  priceAtoms : UInt64
  sellerAddr : String
  sellerTxidHex : String
  sellerVout : UInt32
  sellerValue : UInt64
  deriving DecidableEq

/-- `SettlementFile`: what the buyer hands back. -/
structure SettlementFile where
  tx : Transaction
  terms : SettlementTerms

/-- `asset-sell`, on what `fetch_mature_utxos` has listed. -/
def assetSell (wallet : WalletFile) (utxos : List RpcUtxo) (assetIdHex : String)
    (amount priceAtoms : UInt64) : Except String AssetOrder :=
  if ((hexDecode assetIdHex).map List.length).getD 0 ≠ 32 then
    .error "asset_id must be 32 bytes (64 hex chars)"
  else match (utxos.filter RpcUtxo.mature).argmin fun utxo => utxo.valueAtoms.toNat with
    | none => .error "no mature UTXO to anchor the sale (fund the wallet first)"
    | some utxo => .ok
      { assetIdHex := assetIdHex
        amount := amount
        priceAtoms := priceAtoms
        sellerAddr := wallet.address
        sellerTxidHex := utxo.outpoint.txid.toHex
        sellerVout := utxo.outpoint.outputIndex
        sellerValue := utxo.valueAtoms }

/-- Why a settlement is not signed. -/
inductive AcceptError where
  | mismatches (texts : List String)
  | notSeller
  | signing (error : WalletError)
  deriving DecidableEq

/-- `asset-accept`: the transaction that is signed and posted to the node; `none`
    when `verify_settlement` panics. -/
def assetAccept {P : Primitives} (encode : String → Bytes → String) (E : Ecdsa P)
    (wallet : WalletFile) (file : SettlementFile) : Option (Except AcceptError Transaction) :=
  (verifySettlement encode file.tx file.terms).map fun mismatches =>
    if mismatches ≠ [] then .error (.mismatches mismatches)
    else if file.terms.sellerAddr ≠ wallet.address then .error .notSeller
    else match wallet.keypair.signInput E file.tx 0 with
      | .error e => .error (.signing e)
      | .ok tx => .ok tx

/-! ## What the seller is owed -/

/-- What a transaction pays to an address. -/
def Transaction.paidTo (encode : String → Bytes → String) (tx : Transaction) (addr : String) :
    Nat :=
  ((tx.outputs.filter (TxOutput.paysTo encode addr)).map fun o => o.valueAtoms.toNat).sum

namespace AssetOrder

/-- The transfer is of the asset and the amount of the order. -/
def Transfers (order : AssetOrder) (tx : Transaction) : Prop :=
  ∃ d, extractAssetOp tx = some (.transfer d) ∧
    hexDecode order.assetIdHex = some d.assetId.bytes ∧ d.amount = order.amount

/-- The first input spends the outpoint of the order. -/
def Anchors (order : AssetOrder) (tx : Transaction) : Prop :=
  ∃ input, tx.inputs.head? = some input ∧
    input.previousOutput.txid.toHex = order.sellerTxidHex ∧
    input.previousOutput.outputIndex = order.sellerVout

/-- The seller gets the value of that outpoint and the price, less the platform
    fee and the royalty recorded for the asset. -/
def Pays (encode : String → Bytes → String) (order : AssetOrder) (info : AssetInfo)
    (tx : Transaction) : Prop :=
  let fees := feeSplit order.priceAtoms info.royaltyBps order.sellerAddr info.royaltyAddr
  order.sellerValue.toNat + order.priceAtoms.toNat
    ≤ tx.paidTo encode order.sellerAddr + fees.1.toNat + fees.2.toNat

/-- What a seller who has issued the order expects of the settlement. -/
structure Protects (encode : String → Bytes → String) (order : AssetOrder) (info : AssetInfo)
    (tx : Transaction) : Prop where
  transfers : order.Transfers tx
  pays : order.Pays encode info tx
  anchors : order.Anchors tx

end AssetOrder

/-- The file says what the order says: its terms name the asset and the amount of
    the order, its transaction spends the outpoint of the order first, and its
    outputs to the seller of the terms cover what the order asks for. -/
structure SettlementFile.Keeps (encode : String → Bytes → String) (file : SettlementFile)
    (order : AssetOrder) (info : AssetInfo) : Prop where
  assetId : hexDecode order.assetIdHex = some file.terms.assetId.bytes
  amount : file.terms.amount = order.amount
  anchors : order.Anchors file.tx
  proceeds :
    let fees := feeSplit order.priceAtoms info.royaltyBps file.terms.sellerAddr info.royaltyAddr
    order.sellerValue.toNat + order.priceAtoms.toNat
      ≤ file.tx.paidTo encode file.terms.sellerAddr + fees.1.toNat + fees.2.toNat

variable {P : Primitives} {E : Ecdsa P} {encode : String → Bytes → String}
  {wallet : WalletFile} {order : AssetOrder}

/-- An order names the wallet that issued it. -/
theorem sellerAddr_assetSell {utxos : List RpcUtxo} {assetIdHex : String}
    {amount priceAtoms : UInt64}
    (h : assetSell wallet utxos assetIdHex amount priceAtoms = .ok order) :
    order.sellerAddr = wallet.address := by
  unfold assetSell at h
  split_ifs at h
  split at h
  · cases h
  · cases h
    rfl

/-- What is signed has no mismatches, is the wallet's, and is the transaction of
    the file with the script of its first input replaced. -/
theorem assetAccept_cases {file : SettlementFile} {tx : Transaction}
    (h : assetAccept encode E wallet file = some (.ok tx)) :
    verifySettlement encode file.tx file.terms = some [] ∧
      file.terms.sellerAddr = wallet.address ∧
      ∃ script, tx = (file.tx.stamp 0 script).refreshId P := by
  obtain ⟨mismatches, hverify, h⟩ := Option.map_eq_some_iff.mp h
  split_ifs at h with hmismatches hseller
  rw [not_ne_iff] at hmismatches hseller
  subst hmismatches
  refine ⟨hverify, hseller, ?_⟩
  cases hsign : wallet.keypair.signInput E file.tx 0 with
  | error e =>
    rw [hsign] at h
    cases h
  | ok signed =>
    rw [hsign] at h
    obtain rfl := Except.ok.inj h
    obtain ⟨script, _, hstamp⟩ := WalletKeypair.signInput_cases hsign
    exact ⟨script, hstamp⟩

/-- Signing changes no outpoint. -/
theorem anchors_stamp {tx : Transaction} {script : Bytes} :
    order.Anchors ((tx.stamp 0 script).refreshId P) ↔ order.Anchors tx := by
  unfold AssetOrder.Anchors Transaction.stamp Transaction.refreshId
  cases tx.inputs with
  | nil => rfl
  | cons input inputs => simp

/-- Signing changes no output. -/
theorem pays_stamp {info : AssetInfo} {tx : Transaction} {script : Bytes} :
    order.Pays encode info ((tx.stamp 0 script).refreshId P) ↔ order.Pays encode info tx :=
  Iff.rfl

/-- **The seller is protected by the file alone.** For every order of `asset-sell`
    and every file of the buyer that `asset-accept` signs, the signed transaction
    gives the seller what the order asks for exactly if the file says what the
    order says. -/
theorem assetAccept_protects_iff (encode : String → Bytes → String) (E : Ecdsa P)
    (wallet : WalletFile) (utxos : List RpcUtxo) (assetIdHex : String)
    (amount priceAtoms : UInt64) (info : AssetInfo) (file : SettlementFile) {tx : Transaction}
    (hsell : assetSell wallet utxos assetIdHex amount priceAtoms = .ok order)
    (haccept : assetAccept encode E wallet file = some (.ok tx)) :
    order.Protects encode info tx ↔ file.Keeps encode order info := by
  obtain ⟨hverify, hseller, script, rfl⟩ := assetAccept_cases haccept
  obtain ⟨_, htransfer, _⟩ := verifySettlement_nil hverify
  have haddr : order.sellerAddr = file.terms.sellerAddr := by
    rw [hseller]
    exact sellerAddr_assetSell hsell
  constructor
  · rintro ⟨⟨d, hd, hasset, hamount⟩, hpays, hanchors⟩
    have hop : some (AssetOp.transfer ⟨file.terms.assetId, file.terms.amount, 0⟩)
        = some (.transfer d) := htransfer.symm.trans hd
    cases hop
    refine ⟨hasset, hamount, anchors_stamp.mp hanchors, ?_⟩
    rw [← haddr]
    exact pays_stamp.mp hpays
  · rintro ⟨hasset, hamount, hanchors, hproceeds⟩
    refine ⟨⟨_, htransfer, hasset, hamount⟩, pays_stamp.mpr ?_, anchors_stamp.mpr hanchors⟩
    unfold AssetOrder.Pays
    rw [haddr]
    exact hproceeds

/-! ## A buyer's own terms -/

/-- The key hash behind `PLATFORM_FEE_ADDRESS`. -/
def platformFeeHash : Bytes :=
  [0x09, 0x95, 0x3d, 0xac, 0x2f, 0x3f, 0xb6, 0x23, 0xb5, 0x91, 0xf8, 0x7e, 0x0e, 0xb5, 0xc2, 0x37,
    0x5d, 0x67, 0xe2, 0x96]

/-- An encoding of addresses, which encodes the platform's own as it should. -/
def saleEncode (hrp : String) (bytes : Bytes) : String :=
  if bytes = platformFeeHash then platformFeeAddress else Indexer.sampleEncode hrp bytes

def sellerHash : Bytes := List.replicate 20 1

def buyerHash : Bytes := List.replicate 20 2

def sellerWallet : WalletFile where
  address := saleEncode Script.addressHrp sellerHash
  keypair := .fromSigningKey Ecdsa.sample ⟨List.replicate 33 7, by simp⟩

def sellerUtxo : RpcUtxo := ⟨⟨Hash256.ofSuffix [1], 0⟩, 3000, true⟩

/-- The asset for sale, without a royalty. -/
def soldAsset : Hash256 := Hash256.ofSuffix [7]

def soldInfo : AssetInfo := IssueData.assetInfo ⟨"GOLD", 8, 1000, "Gold", 0⟩ "issuer" 5

/-- The order: five of the asset for a million atoms. -/
def saleOrder : AssetOrder where
  assetIdHex := soldAsset.toHex
  amount := 5
  priceAtoms := 1000000
  sellerAddr := sellerWallet.address
  sellerTxidHex := (Hash256.ofSuffix [1]).toHex
  sellerVout := 0
  sellerValue := 3000

/-- The output that transfers five of the asset to the first output. -/
def saleTransfer : TxOutput :=
  ⟨0, [0x6a, 47] ++ magic ++ [version, 0x03] ++ soldAsset.bytes ++ [0, 0, 0, 0, 0, 0, 0, 5, 0]⟩

/-- The buyer's file with the given price in its terms and the given outputs
    behind the carrier and the transfer. -/
def saleFile (priceAtoms : UInt64) (outputs : List TxOutput) : SettlementFile where
  tx := Transaction.payment Primitives.sample
    [⟨⟨Hash256.ofSuffix [1], 0⟩, []⟩, ⟨⟨Hash256.ofSuffix [2], 0⟩, []⟩]
    (⟨carrierAtoms, Script.p2pkhScript buyerHash⟩ :: saleTransfer :: outputs)
  terms :=
    { assetId := soldAsset
      amount := 5
      priceAtoms := priceAtoms
      royaltyBps := 0
      royaltyAddr := ""
      sellerAddr := sellerWallet.address
      buyerAddr := saleEncode Script.addressHrp buyerHash
      minerFeeAtoms := 10000 }

/-- A settlement as the order asks for it. -/
def fairFile : SettlementFile :=
  saleFile 1000000
    [⟨978000, Script.p2pkhScript sellerHash⟩, ⟨25000, Script.p2pkhScript platformFeeHash⟩]

/-- A settlement that names a price of zero and pays it. -/
def freeFile : SettlementFile := saleFile 0 [⟨0, Script.p2pkhScript sellerHash⟩]

theorem assetSell_saleOrder :
    assetSell sellerWallet [sellerUtxo] soldAsset.toHex 5 1000000 = .ok saleOrder := by
  decide

/-- The seller's program signs both files. -/
theorem signs_saleFiles :
    ∀ file ∈ [fairFile, freeFile], ∃ tx,
      assetAccept saleEncode Ecdsa.sample sellerWallet file = some (.ok tx) := by
  have heval : ∀ file ∈ [fairFile, freeFile],
      (assetAccept saleEncode Ecdsa.sample sellerWallet file).map (fun r => r.toOption.isSome)
        = some true := by
    decide
  intro file hfile
  obtain ⟨r, hr, hok⟩ := Option.map_eq_some_iff.mp (heval file hfile)
  cases r with
  | error e => cases hok
  | ok tx => exact ⟨tx, hr⟩

/-- The fair one gives the seller what is owed. -/
theorem fairFile_protects :
    ∃ tx, assetAccept saleEncode Ecdsa.sample sellerWallet fairFile = some (.ok tx) ∧
      saleOrder.Protects saleEncode soldInfo tx := by
  obtain ⟨tx, htx⟩ := signs_saleFiles fairFile List.mem_cons_self
  refine ⟨tx, htx, ?_⟩
  apply (assetAccept_protects_iff saleEncode Ecdsa.sample sellerWallet [sellerUtxo] soldAsset.toHex
    5 1000000 soldInfo fairFile assetSell_saleOrder htx).mpr
  exact ⟨hexDecode_hexEncode _, rfl, ⟨_, rfl, rfl, rfl⟩, by decide⟩

/-- The other one pays nothing for the asset and keeps the value of the seller's
    own input. -/
theorem freeFile_takes :
    assetSell sellerWallet [sellerUtxo] soldAsset.toHex 5 1000000 = .ok saleOrder ∧
    ∃ tx, assetAccept saleEncode Ecdsa.sample sellerWallet freeFile = some (.ok tx) ∧
      ¬ saleOrder.Protects saleEncode soldInfo tx := by
  obtain ⟨tx, htx⟩ := signs_saleFiles freeFile (by simp)
  refine ⟨assetSell_saleOrder, tx, htx, ?_⟩
  intro hprotects
  obtain ⟨_, _, script, rfl⟩ := assetAccept_cases htx
  have hpays := pays_stamp.mp hprotects.pays
  have hshort : ¬ saleOrder.Pays saleEncode soldInfo freeFile.tx := by
    unfold AssetOrder.Pays
    decide
  exact hshort hpays

end Tensorium
