import Tensorium.Core.Assets

/-! # Settlements

    `settlement.rs`: the terms of a sale of an asset, and the check of a
    transaction against them. Nothing here reads the inputs of the transaction.
-/

namespace Tensorium

open Assets Saturating

/-- `PLATFORM_FEE_BPS`. -/
def platformFeeBps : UInt16 := 250

/-- `PLATFORM_FEE_ADDRESS`. -/
def platformFeeAddress : String := "txm1px2nmtp087mz8dv3lplqadwzxawk0c5kg0mt24"

/-- `CARRIER_ATOMS`. -/
def carrierAtoms : UInt64 := 1000

/-- `SettlementTerms`. -/
structure SettlementTerms where
  assetId : Hash256
  amount : UInt64
  priceAtoms : UInt64
  royaltyBps : UInt16
  royaltyAddr : String
  sellerAddr : String
  buyerAddr : String
  minerFeeAtoms : UInt64
  deriving DecidableEq

/-- `(price as u128 * bps as u128 / 10_000) as u64`. -/
def bpsShare (price : UInt64) (bps : UInt16) : UInt64 :=
  UInt64.ofNat (price.toNat * bps.toNat / 10000)

/-- `fee_split`: the platform fee and the royalty. -/
def feeSplit (price : UInt64) (royaltyBps : UInt16) (sellerAddr royaltyAddr : String) :
    UInt64 × UInt64 :=
  (bpsShare price platformFeeBps,
    if royaltyBps = 0 ∨ sellerAddr = royaltyAddr then 0 else bpsShare price royaltyBps)

/-- `extract_address(&o.script_pubkey).as_deref() == Some(addr)`. -/
def TxOutput.paysTo (encode : String → Bytes → String) (addr : String) (o : TxOutput) : Bool :=
  decide (Script.extractAddress encode o.scriptPubkey = some addr)

/-- `has_output_exact`. -/
def hasOutputExact (encode : String → Bytes → String) (tx : Transaction) (addr : String)
    (value : UInt64) : Bool :=
  tx.outputs.any fun o => decide (o.valueAtoms = value) && o.paysTo encode addr

/-- `has_output_at_least`. -/
def hasOutputAtLeast (encode : String → Bytes → String) (tx : Transaction) (addr : String)
    (min : UInt64) : Bool :=
  tx.outputs.any fun o => decide (o.valueAtoms ≥ min) && o.paysTo encode addr

/-- The output that carries the asset to the buyer comes first. -/
def isBuyerCarrier (encode : String → Bytes → String) (tx : Transaction)
    (terms : SettlementTerms) : Bool :=
  match tx.outputs.head? with
  | some o => decide (o.valueAtoms = carrierAtoms) && o.paysTo encode terms.buyerAddr
  | none => false

/-- The first operation is the expected transfer. -/
def isExpectedTransfer (tx : Transaction) (terms : SettlementTerms) : Bool :=
  match extractAssetOp tx with
  | some (.transfer d) =>
    decide (d.assetId = terms.assetId) && decide (d.amount = terms.amount)
      && decide (d.destOutputIndex = 0)
  | _ => false

/-- A mismatch, unless the check holds. -/
def mismatchUnless (ok : Bool) (text : String) : List String := if ok then [] else [text]

/-- `verify_settlement`: the mismatches. `none` when `platform_fee + royalty`
    overflows: the debug build panics there and the release build wraps. -/
def verifySettlement (encode : String → Bytes → String) (tx : Transaction)
    (terms : SettlementTerms) : Option (List String) :=
  let (platformFee, royalty) :=
    feeSplit terms.priceAtoms terms.royaltyBps terms.sellerAddr terms.royaltyAddr
  (checkedAdd platformFee royalty).map fun fees =>
    mismatchUnless (isBuyerCarrier encode tx terms) "out[0] is not the buyer carrier"
      ++ mismatchUnless (isExpectedTransfer tx terms) "transfer op mismatch"
      ++ mismatchUnless
        (!(decide (platformFee > 0) && !hasOutputExact encode tx platformFeeAddress platformFee))
        "platform fee output missing/incorrect"
      ++ mismatchUnless
        (!(decide (royalty > 0) && !hasOutputExact encode tx terms.royaltyAddr royalty))
        "royalty output missing/incorrect"
      ++ mismatchUnless
        (hasOutputAtLeast encode tx terms.sellerAddr (satSub64 terms.priceAtoms fees))
        "seller proceeds below net"

@[simp] theorem mismatchUnless_eq_nil {ok : Bool} {text : String} :
    mismatchUnless ok text = [] ↔ ok = true := by
  cases ok with
  | false => simp [mismatchUnless]
  | true => simp [mismatchUnless]

/-- The transfer of a transaction that passes for the expected one. -/
theorem isExpectedTransfer_iff {tx : Transaction} {terms : SettlementTerms} :
    isExpectedTransfer tx terms = true ↔
      extractAssetOp tx = some (.transfer ⟨terms.assetId, terms.amount, 0⟩) := by
  unfold isExpectedTransfer
  constructor
  · intro h
    split at h
    · rename_i d hop
      simp only [Bool.and_eq_true, decide_eq_true_eq] at h
      obtain ⟨⟨hasset, hamount⟩, hdest⟩ := h
      rw [hop, ← hasset, ← hamount, ← hdest]
    · cases h
  · intro h
    rw [h]
    simp

/-- What a transaction without mismatches contains. -/
theorem verifySettlement_nil {encode : String → Bytes → String} {tx : Transaction}
    {terms : SettlementTerms} (h : verifySettlement encode tx terms = some []) :
    isBuyerCarrier encode tx terms = true ∧
      extractAssetOp tx = some (.transfer ⟨terms.assetId, terms.amount, 0⟩) ∧
      ∃ fees, hasOutputAtLeast encode tx terms.sellerAddr (satSub64 terms.priceAtoms fees) = true := by
  obtain ⟨fees, _, hnil⟩ := Option.map_eq_some_iff.mp h
  simp only [List.append_eq_nil_iff, mismatchUnless_eq_nil] at hnil
  obtain ⟨⟨⟨⟨hcarrier, htransfer⟩, _⟩, _⟩, hproceeds⟩ := hnil
  exact ⟨hcarrier, isExpectedTransfer_iff.mp htransfer, fees, hproceeds⟩

end Tensorium
