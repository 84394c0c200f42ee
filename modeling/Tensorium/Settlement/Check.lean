import Tensorium.Core.Settlement
import Tensorium.Wallet.AssetAccept

/-! # What the check of a settlement finds

    `verify_settlement` looks for the transfer, for the carrier of the buyer in the
    first output, and for each due by itself: some output must pay it.
-/

namespace Tensorium

open Assets Saturating

variable {encode : String → Bytes → String} {terms : SettlementTerms}

/-! ## The dues -/

namespace SettlementTerms

/-- The shares of the price in 64 bits. -/
def split (terms : SettlementTerms) : UInt64 × UInt64 :=
  feeSplit terms.priceAtoms terms.royaltyBps terms.sellerAddr terms.royaltyAddr

/-- The dues that must be paid exactly. -/
def exactDues (terms : SettlementTerms) : List (String × Nat) :=
  [(terms.buyerAddr, carrierAtoms.toNat), (platformFeeAddress, terms.split.1.toNat),
    (terms.royaltyAddr, terms.split.2.toNat)]

/-- The price, less the fee and the royalty. -/
def netPrice (terms : SettlementTerms) : Nat :=
  terms.priceAtoms.toNat - (terms.split.1.toNat + terms.split.2.toNat)

end SettlementTerms

/-! ## Outputs that are found -/

/-- The values of the outputs to an address. -/
def Transaction.valuesTo (encode : String → Bytes → String) (tx : Transaction) (addr : String) :
    List Nat :=
  (tx.outputs.filter (TxOutput.paysTo encode addr)).map fun o => o.valueAtoms.toNat

theorem hasOutputExact_iff {tx : Transaction} {addr : String} {value : UInt64} :
    hasOutputExact encode tx addr value = true ↔ value.toNat ∈ tx.valuesTo encode addr := by
  unfold hasOutputExact Transaction.valuesTo
  rw [List.any_eq_true, List.mem_map]
  constructor
  · rintro ⟨out, hmem, hout⟩
    rw [Bool.and_eq_true, decide_eq_true_eq] at hout
    exact ⟨out, List.mem_filter.mpr ⟨hmem, hout.2⟩, congrArg UInt64.toNat hout.1⟩
  · rintro ⟨out, hout, hvalue⟩
    obtain ⟨hmem, hpays⟩ := List.mem_filter.mp hout
    refine ⟨out, hmem, ?_⟩
    rw [hpays, Bool.and_true, decide_eq_true_eq]
    exact UInt64.toNat_inj.mp hvalue

theorem hasOutputAtLeast_iff {tx : Transaction} {addr : String} {min : UInt64} :
    hasOutputAtLeast encode tx addr min = true ↔
      ∃ value ∈ tx.valuesTo encode addr, min.toNat ≤ value := by
  unfold hasOutputAtLeast Transaction.valuesTo
  rw [List.any_eq_true]
  constructor
  · rintro ⟨out, hmem, hout⟩
    rw [Bool.and_eq_true, decide_eq_true_eq] at hout
    exact ⟨_, List.mem_map_of_mem (List.mem_filter.mpr ⟨hmem, hout.2⟩),
      UInt64.le_iff_toNat_le.mp hout.1⟩
  · rintro ⟨value, hvalue, hle⟩
    obtain ⟨out, hout, rfl⟩ := List.mem_map.mp hvalue
    obtain ⟨hmem, hpays⟩ := List.mem_filter.mp hout
    refine ⟨out, hmem, ?_⟩
    rw [hpays, Bool.and_true, decide_eq_true_eq]
    exact UInt64.le_iff_toNat_le.mpr hle

/-- The carrier comes first. -/
def CarrierFirst (encode : String → Bytes → String) (tx : Transaction) (buyerAddr : String) :
    Prop :=
  ∃ carrier rest, tx.outputs = carrier :: rest ∧ carrier.valueAtoms = carrierAtoms ∧
    carrier.paysTo encode buyerAddr = true

theorem isBuyerCarrier_iff {tx : Transaction} :
    isBuyerCarrier encode tx terms = true ↔ CarrierFirst encode tx terms.buyerAddr := by
  unfold isBuyerCarrier CarrierFirst
  constructor
  · intro h
    split at h
    · rename_i carrier hhead
      obtain ⟨rest, hrest⟩ := List.head?_eq_some_iff.mp hhead
      rw [Bool.and_eq_true, decide_eq_true_eq] at h
      exact ⟨carrier, rest, hrest, h.1, h.2⟩
    · cases h
  · rintro ⟨carrier, rest, houtputs, hvalue, hpays⟩
    rw [houtputs, List.head?_cons]
    dsimp only
    rw [hpays, hvalue, decide_eq_true rfl, Bool.and_true]

/-- What is due must be found. -/
theorem foundIfDue_iff {value : UInt64} {found : Bool} :
    (!(decide (value > 0) && !found)) = true ↔ (0 < value.toNat → found = true) := by
  rw [Bool.not_eq_true', Bool.and_eq_false_iff, decide_eq_false_iff_not, Bool.not_eq_false',
    gt_iff_lt, UInt64.lt_iff_toNat_lt, UInt64.toNat_zero]
  by_cases hpos : 0 < value.toNat
  · simp [hpos]
  · simp [hpos]

/-- The check finds the transfer, the carrier, and an output for each due. -/
theorem verifySettlement_nil_iff {tx : Transaction} :
    verifySettlement encode tx terms = some [] ↔
      terms.split.1.toNat + terms.split.2.toNat < 2 ^ 64 ∧
        extractAssetOp tx = some (.transfer ⟨terms.assetId, terms.amount, 0⟩) ∧
        CarrierFirst encode tx terms.buyerAddr ∧
        (0 < terms.split.1.toNat →
          terms.split.1.toNat ∈ tx.valuesTo encode platformFeeAddress) ∧
        (0 < terms.split.2.toNat → terms.split.2.toNat ∈ tx.valuesTo encode terms.royaltyAddr) ∧
        ∃ value ∈ tx.valuesTo encode terms.sellerAddr, terms.netPrice ≤ value := by
  show (checkedAdd terms.split.1 terms.split.2).map (fun fees =>
    mismatchUnless (isBuyerCarrier encode tx terms) "out[0] is not the buyer carrier"
      ++ mismatchUnless (isExpectedTransfer tx terms) "transfer op mismatch"
      ++ mismatchUnless
        (!(decide (terms.split.1 > 0) && !hasOutputExact encode tx platformFeeAddress terms.split.1))
        "platform fee output missing/incorrect"
      ++ mismatchUnless
        (!(decide (terms.split.2 > 0) && !hasOutputExact encode tx terms.royaltyAddr terms.split.2))
        "royalty output missing/incorrect"
      ++ mismatchUnless
        (hasOutputAtLeast encode tx terms.sellerAddr (satSub64 terms.priceAtoms fees))
        "seller proceeds below net") = some [] ↔ _
  rw [Option.map_eq_some_iff]
  -- No mismatch is listed exactly if each check holds.
  simp only [List.append_eq_nil_iff, mismatchUnless_eq_nil, isBuyerCarrier_iff,
    isExpectedTransfer_iff, foundIfDue_iff, hasOutputExact_iff, hasOutputAtLeast_iff,
    toNat_satSub64, checkedAdd_eq_some]
  constructor
  · rintro ⟨fees, hfees, ⟨⟨⟨hcarrier, htransfer⟩, hplatform⟩, hroyalty⟩, hproceeds⟩
    rw [hfees] at hproceeds
    exact ⟨exists_toNat_eq_iff.mp ⟨fees, hfees⟩, htransfer, hcarrier, hplatform, hroyalty, hproceeds⟩
  · rintro ⟨hfit, htransfer, hcarrier, hplatform, hroyalty, hproceeds⟩
    obtain ⟨fees, hfees⟩ := exists_toNat_eq_iff.mpr hfit
    refine ⟨fees, hfees, ⟨⟨⟨hcarrier, htransfer⟩, hplatform⟩, hroyalty⟩, ?_⟩
    rw [hfees]
    exact hproceeds

end Tensorium
