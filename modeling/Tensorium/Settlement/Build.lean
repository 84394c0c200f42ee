import Tensorium.Assets.Codec
import Tensorium.Settlement.Check
import Tensorium.Wallet.Payment

/-! # Building a settlement

    `build_settlement_tx`: the unsigned transaction of a sale, from the terms,
    the input of the seller and the inputs of the buyer. The shares of the price
    are computed in 128 bits and cast back; every other sum is a plain `u64` one.
-/

namespace Tensorium

open Assets

/-! ## Plain sums -/

/-- `.sum()` of `u64` values: `none` when it overflows. -/
def sumAtoms (values : List UInt64) : Option UInt64 := values.foldlM checkedAdd 0

theorem foldlM_checkedAdd_eq_some {values : List UInt64} {a s : UInt64} :
    values.foldlM checkedAdd a = some s ↔ s.toNat = a.toNat + (values.map UInt64.toNat).sum := by
  induction values generalizing a with
  | nil =>
    show some a = some s ↔ _
    rw [Option.some.injEq, List.map_nil, List.sum_nil, Nat.add_zero, ← UInt64.toNat_inj]
    exact eq_comm
  | cons v values ih =>
    rw [List.foldlM_cons, List.map_cons, List.sum_cons]
    show (checkedAdd a v).bind _ = some s ↔ _
    rw [Option.bind_eq_some_iff]
    constructor
    · rintro ⟨b, hb, hs⟩
      rw [ih.mp hs, checkedAdd_eq_some.mp hb, Nat.add_assoc]
    · intro hs
      have hlt := s.toNat_lt
      have hb : (UInt64.ofNat (a.toNat + v.toNat)).toNat = a.toNat + v.toNat :=
        UInt64.toNat_ofNat_of_lt' (show _ < 2 ^ 64 by omega)
      exact ⟨_, checkedAdd_eq_some.mpr hb, ih.mpr (by rw [hs, hb, Nat.add_assoc])⟩

theorem sumAtoms_eq_some {values : List UInt64} {s : UInt64} :
    sumAtoms values = some s ↔ s.toNat = (values.map UInt64.toNat).sum := by
  unfold sumAtoms
  rw [foldlM_checkedAdd_eq_some, UInt64.toNat_zero, Nat.zero_add]

/-! ## The transaction -/

/-- `price + CARRIER_ATOMS + miner_fee`. -/
def SettlementTerms.buyerNeed (terms : SettlementTerms) : Option UInt64 :=
  (checkedAdd terms.priceAtoms carrierAtoms).bind fun sum => checkedAdd sum terms.minerFeeAtoms

/-- An output that pays an address. -/
def settlementOutput (P : Primitives) (addr : String) (value : UInt64) : Except String TxOutput :=
  match Script.p2pkhFromAddress P addr with
  | .error _ => .error s!"invalid address: {addr}"
  | .ok script => .ok ⟨value, script⟩

/-- An output that is left out when it would pay nothing. -/
def settlementOutputIfPaid (P : Primitives) (addr : String) (value : UInt64) :
    Except String (List TxOutput) :=
  if value > 0 then (settlementOutput P addr value).map fun out => [out] else .ok []

/-- The output that carries the transfer. -/
def transferOutput (terms : SettlementTerms) : TxOutput :=
  ⟨0, opReturnScript (encodeOp (.transfer ⟨terms.assetId, terms.amount, 0⟩))⟩

/-- The outputs in their order. -/
def settlementOutputs (P : Primitives) (terms : SettlementTerms)
    (sellerProceeds platformFee royalty change : UInt64) : Except String (List TxOutput) := do
  let carrier ← settlementOutput P terms.buyerAddr carrierAtoms
  let seller ← settlementOutput P terms.sellerAddr sellerProceeds
  let fee ← settlementOutputIfPaid P platformFeeAddress platformFee
  let royalty ← settlementOutputIfPaid P terms.royaltyAddr royalty
  let change ← settlementOutputIfPaid P terms.buyerAddr change
  return [carrier, transferOutput terms, seller] ++ fee ++ royalty ++ change

/-- `build_settlement_tx` behind its first line, with the shares of the price that
    `fee_split` returns. -/
def buildWithFees (P : Primitives) (terms : SettlementTerms) (platformFee royalty : UInt64)
    (sellerInput : OutPoint × UInt64) (buyerInputs : List (OutPoint × UInt64)) :
    Option (Except String Transaction) := do
  let fees ← checkedAdd platformFee royalty
  if fees > terms.priceAtoms then return .error "fee + royalty exceeds price"
  else
    let vBuyer ← sumAtoms (buyerInputs.map Prod.snd)
    let buyerNeed ← terms.buyerNeed
    if vBuyer < buyerNeed then
      return .error s!"insufficient buyer funds: have {vBuyer}, need {buyerNeed}"
    else
      let gross ← checkedAdd sellerInput.2 terms.priceAtoms
      let lessFee ← checkedSub gross platformFee
      let sellerProceeds ← checkedSub lessFee royalty
      let lessPrice ← checkedSub vBuyer terms.priceAtoms
      let lessCarrier ← checkedSub lessPrice carrierAtoms
      let change ← checkedSub lessCarrier terms.minerFeeAtoms
      return (settlementOutputs P terms sellerProceeds platformFee royalty change).map
        (.payment P ((sellerInput :: buyerInputs).map fun input => ⟨input.1, []⟩))

/-- `build_settlement_tx`, on outpoints with their values. `none` when a sum or a
    difference overflows: the debug build panics there and the release build wraps. -/
def buildSettlementTx (P : Primitives) (terms : SettlementTerms)
    (sellerInput : OutPoint × UInt64) (buyerInputs : List (OutPoint × UInt64)) :
    Option (Except String Transaction) :=
  let (platformFee, royalty) :=
    feeSplit terms.priceAtoms terms.royaltyBps terms.sellerAddr terms.royaltyAddr
  buildWithFees P terms platformFee royalty sellerInput buyerInputs

variable {P : Primitives} {terms : SettlementTerms} {sellerInput : OutPoint × UInt64}
  {buyerInputs : List (OutPoint × UInt64)}

/-- The values of the inputs of the buyer, added up. -/
def buyerValue (buyerInputs : List (OutPoint × UInt64)) : Nat :=
  (buyerInputs.map fun input => input.2.toNat).sum

theorem sumAtoms_inputs_eq_some {vBuyer : UInt64} :
    sumAtoms (buyerInputs.map Prod.snd) = some vBuyer ↔ vBuyer.toNat = buyerValue buyerInputs := by
  rw [sumAtoms_eq_some, List.map_map]
  rfl

theorem buyerNeed_eq_some {need : UInt64} :
    terms.buyerNeed = some need ↔ need.toNat
      = terms.priceAtoms.toNat + carrierAtoms.toNat + terms.minerFeeAtoms.toNat := by
  unfold SettlementTerms.buyerNeed
  rw [Option.bind_eq_some_iff]
  constructor
  · rintro ⟨sum, hsum, hneed⟩
    rw [checkedAdd_eq_some.mp hneed, checkedAdd_eq_some.mp hsum]
  · intro h
    have hlt := need.toNat_lt
    obtain ⟨sum, hsum⟩ := exists_toNat_eq_iff.mpr
      (show terms.priceAtoms.toNat + carrierAtoms.toNat < 2 ^ 64 by omega)
    exact ⟨sum, checkedAdd_eq_some.mpr hsum, checkedAdd_eq_some.mpr (by rw [h, hsum])⟩

/-! ## What is built -/

/-- The amounts of a settlement that is built. -/
structure Amounts (terms : SettlementTerms) (platformFee royalty : UInt64)
    (sellerInput : OutPoint × UInt64) (buyerInputs : List (OutPoint × UInt64))
    (sellerProceeds change : UInt64) : Prop where
  fees_le : platformFee.toNat + royalty.toNat ≤ terms.priceAtoms.toNat
  proceeds_eq : sellerInput.2.toNat + terms.priceAtoms.toNat
    = sellerProceeds.toNat + royalty.toNat + platformFee.toNat
  change_eq : buyerValue buyerInputs = change.toNat + terms.minerFeeAtoms.toNat
    + carrierAtoms.toNat + terms.priceAtoms.toNat

variable {platformFee royalty : UInt64}

theorem buildWithFees_ok {tx : Transaction}
    (h : buildWithFees P terms platformFee royalty sellerInput buyerInputs = some (.ok tx)) :
    ∃ sellerProceeds change outputs,
      Amounts terms platformFee royalty sellerInput buyerInputs sellerProceeds change ∧
      settlementOutputs P terms sellerProceeds platformFee royalty change = .ok outputs ∧
      tx = .payment P ((sellerInput :: buyerInputs).map fun input => ⟨input.1, []⟩) outputs := by
  obtain ⟨fees, hfees, h⟩ := Option.bind_eq_some_iff.mp h
  by_cases hlarge : fees > terms.priceAtoms
  · rw [if_pos hlarge] at h
    cases h
  rw [if_neg hlarge] at h
  obtain ⟨vBuyer, hbuyer, h⟩ := Option.bind_eq_some_iff.mp h
  obtain ⟨need, hneed, h⟩ := Option.bind_eq_some_iff.mp h
  by_cases hpoor : vBuyer < need
  · rw [if_pos hpoor] at h
    cases h
  rw [if_neg hpoor] at h
  -- The proceeds and the change, step by step.
  obtain ⟨gross, hgross, h⟩ := Option.bind_eq_some_iff.mp h
  obtain ⟨lessFee, hlessFee, h⟩ := Option.bind_eq_some_iff.mp h
  obtain ⟨sellerProceeds, hproceeds, h⟩ := Option.bind_eq_some_iff.mp h
  obtain ⟨lessPrice, hlessPrice, h⟩ := Option.bind_eq_some_iff.mp h
  obtain ⟨lessCarrier, hlessCarrier, h⟩ := Option.bind_eq_some_iff.mp h
  obtain ⟨change, hchange, h⟩ := Option.bind_eq_some_iff.mp h
  cases houtputs : settlementOutputs P terms sellerProceeds platformFee royalty change with
  | error text =>
    rw [houtputs] at h
    cases h
  | ok outputs =>
    rw [houtputs] at h
    cases h
    refine ⟨sellerProceeds, change, outputs, ⟨?_, ?_, ?_⟩, houtputs, rfl⟩
    · rw [gt_iff_lt, UInt64.lt_iff_toNat_lt, checkedAdd_eq_some.mp hfees] at hlarge
      exact Nat.le_of_not_lt hlarge
    · rw [← checkedAdd_eq_some.mp hgross, checkedSub_eq_some.mp hlessFee,
        checkedSub_eq_some.mp hproceeds]
    · rw [← sumAtoms_inputs_eq_some.mp hbuyer, checkedSub_eq_some.mp hlessPrice,
        checkedSub_eq_some.mp hlessCarrier, checkedSub_eq_some.mp hchange]

/-- No sum overflows, as far as the sums are made: the funds of the buyer are not
    looked at when the shares exceed the price, nor the input of the seller when the
    funds are short. -/
def SumsFit (terms : SettlementTerms) (fees sellerValue buyerValue : Nat) : Prop :=
  let need := terms.priceAtoms.toNat + carrierAtoms.toNat + terms.minerFeeAtoms.toNat
  fees < 2 ^ 64 ∧
    (fees ≤ terms.priceAtoms.toNat → buyerValue < 2 ^ 64 ∧ need < 2 ^ 64 ∧
      (need ≤ buyerValue → sellerValue + terms.priceAtoms.toNat < 2 ^ 64))

theorem buildWithFees_isSome_iff :
    (∃ result, buildWithFees P terms platformFee royalty sellerInput buyerInputs = some result) ↔
      SumsFit terms (platformFee.toNat + royalty.toNat) sellerInput.2.toNat
        (buyerValue buyerInputs) := by
  unfold SumsFit
  constructor
  · rintro ⟨result, h⟩
    obtain ⟨fees, hfees, h⟩ := Option.bind_eq_some_iff.mp h
    rw [checkedAdd_eq_some] at hfees
    refine ⟨exists_toNat_eq_iff.mp ⟨fees, hfees⟩, ?_⟩
    intro hle
    rw [if_neg (by rw [gt_iff_lt, UInt64.lt_iff_toNat_lt]; omega)] at h
    obtain ⟨vBuyer, hbuyer, h⟩ := Option.bind_eq_some_iff.mp h
    obtain ⟨need, hneed, h⟩ := Option.bind_eq_some_iff.mp h
    rw [sumAtoms_inputs_eq_some] at hbuyer
    rw [buyerNeed_eq_some] at hneed
    refine ⟨exists_toNat_eq_iff.mp ⟨vBuyer, hbuyer⟩, exists_toNat_eq_iff.mp ⟨need, hneed⟩, ?_⟩
    intro henough
    rw [if_neg (by rw [UInt64.lt_iff_toNat_lt]; omega)] at h
    obtain ⟨gross, hgross, _⟩ := Option.bind_eq_some_iff.mp h
    exact exists_toNat_eq_iff.mp ⟨gross, checkedAdd_eq_some.mp hgross⟩
  · rintro ⟨hfits, hrest⟩
    obtain ⟨fees, hfees⟩ := exists_toNat_eq_iff.mpr hfits
    unfold buildWithFees
    rw [checkedAdd_eq_some.mpr hfees]
    show ∃ result, (if fees > terms.priceAtoms then _ else _) = some result
    by_cases hlarge : fees > terms.priceAtoms
    · rw [if_pos hlarge]
      exact ⟨_, rfl⟩
    rw [if_neg hlarge]
    rw [gt_iff_lt, UInt64.lt_iff_toNat_lt] at hlarge
    obtain ⟨hbuyerFits, hneedFits, hgrossFits⟩ := hrest (by omega)
    obtain ⟨vBuyer, hbuyer⟩ := exists_toNat_eq_iff.mpr hbuyerFits
    obtain ⟨need, hneed⟩ := exists_toNat_eq_iff.mpr hneedFits
    rw [sumAtoms_inputs_eq_some.mpr hbuyer, buyerNeed_eq_some.mpr hneed]
    show ∃ result, (if vBuyer < need then _ else _) = some result
    by_cases hpoor : vBuyer < need
    · rw [if_pos hpoor]
      exact ⟨_, rfl⟩
    rw [if_neg hpoor]
    rw [UInt64.lt_iff_toNat_lt] at hpoor
    have hgrossFits := hgrossFits (by omega)
    obtain ⟨gross, hgross⟩ := exists_toNat_eq_iff.mpr hgrossFits
    -- No difference can fail: the shares are within the price, the need within the funds.
    obtain ⟨lessFee, hlessFee, hlessFeeEq⟩ :=
      exists_checkedSub (show platformFee.toNat ≤ gross.toNat by omega)
    obtain ⟨proceeds, hproceeds, _⟩ :=
      exists_checkedSub (show royalty.toNat ≤ lessFee.toNat by omega)
    obtain ⟨lessPrice, hlessPrice, hlessPriceEq⟩ :=
      exists_checkedSub (show terms.priceAtoms.toNat ≤ vBuyer.toNat by omega)
    obtain ⟨lessCarrier, hlessCarrier, hlessCarrierEq⟩ :=
      exists_checkedSub (show carrierAtoms.toNat ≤ lessPrice.toNat by omega)
    obtain ⟨change, hchange, _⟩ :=
      exists_checkedSub (show terms.minerFeeAtoms.toNat ≤ lessCarrier.toNat by omega)
    simp only [checkedAdd_eq_some.mpr hgross, hlessFee, hproceeds, hlessPrice, hlessCarrier,
      hchange, Option.bind_eq_bind, Option.bind_some]
    exact ⟨_, rfl⟩

end Tensorium
