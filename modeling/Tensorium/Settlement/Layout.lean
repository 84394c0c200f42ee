import Tensorium.Settlement.Build

/-! # The layout of a settlement

    What `build_settlement_tx` returns is laid out as documented, keeps the value
    of its inputs and passes the check, if its plain sums do not overflow and the
    royalty survives the cast to 64 bits.
-/

namespace Tensorium

open Assets ExceptFold

variable {P : Primitives} {encode : String → Bytes → String} {terms : SettlementTerms}

/-! ## Outputs that pay an address -/

/-- An output that pays an address so many atoms. -/
structure TxOutput.Pays (P : Primitives) (addr : String) (atoms : Nat) (out : TxOutput) : Prop where
  script : Script.p2pkhFromAddress P addr = .ok out.scriptPubkey
  atoms_eq : out.valueAtoms.toNat = atoms

theorem settlementOutput_ok {addr : String} {value : UInt64} {out : TxOutput}
    (h : settlementOutput P addr value = .ok out) : out.Pays P addr value.toNat := by
  unfold settlementOutput at h
  cases hscript : Script.p2pkhFromAddress P addr with
  | error e =>
    rw [hscript] at h
    cases h
  | ok script =>
    rw [hscript] at h
    cases h
    exact ⟨hscript, rfl⟩

/-- The dues that are not zero, each paid by an output, in their order. -/
def PaidEach (P : Primitives) (dues : List (String × Nat)) (outputs : List TxOutput) : Prop :=
  List.Forall₂ (fun due => TxOutput.Pays P due.1 due.2) (dues.filter fun due => 0 < due.2) outputs

theorem settlementOutputIfPaid_ok {addr : String} {value : UInt64} {outputs : List TxOutput}
    (h : settlementOutputIfPaid P addr value = .ok outputs) :
    PaidEach P [(addr, value.toNat)] outputs := by
  unfold settlementOutputIfPaid at h
  unfold PaidEach
  by_cases hpos : value > 0
  · have hnat : 0 < value.toNat := UInt64.lt_iff_toNat_lt.mp hpos
    rw [if_pos hpos] at h
    obtain ⟨out, hout, rfl⟩ := map_eq_ok.mp h
    rw [List.filter_cons_of_pos (by simpa using hnat), List.filter_nil]
    exact .cons (settlementOutput_ok hout) .nil
  · have hnat : ¬ 0 < value.toNat := fun hlt => hpos (UInt64.lt_iff_toNat_lt.mpr hlt)
    rw [if_neg hpos] at h
    cases h
    rw [List.filter_cons_of_neg (by simpa using hnat), List.filter_nil]
    exact .nil

theorem PaidEach.append {dues dues' : List (String × Nat)} {outputs outputs' : List TxOutput}
    (h : PaidEach P dues outputs) (h' : PaidEach P dues' outputs') :
    PaidEach P (dues ++ dues') (outputs ++ outputs') := by
  unfold PaidEach
  rw [List.filter_append]
  exact List.rel_append h h'

/-- What the outputs pay is what is due. -/
theorem PaidEach.sum_eq {dues : List (String × Nat)} {outputs : List TxOutput}
    (h : PaidEach P dues outputs) :
    (outputs.map fun out => out.valueAtoms.toNat).sum = (dues.map Prod.snd).sum := by
  unfold PaidEach at h
  induction dues generalizing outputs with
  | nil =>
    cases h
    rfl
  | cons due dues ih =>
    rw [List.map_cons, List.sum_cons]
    by_cases hpos : 0 < due.2
    · rw [List.filter_cons_of_pos (by simpa using hpos)] at h
      cases h with
      | cons hout hrest =>
        rw [List.map_cons, List.sum_cons, hout.atoms_eq, ih hrest]
    · rw [List.filter_cons_of_neg (by simpa using hpos)] at h
      rw [ih h]
      omega

theorem PaidEach.exists_pays {dues : List (String × Nat)} {outputs : List TxOutput}
    (h : PaidEach P dues outputs) {due : String × Nat} (hdue : due ∈ dues) (hpos : 0 < due.2) :
    ∃ out ∈ outputs, out.Pays P due.1 due.2 := by
  unfold PaidEach at h
  induction dues generalizing outputs with
  | nil => cases hdue
  | cons other dues ih =>
    by_cases hother : 0 < other.2
    · rw [List.filter_cons_of_pos (by simpa using hother)] at h
      cases h with
      | @cons _ out _ outputs hout hrest =>
        -- The first output is for the first due; the others are found behind it.
        by_cases heq : due = other
        · rw [heq]
          exact ⟨out, List.mem_cons_self, hout⟩
        · obtain ⟨found, hfound, hpays⟩ := ih hrest (List.mem_of_ne_of_mem heq hdue)
          exact ⟨found, List.mem_cons_of_mem _ hfound, hpays⟩
    · rw [List.filter_cons_of_neg (by simpa using hother)] at h
      have hne : due ≠ other := by
        intro heq
        exact hother (heq ▸ hpos)
      exact ih h (List.mem_of_ne_of_mem hne hdue)

/-! ## The layout -/

/-- The carrier of the buyer, the transfer, the proceeds of the seller, and then the
    platform fee, the royalty and the change, as far as there are any. -/
structure LaidOut (P : Primitives) (terms : SettlementTerms)
    (proceeds platformFee royalty change : Nat) (outputs : List TxOutput) : Prop where
  outputs_eq : ∃ carrier seller rest, outputs = carrier :: transferOutput terms :: seller :: rest ∧
    carrier.Pays P terms.buyerAddr carrierAtoms.toNat ∧
    seller.Pays P terms.sellerAddr proceeds ∧
    PaidEach P [(platformFeeAddress, platformFee), (terms.royaltyAddr, royalty),
      (terms.buyerAddr, change)] rest

theorem settlementOutputs_ok {sellerProceeds platformFee royalty change : UInt64}
    {outputs : List TxOutput}
    (h : settlementOutputs P terms sellerProceeds platformFee royalty change = .ok outputs) :
    LaidOut P terms sellerProceeds.toNat platformFee.toNat royalty.toNat change.toNat outputs := by
  obtain ⟨carrier, hcarrier, h⟩ := bind_eq_ok.mp h
  obtain ⟨seller, hseller, h⟩ := bind_eq_ok.mp h
  obtain ⟨fee, hfee, h⟩ := bind_eq_ok.mp h
  obtain ⟨royaltyPaid, hroyalty, h⟩ := bind_eq_ok.mp h
  obtain ⟨changePaid, hchange, h⟩ := bind_eq_ok.mp h
  refine ⟨carrier, seller, fee ++ (royaltyPaid ++ changePaid), ?_, settlementOutput_ok hcarrier,
    settlementOutput_ok hseller, ?_⟩
  · rw [← Except.ok.inj h, List.append_assoc, List.append_assoc]
    rfl
  · exact (settlementOutputIfPaid_ok hfee).append
      ((settlementOutputIfPaid_ok hroyalty).append (settlementOutputIfPaid_ok hchange))

variable {proceeds platformFee royalty change : Nat} {outputs : List TxOutput}

theorem LaidOut.sum_eq (h : LaidOut P terms proceeds platformFee royalty change outputs) :
    (outputs.map fun out => out.valueAtoms.toNat).sum
      = carrierAtoms.toNat + proceeds + platformFee + royalty + change := by
  obtain ⟨carrier, seller, rest, rfl, hcarrier, hseller, hrest⟩ := h.outputs_eq
  have htransfer : (transferOutput terms).valueAtoms.toNat = 0 := rfl
  simp only [List.map_cons, List.sum_cons, hcarrier.atoms_eq, htransfer, hseller.atoms_eq,
    hrest.sum_eq, List.map_nil, List.sum_nil]
  omega

/-! ## The check -/

/-- `extract_address` gives an address back. -/
def Reproduces (P : Primitives) (encode : String → Bytes → String) (addr : String) : Prop :=
  ∀ script, Script.p2pkhFromAddress P addr = .ok script →
    Script.extractAddress encode script = some addr

theorem TxOutput.Pays.paysTo {addr : String} {atoms : Nat} {out : TxOutput}
    (h : out.Pays P addr atoms) (hreproduces : Reproduces P encode addr) :
    out.paysTo encode addr = true :=
  decide_eq_true (hreproduces _ h.script)

/-- The script of an address carries no data. -/
theorem opReturnData_p2pkhFromAddress {addr : String} {script : Bytes}
    (h : Script.p2pkhFromAddress P addr = .ok script) : opReturnData script = none := by
  have hp2pkh : ∃ hash20, script = Script.p2pkhScript hash20 := by
    unfold Script.p2pkhFromAddress at h
    split at h
    · cases h
    · split_ifs at h
      split at h
      · cases h
      · split_ifs at h
        exact ⟨_, (Except.ok.inj h).symm⟩
  obtain ⟨hash20, rfl⟩ := hp2pkh
  rfl

/-- The transfer is the first operation behind an output that carries none. -/
theorem extractAssetOp_transferOutput {tx : Transaction} {carrier : TxOutput}
    {rest : List TxOutput} (houtputs : tx.outputs = carrier :: transferOutput terms :: rest)
    (hcarrier : CarriesNone carrier) :
    extractAssetOp tx = some (.transfer ⟨terms.assetId, terms.amount, 0⟩) := by
  have hroyalty : RoyaltyOk (.transfer ⟨terms.assetId, terms.amount, 0⟩) := trivial
  obtain ⟨hlong, hshort⟩ := length_encodeOp_le hroyalty
  apply @extractAssetOp_of_first tx [carrier] rest (transferOutput terms) _ _ houtputs
  · intro other hother
    obtain rfl := List.mem_singleton.mp hother
    exact hcarrier
  · exact opReturnData_opReturnScript (by omega) (by omega)
  · exact decodeOp_encodeOp hroyalty

theorem LaidOut.extractAssetOp_eq {tx : Transaction}
    (h : LaidOut P terms proceeds platformFee royalty change tx.outputs) :
    extractAssetOp tx = some (.transfer ⟨terms.assetId, terms.amount, 0⟩) := by
  obtain ⟨carrier, seller, rest, houtputs, hcarrier, _, _⟩ := h.outputs_eq
  apply extractAssetOp_transferOutput houtputs
  intro data hdata
  rw [opReturnData_p2pkhFromAddress hcarrier.script] at hdata
  cases hdata

theorem TxOutput.Pays.mem_valuesTo {tx : Transaction} {addr : String} {atoms : Nat}
    {out : TxOutput} (h : out.Pays P addr atoms) (hmem : out ∈ tx.outputs)
    (hreproduces : Reproduces P encode addr) : atoms ∈ tx.valuesTo encode addr := by
  have hto := List.mem_filter.mpr ⟨hmem, h.paysTo hreproduces⟩
  rw [← h.atoms_eq]
  exact List.mem_map_of_mem hto

/-- The addresses that the outputs pay are reproduced. -/
structure Reproducible (P : Primitives) (encode : String → Bytes → String)
    (terms : SettlementTerms) (platformFee royalty : Nat) : Prop where
  buyer : Reproduces P encode terms.buyerAddr
  seller : Reproduces P encode terms.sellerAddr
  platform : 0 < platformFee → Reproduces P encode platformFeeAddress
  royalty : 0 < royalty → Reproduces P encode terms.royaltyAddr

/-- Outputs in the layout pass the check. -/
theorem LaidOut.verified {tx : Transaction}
    (h : LaidOut P terms proceeds terms.split.1.toNat terms.split.2.toNat change tx.outputs)
    (hfees : terms.split.1.toNat + terms.split.2.toNat < 2 ^ 64)
    (hproceeds : terms.priceAtoms.toNat
      ≤ proceeds + terms.split.1.toNat + terms.split.2.toNat)
    (hreproducible : Reproducible P encode terms terms.split.1.toNat terms.split.2.toNat) :
    verifySettlement encode tx terms = some [] := by
  have htransfer := h.extractAssetOp_eq
  obtain ⟨carrier, seller, rest, houtputs, hcarrier, hseller, hrest⟩ := h.outputs_eq
  have hfound : ∀ due ∈ [(platformFeeAddress, terms.split.1.toNat),
      (terms.royaltyAddr, terms.split.2.toNat), (terms.buyerAddr, change)],
      0 < due.2 → Reproduces P encode due.1 → due.2 ∈ tx.valuesTo encode due.1 := by
    intro due hdue hpos hreproduces
    obtain ⟨out, hmem, hpays⟩ := hrest.exists_pays hdue hpos
    apply hpays.mem_valuesTo _ hreproduces
    rw [houtputs]
    simp [hmem]
  have hsellerMem : seller ∈ tx.outputs := by
    rw [houtputs]
    simp
  apply verifySettlement_nil_iff.mpr
  refine ⟨hfees, htransfer, ?_, ?_, ?_, ?_⟩
  · exact ⟨carrier, _, houtputs, UInt64.toNat_inj.mp hcarrier.atoms_eq,
      hcarrier.paysTo hreproducible.buyer⟩
  · intro hpos
    exact hfound (platformFeeAddress, _) (by simp) hpos (hreproducible.platform hpos)
  · intro hpos
    exact hfound (terms.royaltyAddr, _) (by simp) hpos (hreproducible.royalty hpos)
  · -- The proceeds include the seller's own input, so they are no less than what is due.
    refine ⟨proceeds, hseller.mem_valuesTo hsellerMem hreproducible.seller, ?_⟩
    unfold SettlementTerms.netPrice
    omega

/-! ## Shares of the price -/

namespace SettlementTerms

/-- `floor(price * bps / 10000)`. -/
def share (terms : SettlementTerms) (bps : UInt16) : Nat :=
  terms.priceAtoms.toNat * bps.toNat / 10000

/-- The platform fee. -/
def platformDue (terms : SettlementTerms) : Nat := terms.share platformFeeBps

/-- The royalty: none of a primary sale. -/
def royaltyDue (terms : SettlementTerms) : Nat :=
  if terms.royaltyBps = 0 ∨ terms.sellerAddr = terms.royaltyAddr then 0
  else terms.share terms.royaltyBps

theorem platformDue_le (terms : SettlementTerms) : terms.platformDue ≤ terms.priceAtoms.toNat := by
  have hbps : platformFeeBps.toNat = 250 := rfl
  unfold platformDue share
  rw [hbps]
  omega

theorem toNat_split_platform (terms : SettlementTerms) :
    terms.split.1.toNat = terms.platformDue := by
  have hle := terms.platformDue_le
  have hlt := terms.priceAtoms.toNat_lt
  exact UInt64.toNat_ofNat_of_lt' (show terms.platformDue < 2 ^ 64 by omega)

/-- The cast keeps the royalty exactly if it fits. -/
theorem toNat_split_royalty_iff (terms : SettlementTerms) :
    terms.split.2.toNat = terms.royaltyDue ↔ terms.royaltyDue < 2 ^ 64 := by
  constructor
  · intro h
    rw [← h]
    exact terms.split.2.toNat_lt
  · intro h
    show (if _ then _ else _ : UInt64).toNat = _
    unfold royaltyDue at h ⊢
    by_cases hnone : terms.royaltyBps = 0 ∨ terms.sellerAddr = terms.royaltyAddr
    · rw [if_pos hnone, if_pos hnone]
      rfl
    · rw [if_neg hnone] at h
      rw [if_neg hnone, if_neg hnone]
      exact UInt64.toNat_ofNat_of_lt' h

end SettlementTerms

/-! ## Balance -/

/-- A settlement with the amounts of the documentation: it spends the given inputs,
    keeps their value, has its outputs in their order, and passes the check. -/
structure Balanced (P : Primitives) (encode : String → Bytes → String) (terms : SettlementTerms)
    (sellerInput : OutPoint × UInt64) (buyerInputs : List (OutPoint × UInt64))
    (tx : Transaction) : Prop where
  inputs_eq : tx.inputs = (sellerInput :: buyerInputs).map fun input => ⟨input.1, []⟩
  conserves : sellerInput.2.toNat + buyerValue buyerInputs
    = (tx.outputs.map fun out => out.valueAtoms.toNat).sum + terms.minerFeeAtoms.toNat
  laidOut : ∃ proceeds change,
    proceeds + terms.platformDue + terms.royaltyDue
      = sellerInput.2.toNat + terms.priceAtoms.toNat ∧
    terms.platformDue + terms.royaltyDue ≤ terms.priceAtoms.toNat ∧
    change + terms.priceAtoms.toNat + carrierAtoms.toNat + terms.minerFeeAtoms.toNat
      = buyerValue buyerInputs ∧
    LaidOut P terms proceeds terms.platformDue terms.royaltyDue change tx.outputs
  verified : Reproducible P encode terms terms.platformDue terms.royaltyDue →
    verifySettlement encode tx terms = some []

/-- The builder wraps neither a share of the price nor a sum, and what it returns is
    balanced. -/
def BuildsBalanced (P : Primitives) (encode : String → Bytes → String) (terms : SettlementTerms)
    (sellerInput : OutPoint × UInt64) (buyerInputs : List (OutPoint × UInt64)) : Prop :=
  (terms.split.1.toNat, terms.split.2.toNat) = (terms.platformDue, terms.royaltyDue) ∧
    ∃ result, buildSettlementTx P terms sellerInput buyerInputs = some result ∧
      ∀ tx, result = .ok tx → Balanced P encode terms sellerInput buyerInputs tx

variable {sellerInput : OutPoint × UInt64} {buyerInputs : List (OutPoint × UInt64)}

theorem balanced_of_ok {tx : Transaction}
    (hplatform : terms.split.1.toNat = terms.platformDue)
    (hroyalty : terms.split.2.toNat = terms.royaltyDue)
    (h : buildSettlementTx P terms sellerInput buyerInputs = some (.ok tx)) :
    Balanced P encode terms sellerInput buyerInputs tx := by
  obtain ⟨sellerProceeds, change, outputs, hamounts, houtputs, rfl⟩ := buildWithFees_ok h
  have hlaid : LaidOut P terms sellerProceeds.toNat terms.split.1.toNat terms.split.2.toNat
      change.toNat outputs := settlementOutputs_ok houtputs
  have hle : terms.split.1.toNat + terms.split.2.toNat ≤ terms.priceAtoms.toNat := hamounts.fees_le
  have hproceeds : sellerInput.2.toNat + terms.priceAtoms.toNat
      = sellerProceeds.toNat + terms.split.2.toNat + terms.split.1.toNat := hamounts.proceeds_eq
  have hchange := hamounts.change_eq
  have hsum := hlaid.sum_eq
  refine ⟨rfl, ?_, ⟨sellerProceeds.toNat, change.toNat, ?_, ?_, ?_, ?_⟩, ?_⟩
  · show _ = (outputs.map fun out => out.valueAtoms.toNat).sum + terms.minerFeeAtoms.toNat
    omega
  · omega
  · omega
  · omega
  · rw [← hplatform, ← hroyalty]
    exact hlaid
  · intro hreproducible
    rw [← hplatform, ← hroyalty] at hreproducible
    exact LaidOut.verified hlaid (Nat.lt_of_le_of_lt hle terms.priceAtoms.toNat_lt) (by omega)
      hreproducible

/-- **A settlement balances as long as its plain sums do not overflow.** The royalty
    must survive the cast to 64 bits, and each sum that is made must fit: the fees,
    the funds of the buyer and what is needed of them, and what the seller gets
    before the fees are taken off. -/
theorem buildSettlementTx_balanced_iff (P : Primitives) (encode : String → Bytes → String)
    (terms : SettlementTerms) (sellerInput : OutPoint × UInt64)
    (buyerInputs : List (OutPoint × UInt64)) :
    BuildsBalanced P encode terms sellerInput buyerInputs ↔
      terms.royaltyDue < 2 ^ 64 ∧
        SumsFit terms (terms.platformDue + terms.royaltyDue) sellerInput.2.toNat
          (buyerValue buyerInputs) := by
  have hplatform := terms.toNat_split_platform
  have hbuild := @buildWithFees_isSome_iff P terms sellerInput buyerInputs terms.split.1
    terms.split.2
  constructor
  · rintro ⟨hexact, result, hresult, _⟩
    have hroyalty := (Prod.mk.inj hexact).2
    rw [hplatform, hroyalty] at hbuild
    exact ⟨terms.toNat_split_royalty_iff.mp hroyalty, hbuild.mp ⟨result, hresult⟩⟩
  · rintro ⟨hfits, hsums⟩
    have hroyalty := terms.toNat_split_royalty_iff.mpr hfits
    rw [hplatform, hroyalty] at hbuild
    obtain ⟨result, hresult⟩ := hbuild.mpr hsums
    refine ⟨by rw [hplatform, hroyalty], result, hresult, ?_⟩
    rintro tx rfl
    exact balanced_of_ok hplatform hroyalty hresult

/-- A sale with the largest miner fee there is. -/
def feeTooLarge : SettlementTerms where
  assetId := Hash256.zero
  amount := 5
  priceAtoms := 1000000
  royaltyBps := 0
  royaltyAddr := ""
  sellerAddr := "txm1seller"
  buyerAddr := "txm1buyer"
  minerFeeAtoms := 18446744073709551615

/-- What the buyer needs overflows. -/
theorem buildSettlementTx_overflows :
    ∃ terms sellerInput buyerInputs, ∀ P encode,
      ¬ BuildsBalanced P encode terms sellerInput buyerInputs := by
  refine ⟨feeTooLarge, (⟨Hash256.zero, 0⟩, 3000), [(⟨Hash256.zero, 1⟩, 1100000)], ?_⟩
  rintro P encode ⟨_, result, hresult, _⟩
  obtain ⟨_, hfees⟩ := buildWithFees_isSome_iff.mp ⟨result, hresult⟩
  -- The fees are within the price, so the need of the buyer is computed.
  obtain ⟨_, hneed, _⟩ := hfees (by decide)
  exact absurd hneed (by decide)

end Tensorium
