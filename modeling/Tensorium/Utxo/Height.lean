import Tensorium.Script.Height
import Tensorium.Utxo.Accept

/-! # Transactions and the height of the chain

    `validate_transaction` looks at one transaction at the height of the tip;
    phase 1 of `apply_block` looks at all of them one block higher, with one
    set of outpoints seen for the whole block. Maturity and scripts only get
    easier with the height, so transactions that pass one by one and spend
    different outpoints pass together, with the same fees.
-/

namespace Tensorium

open Saturating BulkMap ExceptFold

variable {P : Primitives} {params : ConsensusParams} {u v : UtxoSet} {height height' : Nat}
variable {tx : Transaction}

/-! ## One input -/

/-- What can be spent at some height can be spent at every later one. -/
theorem Spendable.later {input : TxInput} {entry : UtxoEntry}
    (h : Spendable P params u height tx input entry) (hle : height ≤ height') :
    Spendable P params u height' tx input entry := by
  obtain ⟨hlookup, hmature, hexec⟩ := h
  refine ⟨hlookup, ?_, Script.execute_height hle hexec⟩
  intro hcb
  exact (hmature hcb).trans hle

/-- The input loop accepts a spendable input whose outpoint it has not seen. -/
theorem checkInput_of_spendable (acc : Finset OutPoint × UInt64) {input : TxInput}
    {entry : UtxoEntry} (hseen : input.previousOutput ∉ acc.1)
    (h : Spendable P params u height tx input entry) :
    checkInput P params u height tx acc input
      = .ok (insert input.previousOutput acc.1, satAdd64 acc.2 entry.output.valueAtoms) := by
  obtain ⟨hlookup, hmature, hexec⟩ := h
  have himmature : ¬ (entry.coinbase && decide (height < satAdd 64 entry.createdHeight
      params.coinbaseMaturityBlocks)) = true := by
    intro hcase
    obtain ⟨hcb, hlt⟩ := Bool.and_eq_true_iff.mp hcase
    have hle := hmature hcb
    have hlt' := of_decide_eq_true hlt
    omega
  unfold checkInput
  rw [if_neg hseen, hlookup]
  dsimp only
  rw [if_neg himmature, hexec]

/-! ## One transaction -/

/-- The input loop again, at a later height and with other outpoints seen. -/
theorem checkInputs_later (hle : height ≤ height') {inputs : List TxInput}
    {acc r : Finset OutPoint × UInt64} (acc' : Finset OutPoint × UInt64)
    (h : inputs.foldlM (checkInput P params u height tx) acc = .ok r)
    (hsum : acc'.2 = acc.2)
    (hfresh : ∀ op ∈ inputs.map TxInput.previousOutput, op ∉ acc'.1) :
    ∃ seen, inputs.foldlM (checkInput P params u height' tx) acc' = .ok (seen, r.2) := by
  -- Induction on the inputs; both runs add the same outpoints and amounts.
  induction inputs generalizing acc acc' with
  | nil =>
    obtain rfl := foldlM_nil_ok.mp h
    exact ⟨acc'.1, foldlM_nil_ok.mpr (Prod.ext rfl hsum)⟩
  | cons input inputs ih =>
    obtain ⟨hnd, _, _, _, _⟩ := checkInputs_ok h
    obtain ⟨acc₁, hstep, hrest⟩ := foldlM_cons_ok.mp h
    obtain ⟨_, entry, hspend, rfl⟩ := checkInput_ok hstep
    have hhead := checkInput_of_spendable acc' (hfresh _ (by simp)) (hspend.later hle)
    have htail : ∀ op ∈ inputs.map TxInput.previousOutput,
        op ∉ insert input.previousOutput acc'.1 := by
      intro op hop hin
      rcases Finset.mem_insert.mp hin with rfl | hacc
      · exact (List.nodup_cons.mp hnd).1 hop
      · exact hfresh op (List.mem_cons_of_mem _ hop) hacc
    obtain ⟨seen, hseen⟩ := ih (insert input.previousOutput acc'.1,
      satAdd64 acc'.2 entry.output.valueAtoms) hrest (by rw [hsum]) htail
    exact ⟨seen, foldlM_cons_ok.mpr ⟨_, hhead, hseen⟩⟩

/-- One transaction: the fee is the same at a later height and among other
    transactions, as long as these spend other outpoints. -/
theorem checkTransaction_later (hle : height ≤ height') {seen : Finset OutPoint}
    (seen' : Finset OutPoint) {r : Finset OutPoint × UInt64}
    (h : checkTransaction P params u height seen tx = .ok r)
    (hfresh : ∀ op ∈ tx.outpoints, op ∉ seen') :
    ∃ seen₁, checkTransaction P params u height' seen' tx = .ok (seen₁, r.2) := by
  unfold checkTransaction at h ⊢
  obtain ⟨⟨seen₀, inputSum⟩, hinputs, hrest⟩ := bind_eq_ok.mp h
  obtain ⟨seen₁, hlater⟩ := checkInputs_later hle (seen', 0) hinputs rfl hfresh
  refine ⟨seen₁, bind_eq_ok.mpr ⟨_, hlater, ?_⟩⟩
  dsimp only at hrest ⊢
  split_ifs at hrest ⊢ with hsum
  obtain rfl := Except.ok.inj hrest
  rfl

theorem validateTransaction_ok {fee : UInt64} :
    validateTransaction P u tx height params = .ok fee ↔
      ∃ seen, checkTransaction P params u height ∅ tx = .ok (seen, fee) := by
  unfold validateTransaction
  rw [bind_eq_ok]
  constructor
  · rintro ⟨⟨seen, fee'⟩, hcheck, hfee⟩
    obtain rfl : fee' = fee := Except.ok.inj hfee
    exact ⟨seen, hcheck⟩
  · rintro ⟨seen, hcheck⟩
    exact ⟨_, hcheck, rfl⟩

/-- A valid transaction finds all its outpoints in the set. -/
theorem validateTransaction_lookup {fee : UInt64}
    (h : validateTransaction P u tx height params = .ok fee) {op : OutPoint}
    (hop : op ∈ tx.outpoints) : ∃ entry, u.lookup op = some entry := by
  obtain ⟨seen, hcheck⟩ := validateTransaction_ok.mp h
  obtain ⟨_, _, _, hspendable, _, _⟩ := checkTransaction_ok hcheck
  obtain ⟨input, hinput, rfl⟩ := List.mem_map.mp hop
  obtain ⟨entry, hentry⟩ := hspendable input hinput
  exact ⟨entry, hentry.1⟩

/-- **A transaction that is valid at some height is valid at every later one,
    with the same fee.** -/
theorem validateTransaction_later (hle : height ≤ height') {fee : UInt64}
    (h : validateTransaction P u tx height params = .ok fee) :
    validateTransaction P u tx height' params = .ok fee := by
  obtain ⟨seen, hcheck⟩ := validateTransaction_ok.mp h
  obtain ⟨seen', hlater⟩ := checkTransaction_later hle ∅ hcheck (by simp)
  exact validateTransaction_ok.mpr ⟨seen', hlater⟩

/-- **Script validity is monotone in the height.** A spend that succeeds at
    some height succeeds at every later one, and so does a transaction against
    the same set, with the same fee, the maturity of coinbases included. -/
theorem valid_at_every_later_height (P : Primitives) (params : ConsensusParams)
    (height height' : Nat) (hle : height ≤ height') :
    (∀ (scriptSig scriptPubkey : Bytes) (sigHash : Hash256),
      Script.execute P scriptSig scriptPubkey ⟨sigHash, height⟩ = .ok true →
      Script.execute P scriptSig scriptPubkey ⟨sigHash, height'⟩ = .ok true) ∧
    ∀ (u : UtxoSet) (tx : Transaction) (fee : UInt64),
      validateTransaction P u tx height params = .ok fee →
      validateTransaction P u tx height' params = .ok fee := by
  constructor
  · intro scriptSig scriptPubkey sigHash h
    exact Script.execute_height hle h
  · intro u tx fee h
    exact validateTransaction_later hle h

/-- A coinbase output of block 1, locked until height 12 by a script that
    leaves the lock time on the stack. -/
def lockedCoinbase : UtxoSet :=
  (∅ : UtxoSet).insert ⟨Hash256.zero, 0⟩ ⟨⟨50, [0x01, 0x0c, 0xb1]⟩, 1, true⟩

/-- Its spend, paying a fee of 8. -/
def lockedSpend : Transaction :=
  { id := Hash256.zero, inputs := [⟨⟨Hash256.zero, 0⟩, []⟩], outputs := [⟨42, []⟩], payload := [] }

theorem lockedSpend_at_every_later_height :
    validateTransaction Primitives.sample lockedCoinbase lockedSpend 11 testParams
      = .error .invalidSignature ∧
    Script.execute Primitives.sample [] [0x01, 0x0c, 0xb1] ⟨Hash256.zero, 1000⟩ = .ok true ∧
    validateTransaction Primitives.sample lockedCoinbase lockedSpend 1000 testParams = .ok 8 := by
  have hlater := valid_at_every_later_height Primitives.sample testParams 12 1000 (by decide)
  refine ⟨by decide, ?_, ?_⟩
  · exact hlater.1 [] [0x01, 0x0c, 0xb1] Hash256.zero (by decide)
  · exact hlater.2 lockedCoinbase lockedSpend 8 (by decide)

/-- Only the outpoints the transaction names are read. -/
theorem validateTransaction_congr (h : ∀ op ∈ tx.outpoints, u.lookup op = v.lookup op) :
    validateTransaction P u tx height params = validateTransaction P v tx height params := by
  unfold validateTransaction
  rw [checkTransaction_congr h]

/-! ## All transactions of a block -/

/-- Phase 1 on transactions that are valid one by one and spend different
    outpoints: it succeeds, and sums the fees they were admitted with. -/
theorem totalFees_of_each (hle : height ≤ height') {txs : List Transaction} {fees : List UInt64}
    (hvalid : List.Forall₂
      (fun tx fee => validateTransaction P u tx height params = .ok fee) txs fees)
    (hdisjoint : txs.Pairwise fun a b => List.Disjoint a.outpoints b.outpoints)
    (acc : Finset OutPoint × UInt64) (hfresh : ∀ tx ∈ txs, ∀ op ∈ tx.outpoints, op ∉ acc.1) :
    ∃ seen, txs.foldlM (fun acc tx => do
      let (seen, fee) ← checkTransaction P params u height' acc.1 tx
      .ok (seen, satAdd64 acc.2 fee)) acc = .ok (seen, fees.foldl satAdd64 acc.2) := by
  induction hvalid generalizing acc with
  | nil => exact ⟨acc.1, foldlM_nil_ok.mpr rfl⟩
  | @cons tx fee txs fees htx _ ih =>
    obtain ⟨hhead, htail⟩ := List.pairwise_cons.mp hdisjoint
    obtain ⟨_, hcheck⟩ := validateTransaction_ok.mp htx
    obtain ⟨seen₁, hlater⟩ := checkTransaction_later hle acc.1 hcheck (hfresh tx (by simp))
    obtain ⟨_, _, hmem, _, _, _⟩ := checkTransaction_ok hlater
    -- What is seen afterwards is what was seen before and this transaction's
    -- outpoints, none of which a later transaction names.
    have hfresh' : ∀ tx' ∈ txs, ∀ op ∈ tx'.outpoints, op ∉ seen₁ := by
      intro tx' htx' op hop hin
      rcases (hmem op).mp hin with hold | hhere
      · exact hfresh tx' (List.mem_cons_of_mem _ htx') op hop hold
      · exact hhead tx' htx' hhere hop
    obtain ⟨seen, hrest⟩ := ih htail (seen₁, satAdd64 acc.2 fee) hfresh'
    refine ⟨seen, foldlM_cons_ok.mpr ⟨_, ?_, hrest⟩⟩
    exact bind_eq_ok.mpr ⟨_, hlater, rfl⟩

end Tensorium
