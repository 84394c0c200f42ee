import Tensorium.Utxo.Height

/-! # What `validate_transaction` accepts

    The inversion lemmas say what an accepted transaction has passed. Here is the
    converse: a transaction that passes all of it is accepted, with the fee that its
    inputs leave over.
-/

namespace Tensorium

open Saturating BulkMap ExceptFold

variable {P : Primitives} {params : ConsensusParams} {u : UtxoSet} {height : Nat}
variable {tx : Transaction}

/-- The input loop accepts distinct spendable inputs that it has not seen. -/
theorem checkInputs_of_spendable {inputs : List TxInput} (acc : Finset OutPoint × UInt64)
    (hnd : (inputs.map TxInput.previousOutput).Nodup)
    (hfresh : ∀ op ∈ inputs.map TxInput.previousOutput, op ∉ acc.1)
    (hall : ∀ input ∈ inputs, ∃ entry, Spendable P params u height tx input entry) :
    ∃ r, inputs.foldlM (checkInput P params u height tx) acc = .ok r := by
  induction inputs generalizing acc with
  | nil => exact ⟨acc, foldlM_nil_ok.mpr rfl⟩
  | cons input inputs ih =>
    obtain ⟨hhead, hnd'⟩ := List.nodup_cons.mp hnd
    obtain ⟨entry, hspend⟩ := hall input List.mem_cons_self
    have hstep := checkInput_of_spendable acc (hfresh _ List.mem_cons_self) hspend
    have hfresh' : ∀ op ∈ inputs.map TxInput.previousOutput,
        op ∉ insert input.previousOutput acc.1 := by
      intro op hop hin
      rcases Finset.mem_insert.mp hin with rfl | hacc
      · exact hhead hop
      · exact hfresh op (List.mem_cons_of_mem _ hop) hacc
    obtain ⟨r, hr⟩ := ih (insert input.previousOutput acc.1,
      satAdd64 acc.2 entry.output.valueAtoms) hnd' hfresh'
      fun i hi => hall i (List.mem_cons_of_mem _ hi)
    exact ⟨r, foldlM_cons_ok.mpr ⟨_, hstep, hr⟩⟩

/-- A transaction is accepted exactly if its outpoints differ, every input is
    spendable, and the outputs do not exceed the inputs; what is left over, both
    sums clamped, is the fee. -/
theorem validateTransaction_iff {fee : UInt64} :
    validateTransaction P u tx height params = .ok fee ↔
      tx.outpoints.Nodup ∧
      (∀ input ∈ tx.inputs, ∃ entry, Spendable P params u height tx input entry) ∧
      min (outputAtoms tx.outputs) (2 ^ 64 - 1) ≤ min (tx.inputAtoms u) (2 ^ 64 - 1) ∧
      fee.toNat = min (tx.inputAtoms u) (2 ^ 64 - 1)
        - min (outputAtoms tx.outputs) (2 ^ 64 - 1) := by
  constructor
  · intro h
    obtain ⟨seen, hcheck⟩ := validateTransaction_ok.mp h
    obtain ⟨hnd, _, _, hall, hle, hfee⟩ := checkTransaction_ok hcheck
    exact ⟨hnd, hall, hle, hfee⟩
  · rintro ⟨hnd, hall, hle, hfee⟩
    obtain ⟨r, hr⟩ := checkInputs_of_spendable (∅, 0) hnd (by simp) hall
    obtain ⟨_, _, _, _, hsum⟩ := checkInputs_ok hr
    rw [UInt64.toNat_zero, Nat.zero_add] at hsum
    change r.2.toNat = min (tx.inputAtoms u) (2 ^ 64 - 1) at hsum
    have hnot : ¬ tx.totalOutputAtoms > r.2 := by
      rw [gt_iff_lt, UInt64.not_lt, UInt64.le_iff_toNat_le, toNat_totalOutputAtoms, hsum]
      exact hle
    have hleft : satSub64 r.2 tx.totalOutputAtoms = fee := by
      apply UInt64.toNat_inj.mp
      rw [toNat_satSub64, hsum, toNat_totalOutputAtoms, hfee]
    refine validateTransaction_ok.mpr ⟨r.1, bind_eq_ok.mpr ⟨r, hr, ?_⟩⟩
    dsimp only
    rw [if_neg hnot, hleft]

/-- Without a sum that saturates, the fee is the exact difference. -/
theorem validateTransaction_of_exact {fee : UInt64} (hnd : tx.outpoints.Nodup)
    (hall : ∀ input ∈ tx.inputs, ∃ entry, Spendable P params u height tx input entry)
    (hsum : outputAtoms tx.outputs + fee.toNat = tx.inputAtoms u)
    (hlt : tx.inputAtoms u < 2 ^ 64) :
    validateTransaction P u tx height params = .ok fee := by
  refine validateTransaction_iff.mpr ⟨hnd, hall, ?_, ?_⟩
  · omega
  · omega

end Tensorium
