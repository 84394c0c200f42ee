import Tensorium.Pool.Accounting

/-! # What a payout marks

    `run_cycle` asks how much of what it owes a miner it can pay, sends that
    amount and marks entries until the amount is covered. The amount is the sum
    of the first dues of the miner, and stays so while entries are appended; the
    marked entries add up to it exactly.
-/

namespace Tensorium

open Saturating

namespace PayoutLedger

variable {entries more : List PayoutEntry} {minerAddress : String}

@[simp] theorem dues_nil (minerAddress : String) : dues minerAddress [] = [] := rfl

theorem dues_cons_due {entry : PayoutEntry} (h : isDue minerAddress entry = true) :
    dues minerAddress (entry :: entries)
      = entry.netPayoutAtoms.toNat :: dues minerAddress entries := by
  simp [dues, h]

theorem dues_cons_other {entry : PayoutEntry} (h : ¬ isDue minerAddress entry = true) :
    dues minerAddress (entry :: entries) = dues minerAddress entries := by
  simp [dues, h]

/-! ## The payable amount -/

/-- The loop adds dues to what it has, and never passes the limit. -/
theorem payableLoop_eq (minerAddress : String) (maxAtoms : UInt64)
    (hmax : maxAtoms.toNat < 2 ^ 64 - 1) (payable : UInt64) (entries : List PayoutEntry) :
    ∃ j, (payableLoop minerAddress maxAtoms payable entries).toNat
      = payable.toNat + ((dues minerAddress entries).take j).sum := by
  induction entries generalizing payable with
  | nil => exact ⟨0, rfl⟩
  | cons entry entries ih =>
    unfold payableLoop
    by_cases hdue : isDue minerAddress entry = true
    · rw [if_pos hdue, dues_cons_due hdue]
      dsimp only
      by_cases hfull : satAdd64 payable entry.netPayoutAtoms > maxAtoms
      · rw [if_pos hfull]
        exact ⟨0, rfl⟩
      · rw [if_neg hfull]
        obtain ⟨j, hj⟩ := ih (satAdd64 payable entry.netPayoutAtoms)
        -- The sum is at most the limit, so it was not clamped.
        have hnext : (satAdd64 payable entry.netPayoutAtoms).toNat ≤ maxAtoms.toNat :=
          UInt64.le_iff_toNat_le.mp (UInt64.not_lt.mp hfull)
        rw [toNat_satAdd64] at hj hnext
        refine ⟨j + 1, ?_⟩
        rw [hj, List.take_succ_cons, List.sum_cons]
        omega
    · rw [if_neg hdue, dues_cons_other hdue]
      exact ih payable

theorem fits_payableAtomsUpTo (ledger : PayoutLedger) (minerAddress : String) (maxAtoms : UInt64)
    (hmax : maxAtoms.toNat < 2 ^ 64 - 1) :
    Fits ledger.entries minerAddress (ledger.payableAtomsUpTo minerAddress maxAtoms) := by
  obtain ⟨j, hj⟩ := payableLoop_eq minerAddress maxAtoms hmax 0 ledger.entries
  refine ⟨j, ?_⟩
  rw [UInt64.toNat_zero, Nat.zero_add] at hj
  exact hj

/-- What the first dues add up to does not change when entries are appended. -/
theorem Fits.append {atoms : UInt64} (h : Fits entries minerAddress atoms)
    (more : List PayoutEntry) : Fits (entries ++ more) minerAddress atoms := by
  obtain ⟨j, hj⟩ := h
  refine ⟨min j (dues minerAddress entries).length, ?_⟩
  have hsplit : dues minerAddress (entries ++ more)
      = dues minerAddress entries ++ dues minerAddress more := by
    simp [dues]
  rw [hj, hsplit, List.take_append_of_le_length (min_le_right _ _)]
  by_cases hle : j ≤ (dues minerAddress entries).length
  · rw [min_eq_left hle]
  · rw [min_eq_right (by omega), List.take_length, List.take_of_length_le (by omega)]

/-! ## The marked entries -/

theorem paidAtoms_cons (entry : PayoutEntry) (entries : List PayoutEntry) (minerAddress : String) :
    paidAtoms (entry :: entries) minerAddress
      = (if entry.paidOut = true ∧ entry.minerAddress = minerAddress then
          entry.netPayoutAtoms.toNat else 0) + paidAtoms entries minerAddress := by
  unfold paidAtoms
  by_cases h : entry.paidOut = true ∧ entry.minerAddress = minerAddress
  · simp [h.1, h.2]
  · rw [if_neg h, List.filter_cons_of_neg, Nat.zero_add]
    simpa using h

theorem paidAtoms_append (entries more : List PayoutEntry) (minerAddress : String) :
    paidAtoms (entries ++ more) minerAddress
      = paidAtoms entries minerAddress + paidAtoms more minerAddress := by
  unfold paidAtoms
  rw [List.filter_append, List.map_append, List.sum_append]

/-- New entries are paid to nobody. -/
theorem paidAtoms_unpaid (h : ∀ entry ∈ entries, entry.paidOut = false) (minerAddress : String) :
    paidAtoms entries minerAddress = 0 := by
  unfold paidAtoms
  rw [List.filter_eq_nil_iff.mpr]
  · rfl
  · intro entry hentry
    simp [h entry hentry]

/-- Marking covers the amount exactly if the first dues add up to it. -/
theorem paidAtoms_markLoop (minerAddress other : String) (amountAtoms marked : UInt64)
    (entries : List PayoutEntry) {j : Nat}
    (hfits : amountAtoms.toNat = marked.toNat + ((dues minerAddress entries).take j).sum) :
    paidAtoms (markLoop minerAddress amountAtoms marked entries) other
      = paidAtoms entries other
        + if minerAddress = other then amountAtoms.toNat - marked.toNat else 0 := by
  induction entries generalizing marked j with
  | nil =>
    have hdone : amountAtoms.toNat - marked.toNat = 0 := by
      simp at hfits
      omega
    simp [markLoop, hdone]
  | cons entry entries ih =>
    unfold markLoop
    by_cases hdue : isDue minerAddress entry = true
    · rw [if_pos hdue]
      rw [dues_cons_due hdue] at hfits
      by_cases hcovered : marked ≥ amountAtoms
      · have hle : amountAtoms.toNat ≤ marked.toNat := UInt64.le_iff_toNat_le.mp hcovered
        rw [if_pos hcovered, Nat.sub_eq_zero_of_le hle, ite_self, Nat.add_zero]
      · rw [if_neg hcovered, paidAtoms_cons, paidAtoms_cons]
        have hlt : marked.toNat < amountAtoms.toNat :=
          UInt64.lt_iff_toNat_lt.mp (UInt64.not_le.mp hcovered)
        have htop := amountAtoms.toNat_lt
        -- Something is left to cover, so this entry is among the first dues.
        obtain ⟨k, rfl⟩ : ∃ k, j = k + 1 := by
          apply Nat.exists_eq_succ_of_ne_zero
          rintro rfl
          simp at hfits
          omega
        rw [List.take_succ_cons, List.sum_cons] at hfits
        have hnext : (satAdd64 marked entry.netPayoutAtoms).toNat
            = marked.toNat + entry.netPayoutAtoms.toNat := by
          rw [toNat_satAdd64]
          omega
        rw [ih (satAdd64 marked entry.netPayoutAtoms) (j := k) (by omega), hnext]
        simp only [isDue, Bool.and_eq_true, Bool.not_eq_true', beq_iff_eq] at hdue
        rw [hdue.1, hdue.2]
        by_cases hother : minerAddress = other
        · simp only [hother, and_self, if_true, Bool.false_eq_true, false_and, if_false]
          omega
        · simp [hother]
    · rw [if_neg hdue, paidAtoms_cons, paidAtoms_cons]
      rw [dues_cons_other hdue] at hfits
      rw [ih marked hfits]
      omega

theorem paidAtoms_markPaidUpTo {ledger : PayoutLedger} {amountAtoms : UInt64}
    (hfits : Fits ledger.entries minerAddress amountAtoms) (other : String) :
    paidAtoms (ledger.markPaidUpTo minerAddress amountAtoms).entries other
      = paidAtoms ledger.entries other
        + if minerAddress = other then amountAtoms.toNat else 0 := by
  obtain ⟨j, hj⟩ := hfits
  have hloop := paidAtoms_markLoop minerAddress other amountAtoms 0 ledger.entries (j := j)
    (by rw [hj, UInt64.toNat_zero, Nat.zero_add])
  rwa [UInt64.toNat_zero, Nat.sub_zero] at hloop

end PayoutLedger

end Tensorium
