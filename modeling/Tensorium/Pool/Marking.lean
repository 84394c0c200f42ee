import Tensorium.Pool.Dues

/-! # How much a payout marks

    The amount of a payout is computed by one loop and marked by another, with
    different rules for when to stop, and entries may be appended in between.
    Both stop within the same entries: what is marked is what was paid.
-/

namespace Tensorium

open Saturating

namespace PayoutLedger

/-- The total that the loop of `mark_paid_up_to` carries along. -/
def markedLoop (minerAddress : String) (amountAtoms : UInt64) :
    UInt64 → List PayoutEntry → UInt64
  | marked, [] => marked
  | marked, entry :: entries =>
    if isDue minerAddress entry then
      if marked ≥ amountAtoms then marked
      else markedLoop minerAddress amountAtoms (satAdd64 marked entry.netPayoutAtoms) entries
    else markedLoop minerAddress amountAtoms marked entries

/-- The total that `mark_paid_up_to` returns, beside the ledger it leaves. -/
def markedAtoms (ledger : PayoutLedger) (minerAddress : String) (amountAtoms : UInt64) : UInt64 :=
  markedLoop minerAddress amountAtoms 0 ledger.entries

/-- An entry that was due to a miner, paid; any other as it was. -/
def payDue (minerAddress : String) (entry : PayoutEntry) : PayoutEntry :=
  if isDue minerAddress entry then { entry with paidOut := true } else entry

variable {minerAddress : String} {entries : List PayoutEntry}

theorem payDue_due {entry : PayoutEntry} (h : isDue minerAddress entry = true) :
    payDue minerAddress entry = { entry with paidOut := true } := by
  unfold payDue
  rw [if_pos h]

theorem payDue_other {entry : PayoutEntry} (h : ¬ isDue minerAddress entry = true) :
    payDue minerAddress entry = entry := by
  unfold payDue
  rw [if_neg h]

/-- What a miner is owed is part of all net amounts. -/
theorem sum_dues_le (minerAddress : String) (entries : List PayoutEntry) :
    (dues minerAddress entries).sum
      ≤ (entries.map fun entry => entry.netPayoutAtoms.toNat).sum := by
  unfold dues
  apply (List.filter_sublist.map _).sum_le_sum
  intro atoms _
  exact Nat.zero_le atoms

/-! ## The loop that computes the amount -/

/-- The loop adds up the dues of the first entries and stays within the limit. -/
theorem payableLoop_initial (maxAtoms payable : UInt64) (hlimit : payable ≤ maxAtoms)
    (hexact : payable.toNat + (dues minerAddress entries).sum < 2 ^ 64) :
    payableLoop minerAddress maxAtoms payable entries ≤ maxAtoms ∧
      ∃ first rest, entries = first ++ rest ∧
        (payableLoop minerAddress maxAtoms payable entries).toNat
          = payable.toNat + (dues minerAddress first).sum := by
  -- The total that is carried along never saturates, as nothing that is still to come
  -- takes it beyond 64 bits.
  induction entries generalizing payable with
  | nil => exact ⟨hlimit, [], [], rfl, rfl⟩
  | cons entry entries ih =>
    unfold payableLoop
    by_cases hdue : isDue minerAddress entry = true
    · rw [dues_cons_due hdue, List.sum_cons] at hexact
      have hnext : (satAdd64 payable entry.netPayoutAtoms).toNat
          = payable.toNat + entry.netPayoutAtoms.toNat := by
        rw [toNat_satAdd64]
        omega
      rw [if_pos hdue]
      dsimp only
      by_cases hfull : satAdd64 payable entry.netPayoutAtoms > maxAtoms
      · -- The loop stops in front of the entry that would pass the limit.
        rw [if_pos hfull]
        exact ⟨hlimit, [], entry :: entries, rfl, rfl⟩
      · rw [if_neg hfull]
        obtain ⟨hle, first, rest, hsplit, hsum⟩ :=
          ih (satAdd64 payable entry.netPayoutAtoms) (UInt64.not_lt.mp hfull) (by omega)
        refine ⟨hle, entry :: first, rest, by rw [hsplit, List.cons_append], ?_⟩
        rw [hsum, hnext, dues_cons_due hdue, List.sum_cons, Nat.add_assoc]
    · rw [dues_cons_other hdue] at hexact
      rw [if_neg hdue]
      obtain ⟨hle, first, rest, hsplit, hsum⟩ := ih payable hlimit hexact
      refine ⟨hle, entry :: first, rest, by rw [hsplit, List.cons_append], ?_⟩
      rw [hsum, dues_cons_other hdue]

/-! ## The loop that marks -/

/-- Once the amount is covered nothing more is marked. -/
theorem markLoop_covered {amountAtoms marked : UInt64} (hcovered : marked ≥ amountAtoms)
    (entries : List PayoutEntry) :
    markLoop minerAddress amountAtoms marked entries = entries ∧
      markedLoop minerAddress amountAtoms marked entries = marked := by
  induction entries with
  | nil => exact ⟨rfl, rfl⟩
  | cons entry entries ih =>
    unfold markLoop markedLoop
    by_cases hdue : isDue minerAddress entry = true
    · rw [if_pos hdue, if_pos hdue, if_pos hcovered, if_pos hcovered]
      exact ⟨rfl, rfl⟩
    · rw [if_neg hdue, if_neg hdue, ih.1, ih.2]
      exact ⟨rfl, rfl⟩

/-- An amount that the dues of the first entries add up to is covered among them,
    whatever follows: zero dues may be left over at their end. -/
theorem markLoop_initial (amountAtoms marked : UInt64) (first rest : List PayoutEntry)
    (hamount : amountAtoms.toNat = marked.toNat + (dues minerAddress first).sum) :
    markedLoop minerAddress amountAtoms marked (first ++ rest) = amountAtoms ∧
      ∃ paid spare, first = paid ++ spare ∧
        amountAtoms.toNat = marked.toNat + (dues minerAddress paid).sum ∧
        markLoop minerAddress amountAtoms marked (first ++ rest)
          = paid.map (payDue minerAddress) ++ (spare ++ rest) := by
  -- The induction is on the entries the amount was computed from; at their end it is
  -- covered, and `rest` is not looked at.
  induction first generalizing marked with
  | nil =>
    have heq : marked = amountAtoms := by
      apply UInt64.toNat_inj.mp
      rw [hamount]
      rfl
    have hcovered : marked ≥ amountAtoms := UInt64.le_of_eq heq.symm
    obtain ⟨hloop, htotal⟩ := @markLoop_covered minerAddress _ _ hcovered rest
    exact ⟨htotal.trans heq, [], [], rfl, hamount, hloop⟩
  | cons entry first ih =>
    by_cases hdue : isDue minerAddress entry = true
    · rw [dues_cons_due hdue, List.sum_cons] at hamount
      by_cases hcovered : marked ≥ amountAtoms
      · -- Everything due in the first entries is zero.
        have hle : amountAtoms.toNat ≤ marked.toNat := UInt64.le_iff_toNat_le.mp hcovered
        have heq : marked = amountAtoms := by
          apply UInt64.toNat_inj.mp
          omega
        obtain ⟨hloop, htotal⟩ := @markLoop_covered minerAddress _ _ hcovered
          (entry :: first ++ rest)
        exact ⟨htotal.trans heq, [], entry :: first, rfl, by rw [heq]; rfl, hloop⟩
      · have htop := amountAtoms.toNat_lt
        have hnext : (satAdd64 marked entry.netPayoutAtoms).toNat
            = marked.toNat + entry.netPayoutAtoms.toNat := by
          rw [toNat_satAdd64]
          omega
        obtain ⟨htotal, paid, spare, hsplit, hpaid, hloop⟩ :=
          ih (satAdd64 marked entry.netPayoutAtoms) (by omega)
        rw [List.cons_append]
        unfold markLoop markedLoop
        rw [if_pos hdue, if_pos hdue, if_neg hcovered, if_neg hcovered]
        refine ⟨htotal, entry :: paid, spare, by rw [hsplit, List.cons_append], ?_, ?_⟩
        · rw [hpaid, hnext, dues_cons_due hdue, List.sum_cons, Nat.add_assoc]
        · rw [hloop, List.map_cons, payDue_due hdue, List.cons_append]
    · rw [dues_cons_other hdue] at hamount
      obtain ⟨htotal, paid, spare, hsplit, hpaid, hloop⟩ := ih marked hamount
      rw [List.cons_append]
      unfold markLoop markedLoop
      rw [if_neg hdue, if_neg hdue]
      refine ⟨htotal, entry :: paid, spare, by rw [hsplit, List.cons_append], ?_, ?_⟩
      · rw [hpaid, dues_cons_other hdue]
      · rw [hloop, List.map_cons, payDue_other hdue, List.cons_append]

/-! ## The payout -/

/-- The entries of `before` up to some place, with the dues of a miner among them
    paid, and these add up to `atoms`; everything else is as before. -/
structure PaidInOrder (minerAddress : String) (atoms : UInt64) (before after : PayoutLedger)
    (paid rest : List PayoutEntry) : Prop where
  split : before.entries = paid ++ rest
  sum_eq : (dues minerAddress paid).sum = atoms.toNat
  after_eq : after = { before with entries := paid.map (payDue minerAddress) ++ rest }

/-- Marking the payable amount marks exactly the entries it was computed from,
    with whatever entries and shares the ledger got in between. -/
theorem payout_marks_what_was_paid (ledger : PayoutLedger) (minerAddress : String)
    (limit : UInt64) (more : List PayoutEntry) (window : ShareWindow)
    (hexact : (ledger.entries.map fun entry => entry.netPayoutAtoms.toNat).sum < 2 ^ 64) :
    let atoms := ledger.payableAtomsUpTo minerAddress limit
    let later : PayoutLedger := ⟨ledger.entries ++ more, window⟩
    later.markedAtoms minerAddress atoms = atoms ∧ atoms ≤ limit ∧
      ∃ paid rest, paid <+: ledger.entries ∧
        PaidInOrder minerAddress atoms later (later.markPaidUpTo minerAddress atoms) paid rest := by
  intro atoms later
  have hdues := sum_dues_le minerAddress ledger.entries
  obtain ⟨hlimit, first, rest, hsplit, hsum⟩ :=
    @payableLoop_initial minerAddress ledger.entries limit 0
      (UInt64.le_iff_toNat_le.mpr (Nat.zero_le _)) (by rw [UInt64.toNat_zero]; omega)
  have hentries : later.entries = first ++ (rest ++ more) := by
    show ledger.entries ++ more = _
    rw [hsplit, List.append_assoc]
  -- What was appended stands behind the entries the amount comes from.
  obtain ⟨htotal, paid, spare, hfirst, hpaid, hloop⟩ :=
    markLoop_initial atoms 0 first (rest ++ more) hsum
  rw [UInt64.toNat_zero, Nat.zero_add] at hpaid
  refine ⟨?_, hlimit, paid, spare ++ (rest ++ more), ?_, ?_, hpaid.symm, ?_⟩
  · unfold markedAtoms
    rw [hentries, htotal]
  · rw [hsplit, hfirst, List.append_assoc]
    exact List.prefix_append _ _
  · rw [hentries, hfirst, List.append_assoc]
  · unfold markPaidUpTo
    rw [hentries, hloop]

/-- Two entries of one miner with a zero entry behind the payable ones. -/
theorem payout_marks_what_was_paid_zeroEntry :
    let entry := fun (miner : String) (net : UInt64) =>
      (⟨1, "", miner, net, 0, net, false⟩ : PayoutEntry)
    let ledger : PayoutLedger := ⟨[entry "a" 5, entry "b" 3, entry "a" 0, entry "a" 9], .new 1⟩
    let later : PayoutLedger := ⟨ledger.entries ++ [entry "a" 2], .new 1⟩
    0 < ledger.payableAtomsUpTo "a" 7 ∧
      later.markedAtoms "a" (ledger.payableAtomsUpTo "a" 7) = ledger.payableAtomsUpTo "a" 7 := by
  intro entry ledger later
  have hmarks := payout_marks_what_was_paid ledger "a" 7 [entry "a" 2] (.new 1) (by decide)
  exact ⟨by decide, hmarks.1⟩

end PayoutLedger

end Tensorium
