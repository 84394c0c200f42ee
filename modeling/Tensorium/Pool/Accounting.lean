import Tensorium.Lib.Apportion
import Tensorium.Lib.Saturating

/-! # The accounting of the pool

    `tensorium-pool/src/accounting.rs`: the window of the last accepted shares,
    the payout ledger, and how the reward of a block is split among the miners
    of the window. Sums that the source leaves to `+=` wrap around, as in a
    release build.
-/

namespace Tensorium

open Saturating BulkMap Apportion

/-- `POOL_FEE_BPS`. -/
def poolFeeBps : UInt64 := 500

/-- `PPLNS_DEFAULT_N`. -/
def pplnsDefaultN : Nat := 4096

/-! ## Shares -/

/-- One accepted share of a Stratum miner. -/
structure ShareRecord where
  walletAddress : String
  workerName : String
  shareDiffBits : UInt8
  submittedAtUnix : Nat
  deriving DecidableEq

/-- `ShareRecord::weight`. A shift by 64 or more loses its high bits. -/
def ShareRecord.weight (share : ShareRecord) : UInt64 :=
  1 <<< share.shareDiffBits.toUInt64

/-- The last accepted shares, oldest first. -/
structure ShareWindow where
  n : Nat
  shares : List ShareRecord
  deriving DecidableEq

namespace ShareWindow

/-- `ShareWindow::new`. -/
def new (n : Nat) : ShareWindow := ⟨n, []⟩

/-- `ShareWindow::push`. -/
def push (window : ShareWindow) (share : ShareRecord) : ShareWindow :=
  { window with
    shares := (if window.shares.length ≥ window.n then window.shares.tail else window.shares)
      ++ [share] }

/-- `ShareWindow::total_weight`. -/
def totalWeight (window : ShareWindow) : UInt64 :=
  window.shares.foldl (fun sum share => satAdd64 sum share.weight) 0

/-- `ShareWindow::miner_weights`. -/
def minerWeights (window : ShareWindow) : Map String UInt64 :=
  tally ShareRecord.walletAddress ShareRecord.weight window.shares

/-- What the weights of the window add up to. -/
def exactWeight (window : ShareWindow) : Nat :=
  (window.shares.map fun share => share.weight.toNat).sum

/-- A sum that fits is not clamped. -/
theorem toNat_totalWeight {window : ShareWindow} (hexact : window.exactWeight < 2 ^ 64) :
    window.totalWeight.toNat = window.exactWeight := by
  unfold totalWeight
  rw [toNat_foldl_satAdd64, UInt64.toNat_zero, Nat.zero_add]
  unfold exactWeight at hexact ⊢
  omega

end ShareWindow

/-- An order in which the weights of the miners may be iterated. -/
abbrev WeightOrder : Type := Iteration String UInt64

/-! ## The ledger -/

/-- `split_fee`: the net amount and the fee. -/
def splitFee (gross feeBps : UInt64) : UInt64 × UInt64 :=
  let fee := UInt64.ofNat (satMul 64 gross.toNat feeBps.toNat / 10000)
  (satSub64 gross fee, fee)

structure PayoutEntry where
  blockHeight : Nat
  blockHash : String
  minerAddress : String
  grossRewardAtoms : UInt64
  poolFeeAtoms : UInt64
  netPayoutAtoms : UInt64
  paidOut : Bool
  deriving DecidableEq

/-- `PayoutEntry::new`. -/
def PayoutEntry.new (blockHeight : Nat) (blockHash minerAddress : String)
    (grossRewardAtoms : UInt64) : PayoutEntry :=
  let (net, fee) := splitFee grossRewardAtoms poolFeeBps
  ⟨blockHeight, blockHash, minerAddress, grossRewardAtoms, fee, net, false⟩

structure PayoutLedger where
  entries : List PayoutEntry
  shareWindow : ShareWindow
  deriving DecidableEq

namespace PayoutLedger

/-- `PayoutLedger::default`. -/
def new : PayoutLedger := ⟨[], ShareWindow.new pplnsDefaultN⟩

/-- `PayoutLedger::push`. -/
def push (ledger : PayoutLedger) (entry : PayoutEntry) : PayoutLedger :=
  { ledger with entries := ledger.entries ++ [entry] }

/-- `PayoutLedger::push_share`. -/
def pushShare (ledger : PayoutLedger) (share : ShareRecord) : PayoutLedger :=
  { ledger with shareWindow := ledger.shareWindow.push share }

/-- `PayoutLedger::pplns_split`. The sort is stable, so equal amounts stay in
    the order of the iteration. -/
def pplnsSplit (ledger : PayoutLedger) (order : WeightOrder) (gross : UInt64)
    (fallbackAddr : String) : List (String × UInt64) :=
  let weights := ledger.shareWindow.minerWeights
  let total := ledger.shareWindow.totalWeight
  if total = 0 ∨ weights.keys.card = 0 then [(fallbackAddr, gross)]
  else
    let splits := (order.list weights).map fun (addr, w) =>
      (addr, UInt64.ofNat (gross.toNat * w.toNat / total.toNat))
    (splits.filter fun split => decide (split.2 > 0)).insertionSort fun a b => b.2 ≤ a.2

/-! ## Paying out -/

/-- Whether an entry is still owed to a miner. -/
def isDue (minerAddress : String) (entry : PayoutEntry) : Bool :=
  !entry.paidOut && entry.minerAddress == minerAddress

/-- The loop of `payable_atoms_up_to`. -/
def payableLoop (minerAddress : String) (maxAtoms : UInt64) : UInt64 → List PayoutEntry → UInt64
  | payable, [] => payable
  | payable, entry :: entries =>
    if isDue minerAddress entry then
      let next := satAdd64 payable entry.netPayoutAtoms
      if next > maxAtoms then payable else payableLoop minerAddress maxAtoms next entries
    else payableLoop minerAddress maxAtoms payable entries

/-- `PayoutLedger::payable_atoms_up_to`. -/
def payableAtomsUpTo (ledger : PayoutLedger) (minerAddress : String) (maxAtoms : UInt64) : UInt64 :=
  payableLoop minerAddress maxAtoms 0 ledger.entries

/-- `PayoutLedger::mark_paid`. -/
def markPaid (ledger : PayoutLedger) (minerAddress : String) : PayoutLedger :=
  { ledger with
    entries := ledger.entries.map fun entry =>
      if entry.minerAddress = minerAddress then { entry with paidOut := true } else entry }

/-- The loop of `mark_paid_up_to`. -/
def markLoop (minerAddress : String) (amountAtoms : UInt64) :
    UInt64 → List PayoutEntry → List PayoutEntry
  | _, [] => []
  | marked, entry :: entries =>
    if isDue minerAddress entry then
      if marked ≥ amountAtoms then entry :: entries
      else { entry with paidOut := true }
        :: markLoop minerAddress amountAtoms (satAdd64 marked entry.netPayoutAtoms) entries
    else entry :: markLoop minerAddress amountAtoms marked entries

/-- `PayoutLedger::mark_paid_up_to`, less the total that only a warning shows. -/
def markPaidUpTo (ledger : PayoutLedger) (minerAddress : String) (amountAtoms : UInt64) :
    PayoutLedger :=
  { ledger with entries := markLoop minerAddress amountAtoms 0 ledger.entries }

/-- The net amounts of the entries paid to a miner. -/
def paidAtoms (entries : List PayoutEntry) (minerAddress : String) : Nat :=
  ((entries.filter fun entry => entry.paidOut && entry.minerAddress == minerAddress).map
    fun entry => entry.netPayoutAtoms.toNat).sum

/-- The net amounts still owed to a miner, in the order of the entries. -/
def dues (minerAddress : String) (entries : List PayoutEntry) : List Nat :=
  (entries.filter (isDue minerAddress)).map fun entry => entry.netPayoutAtoms.toNat

/-- An amount that the first dues of a miner add up to. -/
def Fits (entries : List PayoutEntry) (minerAddress : String) (atoms : UInt64) : Prop :=
  ∃ j, atoms.toNat = ((dues minerAddress entries).take j).sum

/-- The gross amounts of the entries for a block hash. -/
def credited (ledger : PayoutLedger) (blockHash : String) : Nat :=
  ((ledger.entries.filter fun entry => entry.blockHash == blockHash).map
    fun entry => entry.grossRewardAtoms.toNat).sum

/-! ## What an entry adds -/

@[simp] theorem credited_push (ledger : PayoutLedger) (entry : PayoutEntry) (blockHash : String) :
    (ledger.push entry).credited blockHash = ledger.credited blockHash
      + if entry.blockHash = blockHash then entry.grossRewardAtoms.toNat else 0 := by
  unfold push credited
  dsimp only
  rw [List.filter_append, List.map_append, List.sum_append]
  by_cases h : entry.blockHash = blockHash
  · simp [h]
  · simp [h]

@[simp] theorem credited_pushShare (ledger : PayoutLedger) (share : ShareRecord)
    (blockHash : String) : (ledger.pushShare share).credited blockHash = ledger.credited blockHash :=
  rfl

/-- Nothing is credited for a hash without entries. -/
theorem credited_eq_zero {ledger : PayoutLedger} {blockHash : String}
    (h : ∀ entry ∈ ledger.entries, entry.blockHash ≠ blockHash) :
    ledger.credited blockHash = 0 := by
  unfold credited
  rw [List.filter_eq_nil_iff.mpr]
  · rfl
  · intro entry hentry heq
    exact h entry hentry (beq_iff_eq.mp heq)

/-- The entries of one block, pushed one after the other. -/
def pushAll (ledger : PayoutLedger) (blockHeight : Nat) (blockHash : String)
    (splits : List (String × UInt64)) : PayoutLedger :=
  splits.foldl (fun ledger split =>
    ledger.push (.new blockHeight blockHash split.1 split.2)) ledger

theorem credited_pushAll (ledger : PayoutLedger) (blockHeight : Nat) (blockHash other : String)
    (splits : List (String × UInt64)) :
    (ledger.pushAll blockHeight blockHash splits).credited other = ledger.credited other
      + if blockHash = other then (splits.map fun split => split.2.toNat).sum else 0 := by
  induction splits generalizing ledger with
  | nil => simp [pushAll]
  | cons split splits ih =>
    have hpush := credited_push ledger (.new blockHeight blockHash split.1 split.2) other
    have hstep : ledger.pushAll blockHeight blockHash (split :: splits)
        = (ledger.push (.new blockHeight blockHash split.1 split.2)).pushAll blockHeight blockHash
            splits := rfl
    rw [hstep, ih, hpush, List.map_cons, List.sum_cons]
    by_cases h : blockHash = other
    · simp [h, PayoutEntry.new, Nat.add_assoc]
    · simp [h, PayoutEntry.new]

/-! ## The split -/

/-- A window whose weights add up below `2 ^ 64` splits a reward without paying
    out more than it. -/
theorem sum_pplnsSplit_le (ledger : PayoutLedger) (order : WeightOrder) (gross : UInt64)
    (fallbackAddr : String) (hexact : ledger.shareWindow.exactWeight < 2 ^ 64) :
    ((ledger.pplnsSplit order gross fallbackAddr).map fun split => split.2.toNat).sum
      ≤ gross.toNat := by
  unfold pplnsSplit
  dsimp only
  by_cases hfallback : ledger.shareWindow.totalWeight = 0 ∨
      ledger.shareWindow.minerWeights.keys.card = 0
  · rw [if_pos hfallback]
    simp
  · rw [if_neg hfallback]
    have htotal : ledger.shareWindow.totalWeight.toNat = ledger.shareWindow.exactWeight :=
      ShareWindow.toNat_totalWeight hexact
    have hpos : 0 < ledger.shareWindow.totalWeight.toNat := by
      apply Nat.pos_of_ne_zero
      intro hzero
      exact hfallback (Or.inl (UInt64.toNat_inj.mp hzero))
    have hweights : ((order.list ledger.shareWindow.minerWeights).map fun e => e.2.toNat).sum
        ≤ ledger.shareWindow.totalWeight.toNat := by
      rw [sum_iteration, htotal]
      exact le_of_eq (weight_tally _ hexact)
    -- Sorting moves nothing in or out, and the filter drops zeros.
    rw [((List.perm_insertionSort _ _).map _).sum_eq]
    refine ((List.filter_sublist.map _).sum_le_sum fun _ _ => Nat.zero_le _).trans ?_
    have hparts := sum_parts_le gross.toNat hpos hweights
    rw [List.map_map] at hparts ⊢
    refine le_trans (List.sum_le_sum fun e _ => ?_) hparts
    exact Nat.mod_le _ _

/-- Nothing is split into nothing, whatever the weights. -/
theorem sum_pplnsSplit_zero (ledger : PayoutLedger) (order : WeightOrder) (fallbackAddr : String) :
    ((ledger.pplnsSplit order 0 fallbackAddr).map fun split => split.2.toNat).sum = 0 := by
  apply List.sum_eq_zero
  intro atoms hatoms
  obtain ⟨split, hsplit, rfl⟩ := List.mem_map.mp hatoms
  unfold pplnsSplit at hsplit
  dsimp only at hsplit
  split_ifs at hsplit with hfallback
  · obtain rfl := List.mem_singleton.mp hsplit
    rfl
  · rw [(List.perm_insertionSort _ _).mem_iff] at hsplit
    obtain ⟨e, _, rfl⟩ := List.mem_map.mp (List.mem_filter.mp hsplit).1
    simp

end PayoutLedger

end Tensorium
