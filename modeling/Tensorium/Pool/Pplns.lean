import Tensorium.Pool.Stratum
import Mathlib.Data.String.Basic

/-! # PPLNS splits are fair

    The reward of a block is divided among the miners of the last `n` shares in
    proportion to the work behind them. Two folds weigh the window, a saturating
    one for all of it and a plain one for each miner; as long as the variable
    difficulty stays in its range neither leaves the 64-bit range, so the parts
    are those of exact weights, rounded down.
-/

namespace Tensorium

open Saturating BulkMap Apportion

/-! ## The window -/

namespace ShareWindow

@[simp] theorem n_foldl_push (pushed : List ShareRecord) (window : ShareWindow) :
    (pushed.foldl push window).n = window.n := by
  induction pushed generalizing window with
  | nil => rfl
  | cons share pushed ih => exact ih (window.push share)

/-- The window holds the last `n` shares, in the order they came. -/
theorem shares_foldl_push {n : Nat} (hpos : 1 ≤ n) (pushed : List ShareRecord) :
    (pushed.foldl push (new n)).shares = pushed.drop (pushed.length - n) := by
  induction pushed using List.reverseRecOn with
  | nil => simp [new]
  | append_singleton pushed share ih =>
    have hn := n_foldl_push pushed (new n)
    rw [List.foldl_append, List.foldl_cons, List.foldl_nil, push, ih, hn, List.length_append,
      List.length_singleton, List.length_drop]
    show (if pushed.length - (pushed.length - n) ≥ n then _ else _) ++ [share] = _
    rw [List.drop_append_of_le_length (by omega)]
    by_cases hfull : n ≤ pushed.length
    · -- The oldest share goes.
      rw [if_pos (by omega), List.tail_drop]
      congr 2
      omega
    · rw [if_neg (by omega)]
      congr 2
      omega

theorem length_foldl_push {n : Nat} (hpos : 1 ≤ n) (pushed : List ShareRecord) :
    (pushed.foldl push (new n)).shares.length = min n pushed.length := by
  rw [shares_foldl_push hpos, List.length_drop]
  omega

end ShareWindow

/-! ## Weights -/

/-- The work behind a list of shares. -/
def allWeight (shares : List ShareRecord) : Nat :=
  (shares.map fun share => 2 ^ share.shareDiffBits.toNat).sum

/-- The work behind the shares of one miner. -/
def minerWeight (shares : List ShareRecord) (address : String) : Nat :=
  allWeight (shares.filter fun share => share.walletAddress = address)

/-- The miners of a list of shares. -/
def miners (shares : List ShareRecord) : Finset String :=
  (shares.map ShareRecord.walletAddress).toFinset

/-- A difficulty within the range of the variable difficulty shifts nothing
    out. -/
theorem toNat_weight {share : ShareRecord} (hbits : share.shareDiffBits ≤ vardiffMaxBits) :
    share.weight.toNat = 2 ^ share.shareDiffBits.toNat := by
  have hle : share.shareDiffBits.toNat ≤ 40 := UInt8.le_iff_toNat_le.mp hbits
  have hpow : 2 ^ share.shareDiffBits.toNat ≤ 2 ^ 40 := Nat.pow_le_pow_right (by decide) hle
  unfold ShareRecord.weight
  rw [UInt64.toNat_shiftLeft, UInt8.toNat_toUInt64, UInt64.toNat_one, Nat.shiftLeft_eq,
    Nat.one_mul, Nat.mod_eq_of_lt (show share.shareDiffBits.toNat < 64 by omega)]
  exact Nat.mod_eq_of_lt (by omega)

section weights

variable {shares : List ShareRecord}

theorem sum_weights (hbits : ∀ share ∈ shares, share.shareDiffBits ≤ vardiffMaxBits) :
    (shares.map fun share => share.weight.toNat).sum = allWeight shares := by
  unfold allWeight
  congr 1
  refine List.map_congr_left fun share hshare => ?_
  exact toNat_weight (hbits share hshare)

/-- The work behind a window of the default size fits 64 bits with room to
    spare. -/
theorem allWeight_lt (hbits : ∀ share ∈ shares, share.shareDiffBits ≤ vardiffMaxBits)
    (hlen : shares.length ≤ 4096) : allWeight shares < 2 ^ 64 := by
  have hle : allWeight shares ≤ shares.length * 2 ^ 40 := by
    unfold allWeight
    have hsum := List.sum_le_card_nsmul (shares.map fun share => 2 ^ share.shareDiffBits.toNat)
      (2 ^ 40) ?_
    · rwa [List.length_map, smul_eq_mul] at hsum
    · intro weight hweight
      obtain ⟨share, hshare, rfl⟩ := List.mem_map.mp hweight
      exact Nat.pow_le_pow_right (by decide) (UInt8.le_iff_toNat_le.mp (hbits share hshare))
  omega

theorem allWeight_pos (hne : shares ≠ []) : 0 < allWeight shares := by
  obtain ⟨share, rest, rfl⟩ := List.exists_cons_of_ne_nil hne
  have hpow := Nat.two_pow_pos share.shareDiffBits.toNat
  unfold allWeight
  rw [List.map_cons, List.sum_cons]
  omega

theorem minerWeight_le (shares : List ShareRecord) (address : String) :
    minerWeight shares address ≤ allWeight shares :=
  (List.filter_sublist.map _).sum_le_sum fun _ _ => Nat.zero_le _

end weights

/-- A window whose two folds are exact. -/
structure ShareWindow.Exact (window : ShareWindow) : Prop where
  exactWeight_eq : window.exactWeight = allWeight window.shares
  fits : allWeight window.shares < 2 ^ 64
  total : window.totalWeight.toNat = allWeight window.shares
  each : ∀ address, ((window.minerWeights.lookup address).getD 0).toNat
    = minerWeight window.shares address

theorem ShareWindow.exact {window : ShareWindow}
    (hbits : ∀ share ∈ window.shares, share.shareDiffBits ≤ vardiffMaxBits)
    (hlen : window.shares.length ≤ 4096) : window.Exact := by
  have hfits := allWeight_lt hbits hlen
  have hsum : window.exactWeight = allWeight window.shares := sum_weights hbits
  refine ⟨hsum, hfits, ?_, ?_⟩
  · rw [toNat_totalWeight (by rwa [hsum]), hsum]
  · intro address
    have hcounter : ((window.minerWeights.lookup address).getD 0).toNat
        = ((window.shares.filter fun share => share.walletAddress = address).map fun share =>
          share.weight.toNat).sum :=
      getD_lookup_tally ShareRecord.walletAddress (by rwa [sum_weights hbits]) address
    rw [sum_weights fun share hshare => hbits share (List.mem_filter.mp hshare).1] at hcounter
    exact hcounter

theorem ShareWindow.Exact.exactWeight_lt {window : ShareWindow} (h : window.Exact) :
    window.exactWeight < 2 ^ 64 := by
  rw [h.exactWeight_eq]
  exact h.fits

/-! ## The split -/

/-- A reward divided among the miners of some shares in proportion to their work:
    each of them at most once, the part rounded down and left out when nothing
    remains of it. Less than one atom for each miner is lost. -/
structure FairSplit (shares : List ShareRecord) (gross : UInt64) (fallbackAddr : String)
    (splits : List (String × UInt64)) : Prop where
  nodup : (splits.map Prod.fst).Nodup
  amount : shares ≠ [] → ∀ address atoms, (address, atoms) ∈ splits ↔
    atoms ≠ 0 ∧ atoms.toNat = gross.toNat * minerWeight shares address / allWeight shares
  sum_le : (splits.map fun split => split.2.toNat).sum ≤ gross.toNat
  dust : shares ≠ [] →
    gross.toNat < (splits.map fun split => split.2.toNat).sum + (miners shares).card
  empty : shares = [] → splits = [(fallbackAddr, gross)]

namespace PayoutLedger

/-- Dropping what is zero changes no sum. -/
theorem sum_filter_pos (splits : List (String × UInt64)) :
    ((splits.filter fun split => decide (split.2 > 0)).map fun split => split.2.toNat).sum
      = (splits.map fun split => split.2.toNat).sum := by
  induction splits with
  | nil => rfl
  | cons split splits ih =>
    by_cases hpos : split.2 > 0
    · rw [List.filter_cons_of_pos (by simpa using hpos), List.map_cons, List.map_cons,
        List.sum_cons, List.sum_cons, ih]
    · have hzero : split.2.toNat = 0 := Nat.eq_zero_of_not_pos hpos
      rw [List.filter_cons_of_neg (by simpa using hpos), List.map_cons, List.sum_cons, ih, hzero,
        Nat.zero_add]

section split

variable {ledger : PayoutLedger} {order : WeightOrder} {gross : UInt64} {fallbackAddr : String}

/-- The part of a miner, whose weight is at most the total, fits the type it is
    cast to. -/
theorem toNat_part (gross : UInt64) {w total : Nat} (hle : w ≤ total) :
    (UInt64.ofNat (gross.toNat * w / total)).toNat = gross.toNat * w / total := by
  apply UInt64.toNat_ofNat_of_lt'
  refine lt_of_le_of_lt ?_ gross.toNat_lt
  exact Nat.div_le_of_le_mul (by
    rw [Nat.mul_comm total]
    exact Nat.mul_le_mul_left _ hle)

/-- A window with shares is split, up to the order, into the parts that are not
    zero. -/
theorem pplnsSplit_perm (hexact : ledger.shareWindow.Exact)
    (hne : ledger.shareWindow.shares ≠ []) :
    (ledger.pplnsSplit order gross fallbackAddr).Perm
      (((order.list ledger.shareWindow.minerWeights).map fun e =>
          (e.1, UInt64.ofNat (gross.toNat * e.2.toNat / allWeight ledger.shareWindow.shares))).filter
        fun split => decide (split.2 > 0)) := by
  have htotal : ledger.shareWindow.totalWeight ≠ 0 := by
    intro hzero
    have hpos := allWeight_pos hne
    rw [← hexact.total, hzero] at hpos
    exact absurd hpos (lt_irrefl 0)
  have hcard : ledger.shareWindow.minerWeights.keys.card ≠ 0 := by
    unfold ShareWindow.minerWeights
    rw [keys_tally]
    simpa using hne
  unfold pplnsSplit
  dsimp only
  rw [if_neg (not_or.mpr ⟨htotal, hcard⟩), hexact.total]
  exact List.perm_insertionSort _ _

theorem nodup_pplnsSplit (hexact : ledger.shareWindow.Exact)
    (hne : ledger.shareWindow.shares ≠ []) :
    ((ledger.pplnsSplit order gross fallbackAddr).map Prod.fst).Nodup := by
  rw [((pplnsSplit_perm hexact hne).map Prod.fst).nodup_iff]
  refine List.Nodup.sublist (List.filter_sublist.map _) ?_
  rw [List.map_map]
  exact order.nodup _

/-- Every listed counter is the weight of its miner. -/
theorem toNat_of_mem (hexact : ledger.shareWindow.Exact) {address : String} {w : UInt64}
    (hmem : (address, w) ∈ order.list ledger.shareWindow.minerWeights) :
    w.toNat = minerWeight ledger.shareWindow.shares address := by
  have heach := hexact.each address
  rw [(order.mem_iff _ _ _).mp hmem] at heach
  exact heach

/-- Who is paid, and how much. -/
theorem mem_pplnsSplit (hexact : ledger.shareWindow.Exact)
    (hne : ledger.shareWindow.shares ≠ []) (address : String) (atoms : UInt64) :
    (address, atoms) ∈ ledger.pplnsSplit order gross fallbackAddr ↔
      atoms ≠ 0 ∧ atoms.toNat = gross.toNat * minerWeight ledger.shareWindow.shares address
        / allWeight ledger.shareWindow.shares := by
  have hpart := toNat_part gross (minerWeight_le ledger.shareWindow.shares address)
  rw [(pplnsSplit_perm hexact hne).mem_iff, List.mem_filter, List.mem_map, decide_eq_true_eq]
  constructor
  · rintro ⟨⟨⟨address', w⟩, hmem, heq⟩, hpos⟩
    obtain ⟨rfl, rfl⟩ := Prod.mk.inj heq
    dsimp only at hpos ⊢
    rw [toNat_of_mem hexact hmem] at hpos ⊢
    exact ⟨UInt64.pos_iff_ne_zero.mp hpos, hpart⟩
  · rintro ⟨hnonzero, hatoms⟩
    refine ⟨?_, UInt64.pos_iff_ne_zero.mpr hnonzero⟩
    cases hlookup : ledger.shareWindow.minerWeights.lookup address with
    | none =>
      -- Who has no share in the window has no part.
      have heach := hexact.each address
      rw [hlookup, Option.getD_none, UInt64.toNat_zero] at heach
      rw [← heach, Nat.mul_zero, Nat.zero_div] at hatoms
      exact absurd (UInt64.toNat_inj.mp hatoms) hnonzero
    | some w =>
      have hmem := (order.mem_iff _ _ _).mpr hlookup
      refine ⟨(address, w), hmem, ?_⟩
      dsimp only
      rw [toNat_of_mem hexact hmem, ← hatoms, UInt64.ofNat_toNat]

/-- Every part is rounded down by less than one atom. -/
theorem lt_sum_pplnsSplit (hexact : ledger.shareWindow.Exact)
    (hne : ledger.shareWindow.shares ≠ []) :
    gross.toNat < ((ledger.pplnsSplit order gross fallbackAddr).map fun split =>
        split.2.toNat).sum + (miners ledger.shareWindow.shares).card := by
  let ws := (order.list ledger.shareWindow.minerWeights).map fun e => e.2.toNat
  have hsum : ws.sum = allWeight ledger.shareWindow.shares := by
    have htally := sum_iteration order ledger.shareWindow.minerWeights UInt64.toNat
    rw [htally, ShareWindow.minerWeights, weight_tally _ hexact.exactWeight_lt]
    exact hexact.exactWeight_eq
  have hlength : ws.length = (miners ledger.shareWindow.shares).card := by
    rw [List.length_map, length_iteration, ShareWindow.minerWeights, keys_tally]
    rfl
  have hparts : ((ledger.pplnsSplit order gross fallbackAddr).map fun split =>
      split.2.toNat).sum = (ws.map fun w => gross.toNat * w / ws.sum).sum := by
    rw [((pplnsSplit_perm hexact hne).map _).sum_eq, sum_filter_pos, List.map_map, List.map_map,
      hsum]
    congr 1
    refine List.map_congr_left fun e he => ?_
    have hw := toNat_of_mem hexact he
    exact toNat_part gross (by rw [hw]; exact minerWeight_le _ _)
  rw [hparts, ← hlength]
  exact lt_sum_parts gross.toNat (by rw [hsum]; exact allWeight_pos hne)

/-- The split of a window with exact weights is fair. -/
theorem fairSplit_pplnsSplit (hexact : ledger.shareWindow.Exact) :
    FairSplit ledger.shareWindow.shares gross fallbackAddr
      (ledger.pplnsSplit order gross fallbackAddr) := by
  have hempty : ledger.shareWindow.shares = [] →
      ledger.pplnsSplit order gross fallbackAddr = [(fallbackAddr, gross)] := by
    intro hnone
    unfold pplnsSplit
    dsimp only
    rw [if_pos]
    left
    unfold ShareWindow.totalWeight
    rw [hnone]
    rfl
  constructor
  · by_cases hne : ledger.shareWindow.shares = []
    · rw [hempty hne]
      exact List.nodup_singleton _
    · exact nodup_pplnsSplit hexact hne
  · intro hne address atoms
    exact mem_pplnsSplit hexact hne address atoms
  · exact sum_pplnsSplit_le ledger order gross fallbackAddr hexact.exactWeight_lt
  · intro hne
    exact lt_sum_pplnsSplit hexact hne
  · exact hempty

end split

/-! ## Net and fee -/

/-- The fee never exceeds the amount it is taken from, also where the product
    saturates. -/
theorem splitFee_add {feeBps : UInt64} (hbps : feeBps.toNat ≤ 10000) (gross : UInt64) :
    (splitFee gross feeBps).1.toNat + (splitFee gross feeBps).2.toNat = gross.toNat := by
  have hfee : satMul 64 gross.toNat feeBps.toNat / 10000 ≤ gross.toNat := by
    apply Nat.div_le_of_le_mul
    calc satMul 64 gross.toNat feeBps.toNat
        ≤ gross.toNat * feeBps.toNat := Nat.min_le_left _ _
      _ ≤ gross.toNat * 10000 := Nat.mul_le_mul_left _ hbps
      _ = 10000 * gross.toNat := Nat.mul_comm _ _
  have hcast : (UInt64.ofNat (satMul 64 gross.toNat feeBps.toNat / 10000)).toNat
      = satMul 64 gross.toNat feeBps.toNat / 10000 :=
    UInt64.toNat_ofNat_of_lt' (lt_of_le_of_lt hfee gross.toNat_lt)
  unfold splitFee
  dsimp only
  rw [toNat_satSub64, hcast]
  omega

/-- **PPLNS splits are fair and never overpay.** A window filled from the empty
    one by shares whose difficulty the variable difficulty can reach holds the
    last `n` of them; its weights are exact; and any reward is divided fairly
    among its miners, each entry into net amount and fee without a remainder. -/
theorem pplnsSplit_fair (n : Nat) (hpos : 1 ≤ n) (hmax : n ≤ 4096) (pushed : List ShareRecord)
    (hbits : ∀ share ∈ pushed, share.shareDiffBits ≤ vardiffMaxBits) (ledger : PayoutLedger)
    (hwindow : ledger.shareWindow = pushed.foldl ShareWindow.push (ShareWindow.new n))
    (order : WeightOrder) (gross : UInt64) (fallbackAddr : String) :
    ledger.shareWindow.shares = pushed.drop (pushed.length - n) ∧
    ledger.shareWindow.shares.length = min n pushed.length ∧
    ledger.shareWindow.Exact ∧
    FairSplit ledger.shareWindow.shares gross fallbackAddr
      (ledger.pplnsSplit order gross fallbackAddr) ∧
    ∀ (blockHeight : Nat) (blockHash minerAddress : String) (reward : UInt64),
      let entry := PayoutEntry.new blockHeight blockHash minerAddress reward
      entry.grossRewardAtoms = reward ∧
        entry.netPayoutAtoms.toNat + entry.poolFeeAtoms.toNat = reward.toNat := by
  have hshares : ledger.shareWindow.shares = pushed.drop (pushed.length - n) := by
    rw [hwindow, ShareWindow.shares_foldl_push hpos]
  have hlength : ledger.shareWindow.shares.length = min n pushed.length := by
    rw [hwindow, ShareWindow.length_foldl_push hpos]
  have hexact : ledger.shareWindow.Exact := by
    apply ShareWindow.exact
    · intro share hshare
      rw [hshares] at hshare
      exact hbits share (List.mem_of_mem_drop hshare)
    · rw [hlength]
      exact le_trans (Nat.min_le_left _ _) hmax
  refine ⟨hshares, hlength, hexact, fairSplit_pplnsSplit hexact, ?_⟩
  intro blockHeight blockHash minerAddress reward
  exact ⟨rfl, splitFee_add (by decide) reward⟩

/-- Two miners, one of whom has pushed the other's first share out. -/
def threeShares : List ShareRecord :=
  [⟨"a", "rig", 16, 1⟩, ⟨"b", "rig", 40, 2⟩, ⟨"a", "rig", 17, 3⟩]

theorem pplnsSplit_fair_threeShares :
    ∃ ledger : PayoutLedger, ledger.shareWindow.shares = threeShares.drop 1 ∧
      FairSplit (threeShares.drop 1) 1000 "a" (ledger.pplnsSplit Iteration.sorted 1000 "a") := by
  obtain ⟨hshares, _, _, hfair, _⟩ := pplnsSplit_fair 2 (by decide) (by decide) threeShares
    (by decide) ⟨[], threeShares.foldl ShareWindow.push (ShareWindow.new 2)⟩ rfl Iteration.sorted
    1000 "a"
  rw [hshares] at hfair
  exact ⟨_, hshares, hfair⟩

end PayoutLedger

end Tensorium
