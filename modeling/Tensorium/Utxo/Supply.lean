import Tensorium.Utxo.Accept
import Mathlib.Algebra.BigOperators.Intervals

/-! # Supply never exceeds the emission schedule

    The exact value of the set, summed over the natural numbers, grows by at
    most the reward of each block (plus the pre-mint at genesis). The argument
    needs no side condition on the transactions: as long as the schedule stays
    below the largest `u64`, none of the saturating sums of an accepted block
    saturates, because each of them is bounded by what the set already holds
    plus what the block may mint.
-/

namespace Tensorium

open Saturating BulkMap ExceptFold

variable {P : Primitives} {params : ConsensusParams} {u u' : UtxoSet}

/-! ## The schedule -/

/-- The exact value of all entries of a set. -/
def exactSupply (u : UtxoSet) : Nat :=
  weight (fun e : UtxoEntry => e.output.valueAtoms.toNat) u

/-- The pre-mint `apply_block` allows at height 0. -/
def premintAllowed (params : ConsensusParams) : Nat :=
  if hasGenesisPremint params then (premintAtoms params).toNat else 0

/-- What the block at a height may mint. -/
def mintAllowance (params : ConsensusParams) (height : Nat) : Nat :=
  (rewardAtHeight params height).toNat + if height = 0 then premintAllowed params else 0

/-- The rewards of heights `0..h` plus the pre-mint. -/
def emissionSchedule (params : ConsensusParams) (h : Nat) : Nat :=
  (∑ k ∈ Finset.range (h + 1), (rewardAtHeight params k).toNat) + premintAllowed params

theorem sum_mintAllowance (params : ConsensusParams) (h : Nat) :
    ∑ k ∈ Finset.range (h + 1), mintAllowance params k = emissionSchedule params h := by
  unfold mintAllowance emissionSchedule
  rw [Finset.sum_add_distrib]
  congr 1
  rw [Finset.sum_range_succ', Finset.sum_eq_zero fun k _ => if_neg (Nat.succ_ne_zero k)]
  simp

/-- Until the era counter wraps, the schedule pays at most the initial reward in
    every block of the eras that have one. -/
theorem emissionSchedule_le {params : ConsensusParams} {h : Nat}
    (hinterval : 0 < params.halvingIntervalBlocks)
    (hera : h / params.halvingIntervalBlocks < 2 ^ 32) :
    emissionSchedule params h
      ≤ params.maxHalvingEras * params.halvingIntervalBlocks * params.initialRewardAtoms.toNat
        + premintAllowed params := by
  let last := params.maxHalvingEras * params.halvingIntervalBlocks
  have hreward : ∀ k ∈ Finset.range (h + 1), (rewardAtHeight params k).toNat
      ≤ if k < last then params.initialRewardAtoms.toNat else 0 := by
    intro k hk
    have hle : k ≤ h := Nat.lt_succ_iff.mp (Finset.mem_range.mp hk)
    have hkera : emissionEra params k = k / params.halvingIntervalBlocks :=
      Nat.mod_eq_of_lt (lt_of_le_of_lt (Nat.div_le_div_right hle) hera)
    unfold rewardAtHeight
    rw [hkera]
    dsimp only
    by_cases hpast : k / params.halvingIntervalBlocks ≥ params.maxHalvingEras
    · rw [if_pos hpast]
      exact Nat.zero_le _
    · -- A height with an era that is left to pay lies below the last one.
      have hlast : k < last := (Nat.div_lt_iff_lt_mul hinterval).mp (not_le.mp hpast)
      rw [if_neg hpast, if_pos hlast, UInt64.toNat_shiftRight]
      exact Nat.shiftRight_le _ _
  unfold emissionSchedule
  refine Nat.add_le_add_right ((Finset.sum_le_sum hreward).trans ?_) _
  rw [← Finset.sum_filter, Finset.sum_const, smul_eq_mul]
  refine Nat.mul_le_mul_right _ ?_
  calc ((Finset.range (h + 1)).filter (· < last)).card
      ≤ (Finset.range last).card := Finset.card_le_card fun k hk => by
        exact Finset.mem_range.mpr (Finset.mem_filter.mp hk).2
    _ = last := Finset.card_range last

/-- The networks of the source stay far below the largest `u64`. -/
theorem emissionSchedule_lt_of_network {params : ConsensusParams} {h : Nat}
    (hnet : params = mainnet ∨ params = testnet ∨ params = testParams)
    (hera : h / params.halvingIntervalBlocks < 2 ^ 32) :
    emissionSchedule params h < 2 ^ 64 - 1 := by
  rcases hnet with rfl | rfl | rfl
  · exact lt_of_le_of_lt (emissionSchedule_le (by decide) hera) (by decide)
  · exact lt_of_le_of_lt (emissionSchedule_le (by decide) hera) (by decide)
  · exact lt_of_le_of_lt (emissionSchedule_le (by decide) hera) (by decide)

/-- The coinbase limit is the allowance plus the fees, clamped. -/
theorem toNat_maxCoinbaseAtoms_le (params : ConsensusParams) (height : Nat) (fees : UInt64) :
    (maxCoinbaseAtoms params height fees).toNat ≤ mintAllowance params height + fees.toNat := by
  unfold maxCoinbaseAtoms mintAllowance premintAllowed
  by_cases hheight : height = 0
  · by_cases hpre : hasGenesisPremint params
    · simp only [hheight, hpre, and_self, if_true, toNat_satAdd64]
      omega
    · simp only [hpre, and_false, Bool.false_eq_true, if_false, toNat_satAdd64]
      omega
  · simp only [hheight, false_and, if_false, toNat_satAdd64]
    omega

/-! ## What a block creates -/

/-- The entries a transaction creates hold at most the value of its outputs. -/
theorem creates_atoms_le (tx : Transaction) (height : Nat) :
    ((tx.creates height).map fun e => e.2.output.valueAtoms.toNat).sum
      ≤ outputAtoms tx.outputs := by
  unfold Transaction.creates outputAtoms
  -- The position an output is counted from does not matter for its value.
  generalize 0 = start
  induction tx.outputs generalizing start with
  | nil => simp
  | cons o outputs ih =>
    have ih' := ih (start + 1)
    rw [List.zipIdx_cons, List.filterMap_cons]
    by_cases hret : o.scriptPubkey.head? = some Script.opReturnByte
    · -- An `OP_RETURN` output is counted on the right only.
      simp only [Transaction.createdEntry, hret, if_true, List.map_cons, List.sum_cons] at ih' ⊢
      omega
    · simp only [Transaction.createdEntry, hret, if_false, List.map_cons, List.sum_cons] at ih' ⊢
      omega

theorem block_creates_atoms_le (b : Block) :
    (b.creates.map fun e => e.2.output.valueAtoms.toNat).sum
      ≤ (b.transactions.map fun tx => outputAtoms tx.outputs).sum := by
  unfold Block.creates
  induction b.transactions with
  | nil => simp
  | cons tx txs ih =>
    have hhead := creates_atoms_le tx b.header.height
    rw [List.flatMap_cons, List.map_append, List.sum_append, List.map_cons, List.sum_cons]
    omega

theorem sum_inputAtoms (u : UtxoSet) (txs : List Transaction) :
    (txs.map (Transaction.inputAtoms u)).sum
      = ((txs.flatMap Transaction.outpoints).map (atomsAt u)).sum := by
  induction txs with
  | nil => simp
  | cons tx txs ih =>
    rw [List.map_cons, List.sum_cons, ih, List.flatMap_cons, List.map_append, List.sum_append]
    rfl

/-! ## One block, then a chain -/

/-- One accepted block adds at most its allowance to the supply. -/
theorem exactSupply_applyBlock_le {b : Block} (h : applyBlock P params b u = .ok u')
    (hbound : exactSupply u + mintAllowance params b.header.height < 2 ^ 64 - 1) :
    exactSupply u' ≤ exactSupply u + mintAllowance params b.header.height := by
  obtain ⟨coinbase, txs, seen, fees, htxs, hfees, hlimit, rfl⟩ := applyBlock_ok h
  obtain ⟨hnd, _, _⟩ := totalFees_fold_ok hfees
  -- Spending distinct outpoints removes exactly what the inputs hold.
  have hspent := weight_eraseAll (fun e : UtxoEntry => e.output.valueAtoms.toNat) u
    (txs.flatMap Transaction.outpoints) hnd
  have hinputs : (txs.map (Transaction.inputAtoms u)).sum
      + weight (fun e : UtxoEntry => e.output.valueAtoms.toNat) (eraseAll u b.spends)
      = exactSupply u := by
    rw [spends_eq_flatMap htxs, sum_inputAtoms]
    exact hspent
  -- So the inputs stay below the largest `u64`, and the fee sum is exact.
  have hexact := totalFees_fold_exact hfees (by rw [UInt64.toNat_zero]; omega)
  rw [UInt64.toNat_zero] at hexact
  dsimp only at hexact
  -- The coinbase total is exact too: it is at most the limit.
  have hcoinbase : outputAtoms coinbase.outputs
      ≤ mintAllowance params b.header.height + fees.toNat := by
    have h₁ := UInt64.le_iff_toNat_le.mp hlimit
    have h₂ := toNat_maxCoinbaseAtoms_le params b.header.height fees
    rw [toNat_totalOutputAtoms] at h₁
    omega
  -- Entries written over each other only lower the new total.
  have hcreated := block_creates_atoms_le b
  rw [htxs, List.map_cons, List.sum_cons] at hcreated
  have hnew := weight_insertAll_le (fun e : UtxoEntry => e.output.valueAtoms.toNat)
    (eraseAll u b.spends) b.creates
  change weight _ (insertAll (eraseAll u b.spends) b.creates) ≤ _
  omega

/-- Along a chain the supply stays below the sum of the allowances. -/
theorem exactSupply_replay_le {chain : List Block} (h : replayUtxo P params chain = .ok u)
    (hheights : ∀ (k : Nat) (b : Block), chain[k]? = some b → b.header.height = k)
    (hbound : ∑ k ∈ Finset.range chain.length, mintAllowance params k < 2 ^ 64 - 1) :
    exactSupply u ≤ ∑ k ∈ Finset.range chain.length, mintAllowance params k := by
  -- The chain grows at its end, where the next block is applied.
  induction chain using List.reverseRecOn generalizing u with
  | nil =>
    obtain rfl := foldlM_nil_ok.mp h
    simp [exactSupply]
  | append_singleton chain b ih =>
    rw [replayUtxo_concat] at h
    obtain ⟨v, hv, happly⟩ := bind_eq_ok.mp h
    have hheight : b.header.height = chain.length :=
      hheights chain.length b (by simp)
    have hheights' : ∀ (k : Nat) (c : Block), chain[k]? = some c → c.header.height = k := by
      intro k c hc
      refine hheights k c ?_
      rw [List.getElem?_append_left (List.getElem?_eq_some_iff.mp hc).1, hc]
    rw [List.length_append, List.length_singleton, Finset.sum_range_succ] at hbound ⊢
    have ihv := ih hv hheights' (by omega)
    have hstep := exactSupply_applyBlock_le happly (by rw [hheight]; omega)
    rw [hheight] at hstep
    omega

/-- **Supply never exceeds the emission schedule.** Whatever transactions the
    blocks `0..h` carry, if `apply_block` accepts them one after the other from
    the empty set, the exact value of the resulting entries is at most the
    rewards of these heights plus the allowed pre-mint. -/
theorem supply_le_emissionSchedule (P : Primitives) (params : ConsensusParams)
    (chain : List Block) (h : Nat) (hlen : chain.length = h + 1)
    (hheights : ∀ (k : Nat) (b : Block), chain[k]? = some b → b.header.height = k)
    (u : UtxoSet) (haccepted : replayUtxo P params chain = .ok u)
    (hbound : emissionSchedule params h < 2 ^ 64 - 1) :
    exactSupply u ≤ emissionSchedule params h := by
  rw [← sum_mintAllowance, ← hlen] at hbound ⊢
  exact exactSupply_replay_le haccepted hheights hbound

/-- A transaction without inputs that creates a worthless `OP_RETURN` output. -/
def noteTx : Transaction :=
  Transaction.withoutInputs Primitives.sample [⟨0, [Script.opReturnByte]⟩] (asBytes "note")

/-- Two blocks of a chain: a coinbase each, and a transaction without inputs. -/
def twoBlocks : List Block :=
  [bareBlock 0 [Transaction.coinbase Primitives.sample 0 (rewardAtHeight testParams 0) "a"],
   bareBlock 1 [Transaction.coinbase Primitives.sample 1 (rewardAtHeight testParams 1) "b", noteTx]]

theorem supply_twoBlocks :
    ∃ u, replayUtxo Primitives.sample testParams twoBlocks = .ok u ∧
      exactSupply u ≤ emissionSchedule testParams 1 := by
  have hok : (replayUtxo Primitives.sample testParams twoBlocks).isOk = true := by
    decide
  cases hreplay : replayUtxo Primitives.sample testParams twoBlocks with
  | error e => rw [hreplay] at hok; cases hok
  | ok u =>
    refine ⟨u, rfl, ?_⟩
    refine supply_le_emissionSchedule Primitives.sample testParams twoBlocks 1 rfl ?_ u hreplay
      (by decide)
    intro k b hk
    match k, hk with
    | 0, hk => cases hk; rfl
    | 1, hk => cases hk; rfl

end Tensorium
