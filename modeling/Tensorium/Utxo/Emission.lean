import Tensorium.Utxo.Supply
import Tensorium.Lib.Stepwise

/-! # The emission schedule adds up

    `reward_at_height` asks for the era of one height, and casts it to `u32`;
    `emitted_supply_until_height` goes through the eras and multiplies. The two
    agree as long as the cast changes nothing. From the height on at which the
    era no longer fits, the rewards start over, and the total does not.
-/

namespace Tensorium

open Saturating Stepwise

/-- What a network's numbers satisfy: they fit their registers, some era pays,
    and all eras together pay no more than the mining allocation. -/
structure ConsensusParams.Scheduled (params : ConsensusParams) : Prop where
  interval_pos : 0 < params.halvingIntervalBlocks
  interval_lt : params.halvingIntervalBlocks < 2 ^ 64
  eras_pos : 0 < params.maxHalvingEras
  eras_le : params.maxHalvingEras ≤ 64
  initial_pos : 0 < params.initialRewardAtoms.toNat
  allocated : ∑ era ∈ Finset.range params.maxHalvingEras,
    params.halvingIntervalBlocks * (params.initialRewardAtoms.toNat >>> era)
      ≤ params.miningAllocationAtoms.toNat

theorem mainnet_scheduled : mainnet.Scheduled where
  interval_pos := by decide
  interval_lt := by decide
  eras_pos := by decide
  eras_le := by decide
  initial_pos := by decide
  allocated := by decide

theorem testnet_scheduled : testnet.Scheduled where
  interval_pos := by decide
  interval_lt := by decide
  eras_pos := by decide
  eras_le := by decide
  initial_pos := by decide
  allocated := by decide

/-! ## Eras -/

section eras

variable {params : ConsensusParams}

/-- The reward of every block of an era. -/
def eraReward (params : ConsensusParams) (era : Nat) : Nat :=
  if era < params.maxHalvingEras then params.initialRewardAtoms.toNat >>> era else 0

/-- What the blocks below a height earn, era by era. -/
def earnedUntil (params : ConsensusParams) (height : Nat) : Nat :=
  ∑ era ∈ Finset.range params.maxHalvingEras,
    pointsIn params.halvingIntervalBlocks height era * (params.initialRewardAtoms.toNat >>> era)

theorem eraReward_antitone (params : ConsensusParams) : Antitone (eraReward params) := by
  intro era era' hle
  unfold eraReward
  by_cases hpays : era' < params.maxHalvingEras
  · rw [if_pos hpays, if_pos (lt_of_le_of_lt hle hpays), Nat.shiftRight_eq_div_pow,
      Nat.shiftRight_eq_div_pow]
    exact Nat.div_le_div_left (Nat.pow_le_pow_right (by decide) hle) (Nat.two_pow_pos _)
  · rw [if_neg hpays]
    exact Nat.zero_le _

/-- The shift of the source, in an era that the type of its amount can tell. -/
theorem toNat_shift (initial : UInt64) {era : Nat} (hera : era < 64) :
    (initial >>> UInt64.ofNat era).toNat = initial.toNat >>> era := by
  have hamount : (UInt64.ofNat era).toNat = era :=
    UInt64.toNat_ofNat_of_lt' (lt_trans hera (by decide))
  rw [UInt64.toNat_shiftRight, hamount, Nat.mod_eq_of_lt hera]

/-- A height whose era fits the cast earns the reward of that era. -/
theorem toNat_rewardAtHeight (hp : params.Scheduled) {height : Nat}
    (hfits : height < params.halvingIntervalBlocks * 2 ^ 32) :
    (rewardAtHeight params height).toNat
      = eraReward params (height / params.halvingIntervalBlocks) := by
  have hera : emissionEra params height = height / params.halvingIntervalBlocks :=
    Nat.mod_eq_of_lt (Nat.div_lt_of_lt_mul hfits)
  unfold rewardAtHeight eraReward
  rw [hera]
  dsimp only
  by_cases hpays : height / params.halvingIntervalBlocks < params.maxHalvingEras
  · rw [if_neg (not_le.mpr hpays), if_pos hpays]
    exact toNat_shift _ (lt_of_lt_of_le hpays hp.eras_le)
  · rw [if_pos (not_lt.mp hpays), if_neg hpays]
    rfl

/-- The rewards below a height whose era fits the cast, block by block. -/
theorem sum_rewardAtHeight (hp : params.Scheduled) {height : Nat}
    (hfits : height ≤ params.halvingIntervalBlocks * 2 ^ 32) :
    ∑ k ∈ Finset.range height, (rewardAtHeight params k).toNat = earnedUntil params height := by
  have hlast : ∀ era, params.maxHalvingEras ≤ era → eraReward params era = 0 :=
    fun era hpast => if_neg (not_lt.mpr hpast)
  calc ∑ k ∈ Finset.range height, (rewardAtHeight params k).toNat
      = ∑ k ∈ Finset.range height, eraReward params (k / params.halvingIntervalBlocks) := by
        refine Finset.sum_congr rfl fun k hk => ?_
        exact toNat_rewardAtHeight hp (lt_of_lt_of_le (Finset.mem_range.mp hk) hfits)
    _ = ∑ era ∈ Finset.range params.maxHalvingEras,
          pointsIn params.halvingIntervalBlocks height era • eraReward params era :=
        sum_div_eq hp.interval_pos hlast height
    _ = earnedUntil params height := by
        refine Finset.sum_congr rfl fun era hera => ?_
        rw [smul_eq_mul, eraReward, if_pos (Finset.mem_range.mp hera)]

theorem earnedUntil_le (hp : params.Scheduled) (height : Nat) :
    earnedUntil params height ≤ params.miningAllocationAtoms.toNat := by
  refine le_trans (Finset.sum_le_sum fun era _ => ?_) hp.allocated
  exact Nat.mul_le_mul_right _ (pointsIn_le _ _ _)

/-- Once the last era is over, nothing more is earned. -/
theorem earnedUntil_past {height height' : Nat}
    (hover : params.halvingIntervalBlocks * params.maxHalvingEras ≤ height)
    (hle : height ≤ height') : earnedUntil params height' = earnedUntil params height := by
  refine Finset.sum_congr rfl fun era hera => ?_
  have hlast : (era + 1) * params.halvingIntervalBlocks ≤ height := by
    refine le_trans ?_ hover
    rw [Nat.mul_comm]
    exact Nat.mul_le_mul_left _ (Finset.mem_range.mp hera)
  rw [pointsIn_eq_length hlast, pointsIn_eq_length (le_trans hlast hle)]

end eras

/-! ## The loop -/

section loop

variable {params : ConsensusParams}

/-- The loop over the eras from `start` on adds what the blocks below the height
    earn in them. Leaving it early skips eras that have not begun, and no sum or
    product saturates. -/
theorem toNat_emitEras (hp : params.Scheduled) (height n start : Nat) (emitted : UInt64)
    (hfew : start + n ≤ 64)
    (hroom : emitted.toNat + ∑ i ∈ Finset.range n,
      pointsIn params.halvingIntervalBlocks height (start + i)
        * (params.initialRewardAtoms.toNat >>> (start + i)) < 2 ^ 64) :
    (emitEras params (List.range' start n) emitted
        (height - start * params.halvingIntervalBlocks)).toNat
      = emitted.toNat + ∑ i ∈ Finset.range n,
        pointsIn params.halvingIntervalBlocks height (start + i)
          * (params.initialRewardAtoms.toNat >>> (start + i)) := by
  induction n generalizing start emitted with
  | zero => simp [emitEras]
  | succ n ih =>
    rw [List.range'_succ]
    by_cases hdone : height - start * params.halvingIntervalBlocks = 0
    · -- `break`
      have hnone : ∑ i ∈ Finset.range (n + 1),
          pointsIn params.halvingIntervalBlocks height (start + i)
            * (params.initialRewardAtoms.toNat >>> (start + i)) = 0 := by
        refine Finset.sum_eq_zero fun i _ => ?_
        have hbegun : height ≤ (start + i) * params.halvingIntervalBlocks :=
          le_trans (Nat.le_of_sub_eq_zero hdone) (Nat.mul_le_mul_right _ (Nat.le_add_right _ _))
        rw [pointsIn_eq_zero hbegun, Nat.zero_mul]
      unfold emitEras
      rw [if_pos hdone, hnone, Nat.add_zero]
    · rw [Finset.sum_range_succ'] at hroom ⊢
      simp only [Nat.add_zero, ← Nat.add_assoc, Nat.add_right_comm start _ 1] at hroom ⊢
      have hblocks : (UInt64.ofNat (min (height - start * params.halvingIntervalBlocks)
          params.halvingIntervalBlocks)).toNat
          = pointsIn params.halvingIntervalBlocks height start := by
        refine UInt64.toNat_ofNat_of_lt' ?_
        exact lt_of_le_of_lt (Nat.min_le_right _ _) hp.interval_lt
      have hshift := toNat_shift params.initialRewardAtoms (show start < 64 by omega)
      unfold emitEras
      rw [if_neg hdone]
      dsimp only
      set earned := satAdd64 emitted (satMul64 (UInt64.ofNat
        (min (height - start * params.halvingIntervalBlocks) params.halvingIntervalBlocks))
        (params.initialRewardAtoms >>> UInt64.ofNat start)) with hearned
      have hexact : earned.toNat = emitted.toNat
          + pointsIn params.halvingIntervalBlocks height start
            * (params.initialRewardAtoms.toNat >>> start) := by
        rw [hearned, toNat_satAdd64, toNat_satMul64, hblocks, hshift]
        omega
      have hleft : height - start * params.halvingIntervalBlocks
          - min (height - start * params.halvingIntervalBlocks) params.halvingIntervalBlocks
          = height - (start + 1) * params.halvingIntervalBlocks := by
        rw [Nat.add_mul, Nat.one_mul]
        omega
      rw [hleft, ih (start + 1) earned (by omega) (by rw [hexact]; omega), hexact]
      omega

/-- The loop computes what the blocks below the height earn. -/
theorem toNat_emitEras_all (hp : params.Scheduled) (height : Nat) :
    (emitEras params (List.range params.maxHalvingEras) 0 height).toNat
      = earnedUntil params height := by
  have hle := earnedUntil_le hp height
  have hlt := params.miningAllocationAtoms.toNat_lt
  unfold earnedUntil at hle
  have hloop := toNat_emitEras hp height params.maxHalvingEras 0 0 (by simpa using hp.eras_le)
    (by simp only [Nat.zero_add, UInt64.toNat_zero]; omega)
  simp only [Nat.zero_add, Nat.zero_mul, Nat.sub_zero, UInt64.toNat_zero] at hloop
  rw [List.range_eq_range', hloop]
  rfl

/-- The cap at the mining allocation changes nothing. -/
theorem emittedSupplyUntilHeight_eq (hp : params.Scheduled) (height : Nat) :
    emittedSupplyUntilHeight params height
      = emitEras params (List.range params.maxHalvingEras) 0 height := by
  have hle : emitEras params (List.range params.maxHalvingEras) 0 height
      ≤ params.miningAllocationAtoms := by
    rw [UInt64.le_iff_toNat_le, toNat_emitEras_all hp]
    exact earnedUntil_le hp height
  exact if_pos hle

theorem toNat_emittedSupplyUntilHeight (hp : params.Scheduled) (height : Nat) :
    (emittedSupplyUntilHeight params height).toNat = earnedUntil params height := by
  rw [emittedSupplyUntilHeight_eq hp, toNat_emitEras_all hp]

end loop

/-! ## The schedule -/

/-- What the schedule promises for two heights: the reward does not rise between
    them, it is spent after the last era, and the emitted supply is the sum of the
    rewards before, within the mining allocation, with nothing cut off. -/
structure ScheduleHolds (params : ConsensusParams) (height height' : Nat) : Prop where
  monotone : rewardAtHeight params height' ≤ rewardAtHeight params height
  finite : params.halvingIntervalBlocks * params.maxHalvingEras ≤ height' →
    rewardAtHeight params height' = 0
  summed : (emittedSupplyUntilHeight params height').toNat
    = ∑ k ∈ Finset.range height', (rewardAtHeight params k).toNat
  allocated : emittedSupplyUntilHeight params height' ≤ params.miningAllocationAtoms
  uncut : emittedSupplyUntilHeight params height'
    = emitEras params (List.range params.maxHalvingEras) 0 height'

section schedule

variable {params : ConsensusParams}

theorem ScheduleHolds.of_lt (hp : params.Scheduled) {height height' : Nat}
    (hle : height ≤ height') (hfits : height' < params.halvingIntervalBlocks * 2 ^ 32) :
    ScheduleHolds params height height' where
  monotone := by
    rw [UInt64.le_iff_toNat_le, toNat_rewardAtHeight hp hfits,
      toNat_rewardAtHeight hp (lt_of_le_of_lt hle hfits)]
    exact eraReward_antitone params (Nat.div_le_div_right hle)
  finite := by
    intro hpast
    apply UInt64.toNat_inj.mp
    have hera : params.maxHalvingEras ≤ height' / params.halvingIntervalBlocks :=
      (Nat.le_div_iff_mul_le hp.interval_pos).mpr (by rwa [Nat.mul_comm])
    rw [toNat_rewardAtHeight hp hfits, eraReward, if_neg (not_lt.mpr hera)]
    rfl
  summed := by
    rw [toNat_emittedSupplyUntilHeight hp, sum_rewardAtHeight hp hfits.le]
  allocated := by
    rw [UInt64.le_iff_toNat_le, toNat_emittedSupplyUntilHeight hp]
    exact earnedUntil_le hp height'
  uncut := emittedSupplyUntilHeight_eq hp height'

/-- Where the era no longer fits the cast, the first era comes again. -/
theorem rewardAtHeight_wrapped (hp : params.Scheduled) :
    rewardAtHeight params (params.halvingIntervalBlocks * 2 ^ 32) = params.initialRewardAtoms := by
  have hera : emissionEra params (params.halvingIntervalBlocks * 2 ^ 32) = 0 := by
    unfold emissionEra
    rw [Nat.mul_div_cancel_left _ hp.interval_pos, Nat.mod_self]
  unfold rewardAtHeight
  rw [hera]
  dsimp only
  rw [if_neg (not_le.mpr hp.eras_pos)]
  apply UInt64.toNat_inj.mp
  exact toNat_shift params.initialRewardAtoms (show 0 < 64 by decide)

theorem ScheduleHolds.lt (hp : params.Scheduled) {height height' : Nat}
    (h : ScheduleHolds params height height') :
    height' < params.halvingIntervalBlocks * 2 ^ 32 := by
  by_contra hwrapped
  have hpast : params.halvingIntervalBlocks * params.maxHalvingEras
      ≤ params.halvingIntervalBlocks * 2 ^ 32 :=
    Nat.mul_le_mul_left _ (le_trans hp.eras_le (by decide))
  have hpos := hp.initial_pos
  rcases Nat.eq_or_lt_of_le (not_lt.mp hwrapped) with heq | hlt
  · -- The block at the boundary has a reward again.
    have hzero := h.finite (le_trans hpast heq.le)
    rw [← heq, rewardAtHeight_wrapped hp] at hzero
    rw [hzero] at hpos
    exact absurd hpos (lt_irrefl 0)
  · -- The sum has that reward too, the emitted supply has not.
    have hsum := h.summed
    rw [toNat_emittedSupplyUntilHeight hp,
      earnedUntil_past hpast hlt.le, ← sum_rewardAtHeight hp (le_refl _)] at hsum
    have hsub : ∑ k ∈ Finset.range (params.halvingIntervalBlocks * 2 ^ 32 + 1),
        (rewardAtHeight params k).toNat
        ≤ ∑ k ∈ Finset.range height', (rewardAtHeight params k).toNat :=
      Finset.sum_le_sum_of_subset (Finset.range_subset_range.mpr hlt)
    rw [Finset.sum_range_succ, rewardAtHeight_wrapped hp] at hsub
    omega

/-- On both networks the schedule holds exactly of the heights whose era fits
    the `u32` it is cast to. -/
theorem schedule_holds_iff (params : ConsensusParams)
    (hnet : params = mainnet ∨ params = testnet) (height height' : Nat)
    (hle : height ≤ height') :
    ScheduleHolds params height height' ↔ height' < params.halvingIntervalBlocks * 2 ^ 32 := by
  have hp : params.Scheduled := by
    rcases hnet with rfl | rfl
    · exact mainnet_scheduled
    · exact testnet_scheduled
  constructor
  · intro h
    exact h.lt hp
  · intro hfits
    exact ScheduleHolds.of_lt hp hle hfits

theorem schedule_holds_iff_mainnet :
    21024000 ≤ 42048000 ∧ ScheduleHolds mainnet 21024000 42048000 :=
  ⟨by decide, (schedule_holds_iff mainnet (Or.inl rfl) 21024000 42048000 (by decide)).mpr
    (by decide)⟩

/-- The reward comes back at a height that a `u64` can hold. -/
theorem schedule_fails_mainnet :
    2102400 * 2 ^ 32 < 2 ^ 64 ∧ rewardAtHeight mainnet 21024000 = 0 ∧
      rewardAtHeight mainnet (2102400 * 2 ^ 32) = 785584523 ∧
      ¬ ∀ height height' : Nat, height ≤ height' → height' < 2 ^ 64 →
        ScheduleHolds mainnet height height' := by
  have hback : rewardAtHeight mainnet (2102400 * 2 ^ 32) = 785584523 :=
    rewardAtHeight_wrapped mainnet_scheduled
  refine ⟨by decide, by decide, hback, ?_⟩
  intro hall
  have h := hall (2102400 * 2 ^ 32) (2102400 * 2 ^ 32) (le_refl _) (by decide)
  exact absurd (h.lt mainnet_scheduled) (lt_irrefl _)

/-- Along an accepted chain the supply stays below what
    `emitted_supply_until_height` says, plus the pre-mint. -/
theorem exactSupply_le_emittedSupply (hp : params.Scheduled) {P : Primitives} {h : Nat}
    (hfits : h < params.halvingIntervalBlocks * 2 ^ 32) {chain : List Block} {u : UtxoSet}
    (hlen : chain.length = h + 1)
    (hheights : ∀ (k : Nat) (b : Block), chain[k]? = some b → b.header.height = k)
    (haccepted : replayUtxo P params chain = .ok u)
    (hbound : params.miningAllocationAtoms.toNat + premintAllowed params < 2 ^ 64 - 1) :
    exactSupply u
      ≤ (emittedSupplyUntilHeight params (h + 1)).toNat + premintAllowed params := by
  have hschedule : emissionSchedule params h = earnedUntil params (h + 1) + premintAllowed params :=
    congrArg (· + premintAllowed params) (sum_rewardAtHeight hp hfits)
  have hearned := earnedUntil_le hp (h + 1)
  have hsum := sum_mintAllowance params h
  have hsupply := exactSupply_replay_le haccepted hheights (by rw [hlen, hsum]; omega)
  rw [hlen, hsum, hschedule] at hsupply
  rw [toNat_emittedSupplyUntilHeight hp]
  exact hsupply

end schedule

end Tensorium
