import Tensorium.Lib.Saturating
import Tensorium.Core.Hash

/-! # Consensus parameters and the emission schedule

    `chain.rs` and `emission.rs`. Amounts are `UInt64` as in the source.
    Heights, durations and clock readings are `u64` counters that the program
    only compares, divides and counts up one block at a time; they are natural
    numbers here.
-/

namespace Tensorium

open Saturating

/-- `ConsensusParams`, less the fields nothing in the crate reads. -/
structure ConsensusParams where
  chainId : String
  targetBlockSeconds : Nat
  halvingIntervalBlocks : Nat
  maxHalvingEras : Nat
  founderAllocationAtoms : UInt64
  miningAllocationAtoms : UInt64
  genesisAllocations : List (String × UInt64)
  founderAddress : String
  initialRewardAtoms : UInt64
  initialLeadingZeroBits : UInt8
  minLeadingZeroBits : UInt8
  maxLeadingZeroBits : UInt8
  difficultyAdjustmentWindow : Nat
  difficultyRetargetActivationHeight : Nat
  coinbaseMaturityBlocks : Nat
  maxFutureBlockTimeSeconds : Nat
  deriving DecidableEq

/-- `COIN`. -/
def coin : UInt64 := 100000000

/-- `MAX_HALVING_ERAS`. -/
def maxHalvingErasConst : Nat := 10

/-- `ConsensusParams::testnet()`. -/
def testnet : ConsensusParams where
  chainId := "tensorium-testnet-0"
  targetBlockSeconds := 60
  halvingIntervalBlocks := 1051200
  maxHalvingEras := maxHalvingErasConst
  founderAllocationAtoms := 1000000 * coin
  miningAllocationAtoms := 32000000 * coin
  genesisAllocations := []
  founderAddress := ""
  initialRewardAtoms := 1523557865
  initialLeadingZeroBits := 20
  minLeadingZeroBits := 8
  maxLeadingZeroBits := 36
  difficultyAdjustmentWindow := 60
  difficultyRetargetActivationHeight := 2 ^ 64 - 1
  coinbaseMaturityBlocks := 10
  maxFutureBlockTimeSeconds := 2 * 60 * 60

/-- `ConsensusParams::mainnet()`. -/
def mainnet : ConsensusParams where
  chainId := "tensorium-mainnet"
  targetBlockSeconds := 60
  halvingIntervalBlocks := 2102400
  maxHalvingEras := maxHalvingErasConst
  founderAllocationAtoms := 0
  miningAllocationAtoms := 33000000 * coin
  genesisAllocations := []
  founderAddress := ""
  initialRewardAtoms := 785584523
  initialLeadingZeroBits := 42
  minLeadingZeroBits := 34
  maxLeadingZeroBits := 58
  difficultyAdjustmentWindow := 60
  difficultyRetargetActivationHeight := 2
  coinbaseMaturityBlocks := 10
  maxFutureBlockTimeSeconds := 2 * 60 * 60

/-- `TEST_PARAMS`. -/
def testParams : ConsensusParams :=
  { testnet with
    initialLeadingZeroBits := 8
    minLeadingZeroBits := 4
    maxLeadingZeroBits := 16 }

/-! ## Emission -/

/-- `emission_era`, with the cast to `u32`. -/
def emissionEra (params : ConsensusParams) (height : Nat) : Nat :=
  height / params.halvingIntervalBlocks % 2 ^ 32

/-- `reward_at_height`. The shift of a `u64` masks its amount, as the release
    build does; the debug build panics from era 64 on. -/
def rewardAtHeight (params : ConsensusParams) (height : Nat) : UInt64 :=
  let era := emissionEra params height
  if era ≥ params.maxHalvingEras then 0
  else params.initialRewardAtoms >>> UInt64.ofNat era

/-- The loop of `emitted_supply_until_height`, over the eras that are left. -/
def emitEras (params : ConsensusParams) : List Nat → UInt64 → Nat → UInt64
  | [], emitted, _ => emitted
  | era :: eras, emitted, remaining =>
    if remaining = 0 then emitted
    else
      let blocks := min remaining params.halvingIntervalBlocks
      let reward := params.initialRewardAtoms >>> UInt64.ofNat era
      emitEras params eras (satAdd64 emitted (satMul64 (UInt64.ofNat blocks) reward))
        (remaining - blocks)

/-- `emitted_supply_until_height`. -/
def emittedSupplyUntilHeight (params : ConsensusParams) (exclusiveHeight : Nat) : UInt64 :=
  min (emitEras params (List.range params.maxHalvingEras) 0 exclusiveHeight)
    params.miningAllocationAtoms

/-- Whether the genesis block of a network carries a pre-mint. -/
def hasGenesisPremint (params : ConsensusParams) : Bool :=
  !params.genesisAllocations.isEmpty || !params.founderAddress.isEmpty

/-- The `premint_atoms` of `apply_block`. The sum of the allocations wraps, as
    the release build does; the debug build panics on overflow. -/
def premintAtoms (params : ConsensusParams) : UInt64 :=
  if !params.genesisAllocations.isEmpty then
    params.genesisAllocations.foldl (fun sum a => sum + a.2) 0
  else params.founderAllocationAtoms

end Tensorium
