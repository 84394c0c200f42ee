import Tensorium.Core.Params

/-! # Difficulty retargeting

    `difficulty.rs`. These functions are pure; the sample they read is taken
    from the history of a block by `ChainState`.
-/

namespace Tensorium

open Saturating

/-- `DifficultySample`. -/
structure DifficultySample where
  firstTimestampSeconds : Nat
  lastTimestampSeconds : Nat
  currentLeadingZeroBits : UInt8
  blockCount : Nat
  deriving DecidableEq

/-- `u8::saturating_add(1)`. -/
def satSucc8 (b : UInt8) : UInt8 := if b = 255 then b else b + 1

/-- `u8::saturating_sub(1)`. -/
def satPred8 (b : UInt8) : UInt8 := if b = 0 then b else b - 1

/-- `Ord::clamp`, which panics in the source when the bounds are reversed. -/
def clamp8 (b lo hi : UInt8) : UInt8 :=
  if b < lo then lo else if b > hi then hi else b

/-- `next_leading_zero_bits`. The doubling wraps, as the release build does; the
    debug build panics on overflow. -/
def nextLeadingZeroBits (params : ConsensusParams) (sample : DifficultySample) : UInt8 :=
  let expected := satMul 64 params.targetBlockSeconds (max sample.blockCount 1)
  let actual := max (sample.lastTimestampSeconds - sample.firstTimestampSeconds) 1
  let next :=
    if actual < expected / 2 then satSucc8 sample.currentLeadingZeroBits
    else if actual > expected * 2 % 2 ^ 64 then satPred8 sample.currentLeadingZeroBits
    else sample.currentLeadingZeroBits
  clamp8 next params.minLeadingZeroBits params.maxLeadingZeroBits

/-- `expected_leading_zero_bits`. -/
def expectedLeadingZeroBits (params : ConsensusParams) (height : Nat)
    (sample : Option DifficultySample) : UInt8 :=
  if height < params.difficultyRetargetActivationHeight then params.initialLeadingZeroBits
  else match sample with
    | some sample => nextLeadingZeroBits params sample
    | none => params.initialLeadingZeroBits

end Tensorium
