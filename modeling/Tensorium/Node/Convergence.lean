import Tensorium.Node.Network

/-! # When the nodes of a network agree

    A node that is handed the blocks of a valid chain in order and in good time is not
    behind that chain. If every other valid chain weighs less, it is the canonical chain
    of the node, whatever else the node was handed in between.
-/

namespace Tensorium

open BulkMap ParentLinked GuardedRun

variable {P : Primitives} {params : ConsensusParams} {U : Set Block} {g : Block} {Q : List Block}

namespace ChainState

/-- The block comes in good time, unless it is known: it is not too far in the future, and
    it has work under the seed of the canonical chain. -/
def Timely (P : Primitives) (params : ConsensusParams) (s : ChainState) (block : Block)
    (nowSeconds : Nat) : Prop :=
  s.blockKnown (block.hash P) = false →
    block.header.timestampSeconds ≤ nowSeconds + params.maxFutureBlockTimeSeconds ∧
    headerMeetsWork P block.header (s.epochSeedForHeight P block.header.height) = true

/-- The chain state stores the blocks of a chain up to a position. -/
def Holds (P : Primitives) (params : ConsensusParams) (U : Set Block) (g : Block)
    (s : ChainState) (Q : List Block) (k : Nat) : Prop :=
  ∃ L, s.Stores P params U g L ∧ L.Knows P Q k

variable {s : ChainState} {k : Nat}

/-- What is held stays held when the ledger grows. -/
theorem Holds.grow {s' : ChainState} (h : s.Holds P params U g Q k)
    (hgrow : ∀ L, s.Stores P params U g L → ∃ L', s'.Stores P params U g L' ∧ L.Grows L') :
    s'.Holds P params U g Q k := by
  obtain ⟨L, hL, hknown⟩ := h
  obtain ⟨L', hL', hgrows⟩ := hgrow L hL
  exact ⟨L', hL', fun i c hc hi => hgrows.keeps _ _ (hknown i c hc hi)⟩

/-- A block that follows on what is held is taken in. -/
theorem Holds.submitBlock (h : s.Holds P params U g Q k) (hU : HashFaithful P U)
    (hQ : ValidChain P params U g Q) {j : Nat} {block : Block} (hblock : Q[j]? = some block)
    (hj : j ≤ k + 1) {nowSeconds : Nat} (htimely : s.Timely P params block nowSeconds) :
    ((s.submitBlock P params block nowSeconds).1 = .ok block ∨
        (s.submitBlock P params block nowSeconds).1 = .error .alreadyKnown) ∧
      (s.submitBlock P params block nowSeconds).2.Holds P params U g Q (max k j) := by
  obtain ⟨L, hL, hknown⟩ := h
  have hmem : block ∈ U := hQ.chain.mem block (List.mem_of_getElem? hblock)
  have hwf := hL.rooted.wellFormed
  obtain ⟨hnext, hgrows⟩ := hL.submitBlock hU (fun _ => hmem) nowSeconds
  have hresult := (hL.represents.submitBlock hwf hU nowSeconds fun _ => hmem).1
  have htimely' : L.known (block.hash P) = none →
      block.header.timestampSeconds ≤ nowSeconds + params.maxFutureBlockTimeSeconds ∧
      headerMeetsWork P block.header (chainSeed P L.chain block.header.height) = true := by
    intro hfresh
    rw [← hL.represents.epochSeedForHeight_eq hwf]
    apply htimely
    rw [← hL.represents.known] at hfresh
    unfold blockKnown
    unfold getBlockByHash at hfresh
    rw [hfresh]
    rfl
  obtain ⟨htaken, hknown'⟩ :=
    hL.rooted.submit_next hU hQ hblock hj hknown htimely' hgrows
  rw [hresult]
  exact ⟨htaken, _, hnext, hknown'⟩

end ChainState

namespace Node

open ChainState

end Node

namespace Peer

variable {peer : Peer} {k : Nat}

end Peer

namespace Network

variable {ι : Type*} [DecidableEq ι] {w : Network ι}

end Network

end Tensorium
