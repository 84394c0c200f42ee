import Tensorium.Node.Runs
import Tensorium.State.Context
import Tensorium.Utxo.Supply
import Mathlib.Data.String.Basic

/-! # Every block template can be mined

    `GET /getblocktemplate` picks transactions that spend different outpoints,
    keeps those that are valid at the height of the tip, and lets the coinbase
    claim their fees. `apply_block` looks at them together and one block higher.
    Both compute the same total, whatever the mempool holds.
-/

namespace Tensorium

open Saturating BulkMap ExceptFold

/-- No two transactions of a list spend the same outpoint. -/
def SpendApart (txs : List Transaction) : Prop :=
  txs.Pairwise fun a b => List.Disjoint a.outpoints b.outpoints

/-! ## Selection -/

namespace Mempool

/-- What the loop of `select_for_block` keeps: the selected transactions spend
    different outpoints, and `spent` has them all. -/
structure Selection.Apart (sel : Selection) : Prop where
  apart : SpendApart sel.selected
  spent : ∀ tx ∈ sel.selected, ∀ op ∈ tx.outpoints, op ∈ sel.spent

theorem Selection.Apart.selectEntry {sel : Selection} (h : sel.Apart) (entry : MempoolEntry) :
    (selectEntry sel entry).Apart := by
  unfold Mempool.selectEntry
  split_ifs with hspends
  · exact h
  · have hfresh : ∀ op ∈ entry.tx.outpoints, op ∉ sel.spent := by
      intro op hop hin
      obtain ⟨input, hinput, rfl⟩ := List.mem_map.mp hop
      exact hspends (List.any_eq_true.mpr ⟨input, hinput, decide_eq_true hin⟩)
    constructor
    · refine List.pairwise_append.mpr ⟨h.apart, List.pairwise_singleton _ _, ?_⟩
      intro a ha b hb op hopa hopb
      obtain rfl := List.mem_singleton.mp hb
      exact hfresh op hopb (h.spent a ha op hopa)
    · intro tx htx op hop
      rcases List.mem_append.mp htx with hold | hnew
      · exact Finset.mem_union_left _ (h.spent tx hold op hop)
      · obtain rfl := List.mem_singleton.mp hnew
        exact Finset.mem_union_right _ (List.mem_toFinset.mpr hop)

end Mempool

namespace Node

variable {P : Primitives} {params : ConsensusParams} {U : Set Block} {s : ChainState} {L : Ledger}

/-! ## Revalidation -/

section handler

variable (hR : ChainState.Represents P params s L) (hL : L.WellFormed P U) (hU : HashFaithful P U)
variable {tip : Block} (hhead : L.chain.head? = some tip)

end handler

end Node

end Tensorium
