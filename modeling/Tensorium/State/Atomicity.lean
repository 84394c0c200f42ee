import Tensorium.State.Effects

/-! # A failing `submit_block` changes no chain data

    Whatever state the call starts in and wherever it fails, the canonical
    index, the tip and the caches are as before. The set of unspent outputs is
    as before too, unless `ensure_utxo_synced` had to rebuild it; then it is
    the replay of the canonical chain, stamped with the tip. The store of
    blocks may have gained the submitted block.
-/

namespace Tensorium

open BulkMap ParentLinked

namespace ChainState

variable {P : Primitives} {params : ConsensusParams} {s s' : ChainState}

/-- The unspent outputs and their stamp are those of `s`, or the replay of the
    canonical chain of `s` stamped with its tip. -/
def UtxoKeptOrRebuilt (P : Primitives) (params : ConsensusParams) (s s' : ChainState) : Prop :=
  (s'.db.utxo = s.db.utxo ∧ s'.db.metaUtxoTip = s.db.metaUtxoTip) ∨
  (∃ tipBlock, s.tipCache = some tipBlock ∧
    replayUtxo P params s.canonicalBlocksIter = .ok s'.db.utxo ∧
    s'.db.metaUtxoTip = some (tipBlock.hash P))

theorem SyncStep.utxoKeptOrRebuilt (h : SyncStep P params s s') :
    UtxoKeptOrRebuilt P params s s' := by
  cases h with
  | same => exact Or.inl ⟨rfl, rfl⟩
  | rebuilt tipBlock set htip hset => exact Or.inr ⟨tipBlock, htip, hset, rfl⟩

/-- Storing a block under a fresh key keeps everything that was stored. -/
theorem storeBlock_extends {block : Block} (hfresh : s.blockKnown (block.hash P) = false) :
    Extends s.getBlockByHash (s.storeBlock P block).getBlockByHash := by
  intro k b hk
  unfold getBlockByHash at hk ⊢
  rw [storeBlock_blocks, lookup_insert_ite]
  split_ifs with hkey
  · subst hkey
    simp [blockKnown, hk] at hfresh
  · exact hk

/-- **A failed submission is atomic.** If `submit_block` returns an error, from
    whatever state and at whatever point, the canonical index, the tip and the
    caches are untouched, the unspent outputs are kept or rebuilt for the same
    chain, and every stored block is still there. -/
theorem failedSubmit_atomic (P : Primitives) (params : ConsensusParams) (s : ChainState)
    (block : Block) (nowSeconds : Nat) (e : StateError)
    (h : (s.submitBlock P params block nowSeconds).1 = .error e) :
    ChainUnchanged s (s.submitBlock P params block nowSeconds).2 ∧
    UtxoKeptOrRebuilt P params s (s.submitBlock P params block nowSeconds).2 ∧
    Extends s.getBlockByHash (s.submitBlock P params block nowSeconds).2.getBlockByHash := by
  generalize hrun : s.submitBlock P params block nowSeconds = outcome at h ⊢
  obtain ⟨result, s'⟩ := outcome
  dsimp only at h ⊢
  subst h
  obtain ⟨s₁, hsync, hcase⟩ := submitBlock_error hrun
  have hchain := hsync.chainUnchanged
  have hutxo := hsync.utxoKeptOrRebuilt
  have hblocks : s₁.getBlockByHash = s.getBlockByHash := by
    funext k
    unfold getBlockByHash
    rw [hsync.blocks]
  rcases hcase with hsame | ⟨hfresh, hstored⟩
  · rw [hsame]
    refine ⟨hchain, hutxo, ?_⟩
    rw [hblocks]
    exact fun _ _ hk => hk
  · rw [hstored]
    -- Storing the block touches neither the index nor the unspent outputs.
    refine ⟨⟨hchain.1, hchain.2, hchain.3, hchain.4, hchain.5, hchain.6⟩, hutxo, ?_⟩
    rw [← hblocks]
    refine storeBlock_extends ?_
    unfold blockKnown at hfresh ⊢
    rw [hsync.blocks]
    exact hfresh

theorem failedSubmit_inflatedCoinbase :
    (sampleGenesis.submitBlock Primitives.sample testParams (sampleChild 1) 10).1
      = .error (.utxo .coinbaseOutputTooHigh) ∧
    ChainUnchanged sampleGenesis
      (sampleGenesis.submitBlock Primitives.sample testParams (sampleChild 1) 10).2 := by
  have herr : (sampleGenesis.submitBlock Primitives.sample testParams (sampleChild 1) 10).1
      = .error (.utxo .coinbaseOutputTooHigh) := by decide +kernel
  exact ⟨herr, (failedSubmit_atomic Primitives.sample testParams sampleGenesis (sampleChild 1) 10
    (.utxo .coinbaseOutputTooHigh) herr).1⟩

end ChainState

end Tensorium
