import Tensorium.State.Runs

/-! # Fork choice keeps a maximum-work valid tip

    On the ledger, no branch that replays outweighs the canonical chain, and
    this is kept by every step: a branch that becomes heavier is adopted unless
    it does not replay. The chain state inherits it.
-/

namespace Tensorium

open BulkMap ParentLinked

namespace Ledger

variable {P : Primitives} {params : ConsensusParams} {U : Set Block} {L L' : Ledger} {block : Block}

/-- No complete branch that replays has more work than the canonical chain. -/
def MaxWork (P : Primitives) (params : ConsensusParams) (L : Ledger) : Prop :=
  ∀ k t u, L.AncestryOf k t → replayUtxo P params t.reverse = .ok u →
    branchWork t ≤ branchWork L.chain

/-- How a step may move the tip: the chain only gains work, and a tip that is
    not a child of the old one has strictly more. -/
def TipMoves (P : Primitives) (L L' : Ledger) : Prop :=
  branchWork L.chain ≤ branchWork L'.chain ∧
  (L'.chain.head? ≠ L.chain.head? →
    (∃ b, L'.chain.head? = some b ∧ b.previousHash = L.tipHash P) ∨
    branchWork L.chain < branchWork L'.chain)

theorem TipMoves.of_chain_eq (h : L'.chain = L.chain) : TipMoves P L L' := by
  unfold TipMoves
  rw [h]
  exact ⟨le_refl _, fun hne => absurd rfl hne⟩

/-- The branches of a ledger after a block is stored: the new one, and those
    there were. -/
theorem WellFormed.store_ancestry_cases (hL : L.WellFormed P U) (hU : HashFaithful P U)
    (hblock : block ∈ U) {parents : List Block}
    (hnew : (L.store P block).AncestryOf (block.hash P) (block :: parents)) {k : Hash256}
    {t : List Block} (ht : (L.store P block).AncestryOf k t) :
    t = block :: parents ∨ L.AncestryOf k t := by
  obtain ⟨b, _, _, hb⟩ := ht.head
  rcases store_known_cases hb with ⟨rfl, _⟩ | hold
  · exact Or.inl (ht.unique hnew)
  · -- A block that was known before has its whole branch from before.
    obtain ⟨t', ht', _⟩ := hL.linked.exists_ancestry hold
    have hmono : (L.store P block).AncestryOf k (b :: t') :=
      ht'.mono (hL.store_extends hU hblock)
    rw [ht.unique hmono]
    exact Or.inr ht'

/-- Fork choice keeps the maximum and moves the tip only to more work. -/
theorem MaxWork.choose (hmax : L.MaxWork P params) (hL : L.WellFormed P U)
    (hU : HashFaithful P U) (hblock : block ∈ U) {parents : List Block}
    (hparents : L.AncestryOf block.previousHash parents) :
    (L.choose P params block parents).2.MaxWork P params ∧
    TipMoves P L (L.choose P params block parents).2 := by
  have hnew := hL.store_ancestry hU hblock hparents
  unfold Ledger.choose
  split_ifs with hwork
  · split
    next e herror =>
      -- The heavier branch does not replay, so it does not count.
      refine ⟨?_, .of_chain_eq rfl⟩
      intro k t u ht hok
      rcases hL.store_ancestry_cases hU hblock hnew ht with rfl | hold
      · rw [herror] at hok
        cases hok
      · exact hmax k t u hold hok
    next =>
      -- The heavier branch is the new maximum, and dominates the old one.
      refine ⟨?_, le_of_lt hwork, fun _ => Or.inr hwork⟩
      intro k t u ht hok
      rcases hL.store_ancestry_cases hU hblock hnew ht with rfl | hold
      · exact le_refl _
      · exact (hmax k t u hold hok).trans (le_of_lt hwork)
  · -- First seen wins: a branch of equal work does not move the tip.
    refine ⟨?_, .of_chain_eq rfl⟩
    intro k t u ht hok
    rcases hL.store_ancestry_cases hU hblock hnew ht with rfl | hold
    · exact not_lt.mp hwork
    · exact hmax k t u hold hok

/-- A submission keeps the maximum. The block must lie in `U` if it is stored. -/
theorem MaxWork.submit (hmax : L.MaxWork P params) (hL : L.WellFormed P U)
    (hU : HashFaithful P U) {nowSeconds : Nat}
    (hblock : (L.submit P params block nowSeconds).2.known (block.hash P) = some block →
      block ∈ U) :
    (L.submit P params block nowSeconds).2.MaxWork P params ∧
    TipMoves P L (L.submit P params block nowSeconds).2 := by
  -- Only a block past validation reaches fork choice; before, nothing changes.
  unfold Ledger.submit at hblock ⊢
  split_ifs at hblock ⊢ with hknown
  · exact ⟨hmax, .of_chain_eq rfl⟩
  split at hblock
  · exact ⟨hmax, .of_chain_eq rfl⟩
  split at hblock
  · exact ⟨hmax, .of_chain_eq rfl⟩
  next parents hbranch =>
  split at hblock
  · exact ⟨hmax, .of_chain_eq rfl⟩
  · have hstored : (L.choose P params block parents).2.known (block.hash P) = some block := by
      unfold Ledger.choose
      split_ifs
      · split
        · exact store_known_self L block
        · exact store_known_self L block
      · exact store_known_self L block
    exact hmax.choose hL hU (hblock hstored) (branch_eq_some.mp hbranch)

/-- A block the node builds on its tip keeps the maximum. -/
theorem MaxWork.built (hmax : L.MaxWork P params) (hL : L.WellFormed P U)
    (hU : HashFaithful P U) (hL' : (L.adopt P block L.chain).WellFormed P U)
    (hprev : block.previousHash = L.tipHash P) :
    (L.adopt P block L.chain).MaxWork P params ∧ TipMoves P L (L.adopt P block L.chain) := by
  have hblock : block ∈ U := hL'.mem (block.hash P) block (store_known_self L block)
  have hnew : (L.store P block).AncestryOf (block.hash P) (block :: L.chain) :=
    hL'.chain block rfl
  have hgain := branchWork_le_cons block L.chain
  refine ⟨?_, hgain, fun _ => Or.inl ⟨block, rfl, hprev⟩⟩
  intro k t u ht hok
  rcases hL.store_ancestry_cases hU hblock hnew ht with rfl | hold
  · exact le_refl _
  · exact (hmax k t u hold hok).trans hgain

/-- Every step of the ledger keeps the maximum and moves the tip as allowed. -/
theorem MaxWork.step (hmax : L.MaxWork P params) (hL : L.WellFormed P U)
    (hU : HashFaithful P U) (hstep : Step P params L L') (hL' : L'.WellFormed P U) :
    L'.MaxWork P params ∧ TipMoves P L L' := by
  cases hstep with
  | idle => exact ⟨hmax, .of_chain_eq rfl⟩
  | submitted block nowSeconds =>
    exact hmax.submit hL hU fun hstored => hL'.mem _ _ hstored
  | built block hprev hheight => exact hmax.built hL hU hL' hprev

end Ledger

namespace ChainState

variable {P : Primitives} {params : ConsensusParams} {U : Set Block} {s s' : ChainState}

/-- Every reachable state stores a ledger whose chain has maximal work. -/
theorem Reachable.maxWork (h : Reachable P params U s) (hU : HashFaithful P U) :
    ∃ L, Represents P params s L ∧ L.WellFormed P U ∧ L.MaxWork P params := by
  refine h.invariant
    (fun s => ∃ L, Represents P params s L ∧ L.WellFormed P U ∧ L.MaxWork P params) ?_ ?_
  · refine ⟨Ledger.empty, represents_new, Ledger.wellFormed_empty, ?_⟩
    intro k t u ht _
    obtain ⟨_, _, _, hb⟩ := ht.head
    cases hb
  · rintro s op ⟨L, hR, hL, hmax⟩ hstores
    obtain ⟨L', hstep, hR', hL'⟩ := hR.step hL hU op hstores
    exact ⟨L', hR', hL', (hmax.step hL hU hstep hL').1⟩

/-- The work of the tip, also when there is none. -/
theorem Represents.tipWork_eq {L : Ledger} (hR : Represents P params s L)
    (hL : L.WellFormed P U) (hU : HashFaithful P U) :
    s.chainWork (s.tipHash P) = branchWork L.chain := by
  rw [hR.tipHash_eq]
  by_cases hne : L.chain = []
  · unfold chainWork chainWorkLoop ChainState.walk
    rw [hR.getBlockByHash_noTip hL hU hne, hne]
    simp [ParentLinked.walk, branchWork]
  · exact hR.chainWork_eq hL hU (hL.chain_ancestry hne)

/-- **Fork choice keeps a maximum-work valid tip.** In every reachable state the
    tip's work is at least that of every stored block whose whole ancestry
    replays. From it, any further operation keeps or raises the tip's work, and
    changes the tip to a block that does not extend it only for strictly more
    work. -/
theorem tip_maximum_work (P : Primitives) (params : ConsensusParams) (U : Set Block)
    (hU : HashFaithful P U) (s : ChainState) (hs : Reachable P params U s) :
    (∀ k b u, s.getBlockByHash k = some b →
      replayUtxo P params (s.buildCanonicalChain k) = .ok u →
      s.chainWork k ≤ s.chainWork (s.tipHash P)) ∧
    ∀ op, StoresOnly U (s.step P params op) →
      s.chainWork (s.tipHash P)
        ≤ (s.step P params op).chainWork ((s.step P params op).tipHash P) ∧
      ((s.step P params op).tip ≠ s.tip →
        (∃ b, (s.step P params op).tip = some b ∧ b.header.previousHash = s.tipHash P) ∨
        s.chainWork (s.tipHash P)
          < (s.step P params op).chainWork ((s.step P params op).tipHash P)) := by
  obtain ⟨L, hR, hL, hmax⟩ := hs.maxWork hU
  constructor
  · intro k b u hk hok
    rw [hR.known] at hk
    obtain ⟨t, ht, _⟩ := hL.linked.exists_ancestry hk
    rw [hR.buildCanonicalChain_eq hL hU ht] at hok
    rw [hR.chainWork_eq hL hU ht, hR.tipWork_eq hL hU]
    exact hmax k (b :: t) u ht hok
  · intro op hstores
    obtain ⟨L', hstep, hR', hL'⟩ := hR.step hL hU op hstores
    obtain ⟨hgain, hmoves⟩ := (hmax.step hL hU hstep hL').2
    rw [hR.tipWork_eq hL hU, hR'.tipWork_eq hL' hU, hR.tipHash_eq]
    unfold ChainState.tip
    rw [hR.tipCache, hR'.tipCache]
    exact ⟨hgain, hmoves⟩

theorem sampleRun_maximum_work :
    sampleRun.chainWork (sampleGenesisBlock.hash Primitives.sample)
      ≤ sampleRun.chainWork (sampleRun.tipHash Primitives.sample) ∧
    sampleRun.chainWork (sampleRun.tipHash Primitives.sample)
      ≤ (sampleRun.step Primitives.sample testParams (.submitBlock (sampleChild 1) 10)).chainWork
        ((sampleRun.step Primitives.sample testParams
          (.submitBlock (sampleChild 1) 10)).tipHash Primitives.sample) := by
  obtain ⟨hmax, hstep⟩ := tip_maximum_work Primitives.sample testParams _ sampleBlocks_faithful
    sampleRun sampleRun_reachable
  have hok : (replayUtxo Primitives.sample testParams
      (sampleRun.buildCanonicalChain (sampleGenesisBlock.hash Primitives.sample))).isOk = true := by
    decide +kernel
  have hstores : ∀ e ∈ (sampleRun.step Primitives.sample testParams
      (.submitBlock (sampleChild 1) 10)).db.blocks.entries, e.2 ∈ sampleBlocks := by
    decide +kernel
  refine ⟨?_, (hstep _ (storesOnly_of_entries hstores)).1⟩
  cases hreplay : replayUtxo Primitives.sample testParams
      (sampleRun.buildCanonicalChain (sampleGenesisBlock.hash Primitives.sample)) with
  | error e => rw [hreplay] at hok; cases hok
  | ok u => exact hmax _ sampleGenesisBlock u (by decide +kernel) hreplay

end ChainState

end Tensorium
