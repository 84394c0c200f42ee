import Tensorium.State.ForkChoice

/-! # A rejected block leaves no trace that matters

    `submit_block` stores a block before it validates its transactions, and
    answers `AlreadyKnown` on the hash alone. As long as the header hash tells
    the blocks of a run apart, neither does harm: what is stored under a hash
    is the block that was submitted, and a block that was rejected for its
    transactions can be left out of the run without a difference for any block
    that does not descend from it.

    The argument is a simulation on ledgers: the run with the rejected block
    `X` knows some more blocks, all of them `X` or descendants of it, and none
    of their branches replays.
-/

namespace Tensorium

open BulkMap ParentLinked

namespace Ledger

variable {P : Primitives} {params : ConsensusParams} {U : Set Block} {L L' : Ledger}
variable {X block : Block}

/-- `X` is the block, or one of its ancestors. -/
def HasAncestor (L : Ledger) (X block : Block) : Prop :=
  block = X ∨ ∃ t, L.AncestryOf block.previousHash t ∧ X ∈ t

/-- `L'` is `L` without some of the blocks that have `X` among their ancestors;
    no branch through `X` replays. -/
structure Pruned (P : Primitives) (params : ConsensusParams) (X : Block) (L L' : Ledger) :
    Prop where
  chain : L'.chain = L.chain
  known : Extends L'.known L.known
  missing : ∀ k b, L.known k = some b → L'.known k = none → L.HasAncestor X b
  stored : L.known (X.hash P) = some X
  bad : ∀ k t, L.AncestryOf k t → X ∈ t → ∃ e, replayUtxo P params t.reverse = .error e

/-- A branch that ends in a block that has `X` among its ancestors runs
    through `X`. -/
theorem HasAncestor.mem (h : L.HasAncestor X block) {parents : List Block}
    (hparents : L.AncestryOf block.previousHash parents) : X ∈ block :: parents := by
  rcases h with rfl | ⟨t, ht, hX⟩
  · exact List.mem_cons_self
  · rw [← ht.unique hparents]
    exact List.mem_cons_of_mem _ hX

theorem HasAncestor.mono (h : L.HasAncestor X block) (hext : Extends L.known L'.known) :
    L'.HasAncestor X block := by
  rcases h with rfl | ⟨t, ht, hX⟩
  · exact Or.inl rfl
  · exact Or.inr ⟨t, ht.mono hext, hX⟩

/-- A block on top of a branch that does not replay does not replay either. -/
theorem replay_cons_error {parents : List Block} {e : UtxoError}
    (h : replayUtxo P params parents.reverse = .error e) :
    replayUtxo P params (block :: parents).reverse = .error e := by
  rw [List.reverse_cons]
  exact ExceptFold.foldlM_append_error h

namespace Pruned

variable (hP : Pruned P params X L L') (hL : L.WellFormed P U) (hL' : L'.WellFormed P U)
variable (hU : HashFaithful P U)

include hP hL hU in
/-- The larger ledger gains a block that descends from `X`: it is not adopted,
    and the smaller ledger still lacks only such blocks. -/
theorem store_left (hblock : block ∈ U) {parents : List Block}
    (hparents : L.AncestryOf block.previousHash parents) (hX : X ∈ parents) :
    Pruned P params X (L.choose P params block parents).2 L' := by
  -- The branch below the block does not replay, so neither does its own.
  obtain ⟨e, he⟩ := hP.bad _ _ hparents hX
  have hnew := hL.store_ancestry hU hblock hparents
  have hext := hL.store_extends hU hblock
  rw [choose_of_error (replay_cons_error he)]
  refine ⟨hP.chain, fun k b hk => hext k b (hP.known k b hk), ?_, hext _ _ hP.stored, ?_⟩
  · intro k b hk hmissing
    rcases store_known_cases hk with ⟨rfl, rfl⟩ | hold
    · exact Or.inr ⟨parents, hparents.mono hext, hX⟩
    · exact (hP.missing k b hold hmissing).mono hext
  · intro k t ht hXt
    rcases hL.store_ancestry_cases hU hblock hnew ht with rfl | hold
    · exact ⟨e, replay_cons_error he⟩
    · exact hP.bad k t hold hXt

include hP hL' hU in
/-- The smaller ledger gains a block the larger one knows already. -/
theorem store_right (hblock : block ∈ U) (hknown : L.known (block.hash P) = some block) :
    Pruned P params X L (L'.store P block) := by
  have hext := hL'.store_extends hU hblock
  refine ⟨hP.chain, ?_, ?_, hP.stored, hP.bad⟩
  · intro k b hk
    rcases store_known_cases hk with ⟨rfl, rfl⟩ | hold
    · exact hknown
    · exact hP.known k b hold
  · intro k b hk hmissing
    exact hP.missing k b hk (hext.eq_none hmissing)

include hP hL hL' hU in
/-- Both ledgers gain the same block and decide alike about it. -/
theorem choose_both (hblock : block ∈ U) (hfresh : L.known (block.hash P) = none)
    {parents : List Block} (hparents : L.AncestryOf block.previousHash parents) :
    (L.choose P params block parents).1 = (L'.choose P params block parents).1 ∧
    Pruned P params X (L.choose P params block parents).2
      (L'.choose P params block parents).2 := by
  have hnew := hL.store_ancestry hU hblock hparents
  have hext := hL.store_extends hU hblock
  have hext' := hL'.store_extends hU hblock
  have hstored : Extends (L'.store P block).known (L.store P block).known := by
    intro k b hk
    rcases store_known_cases hk with ⟨rfl, rfl⟩ | hold
    · exact store_known_self L _
    · exact hext k b (hP.known k b hold)
  have hmissing : ∀ k b, (L.store P block).known k = some b →
      (L'.store P block).known k = none → (L.store P block).HasAncestor X b := by
    intro k b hk hmiss
    rcases store_known_cases hk with ⟨rfl, rfl⟩ | hold
    · rw [store_known_self] at hmiss
      cases hmiss
    · exact (hP.missing k b hold (hext'.eq_none hmiss)).mono hext
  have hbad : ∀ k t, (L.store P block).AncestryOf k t → X ∈ t →
      ∃ e, replayUtxo P params t.reverse = .error e := by
    intro k t ht hXt
    rcases hL.store_ancestry_cases hU hblock hnew ht with rfl | hold
    · -- `X` is stored already, so the new block is not `X`.
      rcases List.mem_cons.mp hXt with rfl | hX
      · rw [hP.stored] at hfresh
        cases hfresh
      · obtain ⟨e, he⟩ := hP.bad _ _ hparents hX
        exact ⟨e, replay_cons_error he⟩
    · exact hP.bad k t hold hXt
  -- Fork choice reads the canonical chain and the branch, the same on both sides.
  unfold Ledger.choose
  rw [hP.chain]
  split_ifs
  · split
    · exact ⟨rfl, hP.chain, hstored, hmissing, hext _ _ hP.stored, hbad⟩
    · exact ⟨rfl, rfl, hstored, hmissing, hext _ _ hP.stored, hbad⟩
  · exact ⟨rfl, hP.chain, hstored, hmissing, hext _ _ hP.stored, hbad⟩

include hP hL hL' hU in
/-- A submission of a block the larger ledger knows. Where the smaller one does
    not, the block descends from `X`, and is at most stored. -/
theorem submit_of_known (hblock : block ∈ U) {c : Block}
    (hknown : L.known (block.hash P) = some c) (nowSeconds : Nat) :
    Pruned P params X (L.submit P params block nowSeconds).2
      (L'.submit P params block nowSeconds).2 ∧
    (¬ L.HasAncestor X block →
      (L.submit P params block nowSeconds).1 = (L'.submit P params block nowSeconds).1) := by
  obtain rfl : c = block :=
    hU.injective c (hL.mem _ _ hknown) block hblock (hL.keyed _ _ hknown)
  rw [submit_known hknown]
  cases hknown' : L'.known (c.hash P) with
  | some _ =>
    rw [submit_known hknown']
    exact ⟨hP, fun _ => rfl⟩
  | none =>
    -- The results may differ here: `AlreadyKnown` on the left, a full check on
    -- the right.
    have hdesc := hP.missing _ _ hknown hknown'
    refine ⟨?_, fun hno => absurd hdesc hno⟩
    cases hreplay : replayUtxo P params L'.chain.reverse with
    | error e =>
      rw [submit_unsynced hknown' hreplay]
      exact hP
    | ok u =>
      cases hbranch : L'.branch c.previousHash with
      | none =>
        rw [submit_orphan hknown' hreplay hbranch]
        exact hP
      | some parents =>
        have hparents' := branch_eq_some.mp hbranch
        have hparents := hparents'.mono hP.known
        cases hval : validateBlock P params parents.head? c nowSeconds
            (requiredBits params parents) (chainSeed P L'.chain c.header.height) with
        | error e =>
          rw [submit_invalid hknown' hreplay hparents' hval]
          exact hP
        | ok _ =>
          -- The branch runs through `X`, so it is stored and not adopted.
          have hwalk : L.AncestryOf (c.hash P) (c :: parents) :=
            .child hknown (hL.previousHash_ne_zero hU hparents) hparents
          obtain ⟨e, he⟩ := hP.bad _ _ hwalk (hdesc.mem hparents)
          rw [submit_valid hknown' hreplay hparents' hval, choose_of_error he]
          exact hP.store_right hL' hU hblock hknown

include hP hL hU in
/-- A submission of a child of a block that only the larger ledger knows. -/
theorem submit_of_missing_parent (hblock : block ∈ U)
    (hfresh : L.known (block.hash P) = none) {u : UtxoSet}
    (hreplay : replayUtxo P params L.chain.reverse = .ok u) {parents : List Block}
    (hparents : L.AncestryOf block.previousHash parents)
    (hmissing : L'.known block.previousHash = none) (nowSeconds : Nat) :
    Pruned P params X (L.submit P params block nowSeconds).2
      (L'.submit P params block nowSeconds).2 ∧ L.HasAncestor X block := by
  obtain ⟨p, t, rfl, hparent⟩ := hparents.head
  -- The parent is missing on the right, so it is `X` or descends from it.
  have hX : X ∈ p :: t := by
    rcases hP.missing _ _ hparent hmissing with rfl | ⟨t', ht', hX'⟩
    · exact List.mem_cons_self
    · rcases hparents.tail.2 with ⟨hroot, _⟩ | ⟨_, ht⟩
      · exact absurd hroot (hL.previousHash_ne_zero hU ht')
      · rw [ht.unique ht']
        exact List.mem_cons_of_mem _ hX'
  refine ⟨?_, Or.inr ⟨p :: t, hparents, hX⟩⟩
  have hreplay' := hreplay
  rw [← hP.chain] at hreplay'
  rw [submit_orphan (hP.known.eq_none hfresh) hreplay' (branch_eq_none hmissing)]
  cases hval : validateBlock P params (p :: t).head? block nowSeconds
      (requiredBits params (p :: t)) (chainSeed P L.chain block.header.height) with
  | error e =>
    rw [submit_invalid hfresh hreplay hparents hval]
    exact hP
  | ok _ =>
    rw [submit_valid hfresh hreplay hparents hval]
    exact hP.store_left hL hU hblock hparents hX

include hP hL hL' hU in
/-- **One submission to both ledgers.** They stay related, and the result is the
    same unless the block is `X` or descends from it. -/
theorem submit (hblock : block ∈ U) (nowSeconds : Nat) :
    Pruned P params X (L.submit P params block nowSeconds).2
      (L'.submit P params block nowSeconds).2 ∧
    (¬ L.HasAncestor X block →
      (L.submit P params block nowSeconds).1 = (L'.submit P params block nowSeconds).1) := by
  cases hfresh : L.known (block.hash P) with
  | some c => exact hP.submit_of_known hL hL' hU hblock hfresh nowSeconds
  | none =>
  have hfresh' := hP.known.eq_none hfresh
  have hchain := hP.chain
  cases hreplay : replayUtxo P params L.chain.reverse with
  | error e =>
    rw [submit_unsynced hfresh hreplay, submit_unsynced hfresh' (hchain ▸ hreplay)]
    exact ⟨hP, fun _ => rfl⟩
  | ok u =>
  have hreplay' : replayUtxo P params L'.chain.reverse = .ok u := hchain ▸ hreplay
  cases hparent : L.known block.previousHash with
  | none =>
    rw [submit_orphan hfresh hreplay (branch_eq_none hparent),
      submit_orphan hfresh' hreplay' (branch_eq_none (hP.known.eq_none hparent))]
    exact ⟨hP, fun _ => rfl⟩
  | some p =>
  obtain ⟨t, hparents, _⟩ := hL.linked.exists_ancestry hparent
  cases hparent' : L'.known block.previousHash with
  | none =>
    obtain ⟨hP', hdesc⟩ :=
      hP.submit_of_missing_parent hL hU hblock hfresh hreplay hparents hparent' nowSeconds
    exact ⟨hP', fun hno => absurd hdesc hno⟩
  | some p' =>
  -- Both know the parent, hence the same branch, and validate alike.
  obtain ⟨t', ht', _⟩ := hL'.linked.exists_ancestry hparent'
  have hparents' : L'.AncestryOf block.previousHash (p :: t) := by
    rw [hparents.unique (ht'.mono hP.known)]
    exact ht'
  cases hval : validateBlock P params (p :: t).head? block nowSeconds
      (requiredBits params (p :: t)) (chainSeed P L.chain block.header.height) with
  | error e =>
    rw [submit_invalid hfresh hreplay hparents hval,
      submit_invalid hfresh' hreplay' hparents' (hchain ▸ hval)]
    exact ⟨hP, fun _ => rfl⟩
  | ok _ =>
    rw [submit_valid hfresh hreplay hparents hval,
      submit_valid hfresh' hreplay' hparents' (hchain ▸ hval)]
    obtain ⟨hresult, hP'⟩ := hP.choose_both hL hL' hU hblock hfresh hparents
    exact ⟨hP', fun _ => hresult⟩

end Pruned

/-- A submission that ends in a `Utxo` error changed nothing, or stored a block
    whose branch does not replay. -/
theorem WellFormed.rejected_pruned (hL : L.WellFormed P U) (hU : HashFaithful P U) (hX : X ∈ U)
    {nowSeconds : Nat} {e : UtxoError}
    (h : (L.submit P params X nowSeconds).1 = .error (.utxo e)) :
    (L.submit P params X nowSeconds).2 = L ∨
      Pruned P params X (L.submit P params X nowSeconds).2 L := by
  cases hfresh : L.known (X.hash P) with
  | some c => exact Or.inl (by rw [submit_known hfresh])
  | none =>
  cases hreplay : replayUtxo P params L.chain.reverse with
  | error e => exact Or.inl (by rw [submit_unsynced hfresh hreplay])
  | ok u =>
  cases hbranch : L.branch X.previousHash with
  | none => exact Or.inl (by rw [submit_orphan hfresh hreplay hbranch])
  | some parents =>
  have hparents := branch_eq_some.mp hbranch
  cases hval : validateBlock P params parents.head? X nowSeconds (requiredBits params parents)
      (chainSeed P L.chain X.header.height) with
  | error e => exact Or.inl (by rw [submit_invalid hfresh hreplay hparents hval])
  | ok _ =>
  rw [submit_valid hfresh hreplay hparents hval] at h ⊢
  cases hnew : replayUtxo P params (X :: parents).reverse with
  | ok u' =>
    -- A branch that replays is not rejected.
    unfold Ledger.choose at h
    rw [hnew] at h
    split_ifs at h
  | error e' =>
    have hext := hL.store_extends hU hX
    have hwalk := hL.store_ancestry hU hX hparents
    rw [choose_of_error hnew]
    refine Or.inr ⟨rfl, hext, ?_, store_known_self L X, ?_⟩
    · -- `X` is the only block that is missing.
      intro k b hk hmissing
      rcases store_known_cases hk with ⟨_, rfl⟩ | hold
      · exact Or.inl rfl
      · rw [hold] at hmissing
        cases hmissing
    · -- Nothing that was known before descends from a block that was not.
      intro k t ht hXt
      rcases hL.store_ancestry_cases hU hX hwalk ht with rfl | hold
      · exact ⟨e', hnew⟩
      · rw [hL.known_of_mem hold hXt] at hfresh
        cases hfresh

end Ledger

/-! ## Runs of submissions -/

namespace ChainState

variable {P : Primitives} {params : ConsensusParams} {U : Set Block} {s t t' : ChainState}
variable {X : Block}

/-- The state after a sequence of submissions, each a block and the clock. -/
def submitAll (P : Primitives) (params : ConsensusParams) (s : ChainState)
    (submissions : List (Block × Nat)) : ChainState :=
  submissions.foldl (fun s b => (s.submitBlock P params b.1 b.2).2) s

/-- `X` is the block, or one of its stored ancestors. -/
def HasAncestor (s : ChainState) (X block : Block) : Prop :=
  block = X ∨ ∃ ancestors,
    Ancestry Block.previousHash Hash256.zero s.getBlockByHash block.previousHash ancestors ∧
    X ∈ ancestors

/-- `t'` stores the ledger of `t`, or that ledger without blocks that descend
    from `X`. -/
def WithoutBlock (P : Primitives) (params : ConsensusParams) (U : Set Block) (X : Block)
    (t t' : ChainState) : Prop :=
  ∃ L L', Represents P params t L ∧ L.WellFormed P U ∧ Represents P params t' L' ∧
    L'.WellFormed P U ∧ (L = L' ∨ Ledger.Pruned P params X L L')

/-- One more submission to both states. -/
theorem WithoutBlock.submit (h : WithoutBlock P params U X t t') (hU : HashFaithful P U)
    {block : Block} (hblock : block ∈ U) (nowSeconds : Nat) :
    WithoutBlock P params U X (t.submitBlock P params block nowSeconds).2
      (t'.submitBlock P params block nowSeconds).2 ∧
    (¬ t.HasAncestor X block →
      (t.submitBlock P params block nowSeconds).1
        = (t'.submitBlock P params block nowSeconds).1) := by
  obtain ⟨L, L', hR, hL, hR', hL', hrel⟩ := h
  obtain ⟨hresult, hnext, hwf⟩ := hR.submitBlock hL hU nowSeconds fun _ => hblock
  obtain ⟨hresult', hnext', hwf'⟩ := hR'.submitBlock hL' hU nowSeconds fun _ => hblock
  have hanc : t.HasAncestor X block ↔ L.HasAncestor X block := by
    unfold ChainState.HasAncestor Ledger.HasAncestor
    rw [hR.known]
  rw [hresult, hresult', hanc]
  rcases hrel with rfl | hpruned
  · exact ⟨⟨_, _, hnext, hwf, hnext', hwf', Or.inl rfl⟩, fun _ => rfl⟩
  · obtain ⟨hpruned', hsame⟩ := hpruned.submit hL hL' hU hblock nowSeconds
    exact ⟨⟨_, _, hnext, hwf, hnext', hwf', Or.inr hpruned'⟩, hsame⟩

/-- A whole sequence of submissions to both states. -/
theorem WithoutBlock.submitAll (h : WithoutBlock P params U X t t') (hU : HashFaithful P U)
    {submissions : List (Block × Nat)} (hsubs : ∀ b ∈ submissions, b.1 ∈ U) :
    WithoutBlock P params U X (t.submitAll P params submissions)
      (t'.submitAll P params submissions) := by
  -- The relation is kept by each submission, whatever its two results are.
  induction submissions generalizing t t' with
  | nil => exact h
  | cons b submissions ih =>
    have hstep := (h.submit hU (hsubs b List.mem_cons_self) b.2).1
    exact ih hstep fun c hc => hsubs c (List.mem_cons_of_mem _ hc)

/-- States that differ only in descendants of `X` have the same chain. -/
theorem WithoutBlock.sameChain (h : WithoutBlock P params U X t t') :
    t.canonicalBlocksIter = t'.canonicalBlocksIter ∧ t.tip = t'.tip := by
  obtain ⟨L, L', hR, hL, hR', hL', hrel⟩ := h
  have hchain : L.chain = L'.chain := by
    rcases hrel with rfl | hpruned
    · rfl
    · exact hpruned.chain.symm
  unfold ChainState.tip
  rw [hR.canonicalBlocksIter_eq hL, hR'.canonicalBlocksIter_eq hL', hR.tipCache, hR'.tipCache,
    hchain]
  exact ⟨rfl, rfl⟩

/-- **A rejected block leaves no harmful trace, if hashes determine blocks.** In
    every reachable state, provided the header hash tells apart all blocks that
    are stored or submitted:

    `AlreadyKnown` is answered only for a block that is stored as submitted; and
    if `X` is rejected with a `Utxo` error, then after any further submissions
    the canonical chain is the one of the run without `X`, and so is the result
    of the next submission, unless it is of `X` or of a descendant of `X`. -/
theorem rejectedBlock_harmless (P : Primitives) (params : ConsensusParams) (U : Set Block)
    (hU : HashFaithful P U) (s : ChainState) (hs : Reachable P params U s) :
    (∀ block ∈ U, ∀ nowSeconds,
      (s.submitBlock P params block nowSeconds).1 = .error .alreadyKnown →
      s.getBlockByHash (block.hash P) = some block) ∧
    (∀ X ∈ U, ∀ nowSeconds e, (s.submitBlock P params X nowSeconds).1 = .error (.utxo e) →
      ∀ submissions : List (Block × Nat), (∀ b ∈ submissions, b.1 ∈ U) →
      ((s.submitBlock P params X nowSeconds).2.submitAll P params submissions).canonicalBlocksIter
        = (s.submitAll P params submissions).canonicalBlocksIter ∧
      ((s.submitBlock P params X nowSeconds).2.submitAll P params submissions).tip
        = (s.submitAll P params submissions).tip ∧
      ∀ block ∈ U, ∀ nowSeconds',
        ¬ ((s.submitBlock P params X nowSeconds).2.submitAll P params submissions).HasAncestor
          X block →
        (((s.submitBlock P params X nowSeconds).2.submitAll P params submissions).submitBlock
          P params block nowSeconds').1
          = ((s.submitAll P params submissions).submitBlock P params block nowSeconds').1) := by
  obtain ⟨L, hR, hL⟩ := hs.represents hU
  constructor
  · intro block hblock nowSeconds hknown
    obtain ⟨hresult, _, _⟩ := hR.submitBlock hL hU nowSeconds fun _ => hblock
    rw [hresult] at hknown
    obtain ⟨c, hc⟩ := Ledger.known_of_alreadyKnown hknown
    rw [hR.known, hc,
      hU.injective c (hL.mem _ _ hc) block hblock (hL.keyed _ _ hc)]
  · intro X hX nowSeconds e hrejected submissions hsubs
    obtain ⟨hresult, hnext, hwf⟩ := hR.submitBlock hL hU nowSeconds fun _ => hX
    rw [hresult] at hrejected
    -- The ledger without the rejected block runs beside the one with it.
    have hstart : WithoutBlock P params U X (s.submitBlock P params X nowSeconds).2 s :=
      ⟨_, L, hnext, hwf, hR, hL, hL.rejected_pruned hU hX hrejected⟩
    have hrun := hstart.submitAll hU hsubs
    refine ⟨hrun.sameChain.1, hrun.sameChain.2, ?_⟩
    intro block hblock nowSeconds' hno
    exact (hrun.submit hU hblock nowSeconds').2 hno

theorem rejectedBlock_harmless_inflated :
    (sampleGenesis.submitBlock Primitives.sample testParams (sampleChild 1) 10).1
      = .error (.utxo .coinbaseOutputTooHigh) ∧
    ((sampleGenesis.submitBlock Primitives.sample testParams (sampleChild 1) 10).2.submitBlock
      Primitives.sample testParams (sampleChild 0) 10).1
      = (sampleGenesis.submitBlock Primitives.sample testParams (sampleChild 0) 10).1 := by
  have hrejected : (sampleGenesis.submitBlock Primitives.sample testParams (sampleChild 1) 10).1
      = .error (.utxo .coinbaseOutputTooHigh) := by decide +kernel
  refine ⟨hrejected, ?_⟩
  refine ((rejectedBlock_harmless Primitives.sample testParams _ sampleBlocks_faithful
    sampleGenesis (sampleGenesis_reachable sampleGenesis_storesOnly)).2 (sampleChild 1)
    (by decide +kernel) 10 _ hrejected [] (by simp)).2.2 (sampleChild 0) (by decide +kernel) 10 ?_
  -- The ancestry of the valid child is the genesis block alone.
  rintro (heq | ⟨t, ht, hX⟩)
  · revert heq
    decide +kernel
  · have hgenesis := ht.unique (.genesis (b := sampleGenesisBlock) (by decide +kernel)
      (by decide))
    rw [hgenesis] at hX
    revert hX
    decide

/-! ## The hash does not determine the block

    The merkle root is computed from the identifiers the transactions carry, so
    a variant of a block with other outputs and the old identifiers has the same
    header. -/

/-- The valid block `sampleChild 0` with one atom more in its coinbase output,
    under the old identifier and the old header. -/
def poisonedChild : Block :=
  { sampleChild 0 with
    transactions := (sampleChild 0).transactions.map fun tx =>
      { tx with outputs := tx.outputs.map fun o => { o with valueAtoms := o.valueAtoms + 1 } } }

/-- A block on top of `sampleChild 0`. -/
def sampleGrandchild : Block :=
  candidateBlock Primitives.sample testParams (some (sampleChild 0)) 3 "b" [] 0

/-- The state after the poisoned variant was rejected. -/
def poisonedState : ChainState :=
  (sampleGenesis.submitBlock Primitives.sample testParams poisonedChild 10).2

theorem poisoned_variant_wins :
    Reachable Primitives.sample testParams Set.univ poisonedState ∧
    (sampleGenesis.submitBlock Primitives.sample testParams poisonedChild 10).1
      = .error (.utxo .coinbaseOutputTooHigh) ∧
    (sampleGenesis.submitBlock Primitives.sample testParams (sampleChild 0) 10).1
      = .ok (sampleChild 0) ∧
    (sampleRun.submitBlock Primitives.sample testParams sampleGrandchild 10).1
      = .ok sampleGrandchild ∧
    (poisonedState.submitBlock Primitives.sample testParams (sampleChild 0) 10).1
      = .error .alreadyKnown ∧
    poisonedState.getBlockByHash ((sampleChild 0).hash Primitives.sample) = some poisonedChild ∧
    poisonedChild ≠ sampleChild 0 ∧
    (poisonedState.submitBlock Primitives.sample testParams sampleGrandchild 10).1
      = .error (.utxo .coinbaseOutputTooHigh) := by
  have hreach : Reachable Primitives.sample testParams Set.univ poisonedState := by
    have hstep : sampleGenesis.step Primitives.sample testParams (Op.submitBlock poisonedChild 10)
        = poisonedState := rfl
    rw [← hstep]
    exact GuardedRun.Reachable.step _ (sampleGenesis_reachable fun _ _ _ => Set.mem_univ _)
      fun _ _ _ => Set.mem_univ _
  refine ⟨hreach, ?_, ?_, ?_, ?_, ?_, ?_, ?_⟩
  all_goals decide +kernel

end ChainState

end Tensorium
