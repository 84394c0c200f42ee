import Tensorium.State.Atomicity
import Tensorium.State.UtxoSync

/-! # Sequences of submissions

    What any number of `submit_block` calls, successful or not, does to a chain
    state: blocks are only added, reachable states stay reachable, a canonical
    chain that replays is followed by one that does, and the blocks of the last
    reorganisation are only kept together with the set of unspent outputs that
    it left behind.
-/

namespace Tensorium

open BulkMap ParentLinked

/-! ## On the ledger -/

namespace Ledger

variable {P : Primitives} {params : ConsensusParams} {U : Set Block} {L : Ledger} {block : Block}

/-- A submission that fails leaves the canonical chain as it is. -/
theorem submit_error_chain {nowSeconds : Nat} {e : StateError}
    (h : (L.submit P params block nowSeconds).1 = .error e) :
    (L.submit P params block nowSeconds).2.chain = L.chain := by
  unfold submit choose at h ⊢
  split_ifs
  · rfl
  · split
    · rfl
    · split
      · rfl
      · split
        · rfl
        · split_ifs with hwork
          · split
            · rfl
            · simp_all
          · rfl

theorem submit_chain_ne_nil {nowSeconds : Nat} (hne : L.chain ≠ []) :
    (L.submit P params block nowSeconds).2.chain ≠ [] := by
  cases hres : (L.submit P params block nowSeconds).1 with
  | error e =>
    rw [submit_error_chain hres]
    exact hne
  | ok b =>
    obtain ⟨_, parents, _, _, _, _, hsubmit⟩ := submit_ok hres
    rw [hsubmit] at hres ⊢
    rcases (choose_ok hres).2 with ⟨_, _, hadopt⟩ | ⟨_, hstore⟩
    · rw [hadopt]
      exact List.cons_ne_nil _ _
    · rw [hstore]
      exact hne

/-- If the canonical chain replays, so does the one behind a submission. -/
theorem submit_replays {nowSeconds : Nat}
    (h : ∃ u, replayUtxo P params L.chain.reverse = .ok u) :
    ∃ u, replayUtxo P params (L.submit P params block nowSeconds).2.chain.reverse = .ok u := by
  cases hres : (L.submit P params block nowSeconds).1 with
  | error e =>
    rw [submit_error_chain hres]
    exact h
  | ok b =>
    obtain ⟨_, parents, _, _, _, _, hsubmit⟩ := submit_ok hres
    rw [hsubmit] at hres ⊢
    rcases (choose_ok hres).2 with ⟨_, hreplay, hadopt⟩ | ⟨_, hstore⟩
    · rw [hadopt]
      exact hreplay
    · rw [hstore]
      exact h

end Ledger

namespace ChainState

variable {P : Primitives} {params : ConsensusParams} {U : Set Block} {s s' : ChainState}
variable {L : Ledger} {block : Block}

/-! ## What a reorganisation disconnects -/

/-- What lies on the old chain only is behind the fork. -/
theorem mem_drop_forkIndex (hU : HashFaithful P U) {old new : List Block} (hold : ∀ c ∈ old, c ∈ U)
    (hnew : ∀ c ∈ new, c ∈ U) {c : Block} (hc : c ∈ old) (hgone : c ∉ new) :
    c ∈ old.drop (forkIndex P old new) := by
  induction old generalizing new with
  | nil => cases hc
  | cons a old ih =>
    cases new with
    | nil => exact hc
    | cons b new =>
      by_cases hhash : a.hash P = b.hash P
      · have hab : a = b := hU.injective a (hold a List.mem_cons_self) b
          (hnew b List.mem_cons_self) hhash
        have hindex : forkIndex P (a :: old) (b :: new) = forkIndex P old new + 1 := by
          unfold forkIndex
          simp [hhash]
        rw [hindex, List.drop_succ_cons]
        refine ih (fun c hc => hold c (List.mem_cons_of_mem _ hc))
          (fun c hc => hnew c (List.mem_cons_of_mem _ hc)) ?_ fun h => hgone (List.mem_cons_of_mem _ h)
        rcases List.mem_cons.mp hc with rfl | hmem
        · exact absurd (hab ▸ List.mem_cons_self) hgone
        · exact hmem
      · have hindex : forkIndex P (a :: old) (b :: new) = 0 := by
          unfold forkIndex
          simp [hhash]
        rw [hindex]
        exact hc

/-- A block on top of the tip disconnects nothing, and whatever fork choice takes
    off the canonical chain is among the disconnected blocks. -/
theorem Represents.storeAndChoose_disconnected (hR : Represents P params s L)
    (hL : L.WellFormed P U) (hU : HashFaithful P U) (hblock : block ∈ U) {parents : List Block}
    (hparents : L.AncestryOf block.previousHash parents)
    (hheight : block.header.height = parents.length) :
    (block.previousHash = L.tipHash P →
      (s.storeAndChoose P params block).2.lastDisconnected = []) ∧
    ∀ c ∈ L.chain, c ∉ (L.choose P params block parents).2.chain →
      c ∈ (s.storeAndChoose P params block).2.lastDisconnected := by
  have hR' := hR.storeBlock hL hU hblock
  have hL' := hL.store hU hblock hparents hheight
  have hwalk := hL.store_ancestry hU hblock hparents
  obtain ⟨_, _, _, hparent⟩ := hparents.head
  have hne : L.chain ≠ [] := hL.nonempty _ _ hparent
  have htip : (L.store P block).AncestryOf ((L.store P block).tipHash P) L.chain :=
    hL'.chain_ancestry hne
  unfold ChainState.storeAndChoose Ledger.choose
  dsimp only
  rw [hR'.chainWork_eq hL' hU hwalk, hR'.tipHash_eq, hR'.chainWork_eq hL' hU htip]
  by_cases hwork : branchWork (block :: parents) > branchWork L.chain
  · rw [if_pos hwork, if_pos hwork]
    by_cases hprev : block.header.previousHash = (L.store P block).tipHash P
    · rw [if_pos hprev]
      have hdisconnected : ((s.storeBlock P block).extendTip P params block).2.lastDisconnected
          = [] := by
        unfold ChainState.extendTip
        split
        · rfl
        · rfl
      refine ⟨fun _ => hdisconnected, ?_⟩
      intro c hc hgone
      exfalso
      -- The branch is the canonical chain and the block.
      have hfast : L.AncestryOf block.previousHash L.chain := by
        have htipHash : block.previousHash = L.tipHash P := hprev
        rw [htipHash]
        exact hL.chain_ancestry hne
      rw [hparents.unique hfast] at hgone
      split at hgone
      · exact hgone hc
      · exact hgone (List.mem_cons_of_mem _ hc)
    · rw [if_neg hprev]
      refine ⟨fun htipHash => absurd htipHash hprev, ?_⟩
      intro c hc hgone
      unfold ChainState.reorganize
      dsimp only
      rw [hR'.buildCanonicalChain_eq hL' hU hwalk, hR'.tipHash_eq,
        hR'.buildCanonicalChain_eq hL' hU htip]
      cases hu : replayUtxo P params (block :: parents).reverse with
      | error e =>
        rw [hu] at hgone
        exact absurd hc hgone
      | ok u =>
        rw [hu] at hgone
        show c ∈ L.chain.reverse.drop (forkIndex P L.chain.reverse (block :: parents).reverse)
        apply mem_drop_forkIndex hU
        · intro d hd
          exact hL'.mem _ _ (hL'.known_of_mem htip (List.mem_reverse.mp hd))
        · intro d hd
          exact hL'.mem _ _ (hL'.known_of_mem hwalk (List.mem_reverse.mp hd))
        · exact List.mem_reverse.mpr hc
        · intro hmem
          exact hgone (List.mem_reverse.mp hmem)
  · rw [if_neg hwork, if_neg hwork]
    exact ⟨fun _ => rfl, fun c hc hgone => absurd hc hgone⟩

/-- The same of a submission that succeeds. -/
theorem Represents.submitBlock_disconnected (hR : Represents P params s L)
    (hL : L.WellFormed P U) (hU : HashFaithful P U) (hblock : block ∈ U) {nowSeconds : Nat}
    {b : Block} (hok : (L.submit P params block nowSeconds).1 = .ok b) :
    (block.previousHash = L.tipHash P →
      (s.submitBlock P params block nowSeconds).2.lastDisconnected = []) ∧
    ∀ c ∈ L.chain, c ∉ (L.submit P params block nowSeconds).2.chain →
      c ∈ (s.submitBlock P params block nowSeconds).2.lastDisconnected := by
  obtain ⟨u, parents, hfresh, hreplay, hparents, hval, hsubmit⟩ := Ledger.submit_ok hok
  obtain ⟨s₁, hs₁, hR₁, _⟩ := hR.ensureUtxoSynced_ok hL hreplay
  obtain ⟨p, t, hcons, hp⟩ := hparents.head
  have hunknown : s.blockKnown (block.hash P) = false := by
    unfold blockKnown
    have hget : s.getBlockByHash (block.hash P) = none := by
      rw [hR.known]
      exact hfresh
    unfold getBlockByHash at hget
    rw [hget]
    rfl
  have hget : s₁.getBlockByHash block.header.previousHash = some p := by
    rw [hR₁.known]
    exact hp
  have hbits := hR₁.expectedLeadingZeroBitsFor_eq hL hU hparents
  have hheight := hL.validated_height hparents hval
  rw [hcons, List.head?_cons] at hbits hval
  -- All checks are passed, so the submission comes to the choice of the chain.
  have hpath : s.submitBlock P params block nowSeconds = s₁.storeAndChoose P params block := by
    unfold ChainState.submitBlock
    rw [hunknown, hs₁]
    dsimp only
    rw [hget]
    dsimp only
    rw [hbits, hR₁.epochSeedForHeight_eq hL, hval]
    rfl
  rw [hpath, hsubmit]
  exact hR₁.storeAndChoose_disconnected hL hU hblock hparents hheight

/-! ## One submission -/

/-- Submissions only add blocks. -/
theorem submitBlock_extends (s : ChainState) (block : Block) (nowSeconds : Nat) :
    Extends s.getBlockByHash (s.submitBlock P params block nowSeconds).2.getBlockByHash := by
  obtain ⟨s₁, hsync, ⟨e, hresult⟩ | ⟨hfresh, _, hresult⟩⟩ :=
    submitBlock_cases P params s block nowSeconds
  · rw [hresult, hsync.getBlockByHash]
    exact fun _ _ hk => hk
  · have hknown : s₁.blockKnown (block.hash P) = false := by
      unfold blockKnown at hfresh ⊢
      rwa [hsync.blocks]
    intro k b hk
    rw [← hsync.getBlockByHash] at hk
    have hstored := storeBlock_extends hknown k b hk
    unfold getBlockByHash at hstored ⊢
    rw [hresult, storeAndChoose_blocks]
    exact hstored

/-- The blocks of the last reorganisation are remembered only while the set of
    unspent outputs is stamped with the tip. -/
def Stamped (P : Primitives) (s : ChainState) : Prop :=
  s.lastDisconnected = [] ∨ s.db.metaUtxoTip = some (s.tipHash P)

theorem storeAndChoose_stamped (s : ChainState) (block : Block) :
    Stamped P (s.storeAndChoose P params block).2 := by
  unfold storeAndChoose
  dsimp only
  split_ifs
  · unfold extendTip
    split
    · exact Or.inl rfl
    · exact Or.inl rfl
  · unfold reorganize
    dsimp only
    split
    · exact Or.inl rfl
    · dsimp only
      rw [write_reorgBatch]
      exact Or.inr rfl
  · exact Or.inl rfl

theorem SyncStep.stamped (h : SyncStep P params s s') (hs : Stamped P s) : Stamped P s' := by
  cases h with
  | same => exact hs
  | rebuilt tipBlock set htip _ =>
    right
    unfold tipHash tip
    rw [htip]
    rfl

theorem submitBlock_stamped (hs : Stamped P s) (nowSeconds : Nat) :
    Stamped P (s.submitBlock P params block nowSeconds).2 := by
  obtain ⟨s₁, hsync, ⟨e, hresult⟩ | ⟨_, _, hresult⟩⟩ :=
    submitBlock_cases P params s block nowSeconds
  · rw [hresult]
    exact hsync.stamped hs
  · rw [hresult]
    exact storeAndChoose_stamped s₁ block

/-! ## Many submissions -/

/-- The states that submissions lead to. -/
inductive Submits (P : Primitives) (params : ConsensusParams) (s : ChainState) :
    ChainState → Prop where
  | refl : Submits P params s s
  | submit {s' : ChainState} (block : Block) (nowSeconds : Nat) : Submits P params s s' →
      Submits P params s (s'.submitBlock P params block nowSeconds).2

namespace Submits

theorem trans {s'' : ChainState} (h : Submits P params s s') (h' : Submits P params s' s'') :
    Submits P params s s'' := by
  induction h' with
  | refl => exact h
  | submit block nowSeconds _ ih => exact .submit block nowSeconds ih

theorem stamped (h : Submits P params s s') (hs : Stamped P s) : Stamped P s' := by
  induction h with
  | refl => exact hs
  | submit block nowSeconds _ ih => exact submitBlock_stamped ih nowSeconds

theorem grows (h : Submits P params s s') : Extends s.getBlockByHash s'.getBlockByHash := by
  induction h with
  | refl => exact fun _ _ hk => hk
  | @submit s₁ block nowSeconds _ ih =>
    exact fun k b hk => submitBlock_extends s₁ block nowSeconds k b (ih k b hk)

/-- The states on the way store only what the last one stores. -/
theorem reachable (h : Submits P params s s') (hs : Reachable P params U s)
    (hstores : StoresOnly U s') : Reachable P params U s' := by
  induction h with
  | refl => exact hs
  | @submit s₁ block nowSeconds _ ih =>
    have hstores₁ : StoresOnly U s₁ := fun k b hk =>
      hstores k b (submitBlock_extends s₁ block nowSeconds k b hk)
    exact (ih hstores₁).submitBlock hstores

theorem replays (h : Submits P params s s') (hU : HashFaithful P U)
    (hs : Reachable P params U s) (hstores : StoresOnly U s')
    (hreplay : ∃ u, replayUtxo P params s.canonicalBlocksIter = .ok u) :
    ∃ u, replayUtxo P params s'.canonicalBlocksIter = .ok u := by
  induction h with
  | refl => exact hreplay
  | @submit s₁ block nowSeconds h₁ ih =>
    have hstores₁ : StoresOnly U s₁ := fun k b hk =>
      hstores k b (submitBlock_extends s₁ block nowSeconds k b hk)
    obtain ⟨L, hR, hL⟩ := (h₁.reachable hs hstores₁).represents hU
    obtain ⟨_, hR', hL'⟩ := hR.submitBlock hL hU nowSeconds (hstores (block.hash P) block)
    have h := ih hstores₁
    rw [hR.canonicalBlocksIter_eq hL] at h
    rw [hR'.canonicalBlocksIter_eq hL']
    exact Ledger.submit_replays h

end Submits

/-- Disconnected blocks come with the set of the new canonical chain. -/
theorem Represents.utxo_of_disconnected (hR : Represents P params s L) (hL : L.WellFormed P U)
    (hs : Stamped P s) (hne : s.lastDisconnected ≠ []) :
    replayUtxo P params s.canonicalBlocksIter = .ok s.db.utxo :=
  hR.replay_of_stamp hL (hs.resolve_left hne)

/-! ## Before there is a genesis block -/

/-- A submission does not take the tip away. -/
theorem Represents.submitBlock_noTip (hR : Represents P params s L) (hL : L.WellFormed P U)
    (hempty : L.chain = []) (nowSeconds : Nat) :
    (s.submitBlock P params block nowSeconds).2 = s := by
  have hnone : ∀ k, s.getBlockByHash k = none := by
    intro k
    rw [hR.known]
    cases hk : L.known k with
    | none => rfl
    | some b => exact absurd hempty (hL.nonempty k b hk)
  have hsync : s.ensureUtxoSynced P params = (.ok (), s) := by
    unfold ChainState.ensureUtxoSynced
    rw [hR.tipCache, hempty]
    rfl
  unfold ChainState.submitBlock
  split_ifs
  · rfl
  · rw [hsync]
    dsimp only
    rw [hnone]

/-- As long as there is no tip, nothing is unspent. -/
theorem Reachable.utxo_noTip (h : Reachable P params U s) (hU : HashFaithful P U)
    (hnone : s.tipCache = none) : s.db.utxo = ∅ := by
  have hinv := h.invariant (fun s => (∃ L, Represents P params s L ∧ L.WellFormed P U) ∧
    (s.tipCache = none → s.db.utxo = ∅)) ?_ ?_
  · exact hinv.2 hnone
  · exact ⟨⟨Ledger.empty, represents_new, Ledger.wellFormed_empty⟩, fun _ => rfl⟩
  · rintro s op ⟨⟨L, hR, hL⟩, hutxo⟩ hstores
    obtain ⟨L', _, hR', hL'⟩ := hR.step hL hU op hstores
    refine ⟨⟨L', hR', hL'⟩, fun hnone' => ?_⟩
    -- A block that is built becomes the tip.
    have hbuild : ∀ s', BuildStep P params s s' → s'.tipCache = none → s'.db.utxo = ∅ := by
      intro s' hstep htip
      cases hstep with
      | same => exact hutxo htip
      | installed => cases htip
    cases op with
    | initGenesis timestampSeconds maxNonce =>
      exact hbuild _ (initGenesis_buildStep s timestampSeconds maxNonce) hnone'
    | initGenesisNonce timestampSeconds nonce =>
      exact hbuild _ (initGenesisNonce_buildStep s timestampSeconds nonce) hnone'
    | mineNextBlock timestampSeconds miner maxNonce =>
      exact hbuild _ (mineNextBlock_buildStep s timestampSeconds miner maxNonce) hnone'
    | submitBlock block nowSeconds =>
      by_cases hempty : L.chain = []
      · have hsame : s.step P params (.submitBlock block nowSeconds) = s :=
          hR.submitBlock_noTip hL hempty nowSeconds
        rw [hsame] at hnone' ⊢
        exact hutxo hnone'
      · obtain ⟨_, hR₁, _⟩ := hR.submitBlock hL hU nowSeconds (hstores (block.hash P) block)
        have hchain := hR₁.tipCache.symm.trans hnone'
        rw [List.head?_eq_none_iff] at hchain
        exact absurd hchain (Ledger.submit_chain_ne_nil hempty)
    | ensureUtxoSynced =>
      have hsame : s.tipCache = none :=
        (ensureUtxoSynced_syncStep P params s).chainUnchanged.tipCache.symm.trans hnone'
      show (s.ensureUtxoSynced P params).2.db.utxo = ∅
      unfold ChainState.ensureUtxoSynced
      rw [hsame]
      exact hutxo hsame
    | takeReorgRequeueCandidates => exact hutxo hnone'
    | reopen =>
      have hsame : s.tipCache = none := by
        rw [hR.tipCache, ← (hR.openDb hL).tipCache]
        exact hnone'
      have hdb : (s.step P params .reopen).db = s.db := openDb_db s.db
      rw [hdb]
      exact hutxo hsame

end ChainState

end Tensorium
