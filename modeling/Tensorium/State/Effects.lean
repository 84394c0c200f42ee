import Tensorium.Core.State

/-! # What each operation writes

    The batches of `state.rs` as updates of the column families, and for each
    operation the states it can leave. Nothing here assumes anything of the
    state the operation starts in.
-/

namespace Tensorium

open BulkMap

variable {P : Primitives} {params : ConsensusParams} {s s' : ChainState} {block : Block}

namespace ChainState

/-! ## Batches -/

/-- Rewriting the set deletes every entry and puts those of `set`: whatever the
    family held, it holds `set` afterwards. -/
theorem write_rewriteUtxo (s : ChainState) (db : Db) (hdb : db.utxo = s.db.utxo)
    (set : UtxoSet) (utxoTip : Hash256) :
    db.write (s.rewriteUtxoIntoBatch set utxoTip)
      = { db with utxo := set, metaUtxoTip := some utxoTip } := by
  have hset : insertAll (eraseAll db.utxo (sortedKeys s.db.utxo)) (sortedEntries set) = set := by
    refine Finmap.ext_lookup fun op => ?_
    -- The deletions leave nothing of the old set behind the new entries.
    have herased : (eraseAll db.utxo (sortedKeys s.db.utxo)).lookup op = none := by
      rw [lookup_eraseAll, hdb]
      split_ifs with hop
      · rfl
      · rw [mem_sortedKeys] at hop
        exact Option.not_isSome_iff_eq_none.mp hop
    rw [lookup_insertAll_sortedEntries, herased, Option.or_none]
  unfold rewriteUtxoIntoBatch
  rw [Db.write_append, Db.write_append, Db.write_deleteUtxo, Db.write_putUtxo, hset]
  rfl

/-- The delta of a block does to the column family what phase 3 of `apply_block`
    does to a set in memory. -/
theorem write_applyUtxoDelta (db : Db) (block : Block) :
    db.write (applyUtxoDeltaToBatch block) = { db with utxo := applyDelta block db.utxo } := by
  unfold applyUtxoDeltaToBatch
  rw [Db.write_append, Db.write_deleteUtxo, Db.write_putUtxo]
  rfl

/-- The database after a reorganisation. -/
theorem write_reorgBatch (s : ChainState) (newCanonical : List Block) (set : UtxoSet) :
    s.db.write (s.reorgBatch P block newCanonical set)
      = { s.db with
          canonical := eraseAll
            (insertAll s.db.canonical (newCanonical.map fun b => (b.header.height, b.hash P)))
            (List.range' ((newCanonical.getLast?.map fun b => b.header.height).getD 0 + 1)
              (s.heightCache.getD 0 - (newCanonical.getLast?.map fun b => b.header.height).getD 0))
          metaTip := some (block.hash P)
          metaHeight := some ((newCanonical.getLast?.map fun b => b.header.height).getD 0)
          utxo := set
          metaUtxoTip := some (block.hash P) } := by
  have hput : newCanonical.map (fun b => WriteOp.putCanonical b.header.height (b.hash P))
      = (newCanonical.map fun b => (b.header.height, b.hash P)).map
          fun e => .putCanonical e.1 e.2 := by
    rw [List.map_map]
    rfl
  unfold reorgBatch
  dsimp only
  rw [hput, Db.write_append, Db.write_append, Db.write_append, Db.write_putCanonical,
    Db.write_deleteCanonical, write_rewriteUtxo]
  · rfl
  · rfl

/-- The database after the fast path. -/
theorem write_extendTip (db : Db) (block : Block) :
    db.write ([.putCanonical block.header.height (block.hash P)]
        ++ applyUtxoDeltaToBatch block
        ++ [.putMetaTip (block.hash P),
            .putMetaHeight block.header.height,
            .putMetaUtxoTip (block.hash P)])
      = { db with
          canonical := db.canonical.insert block.header.height (block.hash P)
          utxo := applyDelta block db.utxo
          metaTip := some (block.hash P)
          metaHeight := some block.header.height
          metaUtxoTip := some (block.hash P) } := by
  rw [Db.write_append, Db.write_append, write_applyUtxoDelta]
  rfl

/-! ## Operations -/

/-- `ensure_utxo_synced` either leaves the state alone or stamps the replay of
    the canonical chain with the tip. -/
inductive SyncStep (P : Primitives) (params : ConsensusParams) (s : ChainState) :
    ChainState → Prop where
  | same : SyncStep P params s s
  | rebuilt (tipBlock : Block) (set : UtxoSet) : s.tipCache = some tipBlock →
      replayUtxo P params s.canonicalBlocksIter = .ok set →
      SyncStep P params s
        { s with db := { s.db with utxo := set, metaUtxoTip := some (tipBlock.hash P) } }

theorem ensureUtxoSynced_syncStep (P : Primitives) (params : ConsensusParams) (s : ChainState) :
    SyncStep P params s (s.ensureUtxoSynced P params).2 := by
  unfold ensureUtxoSynced
  split
  · exact .same
  next tipBlock htip =>
  split_ifs
  · exact .same
  · split
    · exact .same
    next set hset =>
    dsimp only
    rw [write_rewriteUtxo s s.db rfl]
    exact .rebuilt tipBlock set htip hset

/-- The index, the tip and the caches of two states agree. -/
structure ChainUnchanged (s s' : ChainState) : Prop where
  canonical : s'.db.canonical = s.db.canonical
  metaTip : s'.db.metaTip = s.db.metaTip
  metaHeight : s'.db.metaHeight = s.db.metaHeight
  metaChainId : s'.db.metaChainId = s.db.metaChainId
  tipCache : s'.tipCache = s.tipCache
  heightCache : s'.heightCache = s.heightCache

theorem ChainUnchanged.refl (s : ChainState) : ChainUnchanged s s :=
  ⟨rfl, rfl, rfl, rfl, rfl, rfl⟩

theorem SyncStep.chainUnchanged (h : SyncStep P params s s') : ChainUnchanged s s' := by
  cases h with
  | same => exact .refl s
  | rebuilt _ _ _ _ => exact ⟨rfl, rfl, rfl, rfl, rfl, rfl⟩

theorem SyncStep.blocks (h : SyncStep P params s s') : s'.db.blocks = s.db.blocks := by
  cases h with
  | same => rfl
  | rebuilt _ _ _ _ => rfl

@[simp] theorem storeBlock_blocks (s : ChainState) (block : Block) :
    (s.storeBlock P block).db.blocks = s.db.blocks.insert (block.hash P) block := rfl

/-- The fast path and the reorganisation leave the state as it is when they
    fail. -/
theorem extendTip_error {e : StateError} (h : s.extendTip P params block = (.error e, s')) :
    s' = s := by
  unfold extendTip at h
  split at h
  · exact (Prod.mk.inj h).2.symm
  · simp at h

theorem reorganize_error {e : StateError} (h : s.reorganize P params block = (.error e, s')) :
    s' = s := by
  unfold reorganize at h
  dsimp only at h
  split at h
  · exact (Prod.mk.inj h).2.symm
  · simp at h

theorem storeAndChoose_error {e : StateError}
    (h : s.storeAndChoose P params block = (.error e, s')) : s' = s.storeBlock P block := by
  unfold storeAndChoose at h
  dsimp only at h
  split_ifs at h
  · exact extendTip_error h
  · exact reorganize_error h
  · simp at h

/-- Whatever fork choice decides, the block is in the store afterwards. -/
theorem storeAndChoose_blocks (s : ChainState) (block : Block) :
    (s.storeAndChoose P params block).2.db.blocks = s.db.blocks.insert (block.hash P) block := by
  unfold storeAndChoose
  dsimp only
  split_ifs
  · unfold extendTip
    split
    · rfl
    · dsimp only
      rw [write_extendTip]
      rfl
  · unfold reorganize
    dsimp only
    split
    · rfl
    · dsimp only
      rw [write_reorgBatch]
      rfl
  · rfl

theorem SyncStep.getBlockByHash (h : SyncStep P params s s') :
    s'.getBlockByHash = s.getBlockByHash := by
  funext k
  unfold ChainState.getBlockByHash
  rw [h.blocks]

theorem storeAndChoose_getBlockByHash (s : ChainState) (block : Block) (k : Hash256) :
    (s.storeAndChoose P params block).2.getBlockByHash k
      = if block.hash P = k then some block else s.getBlockByHash k := by
  unfold getBlockByHash
  rw [storeAndChoose_blocks, lookup_insert_ite]

theorem storeAndChoose_ok_eq {b : Block} (h : (s.storeAndChoose P params block).1 = .ok b) :
    b = block := by
  unfold storeAndChoose at h
  dsimp only at h
  split_ifs at h
  · unfold extendTip at h
    split at h
    · cases h
    · exact (Except.ok.inj h).symm
  · unfold reorganize at h
    dsimp only at h
    split at h
    · cases h
    · exact (Except.ok.inj h).symm
  · exact (Except.ok.inj h).symm

/-- What `submit_block` does: it stops with an error after the synchronisation, if it
    came that far, or the block is new, its parent is stored, it is valid, and the
    fork choice decides. -/
theorem submitBlock_cases (P : Primitives) (params : ConsensusParams) (s : ChainState)
    (block : Block) (nowSeconds : Nat) :
    ∃ s₁, SyncStep P params s s₁ ∧
      ((∃ e, s.submitBlock P params block nowSeconds = (.error e, s₁)) ∨
        (s.blockKnown (block.hash P) = false ∧
          (∃ parent, s₁.getBlockByHash block.header.previousHash = some parent ∧
            Validated P params (some parent) block nowSeconds
              (s₁.expectedLeadingZeroBitsFor params (some parent))
              (s₁.epochSeedForHeight P block.header.height)) ∧
          s.submitBlock P params block nowSeconds = s₁.storeAndChoose P params block)) := by
  unfold submitBlock
  split_ifs with hknown
  · exact ⟨s, .same, Or.inl ⟨_, rfl⟩⟩
  have hsync := ensureUtxoSynced_syncStep P params s
  split
  next e s₁ hs₁ =>
    rw [hs₁] at hsync
    exact ⟨s₁, hsync, Or.inl ⟨e, rfl⟩⟩
  next s₁ hs₁ =>
    rw [hs₁] at hsync
    refine ⟨s₁, hsync, ?_⟩
    split
    · exact Or.inl ⟨_, rfl⟩
    next parent hparent =>
      split
      · exact Or.inl ⟨_, rfl⟩
      next hval =>
        exact Or.inr ⟨by simpa using hknown, ⟨parent, hparent, validateBlock_ok.mp hval⟩, rfl⟩

/-- Where a failing `submit_block` can leave the state: after the
    synchronisation, with or without the block stored. -/
theorem submitBlock_error {nowSeconds : Nat} {e : StateError}
    (h : s.submitBlock P params block nowSeconds = (.error e, s')) :
    ∃ s₁, SyncStep P params s s₁ ∧
      (s' = s₁ ∨ (s.blockKnown (block.hash P) = false ∧ s' = s₁.storeBlock P block)) := by
  obtain ⟨s₁, hsync, ⟨e', hresult⟩ | ⟨hfresh, _, hresult⟩⟩ :=
    submitBlock_cases P params s block nowSeconds
  · rw [hresult] at h
    exact ⟨s₁, hsync, Or.inl (Prod.mk.inj h).2.symm⟩
  · -- Behind validation the block is stored before anything can fail.
    rw [hresult] at h
    exact ⟨s₁, hsync, Or.inr ⟨hfresh, storeAndChoose_error h⟩⟩

/-- `submit_block` returns the block it was given. -/
theorem submitBlock_ok_eq {nowSeconds : Nat} {b : Block}
    (h : (s.submitBlock P params block nowSeconds).1 = .ok b) : b = block := by
  obtain ⟨s₁, _, ⟨e, hresult⟩ | ⟨_, _, hresult⟩⟩ := submitBlock_cases P params s block nowSeconds
  · rw [hresult] at h
    cases h
  · rw [hresult] at h
    exact storeAndChoose_ok_eq h

/-- A block that is stored after a submission was stored before, or is the
    submitted one and passed contextual validation. -/
theorem submitBlock_stored {nowSeconds : Nat} {k : Hash256} {b : Block}
    (h : (s.submitBlock P params block nowSeconds).2.getBlockByHash k = some b) :
    s.getBlockByHash k = some b ∨
      (b = block ∧ ∃ parent bits seed, Validated P params parent block nowSeconds bits seed) := by
  obtain ⟨s₁, hsync, ⟨e, hresult⟩ | ⟨_, ⟨parent, _, hval⟩, hresult⟩⟩ :=
    submitBlock_cases P params s block nowSeconds
  · rw [hresult, hsync.getBlockByHash] at h
    exact Or.inl h
  · rw [hresult, storeAndChoose_getBlockByHash, hsync.getBlockByHash] at h
    split_ifs at h
    · exact Or.inr ⟨(Option.some.inj h).symm, _, _, _, hval⟩
    · exact Or.inl h

/-- Every block of the canonical chain is stored. -/
theorem mem_canonicalBlocksIter {b : Block} (h : b ∈ s.canonicalBlocksIter) :
    ∃ k, s.getBlockByHash k = some b := by
  obtain ⟨i, _, hi⟩ := List.mem_filterMap.mp h
  obtain ⟨k, _, hk⟩ := Option.bind_eq_some_iff.mp hi
  exact ⟨k, hk⟩

/-! ## Blocks the node builds itself -/

theorem mineCandidateBlock_ok {parent : Option Block} {timestampSeconds : Nat} {miner : String}
    {maxNonce : UInt64} {bits : UInt8} {seed : Hash256}
    (h : mineCandidateBlock P params parent timestampSeconds miner maxNonce bits seed = .ok block) :
    ∃ nonce, block = ((candidateBlock P params parent timestampSeconds miner [] 0).withBits
      bits).withNonce nonce := by
  unfold mineCandidateBlock at h
  dsimp only at h
  split at h
  · cases h
  next header hmined =>
    obtain ⟨⟨nonce, rfl⟩, _⟩ := mineHeader_some hmined
    exact ⟨nonce, (Except.ok.inj h).symm⟩

/-- What `init_genesis`, `init_genesis_nonce` and `mine_next_block` can do to a
    state: nothing, or install a block they built on the tip, or a genesis when
    there is no tip. The block carries a coinbase and nothing else, and passed
    contextual validation. -/
inductive BuildStep (P : Primitives) (params : ConsensusParams) (s : ChainState) :
    ChainState → Prop where
  | same : BuildStep P params s s
  | installed (parent : Option Block) (timestampSeconds : Nat) (miner : String) (bits : UInt8)
      (nonce : UInt64) (seed : Hash256) :
      (s.tipCache = parent ∨ (s.heightCache = none ∧ parent = none)) →
      Validated P params parent
        (((candidateBlock P params parent timestampSeconds miner [] 0).withBits bits).withNonce nonce)
        timestampSeconds bits seed →
      BuildStep P params s (s.installTip P
        (((candidateBlock P params parent timestampSeconds miner [] 0).withBits bits).withNonce nonce))

theorem validateAndInstall_buildStep {parent : Option Block} {timestampSeconds : Nat}
    {miner : String} {bits : UInt8} {nonce : UInt64} {seed : Hash256}
    (hparent : s.tipCache = parent ∨ (s.heightCache = none ∧ parent = none))
    (hblock : block = ((candidateBlock P params parent timestampSeconds miner [] 0).withBits
      bits).withNonce nonce) :
    BuildStep P params s
      (s.validateAndInstall P params parent block timestampSeconds bits seed).2 := by
  unfold validateAndInstall
  split
  · exact .same
  next hval =>
    subst hblock
    exact .installed parent timestampSeconds miner bits nonce seed hparent (validateBlock_ok.mp hval)

theorem initGenesis_buildStep (s : ChainState) (timestampSeconds : Nat) (maxNonce : UInt64) :
    BuildStep P params s (s.initGenesis P params timestampSeconds maxNonce).2 := by
  unfold initGenesis
  split_ifs with hheight
  · exact .same
  dsimp only
  split
  · exact .same
  next hmined =>
    obtain ⟨nonce, hblock⟩ := mineCandidateBlock_ok hmined
    exact validateAndInstall_buildStep (Or.inr ⟨by simpa using hheight, rfl⟩) hblock

theorem initGenesisNonce_buildStep (s : ChainState) (timestampSeconds : Nat) (nonce : UInt64) :
    BuildStep P params s (s.initGenesisNonce P params timestampSeconds nonce).2 := by
  unfold initGenesisNonce
  split_ifs with hheight
  · exact .same
  dsimp only
  split_ifs
  · exact .same
  · exact validateAndInstall_buildStep (Or.inr ⟨by simpa using hheight, rfl⟩) rfl

theorem mineNextBlock_buildStep (s : ChainState) (timestampSeconds : Nat) (miner : String)
    (maxNonce : UInt64) :
    BuildStep P params s (s.mineNextBlock P params timestampSeconds miner maxNonce).2 := by
  unfold mineNextBlock
  split
  · exact .same
  next parent hparent =>
    dsimp only
    split
    · exact .same
    next hmined =>
      obtain ⟨nonce, hblock⟩ := mineCandidateBlock_ok hmined
      exact validateAndInstall_buildStep (Or.inl hparent) hblock

end ChainState

end Tensorium
