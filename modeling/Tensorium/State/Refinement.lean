import Tensorium.State.Effects
import Tensorium.State.Ledger
import Tensorium.Utxo.Accept

/-! # The chain state refines the ledger

    `Represents s L` relates a chain state to the ledger it stores: the block
    store is the set of known blocks, the index, the stamps and the caches
    spell out the canonical chain, and whenever the unspent outputs are stamped
    with a block they are the replay of that block's branch.

    Reading goes first: on a represented ledger the loops over `previous_hash`
    terminate and compute the ledger's functions of a branch. Then every
    operation of the chain state is matched by one of the ledger.
-/

namespace Tensorium

open Saturating BulkMap ParentLinked ExceptFold

namespace ChainState

variable {P : Primitives} {params : ConsensusParams} {U : Set Block}
variable {s : ChainState} {L : Ledger} {block : Block}

/-- Looking a list up at all its indices gives the list. -/
theorem filterMap_getElem_range (l : List Block) :
    (List.range l.length).filterMap (fun i => l[i]?) = l := by
  induction l using List.reverseRecOn with
  | nil => rfl
  | append_singleton l b ih =>
    have hleft : (List.range l.length).filterMap (fun i => (l ++ [b])[i]?)
        = (List.range l.length).filterMap (fun i => l[i]?) := by
      refine List.filterMap_congr fun i hi => ?_
      rw [List.getElem?_append_left (List.mem_range.mp hi)]
    rw [List.length_append, List.length_singleton, List.range_succ, List.filterMap_append, hleft,
      ih]
    simp

/-- The chain state `s` stores the ledger `L`. -/
structure Represents (P : Primitives) (params : ConsensusParams) (s : ChainState)
    (L : Ledger) : Prop where
  known : s.getBlockByHash = L.known
  index : ∀ i, s.db.canonical.lookup i = (L.chain.reverse[i]?).map (Block.hash P)
  tipCache : s.tipCache = L.chain.head?
  heightCache : s.heightCache = L.chain.head?.map fun b => b.header.height
  metaTip : s.db.metaTip = L.chain.head?.map (Block.hash P)
  metaHeight : s.db.metaHeight = L.chain.head?.map fun b => b.header.height
  utxo : ∀ h, s.db.metaUtxoTip = some h →
    ∃ t, L.AncestryOf h t ∧ replayUtxo P params t.reverse = .ok s.db.utxo

theorem represents_new : Represents P params new Ledger.empty where
  known := rfl
  index _ := rfl
  tipCache := rfl
  heightCache := rfl
  metaTip := rfl
  metaHeight := rfl
  utxo _ h := by cases h

namespace Represents

variable (hR : Represents P params s L) (hL : L.WellFormed P U) (hU : HashFaithful P U)

/-! ## Reading -/

include hR in
theorem tipHash_eq : s.tipHash P = L.tipHash P := by
  unfold ChainState.tipHash ChainState.tip Ledger.tipHash
  rw [hR.tipCache]

include hR hL hU in
/-- Without a canonical chain nothing is stored under the hash of the tip. -/
theorem getBlockByHash_noTip (hempty : L.chain = []) : s.getBlockByHash (L.tipHash P) = none := by
  have htip : L.tipHash P = Hash256.zero := by
    unfold Ledger.tipHash
    rw [hempty]
    rfl
  rw [htip, hR.known]
  exact hL.known_zero hU

include hR hL hU in
/-- A loop over `previous_hash` that starts at a known block visits its branch. -/
theorem walk_eq {σ : Type} {visit : σ → Block → ForInStep σ} {k : Hash256} {t : List Block}
    (ht : L.AncestryOf k t) (acc : σ) :
    s.walk visit (s.getBlockByHash k) acc = some (visitUntil visit t acc) := by
  unfold ChainState.walk
  unfold Ledger.AncestryOf at ht
  rw [← hR.known] at ht
  refine ht.walk_eq ?_ ?_ acc
  · rw [hR.known]
    exact hL.known_zero hU
  · -- The branch visits no key twice, so the store has fuel enough for it.
    refine ht.length_le_card _ fun k b hk => ?_
    exact Finmap.mem_keys.mpr (Finmap.mem_of_lookup_eq_some hk)

include hR hL hU in
theorem chainWorkLoop_eq {k : Hash256} {t : List Block} (ht : L.AncestryOf k t) :
    s.chainWorkLoop k = some (branchWork t) := by
  unfold chainWorkLoop
  rw [hR.walk_eq hL hU ht]
  -- The loop stops at the genesis block, which is the last one of the branch.
  have hfold : visitUntil chainWorkVisit t 0
      = t.foldl (fun work b => satAdd 128 work b.work) 0 :=
    ht.visitUntil_root (fun work b => satAdd 128 work b.work) 0
  rw [hfold, foldl_satAdd 128 Block.work t 0 (by simp), Nat.zero_add]
  rfl

include hR hL hU in
theorem chainWork_eq {k : Hash256} {t : List Block} (ht : L.AncestryOf k t) :
    s.chainWork k = branchWork t := by
  unfold chainWork
  rw [hR.chainWorkLoop_eq hL hU ht, Option.getD_some]

include hR hL hU in
theorem canonicalChainLoop_eq {k : Hash256} {t : List Block} (ht : L.AncestryOf k t) :
    s.canonicalChainLoop k = some t.reverse := by
  unfold canonicalChainLoop
  rw [hR.walk_eq hL hU ht]
  have hfold : visitUntil chainVisit t [] = t.foldl (fun chain b => b :: chain) [] :=
    ht.visitUntil_root (fun chain b => b :: chain) []
  rw [hfold, List.foldl_flip_cons_eq_append, List.append_nil, List.map_id']

include hR hL hU in
theorem buildCanonicalChain_eq {k : Hash256} {t : List Block} (ht : L.AncestryOf k t) :
    s.buildCanonicalChain k = t.reverse := by
  unfold buildCanonicalChain
  rw [hR.canonicalChainLoop_eq hL hU ht, Option.getD_some]

include hR hL hU in
/-- The difficulty required of a child of a known block is that of its branch. -/
theorem expectedLeadingZeroBitsFor_eq {k : Hash256} {t : List Block} (ht : L.AncestryOf k t) :
    s.expectedLeadingZeroBitsFor params t.head? = requiredBits params t := by
  have hcur : t.head? = s.getBlockByHash k := by
    rw [hR.known]
    exact ht.get_eq_head?.symm
  -- Both sides take their sample from the same loop, over the store and over
  -- the branch.
  unfold expectedLeadingZeroBitsFor requiredBits
  rw [hcur]
  simp only [hR.walk_eq hL hU ht, Option.getD_some]

include hR hL in
theorem getBlockByHeight_eq (i : Nat) : s.getBlockByHeight i = L.chain.reverse[i]? := by
  unfold getBlockByHeight
  rw [hR.index i]
  cases hb : L.chain.reverse[i]? with
  | none => rfl
  | some b =>
    have hmem : b ∈ L.chain := List.mem_reverse.mp (List.mem_of_getElem? hb)
    have hwalk := hL.chain_ancestry (List.ne_nil_of_mem hmem)
    rw [Option.map_some, Option.bind_some, hR.known]
    exact hL.known_of_mem hwalk hmem

include hR hL in
/-- Iterating over the index yields the canonical chain, genesis first. -/
theorem canonicalBlocksIter_eq : s.canonicalBlocksIter = L.chain.reverse := by
  have hkeys : sortedKeys s.db.canonical = List.range L.chain.reverse.length := by
    refine sortedKeys_eq_range fun i => ?_
    rw [hR.index i]
    simp
  unfold canonicalBlocksIter
  rw [hkeys]
  have hget : s.getBlockByHeight = fun i => L.chain.reverse[i]? :=
    funext (hR.getBlockByHeight_eq hL)
  rw [hget, filterMap_getElem_range]

include hR hL in
theorem epochSeedForHeight_eq (height : Nat) :
    s.epochSeedForHeight P height = chainSeed P L.chain height := by
  unfold epochSeedForHeight chainSeed
  rw [hR.getBlockByHeight_eq hL]

/-! ## The unspent outputs -/

include hR hL in
/-- If the canonical chain does not replay, synchronisation fails and changes
    nothing. -/
theorem ensureUtxoSynced_error {e : UtxoError}
    (hreplay : replayUtxo P params L.chain.reverse = .error e) :
    s.ensureUtxoSynced P params = (.error (.utxo e), s) := by
  cases htip : L.chain.head? with
  | none =>
    -- The empty chain replays.
    rw [List.head?_eq_none_iff.mp htip] at hreplay
    cases hreplay
  | some tipBlock =>
    unfold ensureUtxoSynced
    rw [hR.tipCache, htip, hR.canonicalBlocksIter_eq hL, hreplay]
    dsimp only
    split_ifs with hstamp
    · -- A stamp with the tip would mean that the chain replays.
      obtain ⟨t, ht, hok⟩ := hR.utxo _ hstamp
      rw [ht.unique (hL.chain tipBlock htip), hreplay] at hok
      cases hok
    · rfl

include hR hL in
/-- If the canonical chain replays, synchronisation succeeds and leaves the
    replayed set behind. -/
theorem ensureUtxoSynced_ok {u : UtxoSet}
    (hreplay : replayUtxo P params L.chain.reverse = .ok u) :
    ∃ s₁, s.ensureUtxoSynced P params = (.ok (), s₁) ∧ Represents P params s₁ L ∧
      (L.chain ≠ [] → s₁.db.utxo = u ∧ s₁.db.metaUtxoTip = some (L.tipHash P)) := by
  unfold ensureUtxoSynced
  cases htip : L.chain.head? with
  | none =>
    rw [hR.tipCache, htip]
    exact ⟨s, rfl, hR, fun hne => absurd (List.head?_eq_none_iff.mp htip) hne⟩
  | some tipBlock =>
    have hwalk := hL.chain tipBlock htip
    have htipHash : L.tipHash P = tipBlock.hash P := by
      unfold Ledger.tipHash
      rw [htip]
      rfl
    rw [hR.tipCache, htip, hR.canonicalBlocksIter_eq hL, hreplay]
    dsimp only
    split_ifs with hstamp
    · -- Already stamped with the tip: the family holds the replay as it is.
      refine ⟨s, rfl, hR, fun _ => ⟨?_, by rw [htipHash]; exact hstamp⟩⟩
      obtain ⟨t, ht, hok⟩ := hR.utxo _ hstamp
      rw [ht.unique hwalk, hreplay] at hok
      exact (Except.ok.inj hok).symm
    · rw [write_rewriteUtxo s s.db rfl]
      refine ⟨_, rfl, ⟨hR.known, hR.index, htip.symm, hR.heightCache,
        hR.metaTip, hR.metaHeight, ?_⟩, fun _ => ⟨rfl, by rw [htipHash]⟩⟩
      intro h hh
      obtain rfl := Option.some.inj hh
      exact ⟨L.chain, hwalk, hreplay⟩

theorem lookup_seedInput (s : ChainState) (seed : UtxoSet) (op op' : OutPoint) :
    (s.seedInput seed op').lookup op
      = if op' = op then (s.db.utxo.lookup op).or (seed.lookup op) else seed.lookup op := by
  unfold seedInput utxoGet
  cases hentry : s.db.utxo.lookup op' with
  | none =>
    split_ifs with heq
    · rw [← heq, hentry, Option.none_or]
    · rfl
  | some entry =>
    dsimp only
    rw [lookup_insert_ite]
    split_ifs with heq
    · rw [← heq, hentry, Option.some_or]
    · rfl

/-- Seeding an outpoint twice writes the same entry, so the order of the inputs
    does not matter. -/
theorem lookup_foldl_seedInput (s : ChainState) (ops : List OutPoint) (seed : UtxoSet)
    (op : OutPoint) :
    (ops.foldl s.seedInput seed).lookup op
      = if op ∈ ops then (s.db.utxo.lookup op).or (seed.lookup op) else seed.lookup op := by
  induction ops generalizing seed with
  | nil => rfl
  | cons op' ops ih =>
    rw [List.foldl_cons, ih, lookup_seedInput]
    by_cases hmem : op ∈ ops <;> by_cases heq : op' = op
    · simp [hmem, heq, ← Option.or_assoc]
    · simp [hmem, heq]
    · simp [hmem, heq]
    · simp [hmem, heq, Ne.symm heq]

/-- The seeded set holds what the store holds for the inputs of the block. -/
theorem lookup_seedUtxo (s : ChainState) {op : OutPoint} (hop : op ∈ block.spends) :
    (s.seedUtxo block).lookup op = s.db.utxo.lookup op := by
  unfold seedUtxo
  rw [lookup_foldl_seedInput, if_pos hop, Finmap.lookup_empty, Option.or_none]

/-- The seeded set gives a block the same verdict as the whole one. -/
theorem applyBlock_seedUtxo_error (s : ChainState) (block : Block) (e : UtxoError) :
    applyBlock P params block (s.seedUtxo block) = .error e ↔
      applyBlock P params block s.db.utxo = .error e :=
  applyBlock_error_congr fun _ hop => lookup_seedUtxo s hop

/-! ## Storing and choosing -/

include hR hL hU in
/-- Storing a block in the database stores it in the ledger. -/
theorem storeBlock (hblock : block ∈ U) :
    Represents P params (s.storeBlock P block) (L.store P block) where
  known := by
    funext k
    show (s.db.blocks.insert (block.hash P) block).lookup k = _
    rw [lookup_insert_ite]
    split_ifs with hkey
    · rw [← hkey, Ledger.store_known_self]
    · rw [Ledger.store_known_of_ne (Ne.symm hkey), ← hR.known]
      rfl
  index := hR.index
  tipCache := hR.tipCache
  heightCache := hR.heightCache
  metaTip := hR.metaTip
  metaHeight := hR.metaHeight
  utxo h hh := by
    obtain ⟨t, ht, hok⟩ := hR.utxo h hh
    exact ⟨t, ht.mono (hL.store_extends hU hblock), hok⟩

/-- The index of a chain with one more block. -/
theorem index_concat {canonical : Map Nat Hash256} {chain : List Block}
    (hindex : ∀ i, canonical.lookup i = (chain.reverse[i]?).map (Block.hash P))
    (hheight : block.header.height = chain.length) (i : Nat) :
    (canonical.insert block.header.height (block.hash P)).lookup i
      = ((block :: chain).reverse[i]?).map (Block.hash P) := by
  rw [lookup_insert_ite, hindex, hheight, List.reverse_cons, List.getElem?_append]
  rw [List.length_reverse]
  -- Below the block the index is the old one, above it there is nothing.
  by_cases hlt : i < chain.length
  · rw [if_neg (by omega), if_pos hlt]
  · rw [if_neg hlt]
    by_cases heq : chain.length = i
    · rw [if_pos heq, ← heq]
      simp
    · have hbeyond : chain.reverse[i]? = none :=
        List.getElem?_eq_none (by rw [List.length_reverse]; omega)
      have hsingle : [block][i - chain.length]? = none :=
        List.getElem?_eq_none (by rw [List.length_singleton]; omega)
      rw [if_neg heq, hbeyond, hsingle]

include hR in
/-- The fast path, in a state whose unspent outputs are those of the canonical
    chain: it succeeds exactly when the longer chain replays, and leaves that
    chain behind. -/
theorem extendTip {u : UtxoSet} (hutxo : s.db.utxo = u)
    (hreplay : replayUtxo P params L.chain.reverse = .ok u)
    (hwalk : L.AncestryOf (block.hash P) (block :: L.chain))
    (hheight : block.header.height = L.chain.length) :
    (∀ e, replayUtxo P params (block :: L.chain).reverse = .error e →
      s.extendTip P params block = (.error (.utxo e), s)) ∧
    (∀ u', replayUtxo P params (block :: L.chain).reverse = .ok u' →
      ∃ s', s.extendTip P params block = (.ok block, s') ∧
        Represents P params s' { L with chain := block :: L.chain }) := by
  have hchain : replayUtxo P params (block :: L.chain).reverse = applyBlock P params block u := by
    rw [List.reverse_cons, replayUtxo_concat, hreplay]
    rfl
  -- `validate_block_utxo` sees the seeded set only, with the same verdict.
  have hseed : ∀ e, applyBlock P params block (s.seedUtxo block) = .error e ↔
      applyBlock P params block u = .error e := by
    rw [← hutxo]
    exact applyBlock_seedUtxo_error s block
  constructor
  · intro e he
    rw [hchain] at he
    unfold ChainState.extendTip validateBlockUtxo
    rw [(hseed e).mpr he]
  · intro u' hu'
    rw [hchain] at hu'
    obtain ⟨_, _, _, _, _, _, _, hdelta⟩ := applyBlock_ok hu'
    cases hverdict : applyBlock P params block (s.seedUtxo block) with
    | error e =>
      rw [(hseed e).mp hverdict] at hu'
      cases hu'
    | ok _ =>
      unfold ChainState.extendTip validateBlockUtxo
      rw [hverdict]
      dsimp only
      rw [write_extendTip]
      refine ⟨_, rfl, ⟨hR.known, index_concat hR.index hheight, rfl, rfl, rfl, rfl, ?_⟩⟩
      intro h hh
      obtain rfl := Option.some.inj hh
      refine ⟨block :: L.chain, hwalk, ?_⟩
      rw [hchain, hu', hdelta, ← hutxo]

/-- The bindings a reorganisation writes to the index, as a chain. -/
theorem lastBinding_heights {chain : List Block}
    (hheights : ∀ (i : Nat) (b : Block), chain[i]? = some b → b.header.height = i) (i : Nat) :
    lastBinding (chain.map fun b => (b.header.height, b.hash P)) i
      = (chain[i]?).map (Block.hash P) := by
  cases hb : chain[i]? with
  | none =>
    -- A binding for `i` would come from the block at index `i`.
    refine lastBinding_eq_none.mpr fun hmem => ?_
    rw [List.map_map] at hmem
    obtain ⟨c, hc, hci⟩ := List.mem_map.mp hmem
    obtain ⟨j, hj⟩ := List.mem_iff_getElem?.mp hc
    have hji : j = i := (hheights j c hj).symm.trans hci
    rw [hji, hb] at hj
    cases hj
  | some b =>
    refine lastBinding_eq_some ?_ ?_
    · refine List.mem_map.mpr ⟨b, List.mem_of_getElem? hb, ?_⟩
      rw [hheights i b hb]
    · intro hash hmem
      obtain ⟨c, hc, hpair⟩ := List.mem_map.mp hmem
      obtain ⟨hci, rfl⟩ := Prod.mk.inj hpair
      obtain ⟨j, hj⟩ := List.mem_iff_getElem?.mp hc
      have hji : j = i := (hheights j c hj).symm.trans hci
      rw [hji, hb] at hj
      rw [Option.some.inj hj]

/-- The index after a reorganisation spells out the new chain and nothing else:
    what the old chain had beyond the new tip is pruned. -/
theorem index_reorg {canonical : Map Nat Hash256} {old new : List Block} {oldHeight : Nat}
    (hindex : ∀ i, canonical.lookup i = (old.reverse[i]?).map (Block.hash P))
    (hold : old.length ≤ oldHeight + 1)
    (hheights : ∀ (i : Nat) (b : Block), new.reverse[i]? = some b → b.header.height = i)
    (hnew : block.header.height + 1 = new.length) (i : Nat) :
    (eraseAll (insertAll canonical (new.reverse.map fun b => (b.header.height, b.hash P)))
      (List.range' (block.header.height + 1) (oldHeight - block.header.height))).lookup i
      = (new.reverse[i]?).map (Block.hash P) := by
  simp only [lookup_eraseAll, lookup_insertAll, lastBinding_heights hheights, List.mem_range'_1,
    hindex]
  -- Up to the new tip every height is rewritten; beyond it the old entries, if
  -- there are any, are among the deleted ones.
  by_cases hlt : i < new.length
  · obtain ⟨b, hb⟩ : ∃ b, new.reverse[i]? = some b :=
      ⟨_, List.getElem?_eq_getElem (by rw [List.length_reverse]; exact hlt)⟩
    rw [if_neg (by omega), hb]
    rfl
  · have hbeyond : new.reverse[i]? = none :=
      List.getElem?_eq_none (by rw [List.length_reverse]; omega)
    rw [hbeyond]
    split_ifs with hstale
    · rfl
    · have hgone : old.reverse[i]? = none :=
        List.getElem?_eq_none (by rw [List.length_reverse]; omega)
      rw [hgone]
      rfl

include hR hL hU in
/-- The reorganisation: it succeeds exactly when the branch replays, and leaves
    that branch behind. -/
theorem reorganize {parents : List Block}
    (hwalk : L.AncestryOf (block.hash P) (block :: parents)) :
    (∀ e, replayUtxo P params (block :: parents).reverse = .error e →
      s.reorganize P params block = (.error (.utxo e), s)) ∧
    (∀ u', replayUtxo P params (block :: parents).reverse = .ok u' →
      ∃ s', s.reorganize P params block = (.ok block, s') ∧
        Represents P params s' { L with chain := block :: parents }) := by
  have hbuild := hR.buildCanonicalChain_eq hL hU hwalk
  have hlast : ((block :: parents).reverse.getLast?.map fun b => b.header.height).getD 0
      = block.header.height := by simp
  constructor
  · intro e he
    unfold ChainState.reorganize
    dsimp only
    rw [hbuild, he]
  · intro u' hu'
    -- The height cache bounds what the old chain may have left in the index.
    have hold : L.chain.length ≤ s.heightCache.getD 0 + 1 := by
      rw [hR.heightCache]
      cases htip : L.chain.head? with
      | none => rw [List.head?_eq_none_iff.mp htip]; simp
      | some b =>
        rw [← hL.chain_length htip]
        simp
    unfold ChainState.reorganize
    dsimp only
    rw [hbuild, hu']
    dsimp only
    rw [write_reorgBatch, hlast]
    refine ⟨_, rfl, ⟨hR.known, ?_, rfl, rfl, rfl, rfl, ?_⟩⟩
    · intro i
      refine index_reorg hR.index hold ?_ (hL.ancestry_length hwalk) i
      exact fun j b hb => hL.height_of_getElem hwalk hb
    · intro h hh
      obtain rfl := Option.some.inj hh
      exact ⟨block :: parents, hwalk, hu'⟩

include hR hL hU in
/-- Fork choice on the database is fork choice on the ledger. -/
theorem storeAndChoose {u : UtxoSet} (hutxo : s.db.utxo = u)
    (hreplay : replayUtxo P params L.chain.reverse = .ok u) (hblock : block ∈ U)
    {parents : List Block} (hparents : L.AncestryOf block.previousHash parents)
    (hheight : block.header.height = parents.length) :
    (s.storeAndChoose P params block).1 = (L.choose P params block parents).1 ∧
    Represents P params (s.storeAndChoose P params block).2
      (L.choose P params block parents).2 := by
  have hR' := hR.storeBlock hL hU hblock
  have hL' := hL.store hU hblock hparents hheight
  have hwalk := hL.store_ancestry hU hblock hparents
  obtain ⟨_, _, _, hparent⟩ := hparents.head
  have hne : L.chain ≠ [] := hL.nonempty _ _ hparent
  have htip : (L.store P block).AncestryOf ((L.store P block).tipHash P) L.chain :=
    hL'.chain_ancestry hne
  unfold ChainState.storeAndChoose Ledger.choose
  dsimp only
  rw [hR'.chainWork_eq hL' hU hwalk, hR'.tipHash_eq, hR'.chainWork_eq hL' hU htip]
  split_ifs with hwork hprev
  · -- The parent is the tip, so the branch is the canonical chain and the block.
    have hfast : L.AncestryOf block.previousHash L.chain := by
      have htipHash : block.previousHash = L.tipHash P := hprev
      rw [htipHash]
      exact hL.chain_ancestry hne
    obtain rfl := hparents.unique hfast
    obtain ⟨herror, hok⟩ := hR'.extendTip hutxo hreplay hwalk hheight
    cases hnew : replayUtxo P params (block :: L.chain).reverse with
    | error e =>
      rw [herror e hnew]
      exact ⟨rfl, hR'⟩
    | ok u' =>
      obtain ⟨s', hs', hR''⟩ := hok u' hnew
      rw [hs']
      exact ⟨rfl, hR''⟩
  · -- The block sits on another branch, which is replayed from genesis.
    obtain ⟨herror, hok⟩ := hR'.reorganize hL' hU hwalk
    cases hnew : replayUtxo P params (block :: parents).reverse with
    | error e =>
      rw [herror e hnew]
      exact ⟨rfl, hR'⟩
    | ok u' =>
      obtain ⟨s', hs', hR''⟩ := hok u' hnew
      rw [hs']
      exact ⟨rfl, hR''⟩
  · -- Not heavier: the block stays on its side branch.
    exact ⟨rfl, hR'⟩

include hR hL hU in
/-- **`submit_block` refines the ledger's `submit`.** The results agree, and the
    state after the call stores the ledger after the call. The block need be in
    `U` only if the call stores it. -/
theorem submitBlock (nowSeconds : Nat)
    (hblock : (s.submitBlock P params block nowSeconds).2.getBlockByHash (block.hash P) = some block →
      block ∈ U) :
    (s.submitBlock P params block nowSeconds).1 = (L.submit P params block nowSeconds).1 ∧
    Represents P params (s.submitBlock P params block nowSeconds).2
      (L.submit P params block nowSeconds).2 ∧
    (L.submit P params block nowSeconds).2.WellFormed P U := by
  have hknown : s.blockKnown (block.hash P) = (L.known (block.hash P)).isSome := by
    rw [← hR.known]
    rfl
  unfold ChainState.submitBlock at hblock ⊢
  unfold Ledger.submit
  rw [hknown] at hblock ⊢
  -- The cases follow the checks of `submit_block`, in its order.
  split_ifs at hblock ⊢ with hfresh
  · exact ⟨rfl, hR, hL⟩
  cases hreplay : replayUtxo P params L.chain.reverse with
  | error e =>
    rw [hR.ensureUtxoSynced_error hL hreplay]
    exact ⟨rfl, hR, hL⟩
  | ok u =>
    obtain ⟨s₁, hs₁, hR₁, hutxo⟩ := hR.ensureUtxoSynced_ok hL hreplay
    rw [hs₁] at hblock ⊢
    dsimp only at hblock ⊢
    cases hparent : L.known block.previousHash with
    | none =>
      have hget : s₁.getBlockByHash block.header.previousHash = none := by
        rw [hR₁.known]
        exact hparent
      rw [hget, Ledger.branch_eq_none hparent]
      exact ⟨rfl, hR₁, hL⟩
    | some parent =>
      obtain ⟨t, hparents, _⟩ := hL.linked.exists_ancestry hparent
      have hget : s₁.getBlockByHash block.header.previousHash = (parent :: t).head? := by
        rw [hR₁.known]
        exact hparent
      have hbits := hR₁.expectedLeadingZeroBitsFor_eq hL hU hparents
      rw [hget, Ledger.branch_eq_some.mpr hparents]
      rw [hget] at hblock
      rw [List.head?_cons] at hbits hblock ⊢
      dsimp only at hblock ⊢
      rw [hbits, hR₁.epochSeedForHeight_eq hL] at hblock ⊢
      rw [List.head?_cons]
      cases hval : validateBlock P params (some parent) block nowSeconds
          (requiredBits params (parent :: t)) (chainSeed P L.chain block.header.height) with
      | error e => exact ⟨rfl, hR₁, hL⟩
      | ok _ =>
        rw [hval] at hblock
        dsimp only at hblock ⊢
        -- Past validation the block is stored whatever comes next, so it is in `U`.
        have hmem : block ∈ U := by
          refine hblock ?_
          unfold getBlockByHash
          rw [storeAndChoose_blocks]
          exact Finmap.lookup_insert _
        have hheight := hL.validated_height hparents hval
        have hchoose := hR₁.storeAndChoose hL hU (hutxo (hL.nonempty _ _ hparent)).1 hreplay hmem
          hparents hheight
        exact ⟨hchoose.1, hchoose.2, hL.choose hU hmem hparents hheight⟩

end Represents

end ChainState

end Tensorium
