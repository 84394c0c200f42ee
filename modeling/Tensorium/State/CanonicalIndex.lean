import Tensorium.State.Runs

/-! # The canonical index is one well-formed chain

    In every reachable state the index spells out one chain from genesis to the
    tip, the stamps and caches agree with its top entry, and every stored block
    is linked to genesis, so the loops over `previous_hash` terminate there.
-/

namespace Tensorium

open BulkMap ParentLinked

namespace ChainState

variable {P : Primitives} {params : ConsensusParams} {U : Set Block} {s : ChainState} {L : Ledger}

/-- The column families and caches of `s` describe one chain. -/
structure WellFormedChain (P : Primitives) (s : ChainState) : Prop where
  /-- The index has an entry exactly for the heights `0..=height()`. -/
  keys : ∀ i, (s.db.canonical.lookup i).isSome ↔ ∃ h, s.height = some h ∧ i ≤ h
  /-- Each entry names a stored block of its height, whose parent is the entry
      below; the lowest one is a genesis. -/
  entry : ∀ i k, s.db.canonical.lookup i = some k →
    ∃ b, s.getBlockByHash k = some b ∧ b.header.height = i ∧
      (i = 0 → b.header.previousHash = Hash256.zero) ∧
      ∀ j, i = j + 1 → s.db.canonical.lookup j = some b.header.previousHash
  /-- The top entry, the stamps and the caches agree. -/
  top : ∀ h, s.height = some h → ∃ b, s.tipCache = some b ∧ b.header.height = h ∧
    s.db.canonical.lookup h = some (b.hash P) ∧ s.db.metaTip = some (b.hash P) ∧
    s.db.metaHeight = some h
  /-- Without a height there is no tip. -/
  noTip : s.height = none → s.tipCache = none ∧ s.db.metaTip = none ∧ s.db.metaHeight = none
  /-- Iterating over the index is walking back from the tip. -/
  iter : s.canonicalBlocksIter = s.buildCanonicalChain (s.tipHash P)
  /-- Every stored block is a genesis or has its parent stored, one below. -/
  parent : ∀ k b, s.getBlockByHash k = some b →
    (b.header.previousHash = Hash256.zero ∧ b.header.height = 0) ∨
    ∃ p, s.getBlockByHash b.header.previousHash = some p ∧ b.header.height = p.header.height + 1
  /-- Every loop over `previous_hash` from a stored block ends, at a genesis or
      before. -/
  walks : ∀ k b, s.getBlockByHash k = some b → ∃ t g, t.getLast? = some g ∧
    g.header.previousHash = Hash256.zero ∧ g.header.height = 0 ∧
    ∀ (σ : Type) (visit : σ → Block → ForInStep σ) (acc : σ),
      s.walk visit (some b) acc = some (visitUntil visit t acc)
  /-- In particular those of `chain_work` and `build_canonical_chain`. -/
  loops : ∀ k, (s.chainWorkLoop k).isSome ∧ (s.canonicalChainLoop k).isSome

namespace Represents

variable (hR : Represents P params s L) (hL : L.WellFormed P U) (hU : HashFaithful P U)

include hR hL in
/-- The height of the tip, in terms of the chain. -/
theorem height_eq {h : Nat} (hh : s.height = some h) :
    ∃ b, L.chain.head? = some b ∧ b.header.height = h ∧ h + 1 = L.chain.length := by
  unfold ChainState.height at hh
  rw [hR.heightCache, Option.map_eq_some_iff] at hh
  obtain ⟨b, hb, rfl⟩ := hh
  exact ⟨b, hb, rfl, hL.chain_length hb⟩

include hR hL in
theorem canonical_keys (i : Nat) :
    (s.db.canonical.lookup i).isSome ↔ ∃ h, s.height = some h ∧ i ≤ h := by
  have hindex : (s.db.canonical.lookup i).isSome ↔ i < L.chain.length := by
    rw [hR.index]
    simp
  rw [hindex]
  constructor
  · intro hi
    cases hhead : L.chain.head? with
    | none =>
      rw [List.head?_eq_none_iff.mp hhead] at hi
      simp at hi
    | some b =>
      have hh : s.height = some b.header.height := by
        unfold ChainState.height
        rw [hR.heightCache, hhead]
        rfl
      obtain ⟨_, _, _, hlen⟩ := hR.height_eq hL hh
      exact ⟨_, hh, by omega⟩
  · rintro ⟨h, hh, hle⟩
    obtain ⟨_, _, _, hlen⟩ := hR.height_eq hL hh
    omega

include hR hL in
theorem canonical_entry {i : Nat} {k : Hash256} (hk : s.db.canonical.lookup i = some k) :
    ∃ b, s.getBlockByHash k = some b ∧ b.header.height = i ∧
      (i = 0 → b.header.previousHash = Hash256.zero) ∧
      ∀ j, i = j + 1 → s.db.canonical.lookup j = some b.header.previousHash := by
  rw [hR.index, Option.map_eq_some_iff] at hk
  obtain ⟨b, hb, rfl⟩ := hk
  have hmem : b ∈ L.chain := List.mem_reverse.mp (List.mem_of_getElem? hb)
  have hwalk := hL.chain_ancestry (List.ne_nil_of_mem hmem)
  refine ⟨b, ?_, hL.height_of_getElem hwalk hb, ?_, ?_⟩
  · rw [hR.known]
    exact hL.known_of_mem hwalk hmem
  · -- The lowest block of the chain is the one the walk ends at.
    rintro rfl
    obtain ⟨g, hg, hroot⟩ := hwalk.getLast
    rw [← List.head?_reverse, List.head?_eq_getElem?, hb] at hg
    rw [Option.some.inj hg]
    exact hroot
  · -- The block below is filed under the hash this one names as its parent.
    rintro j rfl
    obtain ⟨c, hc, hget⟩ := hwalk.link hb
    rw [hR.index, hc, Option.map_some, hL.keyed _ _ hget]
    rfl

include hR hL hU in
theorem walks {k : Hash256} {b : Block} (hk : s.getBlockByHash k = some b) :
    ∃ t g, t.getLast? = some g ∧ g.header.previousHash = Hash256.zero ∧ g.header.height = 0 ∧
      ∀ (σ : Type) (visit : σ → Block → ForInStep σ) (acc : σ),
        s.walk visit (some b) acc = some (visitUntil visit t acc) := by
  have hknown : L.known k = some b := by rw [← hR.known]; exact hk
  obtain ⟨t, ht, _⟩ := hL.linked.exists_ancestry hknown
  obtain ⟨g, hg, hroot⟩ := ht.getLast
  refine ⟨b :: t, g, hg, hroot, ?_, fun σ visit acc => ?_⟩
  · refine hL.height_of_getElem ht ?_
    rw [← List.head?_eq_getElem?, List.head?_reverse]
    exact hg
  · rw [← hk]
    exact hR.walk_eq hL hU ht acc

include hR hL hU in
theorem loops (k : Hash256) :
    (s.chainWorkLoop k).isSome ∧ (s.canonicalChainLoop k).isSome := by
  cases hk : L.known k with
  | none =>
    have hget : s.getBlockByHash k = none := by rw [hR.known]; exact hk
    unfold chainWorkLoop canonicalChainLoop ChainState.walk
    rw [hget]
    simp [ParentLinked.walk]
  | some b =>
    obtain ⟨t, ht, _⟩ := hL.linked.exists_ancestry hk
    rw [hR.chainWorkLoop_eq hL hU ht, hR.canonicalChainLoop_eq hL hU ht]
    exact ⟨rfl, rfl⟩

include hR hL hU in
theorem iter_eq_build : s.canonicalBlocksIter = s.buildCanonicalChain (s.tipHash P) := by
  rw [hR.canonicalBlocksIter_eq hL, hR.tipHash_eq]
  by_cases hne : L.chain = []
  · -- Without a tip the loop of `build_canonical_chain` has nothing to start at.
    unfold buildCanonicalChain canonicalChainLoop ChainState.walk
    rw [hR.getBlockByHash_noTip hL hU hne, hne]
    simp [ParentLinked.walk]
  · rw [hR.buildCanonicalChain_eq hL hU (hL.chain_ancestry hne)]

end Represents

/-- **The canonical index is always one well-formed chain.** In every state a run
    reaches, whatever operations it is made of and whether they succeed or fail,
    provided the header hash determines the blocks it stores and maps none of
    them to zero. -/
theorem reachable_wellFormedChain (P : Primitives) (params : ConsensusParams) (U : Set Block)
    (hU : HashFaithful P U) (s : ChainState) (hs : Reachable P params U s) :
    WellFormedChain P s := by
  obtain ⟨L, hR, hL⟩ := hs.represents hU
  refine
    { keys := hR.canonical_keys hL
      entry := fun i k hk => hR.canonical_entry hL hk
      top := ?_
      noTip := ?_
      iter := hR.iter_eq_build hL hU
      parent := ?_
      walks := fun k b hk => hR.walks hL hU hk
      loops := hR.loops hL hU }
  · intro h hh
    obtain ⟨b, hb, hheight, hlen⟩ := hR.height_eq hL hh
    refine ⟨b, by rw [hR.tipCache, hb], hheight, ?_, by rw [hR.metaTip, hb]; rfl,
      by rw [hR.metaHeight, hb, ← hheight]; rfl⟩
    -- Counted from genesis, the tip is the last block.
    have htop : L.chain.reverse[h]? = some b := by
      obtain ⟨t, ht⟩ := List.head?_eq_some_iff.mp hb
      rw [ht] at hlen ⊢
      rw [List.length_cons] at hlen
      rw [List.reverse_cons, List.getElem?_append_right (by rw [List.length_reverse]; omega)]
      have hidx : h - t.reverse.length = 0 := by rw [List.length_reverse]; omega
      rw [hidx]
      rfl
    rw [hR.index, htop]
    rfl
  · intro hnone
    have hhead : L.chain.head? = none := by
      unfold ChainState.height at hnone
      rw [hR.heightCache, Option.map_eq_none_iff] at hnone
      exact hnone
    exact ⟨by rw [hR.tipCache, hhead], by rw [hR.metaTip, hhead]; rfl,
      by rw [hR.metaHeight, hhead]; rfl⟩
  · intro k b hk
    rw [hR.known] at hk ⊢
    rcases hL.linked.link k b hk with hgenesis | ⟨_, p, hp, hheight⟩
    · exact Or.inl hgenesis
    · exact Or.inr ⟨p, hp, hheight⟩

theorem sampleRun_wellFormedChain :
    sampleRun.height = some 1 ∧ WellFormedChain Primitives.sample sampleRun :=
  ⟨by decide +kernel, reachable_wellFormedChain Primitives.sample testParams _
    sampleBlocks_faithful sampleRun sampleRun_reachable⟩

end ChainState

end Tensorium
