import Tensorium.State.Mining
import Tensorium.State.PeerChain

/-! # Ledgers with one genesis block

    A ledger that has grown from a genesis block by submissions: every other block it
    knows was valid on top of its branch when it came, and the canonical chain is a
    valid chain of most work among those it knows.
-/

namespace Tensorium

open ParentLinked

variable {P : Primitives} {params : ConsensusParams} {U : Set Block} {g : Block}

theorem HashFaithful.mono {U' : Set Block} (hU : HashFaithful P U) (hsub : U' ⊆ U) :
    HashFaithful P U' :=
  ⟨fun a ha b hb => hU.injective a (hsub ha) b (hsub hb), fun b hb => hU.nonzero b (hsub hb)⟩

/-! ## Valid chains -/

/-- The header carries the Merkle root of the transactions. -/
def Block.MatchesRoot (P : Primitives) (b : Block) : Prop :=
  b.header.merkleRoot = merkleRoot P b.transactions

/-- At some time the block was valid on top of the branch, under the epoch seed of
    some chain of `U`. -/
def Accepted (P : Primitives) (params : ConsensusParams) (U : Set Block) (branch : List Block)
    (b : Block) : Prop :=
  ∃ now chain, (∀ c ∈ chain, c ∈ U) ∧
    validateBlock P params branch.head? b now (requiredBits params branch)
      (chainSeed P chain b.header.height) = .ok ()

/-- A chain from `g`, genesis first, of which every block was accepted on top of the
    ones before it, and which replays. -/
structure ValidChain (P : Primitives) (params : ConsensusParams) (U : Set Block) (g : Block)
    (Q : List Block) : Prop where
  chain : PeerChain P U Q
  genesis : Q[0]? = some g
  accepted : ∀ (j : Nat) (b : Block), Q[j + 1]? = some b → Accepted P params U (upTo Q j) b
  replays : Replays P params Q

/-- An accepted block is valid at any time that is late enough, under any seed it has
    work for. -/
theorem Accepted.validateBlock_eq {branch : List Block} {b : Block}
    (h : Accepted P params U branch b) {now : Nat} {seed : Hash256}
    (hnow : b.header.timestampSeconds ≤ now + params.maxFutureBlockTimeSeconds)
    (hwork : headerMeetsWork P b.header seed = true) :
    validateBlock P params branch.head? b now (requiredBits params branch) seed = .ok () := by
  obtain ⟨_, _, _, hval⟩ := h
  have hchecked := validateBlock_ok.mp hval
  apply validateBlock_ok.mpr
  exact ⟨hchecked.chainId, hchecked.height, hchecked.previousHash, hnow, hchecked.merkleRoot,
    hchecked.bits, hwork, hchecked.coinbase⟩

namespace Ledger

variable {L L' : Ledger} {block : Block}

/-- A branch of a well-formed ledger is a chain of a peer. -/
theorem WellFormed.peerChain (hL : L.WellFormed P U) {k : Hash256} {t : List Block}
    (ht : L.AncestryOf k t) : PeerChain P U t.reverse where
  mem b hb := hL.mem _ _ (hL.known_of_mem ht (List.mem_reverse.mp hb))
  root b hb := by
    obtain ⟨r, hr, hroot⟩ := ht.getLast
    rw [← List.head?_eq_getElem?, List.head?_reverse, hr] at hb
    rw [← Option.some.inj hb]
    exact hroot
  link j b c hb hc := by
    obtain ⟨p, hp, hget⟩ := ht.link hc
    rw [hb] at hp
    rw [← Option.some.inj hp] at hget
    exact (hL.keyed _ _ hget).symm
  height j b hb := hL.height_of_getElem ht hb

/-- A ledger that has grown from the genesis block `g`. -/
structure Rooted (P : Primitives) (params : ConsensusParams) (U : Set Block) (g : Block)
    (L : Ledger) : Prop where
  wellFormed : L.WellFormed P U
  maxWork : L.MaxWork P params
  replays : Replays P params L.chain.reverse
  nonempty : L.chain ≠ []
  root : ∀ k b, L.known k = some b → b.previousHash = Hash256.zero → b = g
  accepted : ∀ k b p t, L.AncestryOf k (b :: p :: t) → Accepted P params U (p :: t) b

/-- What submissions do to a ledger: nothing is forgotten, and the chain loses no
    work. -/
structure Grows (L L' : Ledger) : Prop where
  keeps : Extends L.known L'.known
  work : branchWork L.chain ≤ branchWork L'.chain

theorem Grows.refl (L : Ledger) : L.Grows L := ⟨fun _ _ h => h, le_refl _⟩

theorem Grows.trans {L'' : Ledger} (h : L.Grows L') (h' : L'.Grows L'') : L.Grows L'' :=
  ⟨fun k b hk => h'.keeps k b (h.keeps k b hk), h.work.trans h'.work⟩

/-- A submission leaves the known blocks as they are, or it adds the block, which was
    valid on a branch of them. -/
theorem submit_known_cases (P : Primitives) (params : ConsensusParams) (L : Ledger)
    (block : Block) (nowSeconds : Nat) :
    (L.submit P params block nowSeconds).2.known = L.known ∨
      ∃ parents, L.AncestryOf block.previousHash parents ∧
        validateBlock P params parents.head? block nowSeconds (requiredBits params parents)
          (chainSeed P L.chain block.header.height) = .ok () ∧
        (L.submit P params block nowSeconds).2.known = (L.store P block).known := by
  unfold submit
  split_ifs with hknown
  · exact Or.inl rfl
  split
  · exact Or.inl rfl
  split
  · exact Or.inl rfl
  next parents hbranch =>
    split
    · exact Or.inl rfl
    next hval =>
      refine Or.inr ⟨parents, branch_eq_some.mp hbranch, hval, ?_⟩
      unfold choose
      split_ifs
      · split
        · rfl
        · rfl
      · rfl

/-- A submission keeps all of this. A block that does not match its root is not
    stored, so it need not lie in `U`. -/
theorem Rooted.submit (h : L.Rooted P params U g) (hU : HashFaithful P U)
    (hblock : block.MatchesRoot P → block ∈ U)
    {nowSeconds : Nat} (hL' : (L.submit P params block nowSeconds).2.WellFormed P U) :
    (L.submit P params block nowSeconds).2.Rooted P params U g ∧
      L.Grows (L.submit P params block nowSeconds).2 := by
  have hmax : (L.submit P params block nowSeconds).2.MaxWork P params ∧
      TipMoves P L (L.submit P params block nowSeconds).2 :=
    h.maxWork.submit h.wellFormed hU (hL'.mem _ _)
  obtain hsame | ⟨parents, hparents, hval, hstore⟩ :=
    submit_known_cases P params L block nowSeconds
  · refine ⟨⟨hL', hmax.1, submit_replays h.replays, submit_chain_ne_nil h.nonempty, ?_, ?_⟩,
      ⟨?_, hmax.2.1⟩⟩
    · rw [hsame]
      exact h.root
    · unfold AncestryOf
      rw [hsame]
      exact h.accepted
    · rw [hsame]
      exact fun _ _ hk => hk
  · have hblock := hblock (validateBlock_ok.mp hval).merkleRoot
    have hnew := h.wellFormed.store_ancestry hU hblock hparents
    refine ⟨⟨hL', hmax.1, submit_replays h.replays, submit_chain_ne_nil h.nonempty, ?_, ?_⟩,
      ⟨?_, hmax.2.1⟩⟩
    · rw [hstore]
      intro k b hk hroot
      obtain ⟨_, rfl⟩ | hold := store_known_cases hk
      · exact absurd hroot (h.wellFormed.previousHash_ne_zero hU hparents)
      · exact h.root k b hold hroot
    · unfold AncestryOf
      rw [hstore]
      intro k b p t ht
      obtain hblockBranch | hold := h.wellFormed.store_ancestry_cases hU hblock hnew ht
      · obtain ⟨rfl, rfl⟩ := List.cons.inj hblockBranch
        exact ⟨nowSeconds, L.chain, fun c hc => h.wellFormed.mem _ _
          (h.wellFormed.known_of_mem (h.wellFormed.chain_ancestry h.nonempty) hc), hval⟩
      · exact h.accepted k b p t hold
    · rw [hstore]
      exact h.wellFormed.store_extends hU hblock

/-- A block the node mines on its tip. -/
theorem Rooted.mined (h : L.Rooted P params U g) (hU : HashFaithful P U) {parent : Block}
    (hhead : L.chain.head? = some parent) {timestampSeconds : Nat} {miner : String}
    {nonce : UInt64}
    (hblock : block = ((candidateBlock P params (some parent) timestampSeconds miner []
      0).withBits (requiredBits params L.chain)).withNonce nonce) (hmem : block ∈ U)
    (hval : validateBlock P params (some parent) block timestampSeconds
      (requiredBits params L.chain) (chainSeed P L.chain block.header.height) = .ok ()) :
    (L.adopt P block L.chain).Rooted P params U g ∧ L.Grows (L.adopt P block L.chain) := by
  have htip : block.previousHash = L.tipHash P := by
    rw [hblock, Ledger.tipHash, hhead]
    rfl
  have hparents : L.AncestryOf block.previousHash L.chain := by
    rw [htip]
    exact h.wellFormed.chain_ancestry h.nonempty
  have hheight : block.header.height = L.chain.length := by
    rw [hblock]
    exact h.wellFormed.chain_length hhead
  have hL' := h.wellFormed.adopt hU hmem hparents hheight
  have hmax := h.maxWork.built h.wellFormed hU hL' htip
  have hnew := h.wellFormed.store_ancestry hU hmem hparents
  refine ⟨⟨hL', hmax.1, ?_, List.cons_ne_nil _ _, ?_, ?_⟩,
    ⟨h.wellFormed.store_extends hU hmem, hmax.2.1⟩⟩
  · obtain ⟨u, hu⟩ := h.replays
    show ∃ u, replayUtxo P params (block :: L.chain).reverse = .ok u
    rw [hblock]
    exact replayUtxo_mined hu (some parent) timestampSeconds miner _ nonce (by simp)
  · intro k b hk hroot
    obtain ⟨_, rfl⟩ | hold := store_known_cases hk
    · exact absurd hroot (h.wellFormed.previousHash_ne_zero hU hparents)
    · exact h.root k b hold hroot
  · intro k b p t ht
    obtain hbranch | hold := h.wellFormed.store_ancestry_cases hU hmem hnew ht
    · obtain ⟨rfl, htail⟩ := List.cons.inj hbranch
      have hknown : ∀ c ∈ L.chain, c ∈ U := fun c hc => h.wellFormed.mem _ _
        (h.wellFormed.known_of_mem (h.wellFormed.chain_ancestry h.nonempty) hc)
      rw [htail]
      exact ⟨timestampSeconds, L.chain, hknown, by rw [hhead]; exact hval⟩
    · exact h.accepted k b p t hold

/-- Every complete branch that replays is a valid chain. -/
theorem Rooted.validChain (h : L.Rooted P params U g) {k : Hash256} {t : List Block}
    (ht : L.AncestryOf k t) (hreplays : Replays P params t.reverse) :
    ValidChain P params U g t.reverse where
  chain := h.wellFormed.peerChain ht
  genesis := by
    obtain ⟨r, hr, hroot⟩ := ht.getLast
    obtain ⟨k', _, hk', _, _⟩ := ht.of_mem (List.mem_of_getLast? hr)
    rw [← List.head?_eq_getElem?, List.head?_reverse, hr, h.root k' r hk' hroot]
  accepted := by
    intro j b hb
    have hsuffix : b :: upTo t.reverse j <:+ t := by
      rw [← upTo_succ hb]
      have hprefix := List.reverse_suffix.mpr (List.take_prefix (j + 1 + 1) t.reverse)
      rwa [List.reverse_reverse] at hprefix
    obtain ⟨k', _, hk'⟩ := ht.of_suffix hsuffix
    obtain ⟨p, hp⟩ : ∃ p, t.reverse[j]? = some p := by
      obtain ⟨hlt, _⟩ := List.getElem?_eq_some_iff.mp hb
      exact ⟨_, List.getElem?_eq_getElem (by omega)⟩
    obtain ⟨rest, hrest⟩ := List.head?_eq_some_iff.mp (upTo_head hp)
    rw [hrest] at hk' ⊢
    exact h.accepted k' b p rest hk'
  replays := hreplays

/-- So is the canonical chain. -/
theorem Rooted.validChain_chain (h : L.Rooted P params U g) :
    ValidChain P params U g L.chain.reverse :=
  h.validChain (h.wellFormed.chain_ancestry h.nonempty) h.replays

/-- The blocks of a chain up to a position are known. -/
def Knows (P : Primitives) (L : Ledger) (Q : List Block) (j : Nat) : Prop :=
  ∀ (i : Nat) (c : Block), Q[i]? = some c → i ≤ j → L.known (c.hash P) = some c

/-- The next block of a valid chain is stored, if its time has come and the canonical
    chain gives it a seed it has work for. -/
theorem Rooted.submit_fresh (h : L.Rooted P params U g) (hU : HashFaithful P U) {Q : List Block}
    (hQ : ValidChain P params U g Q) {k : Nat} {b : Block} (hb : Q[k + 1]? = some b)
    (hknown : L.Knows P Q k) {nowSeconds : Nat} (hfresh : L.known (b.hash P) = none)
    (hnow : b.header.timestampSeconds ≤ nowSeconds + params.maxFutureBlockTimeSeconds)
    (hwork : headerMeetsWork P b.header (chainSeed P L.chain b.header.height) = true) :
    (L.submit P params b nowSeconds).1 = .ok b ∧
      (L.submit P params b nowSeconds).2.known (b.hash P) = some b := by
  obtain ⟨hlt, _⟩ := List.getElem?_eq_some_iff.mp hb
  have hp : Q[k]? = some Q[k] := List.getElem?_eq_getElem (by omega)
  have hparents := ancestry_upTo h.wellFormed hU hQ.chain hp fun i c hc hi => hknown i c hc hi
  rw [← hQ.chain.link k Q[k] b hp hb] at hparents
  obtain ⟨u, hu⟩ := h.replays
  have hval := (hQ.accepted k b hb).validateBlock_eq hnow hwork
  obtain ⟨v, hv⟩ : Replays P params (b :: upTo Q k).reverse := by
    rw [← upTo_succ hb, upTo, List.reverse_reverse]
    exact hQ.replays.take (k + 1 + 1)
  rw [submit_valid hfresh hu hparents hval]
  unfold choose
  rw [hv]
  split_ifs
  · exact ⟨rfl, store_known_self L b⟩
  · exact ⟨rfl, store_known_self L b⟩

/-- A block of a valid chain that follows on what is known of it is stored then. -/
theorem Rooted.submit_next (h : L.Rooted P params U g) (hU : HashFaithful P U) {Q : List Block}
    (hQ : ValidChain P params U g Q) {j k : Nat} {b : Block} (hb : Q[j]? = some b) (hj : j ≤ k + 1)
    (hknown : L.Knows P Q k) {nowSeconds : Nat}
    (htimely : L.known (b.hash P) = none →
      b.header.timestampSeconds ≤ nowSeconds + params.maxFutureBlockTimeSeconds ∧
      headerMeetsWork P b.header (chainSeed P L.chain b.header.height) = true)
    (hgrows : L.Grows (L.submit P params b nowSeconds).2) :
    ((L.submit P params b nowSeconds).1 = .ok b ∨
        (L.submit P params b nowSeconds).1 = .error .alreadyKnown) ∧
      (L.submit P params b nowSeconds).2.Knows P Q (max k j) := by
  have hself : ((L.submit P params b nowSeconds).1 = .ok b ∨
        (L.submit P params b nowSeconds).1 = .error .alreadyKnown) ∧
      (L.submit P params b nowSeconds).2.known (b.hash P) = some b := by
    cases hfresh : L.known (b.hash P) with
    | some c =>
      have hsame := known_eq h.wellFormed hU hQ.chain (List.mem_of_getElem? hb)
        (by rw [hfresh]; rfl)
      rw [submit_known hfresh]
      exact ⟨Or.inr rfl, hsame⟩
    | none =>
      -- Not known, so it is the next one.
      obtain rfl | hlt := Nat.eq_or_lt_of_le hj
      · obtain ⟨hnow, hwork⟩ := htimely hfresh
        obtain ⟨hok, hstored⟩ := h.submit_fresh hU hQ hb hknown hfresh hnow hwork
        exact ⟨Or.inl hok, hstored⟩
      · rw [hknown j b hb (by omega)] at hfresh
        cases hfresh
  refine ⟨hself.1, ?_⟩
  intro i c hc hi
  by_cases hlast : i = j
  · subst hlast
    rw [hb] at hc
    rw [← Option.some.inj hc]
    exact hself.2
  · exact hgrows.keeps _ _ (hknown i c hc (by omega))

end Ledger

/-! ## Chain states -/

/-- The chain state stores a ledger that has grown from `g`. -/
structure ChainState.Stores (P : Primitives) (params : ConsensusParams) (U : Set Block)
    (g : Block) (s : ChainState) (L : Ledger) : Prop where
  represents : Represents P params s L
  rooted : L.Rooted P params U g

namespace ChainState.Stores

variable {s : ChainState} {L : Ledger}

/-- Reading the database again does not change what is stored. -/
theorem openDb (h : s.Stores P params U g L) : (ChainState.openDb s.db).Stores P params U g L :=
  ⟨h.represents.openDb h.rooted.wellFormed, h.rooted⟩

theorem ensureUtxoSynced (h : s.Stores P params U g L) :
    (s.ensureUtxoSynced P params).2.Stores P params U g L :=
  ⟨h.represents.ensureUtxoSynced h.rooted.wellFormed, h.rooted⟩

theorem canonicalBlocksIter_eq (h : s.Stores P params U g L) :
    s.canonicalBlocksIter = L.chain.reverse :=
  h.represents.canonicalBlocksIter_eq h.rooted.wellFormed

/-- The canonical chain is a valid chain. -/
theorem validChain (h : s.Stores P params U g L) :
    ValidChain P params U g s.canonicalBlocksIter := by
  rw [h.canonicalBlocksIter_eq]
  exact h.rooted.validChain_chain

theorem tipWork_eq (h : s.Stores P params U g L) (hU : HashFaithful P U) :
    s.chainWork (s.tipHash P) = branchWork L.chain :=
  h.represents.tipWork_eq h.rooted.wellFormed hU

theorem submitBlock (h : s.Stores P params U g L) (hU : HashFaithful P U) {block : Block}
    (hblock : block.MatchesRoot P → block ∈ U) (nowSeconds : Nat) :
    (s.submitBlock P params block nowSeconds).2.Stores P params U g
        (L.submit P params block nowSeconds).2 ∧
      L.Grows (L.submit P params block nowSeconds).2 := by
  have hstored : (s.submitBlock P params block nowSeconds).2.getBlockByHash (block.hash P)
      = some block → block ∈ U := by
    intro hk
    obtain hold | ⟨_, _, _, _, hval⟩ := submitBlock_stored hk
    · exact h.represents.storesOnly h.rooted.wellFormed _ _ hold
    · exact hblock hval.merkleRoot
  obtain ⟨_, hR, hL⟩ :=
    h.represents.submitBlock h.rooted.wellFormed hU nowSeconds hstored
  obtain ⟨hrooted, hgrows⟩ := h.rooted.submit hU hblock hL
  exact ⟨⟨hR, hrooted⟩, hgrows⟩

theorem mineNextBlock (h : s.Stores P params U g L) (hU : HashFaithful P U)
    (timestampSeconds : Nat) (miner : String) (maxNonce : UInt64)
    (hmade : ∀ b, (s.mineNextBlock P params timestampSeconds miner maxNonce).1 = .ok b →
      b.MatchesRoot P → b ∈ U) :
    ∃ L', (s.mineNextBlock P params timestampSeconds miner maxNonce).2.Stores P params U g L' ∧
      L.Grows L' := by
  have hL := h.rooted.wellFormed
  obtain ⟨parent, hhead⟩ : ∃ parent, L.chain.head? = some parent := by
    obtain ⟨p, t, ht⟩ := List.exists_cons_of_ne_nil h.rooted.nonempty
    exact ⟨p, by rw [ht]; rfl⟩
  have htip : s.tip = some parent := h.represents.tipCache.trans hhead
  have hparents : L.AncestryOf (parent.hash P) L.chain := hL.chain parent hhead
  have hbits : s.expectedLeadingZeroBitsFor params (some parent) = requiredBits params L.chain := by
    rw [← hhead]
    exact h.represents.expectedLeadingZeroBitsFor_eq hL hU hparents
  unfold ChainState.mineNextBlock at hmade ⊢
  rw [htip] at hmade ⊢
  dsimp only at hmade ⊢
  rw [hbits, h.represents.epochSeedForHeight_eq hL] at hmade ⊢
  split at hmade
  · exact ⟨L, h, .refl L⟩
  next block hmined =>
    unfold validateAndInstall at hmade ⊢
    obtain ⟨nonce, hblock⟩ := mineCandidateBlock_ok hmined
    have hheight : block.header.height = parent.header.height + 1 := by
      rw [hblock]
      rfl
    split at hmade
    · exact ⟨L, h, .refl L⟩
    next hval =>
      have hmem := hmade block rfl (validateBlock_ok.mp hval).merkleRoot
      rw [← hheight] at hval
      obtain ⟨hrooted, hgrows⟩ := h.rooted.mined hU hhead hblock hmem hval
      have hR := h.represents.installTip hL hU hmem (hheight.trans (hL.chain_length hhead))
      exact ⟨_, ⟨hR, hrooted⟩, hgrows⟩

end ChainState.Stores

end Tensorium
