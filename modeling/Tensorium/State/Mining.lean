import Tensorium.State.Runs

/-! # Blocks the node builds itself

    A candidate without further transactions passes contextual validation as
    soon as its header meets the work, and `apply_block` accepts it on any set:
    its coinbase claims the reward and nothing else. So mining on the tip fails
    only for lack of a nonce, and a chain that replays still replays with the
    mined block on top.
-/

namespace Tensorium

open Saturating BulkMap ParentLinked

variable {P : Primitives} {params : ConsensusParams}

/-! ## Contextual validation -/

/-- The coinbase of a candidate. -/
theorem candidateBlock_coinbase (parent : Option Block) (timestampSeconds : Nat) (miner : String)
    (extraTxs : List Transaction) (totalFees : UInt64) :
    ∃ tx, (candidateBlock P params parent timestampSeconds miner extraTxs totalFees).transactions
      = tx :: extraTxs ∧ tx.isCoinbase = true := by
  refine ⟨_, rfl, ?_⟩
  split_ifs
  · exact Transaction.isCoinbase_withoutInputs P _ 0 _ miner
  · exact Transaction.isCoinbase_withoutInputs P _ _ _ miner

/-- A candidate with the required difficulty and enough work is valid on its
    parent, whatever transactions it carries. -/
theorem candidateBlock_validated {parent : Option Block} {timestampSeconds : Nat} {miner : String}
    {extraTxs : List Transaction} {totalFees : UInt64} {bits : UInt8} {nonce : UInt64}
    {seed : Hash256}
    (hwork : headerMeetsWork P (((candidateBlock P params parent timestampSeconds miner extraTxs
      totalFees).withBits bits).withNonce nonce).header seed = true) :
    Validated P params parent
      (((candidateBlock P params parent timestampSeconds miner extraTxs totalFees).withBits
        bits).withNonce nonce) timestampSeconds bits seed where
  chainId := rfl
  height := rfl
  previousHash := by
    rintro p rfl
    rfl
  timestamp := Nat.le_add_right _ _
  merkleRoot := rfl
  bits := rfl
  work := hwork
  coinbase := by
    obtain ⟨tx, htxs, hcb⟩ :=
      candidateBlock_coinbase (P := P) parent timestampSeconds miner extraTxs totalFees
    exact ⟨tx, extraTxs, htxs, hcb⟩

/-- The nonce search ends at once if the first nonce meets the work. -/
theorem mineHeader_first {header : BlockHeader} {seed : Hash256} (maxNonce : UInt64)
    (hwork : headerMeetsWork P { header with nonce := 0 } seed = true) :
    mineHeader P header seed maxNonce = some { header with nonce := 0 } := by
  unfold mineHeader mineHeaderFrom
  exact if_pos hwork

theorem mineCandidateBlock_first {parent : Option Block} {timestampSeconds : Nat} {miner : String}
    (maxNonce : UInt64) {bits : UInt8} {seed : Hash256}
    (hwork : headerMeetsWork P (((candidateBlock P params parent timestampSeconds miner []
      0).withBits bits).withNonce 0).header seed = true) :
    mineCandidateBlock P params parent timestampSeconds miner maxNonce bits seed
      = .ok (((candidateBlock P params parent timestampSeconds miner [] 0).withBits
        bits).withNonce 0) := by
  unfold mineCandidateBlock
  dsimp only
  rw [mineHeader_first maxNonce hwork]
  rfl

/-- If the first nonce meets the work, mining on the tip installs the candidate
    with that nonce. -/
theorem ChainState.mineNextBlock_ok {s : ChainState} {parent : Block}
    (htip : s.tipCache = some parent) (timestampSeconds : Nat) (miner : String) (maxNonce : UInt64)
    (hwork : headerMeetsWork P (((candidateBlock P params (some parent) timestampSeconds miner []
      0).withBits (s.expectedLeadingZeroBitsFor params (some parent))).withNonce 0).header
      (s.epochSeedForHeight P (parent.header.height + 1)) = true) :
    (s.mineNextBlock P params timestampSeconds miner maxNonce).2
      = s.installTip P (((candidateBlock P params (some parent) timestampSeconds miner []
          0).withBits (s.expectedLeadingZeroBitsFor params (some parent))).withNonce 0) := by
  unfold mineNextBlock tip
  rw [htip]
  dsimp only
  rw [mineCandidateBlock_first maxNonce hwork]
  dsimp only
  unfold validateAndInstall
  rw [validateBlock_ok.mpr (candidateBlock_validated hwork)]

/-- The same of the genesis block. -/
theorem ChainState.initGenesis_ok {s : ChainState} (hempty : s.heightCache = none)
    (timestampSeconds : Nat) (maxNonce : UInt64)
    (hwork : headerMeetsWork P (((candidateBlock P params none timestampSeconds "genesis" []
      0).withBits (s.expectedLeadingZeroBitsFor params none)).withNonce 0).header
      (s.epochSeedForHeight P 0) = true) :
    (s.initGenesis P params timestampSeconds maxNonce).2
      = s.installTip P (((candidateBlock P params none timestampSeconds "genesis" []
          0).withBits (s.expectedLeadingZeroBitsFor params none)).withNonce 0) := by
  unfold initGenesis
  rw [hempty]
  dsimp only
  rw [mineCandidateBlock_first maxNonce hwork, if_neg (by simp)]
  dsimp only
  unfold validateAndInstall
  rw [validateBlock_ok.mpr (candidateBlock_validated hwork)]

/-! ## The transactions -/

/-- The coinbase the node builds above genesis claims exactly the reward. -/
theorem coinbase_totalOutputAtoms (height : Nat) (reward : UInt64) (miner : String) :
    (Transaction.coinbase P height reward miner).totalOutputAtoms = reward := by
  unfold Transaction.coinbase Transaction.withoutInputs Transaction.totalOutputAtoms
  dsimp only
  split_ifs with hzero
  · rw [hzero]
    rfl
  · refine UInt64.toNat_inj.mp ?_
    have hlt := reward.toNat_lt
    have hmin : min reward.toNat (2 ^ 64 - 1) = reward.toNat := by omega
    rw [List.foldl_cons, List.foldl_nil, toNat_satAdd64, UInt64.toNat_zero, Nat.zero_add]
    exact hmin

/-- A block of a coinbase alone is accepted on every set, if the coinbase keeps
    to the limit. -/
theorem applyBlock_coinbaseOnly {block : Block} {tx : Transaction}
    (htxs : block.transactions = [tx])
    (hlimit : tx.totalOutputAtoms ≤ maxCoinbaseAtoms params block.header.height 0) (u : UtxoSet) :
    applyBlock P params block u = .ok (applyDelta block u) := by
  have hfees : totalFees P params u block.header.height [] = .ok (∅, 0) := rfl
  exact applyBlock_of_fees htxs hfees hlimit

/-- `apply_block` accepts a mined block on every set. -/
theorem applyBlock_mined (parent : Option Block) (timestampSeconds : Nat) (miner : String)
    (bits : UInt8) (nonce : UInt64) (u : UtxoSet)
    (hpremint : ¬ (parent.elim 0 (fun p => p.header.height + 1) = 0 ∧ hasGenesisPremint params)) :
    ∃ u', applyBlock P params (((candidateBlock P params parent timestampSeconds miner []
      0).withBits bits).withNonce nonce) u = .ok u' := by
  let height := parent.elim 0 fun p => p.header.height + 1
  have htxs : (((candidateBlock P params parent timestampSeconds miner [] 0).withBits
      bits).withNonce nonce).transactions
      = [Transaction.coinbase P height (satAdd64 (rewardAtHeight params height) 0) miner] := by
    unfold candidateBlock Block.withBits Block.withNonce
    exact congrArg (fun tx => [tx]) (if_neg hpremint)
  refine ⟨_, applyBlock_coinbaseOnly htxs ?_ u⟩
  rw [coinbase_totalOutputAtoms]
  show _ ≤ maxCoinbaseAtoms params height 0
  unfold maxCoinbaseAtoms
  rw [if_neg hpremint]
  exact UInt64.le_refl _

/-- A chain that replays still does with a mined block on top. -/
theorem replayUtxo_mined {chain : List Block} {u : UtxoSet}
    (h : replayUtxo P params chain.reverse = .ok u) (parent : Option Block)
    (timestampSeconds : Nat) (miner : String) (bits : UInt8) (nonce : UInt64)
    (hpremint : ¬ (parent.elim 0 (fun p => p.header.height + 1) = 0 ∧ hasGenesisPremint params)) :
    ∃ u', replayUtxo P params ((((candidateBlock P params parent timestampSeconds miner []
      0).withBits bits).withNonce nonce) :: chain).reverse = .ok u' := by
  obtain ⟨u', hu'⟩ :=
    applyBlock_mined (P := P) parent timestampSeconds miner bits nonce u hpremint
  refine ⟨u', ?_⟩
  rw [List.reverse_cons, replayUtxo_concat, h]
  exact hu'

/-! ## Mining on the ledger -/

/-- Mining on the tip adopts the candidate, if its first nonce meets the work. -/
theorem ChainState.Represents.mineNextBlock {U : Set Block} {s : ChainState} {L : Ledger}
    (hR : Represents P params s L) (hL : L.WellFormed P U) (hU : HashFaithful P U)
    {parent block : Block} (hhead : L.chain.head? = some parent) {timestampSeconds : Nat}
    {miner : String} (maxNonce : UInt64)
    (hblock : block = ((candidateBlock P params (some parent) timestampSeconds miner []
      0).withBits (requiredBits params L.chain)).withNonce 0)
    (hmem : block ∈ U)
    (hwork : headerMeetsWork P block.header (chainSeed P L.chain block.header.height) = true) :
    Represents P params (s.step P params (.mineNextBlock timestampSeconds miner maxNonce))
      (L.adopt P block L.chain) ∧ (L.adopt P block L.chain).WellFormed P U := by
  have hlen := hL.chain_length hhead
  have hparents : L.AncestryOf block.previousHash L.chain := by
    rw [hblock]
    exact hL.chain parent hhead
  have hheight : block.header.height = L.chain.length := by
    rw [hblock]
    exact hlen
  have hbits : s.expectedLeadingZeroBitsFor params (some parent) = requiredBits params L.chain := by
    rw [← hhead]
    exact hR.expectedLeadingZeroBitsFor_eq hL hU hparents
  -- The ledger's difficulty and seed are those the node reads from its store.
  have hstep : s.step P params (.mineNextBlock timestampSeconds miner maxNonce)
      = s.installTip P block := by
    rw [hheight, ← hlen, ← hR.epochSeedForHeight_eq hL] at hwork
    rw [hblock, ← hbits] at hwork ⊢
    exact mineNextBlock_ok (hR.tipCache.trans hhead) timestampSeconds miner maxNonce hwork
  rw [hstep]
  exact ⟨hR.installTip hL hU hmem hheight, hL.adopt hU hmem hparents hheight⟩

/-! ## The first epoch -/

/-- A network on which the whole first epoch can be mined without a search: its
    candidates meet the work under the zero seed, it does not retarget before
    the epoch ends, and its genesis block carries no pre-mint. -/
structure EasyNetwork (P : Primitives) (params : ConsensusParams) : Prop where
  work : ∀ parent timestampSeconds miner,
    headerMeetsWork P (candidateBlock P params parent timestampSeconds miner [] 0).header
      Hash256.zero = true
  activation : TensorHash.epochLength < params.difficultyRetargetActivationHeight
  premint : hasGenesisPremint params = false

/-- A child of `parent`, stamped with a given time. -/
def childAt (P : Primitives) (params : ConsensusParams) (parent : Block) (timestampSeconds : Nat) :
    Block :=
  candidateBlock P params (some parent) timestampSeconds "m" [] 0

/-- A chain of blocks, one second apart. -/
def clockChain (P : Primitives) (params : ConsensusParams) : Nat → Block
  | 0 => candidateBlock P params none 1 "genesis" [] 0
  | n + 1 => childAt P params (clockChain P params n) (n + 2)

theorem clockChain_height (n : Nat) : (clockChain P params n).header.height = n := by
  induction n with
  | zero => rfl
  | succ n ih =>
    show (clockChain P params n).header.height + 1 = n + 1
    rw [ih]

theorem clockChain_timestamp (n : Nat) :
    (clockChain P params n).header.timestampSeconds = n + 1 := by
  cases n with
  | zero => rfl
  | succ n => rfl

/-- Before retargeting is active the required difficulty is the initial one. -/
theorem requiredBits_inactive {chain : List Block} {tip : Block} (hhead : chain.head? = some tip)
    (hheight : tip.header.height + 1 < params.difficultyRetargetActivationHeight) :
    requiredBits params chain = params.initialLeadingZeroBits := by
  unfold requiredBits expectedLeadingZeroBits
  rw [hhead]
  exact if_pos hheight

namespace ChainState

variable {U : Set Block} {s : ChainState} {L : Ledger} {tip : Block}

/-- A node that has mined up to `tip`: its ledger replays and knows nothing
    above the tip. -/
structure Grown (P : Primitives) (params : ConsensusParams) (U : Set Block) (s : ChainState)
    (L : Ledger) (tip : Block) : Prop where
  reachable : Reachable P params U s
  represents : Represents P params s L
  wellFormed : L.WellFormed P U
  head : L.chain.head? = some tip
  replays : ∃ u, replayUtxo P params L.chain.reverse = .ok u
  heights : ∀ k b, L.known k = some b → b.header.height ≤ tip.header.height

/-- A node that has mined the first `n` blocks of the chain. -/
def clockRun (P : Primitives) (params : ConsensusParams) : Nat → ChainState
  | 0 => new.step P params (.initGenesis 1 0)
  | n + 1 => (clockRun P params n).step P params (.mineNextBlock (n + 2) "m" 0)

section firstEpoch

variable (hnet : EasyNetwork P params) (hU : HashFaithful P U)

include hnet in
theorem Grown.requiredBits_eq (h : Grown P params U s L tip)
    (hepoch : tip.header.height + 1 < TensorHash.epochLength) :
    requiredBits params L.chain = params.initialLeadingZeroBits :=
  requiredBits_inactive h.head (hepoch.trans hnet.activation)

include hnet hU in
/-- In the first epoch every child of the tip can be mined. -/
theorem Grown.mine (h : Grown P params U s L tip) (timestampSeconds : Nat)
    (hmem : childAt P params tip timestampSeconds ∈ U)
    (hepoch : tip.header.height + 1 < TensorHash.epochLength) :
    Grown P params U (s.step P params (.mineNextBlock timestampSeconds "m" 0))
      (L.adopt P (childAt P params tip timestampSeconds) L.chain)
      (childAt P params tip timestampSeconds) := by
  have hblock : childAt P params tip timestampSeconds
      = ((candidateBlock P params (some tip) timestampSeconds "m" [] 0).withBits
        (requiredBits params L.chain)).withNonce 0 := by
    rw [h.requiredBits_eq hnet hepoch]
    rfl
  have hseed : chainSeed P L.chain (childAt P params tip timestampSeconds).header.height
      = Hash256.zero := if_pos (Nat.div_eq_of_lt hepoch)
  have hwork : headerMeetsWork P (childAt P params tip timestampSeconds).header
      (chainSeed P L.chain (childAt P params tip timestampSeconds).header.height) = true := by
    rw [hseed]
    exact hnet.work (some tip) timestampSeconds "m"
  obtain ⟨hR, hL⟩ := h.represents.mineNextBlock h.wellFormed hU h.head 0 hblock hmem hwork
  obtain ⟨u, hu⟩ := h.replays
  refine ⟨.step _ h.reachable (hR.storesOnly hL), hR, hL, rfl, ?_, ?_⟩
  · exact replayUtxo_mined hu (some tip) timestampSeconds "m" params.initialLeadingZeroBits 0
      fun hpremint => Nat.succ_ne_zero _ hpremint.1
  · intro k b hk
    rcases Ledger.store_known_cases hk with ⟨_, rfl⟩ | hold
    · exact le_rfl
    · exact (h.heights k b hold).trans (Nat.le_succ _)

include hnet hU in
theorem clockRun_genesis (hmem : clockChain P params 0 ∈ U) :
    Grown P params U (clockRun P params 0) (Ledger.empty.adopt P (clockChain P params 0) [])
      (clockChain P params 0) := by
  have hbits : new.expectedLeadingZeroBitsFor params none = params.initialLeadingZeroBits :=
    if_pos (lt_of_le_of_lt (Nat.zero_le _) hnet.activation)
  have hblock : clockChain P params 0 = ((candidateBlock P params none 1 "genesis" [] 0).withBits
      (new.expectedLeadingZeroBitsFor params none)).withNonce 0 := by
    rw [hbits]
    rfl
  have hstep : clockRun P params 0 = new.installTip P (clockChain P params 0) := by
    have hwork := hnet.work none 1 "genesis"
    rw [hblock]
    refine initGenesis_ok rfl 1 0 ?_
    rw [← hblock]
    exact hwork
  have hR : Represents P params (clockRun P params 0)
      (Ledger.empty.adopt P (clockChain P params 0) []) := by
    rw [hstep]
    exact represents_new.installTip Ledger.wellFormed_empty hU hmem rfl
  have hL : (Ledger.empty.adopt P (clockChain P params 0) []).WellFormed P U :=
    Ledger.wellFormed_genesis (fun _ => rfl) hmem rfl rfl
  have hreplay : replayUtxo P params ([] : List Block).reverse = .ok ∅ := rfl
  refine ⟨.step _ .init (hR.storesOnly hL), hR, hL, rfl, ?_, ?_⟩
  · refine replayUtxo_mined hreplay none 1 "genesis" params.initialLeadingZeroBits 0 ?_
    rw [hnet.premint]
    exact fun hpremint => Bool.false_ne_true hpremint.2
  · intro k b hk
    rcases Ledger.store_known_cases hk with ⟨_, rfl⟩ | hold
    · exact le_rfl
    · cases hold

include hnet hU in
/-- The chain can be mined up to the end of the first epoch. -/
theorem clockRun_grown {n : Nat} (hmem : ∀ k ≤ n, clockChain P params k ∈ U)
    (hepoch : n < TensorHash.epochLength) :
    ∃ L, Grown P params U (clockRun P params n) L (clockChain P params n) := by
  induction n with
  | zero => exact ⟨_, clockRun_genesis hnet hU (hmem 0 le_rfl)⟩
  | succ n ih =>
    obtain ⟨L, hL⟩ := ih (fun k hk => hmem k (Nat.le_succ_of_le hk)) (Nat.lt_of_succ_lt hepoch)
    refine ⟨_, hL.mine hnet hU (n + 2) (hmem (n + 1) le_rfl) ?_⟩
    rw [clockChain_height]
    exact hepoch

include hnet in
/-- Under the zero seed a child is valid on its parent. -/
theorem childAt_validated (parent : Block) (timestampSeconds : Nat) :
    Validated P params (some parent) (childAt P params parent timestampSeconds) timestampSeconds
      params.initialLeadingZeroBits Hash256.zero := by
  have hblock : childAt P params parent timestampSeconds
      = ((candidateBlock P params (some parent) timestampSeconds "m" [] 0).withBits
        params.initialLeadingZeroBits).withNonce 0 := rfl
  have hwork := hnet.work (some parent) timestampSeconds "m"
  rw [hblock]
  exact candidateBlock_validated hwork

include hU in
/-- A second child of the old tip is new to a node that mined the first. -/
theorem Grown.rival_fresh (h : Grown P params U s L tip) {t t' : Nat}
    (hmined : Grown P params U (s.step P params (.mineNextBlock t "m" 0))
      (L.adopt P (childAt P params tip t) L.chain) (childAt P params tip t))
    (hmem' : childAt P params tip t' ∈ U) (hne : t ≠ t') :
    (L.adopt P (childAt P params tip t) L.chain).known ((childAt P params tip t').hash P)
      = none := by
  refine Option.eq_none_iff_forall_ne_some.mpr fun b hb => ?_
  have hb' : b = childAt P params tip t' :=
    hU.injective b (hmined.wellFormed.mem _ _ hb) _ hmem' (hmined.wellFormed.keyed _ _ hb)
  rcases Ledger.store_known_cases hb with ⟨_, hself⟩ | hold
  · rw [hb'] at hself
    exact hne (congrArg (fun b => b.header.timestampSeconds) hself).symm
  · -- What was known before lies at or below the old tip.
    have hle := h.heights _ _ hold
    rw [hb'] at hle
    exact absurd hle (Nat.not_succ_le_self _)

include hnet hU in
/-- A second child of the old tip is stored beside the first, which has the same
    work and stays canonical. -/
theorem Grown.submitRival (h : Grown P params U s L tip) {t t' : Nat}
    (hmem : childAt P params tip t ∈ U) (hmem' : childAt P params tip t' ∈ U) (hne : t ≠ t')
    (hepoch : tip.header.height + 1 < TensorHash.epochLength) :
    let s' := (s.step P params (.mineNextBlock t "m" 0)).step P params
      (.submitBlock (childAt P params tip t') t')
    let L' := (L.adopt P (childAt P params tip t) L.chain).store P (childAt P params tip t')
    Reachable P params U s' ∧ Represents P params s' L' ∧ L'.WellFormed P U := by
  intro s' L'
  have hmined := h.mine hnet hU t hmem hepoch
  have hfresh := h.rival_fresh hU hmined hmem' hne
  have hparents : (L.adopt P (childAt P params tip t) L.chain).AncestryOf
      (childAt P params tip t').previousHash L.chain :=
    (h.wellFormed.chain tip h.head).mono (h.wellFormed.store_extends hU hmem)
  have hseed : chainSeed P (childAt P params tip t :: L.chain)
      (childAt P params tip t').header.height = Hash256.zero := if_pos (Nat.div_eq_of_lt hepoch)
  have hval : validateBlock P params L.chain.head? (childAt P params tip t') t'
      (requiredBits params L.chain) (chainSeed P (childAt P params tip t :: L.chain)
        (childAt P params tip t').header.height) = .ok () := by
    rw [h.requiredBits_eq hnet hepoch, hseed, h.head]
    exact validateBlock_ok.mpr (childAt_validated hnet tip t')
  -- Candidates of one network carry the same difficulty, so neither is heavier.
  have hwork : ¬ branchWork (childAt P params tip t' :: L.chain)
      > branchWork (childAt P params tip t :: L.chain) := lt_irrefl _
  obtain ⟨u, hu⟩ := hmined.replays
  have hsubmit : (L.adopt P (childAt P params tip t) L.chain).submit P params
      (childAt P params tip t') t' = (.ok (childAt P params tip t'), L') := by
    rw [Ledger.submit_valid hfresh hu hparents hval]
    exact if_neg hwork
  obtain ⟨_, hR', hL'⟩ := hmined.represents.submitBlock hmined.wellFormed hU t' fun _ => hmem'
  rw [hsubmit] at hR' hL'
  exact ⟨.step _ hmined.reachable (hR'.storesOnly hL'), hR', hL'⟩

end firstEpoch

end ChainState

end Tensorium
