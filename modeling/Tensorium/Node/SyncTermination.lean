import Tensorium.Node.CatchUp
import Tensorium.State.GrownChains

/-! # Whether sync ends

    `sync_blocks` goes by height, fork choice by work. Against a peer that serves
    one fixed chain the loop ends unless the chain is taller than the local one
    and yet, as far as the loop gets to see it, no heavier.
-/

namespace Tensorium

open BulkMap ParentLinked

namespace Node

variable {P : Primitives} {params : ConsensusParams} {U : Set Block} {Q : List Block}
variable {s : ChainState} {K₀ : Nat}

/-! ## The start of a sync -/

/-- The abstract loop of a sync is lawful. -/
theorem catchUp_lawful (P : Primitives) (params : ConsensusParams) (now : Block → Nat)
    (A : List Block) (remoteHeight : Nat) (hbound : K₀ < Q.length) :
    (catchUp P params now A Q K₀ remoteHeight).Lawful K₀ where
  batch := by
    show 0 < syncBatchSize
    decide
  ready _ h := h.synced
  mono _ _ hij h := h.mono hij
  lost h := absurd h.1 (lt_irrefl K₀)
  stored := hbound

/-- What a sync starts from: a ledger of maximal work, of which the chain of the
    peer is stored up to some position. -/
structure Start (P : Primitives) (params : ConsensusParams) (U : Set Block) (Q : List Block)
    (s : ChainState) (L : Ledger) (K₀ : Nat) : Prop where
  represents : ChainState.Represents P params s L
  maxWork : L.MaxWork P params
  nonempty : L.chain ≠ []
  copied : L.Copied P params U L.chain Q K₀ K₀

/-- Two chains with a common genesis block. -/
def SharesGenesis (s : ChainState) (Q : List Block) : Prop :=
  ∃ g, s.canonicalBlocksIter.head? = some g ∧ Q.head? = some g

theorem exists_start (hs : ChainState.Reachable P params U s) (hU : HashFaithful P U)
    (hmodest : ModestDifficulty params) (hQ : PeerChain P U Q) (hgenesis : SharesGenesis s Q) :
    ∃ L K₀, Start P params U Q s L K₀ := by
  obtain ⟨L, hR, hL, hmax⟩ := hs.maxWork hU
  obtain ⟨g, hlocal, hremote⟩ := hgenesis
  rw [hR.canonicalBlocksIter_eq hL] at hlocal
  have hmem : g ∈ L.chain := List.mem_reverse.mp (List.mem_of_head? hlocal)
  have hne : L.chain ≠ [] := List.ne_nil_of_mem hmem
  have hknown := hL.known_of_mem (hL.chain_ancestry hne) hmem
  have hbits : ∀ k b, L.known k = some b → b.header.leadingZeroBits ≤ 63 := by
    intro k b hk
    rw [← hR.known] at hk
    exact hs.bits_le hU hmodest hk
  rw [List.head?_eq_getElem?] at hremote
  obtain ⟨K₀, hcopied⟩ :=
    Ledger.exists_copied params hL hU hQ hbits hremote (by rw [hknown]; rfl)
  exact ⟨L, K₀, hR, hmax, hne, hcopied⟩

namespace Start

variable {L : Ledger}

theorem at_start (h : Start P params U Q s L K₀) : At P params U L.chain Q K₀ s K₀ := by
  have hlost : ¬ Overtakes L.chain Q K₀ K₀ := fun hover => absurd hover.1 (lt_irrefl K₀)
  exact ⟨⟨L, h.represents, h.copied⟩, fun hover => absurd hover hlost,
    fun hover => absurd hover hlost⟩

/-- The local height. -/
theorem height_eq (h : Start P params U Q s L K₀) : s.height.getD 0 = L.chain.length - 1 := by
  obtain ⟨b, t, hcons⟩ := List.exists_cons_of_ne_nil h.nonempty
  have hhead : L.chain.head? = some b := by
    rw [hcons]
    rfl
  have hlength := h.copied.wellFormed.chain_length hhead
  unfold ChainState.height
  rw [h.represents.heightCache, hhead]
  show b.header.height = L.chain.length - 1
  omega

theorem tipWork_eq (h : Start P params U Q s L K₀) (hU : HashFaithful P U) :
    s.chainWork (s.tipHash P) = branchWork L.chain :=
  h.represents.tipWork_eq h.copied.wellFormed hU

/-- What is stored of the chain of the peer. -/
theorem blockKnown_iff (h : Start P params U Q s L K₀) {j : Nat} {b : Block}
    (hb : Q[j]? = some b) : s.blockKnown (b.hash P) = true ↔ j ≤ K₀ := by
  have hget : s.blockKnown (b.hash P) = (L.known (b.hash P)).isSome := by
    rw [← h.represents.known]
    rfl
  rw [hget]
  by_cases hj : j ≤ K₀
  · rw [h.copied.stored j b hb hj]
    exact ⟨fun _ => hj, fun _ => rfl⟩
  · rw [h.copied.fresh j b hb (by omega)]
    exact ⟨fun hsome => absurd hsome Bool.false_ne_true, fun hle => absurd hle hj⟩

/-- And what is not. -/
theorem unknown_iff (h : Start P params U Q s L K₀) {j : Nat} {b : Block} (hb : Q[j]? = some b) :
    s.blockKnown (b.hash P) = false ↔ K₀ < j := by
  rw [← not_le, ← h.blockKnown_iff hb, Bool.not_eq_true]

/-- The stored part does not outweigh the local chain if it replays. -/
theorem stored_le (h : Start P params U Q s L K₀) (hU : HashFaithful P U) (hQ : PeerChain P U Q)
    (hreplays : Replays P params (Q.take (K₀ + 1))) :
    branchWork (upTo Q K₀) ≤ branchWork L.chain := by
  obtain ⟨b, hb⟩ : ∃ b, Q[K₀]? = some b := ⟨_, List.getElem?_eq_getElem h.copied.bound⟩
  have hwalk := Ledger.ancestry_upTo h.copied.wellFormed hU hQ hb h.copied.stored
  obtain ⟨u, hu⟩ := hreplays
  exact h.maxWork _ _ u hwalk (by rw [upTo_reverse]; exact hu)

/-- `sync_blocks` from here runs as the abstract loop from its start. -/
theorem syncBlocks_run (h : Start P params U Q s L K₀) (now : Block → Nat) (remoteHeight : Nat)
    (hU : HashFaithful P U) (hQ : PeerChain P U Q) (hmodest : ModestDifficulty params)
    (hlength : Q.length ≤ 2 ^ 64) (fuel : Nat) :
    match (catchUp P params now L.chain Q K₀ remoteHeight).run fuel
        ((catchUp P params now L.chain Q K₀ remoteHeight).start K₀) with
    | none => syncBlocks P params now remoteHeight (servedBy Q) fuel s = none
    | some (true, K) => ∃ synced s',
        syncBlocks P params now remoteHeight (servedBy Q) fuel s = some (.ok synced, s') ∧
        At P params U L.chain Q K₀ s' K
    | some (false, K) => ∃ e s',
        syncBlocks P params now remoteHeight (servedBy Q) fuel s = some (.error e, s') ∧
        ChainIs P params U L.chain Q K₀ s' K := by
  refine syncLoop_run now remoteHeight hU hQ hmodest hlength h.nonempty fuel h.at_start ?_ rfl
  show s.height.getD 0 + 1 = L.chain.length - 1 + 1
  rw [h.height_eq]

/-- A `sync_blocks` that ends comes from a run of the abstract loop that ends in the
    same way. -/
theorem run_of_syncBlocks (h : Start P params U Q s L K₀) {now : Block → Nat}
    {remoteHeight : Nat} (hU : HashFaithful P U) (hQ : PeerChain P U Q)
    (hmodest : ModestDifficulty params) (hlength : Q.length ≤ 2 ^ 64) {fuel : Nat}
    {outcome : Except SyncError Nat} {s' : ChainState}
    (hsync : syncBlocks P params now remoteHeight (servedBy Q) fuel s = some (outcome, s')) :
    ∃ ok K, (catchUp P params now L.chain Q K₀ remoteHeight).run fuel
        ((catchUp P params now L.chain Q K₀ remoteHeight).start K₀) = some (ok, K) ∧
      ((ok = true ∧ (∃ synced, outcome = .ok synced) ∧ At P params U L.chain Q K₀ s' K) ∨
        (ok = false ∧ (∃ e, outcome = .error e) ∧ ChainIs P params U L.chain Q K₀ s' K)) := by
  have hsim := h.syncBlocks_run now remoteHeight hU hQ hmodest hlength fuel
  cases hcase : (catchUp P params now L.chain Q K₀ remoteHeight).run fuel
      ((catchUp P params now L.chain Q K₀ remoteHeight).start K₀) with
  | none =>
    rw [hcase] at hsim
    cases hsim.symm.trans hsync
  | some out =>
    obtain ⟨ok, K⟩ := out
    rw [hcase] at hsim
    refine ⟨ok, K, rfl, ?_⟩
    cases ok with
    | true =>
      left
      obtain ⟨synced, s'', hsync', hat⟩ := hsim
      obtain ⟨rfl, rfl⟩ := Prod.mk.inj (Option.some.inj (hsync'.symm.trans hsync))
      exact ⟨rfl, ⟨synced, rfl⟩, hat⟩
    | false =>
      right
      obtain ⟨e, s'', hsync', hchain⟩ := hsim
      obtain ⟨rfl, rfl⟩ := Prod.mk.inj (Option.some.inj (hsync'.symm.trans hsync))
      exact ⟨rfl, ⟨e, rfl⟩, hchain⟩

/-- A run that ends well has copied the whole chain of a taller peer, and the copy
    has overtaken. -/
theorem copied_all (h : Start P params U Q s L K₀) (now : Block → Nat)
    (htaller : s.height.getD 0 + 1 < Q.length) {fuel K : Nat}
    (hrun : (catchUp P params now L.chain Q K₀ (Q.length - 1)).run fuel
      ((catchUp P params now L.chain Q K₀ (Q.length - 1)).start K₀) = some (true, K)) :
    K + 1 = Q.length ∧ Overtakes L.chain Q K₀ K := by
  have hheight := h.height_eq
  have hlaw := catchUp_lawful P params now L.chain (Q.length - 1) h.copied.bound
  exact CatchUp.Setting.copied_all hlaw (show L.chain.length - 1 + 1 < Q.length by omega)
    (show Q.length - 1 + 1 = Q.length by omega) hrun

end Start

/-! ## Whether it ends -/

/-- `sync_blocks` stays where it is: the peer is taller, by its chain and by its
    word, the fork is within reach, and everything in the first batch behind the
    local tip can be stored without outweighing the local chain. -/
structure SyncStalls (P : Primitives) (params : ConsensusParams) (now : Block → Nat)
    (s : ChainState) (Q : List Block) (remoteHeight : Nat) : Prop where
  taller : s.height.getD 0 + 1 < Q.length
  claimed : s.height.getD 0 < remoteHeight
  ancestor : ∀ b, Q[s.height.getD 0 - maxForkSearchDepth]? = some b →
    s.blockKnown (b.hash P) = true
  lighter : ∀ (j : Nat) (b : Block), Q[j]? = some b → j ≤ s.height.getD 0 + syncBatchSize →
    s.blockKnown (b.hash P) = false →
    Replays P params s.canonicalBlocksIter ∧
    validateBlock P params Q[j - 1]? b (now b) (requiredBits params (upTo Q (j - 1)))
      (s.epochSeedForHeight P j) = .ok () ∧
    branchWork (upTo Q j) ≤ s.chainWork (s.tipHash P)

/-- This is when the abstract loop stalls. -/
theorem Start.stalls_iff {L : Ledger} (h : Start P params U Q s L K₀) (hU : HashFaithful P U)
    (now : Block → Nat) (remoteHeight : Nat) :
    (catchUp P params now L.chain Q K₀ remoteHeight).Stalls K₀ ↔
      SyncStalls P params now s Q remoteHeight := by
  have hL := h.copied.wellFormed
  have hheight := h.height_eq
  have hbound := h.copied.bound
  have hseed := h.represents.epochSeedForHeight_eq hL
  have hiter := h.represents.canonicalBlocksIter_eq hL
  have hwork := h.tipWork_eq hU
  constructor
  · intro hst
    have hlonger : L.chain.length - 1 + 1 < Q.length := hst.longer
    have hdepth : L.chain.length - 1 ≤ K₀ + maxForkSearchDepth := hst.depth
    have hlost : ∀ j, K₀ < j → j < Q.length → j ≤ L.chain.length - 1 + syncBatchSize →
        Passes P params now L.chain Q K₀ j ∧ ¬ Overtakes L.chain Q K₀ j := hst.lost
    refine ⟨by omega, ?_, ?_, ?_⟩
    · rw [hheight]
      exact hst.goal
    · intro b hb
      rw [h.blockKnown_iff hb, hheight]
      omega
    · intro j b hb hrange hfresh
      obtain ⟨hlt, _⟩ := List.getElem?_eq_some_iff.mp hb
      have hj := (h.unknown_iff hb).mp hfresh
      obtain ⟨hpass, hlight⟩ := hlost j hj hlt (by omega)
      obtain ⟨c, hc, hval⟩ := hpass.valid
      obtain rfl := Option.some.inj (hb.symm.trans hc)
      -- Nothing overtakes, so each block is judged against the local chain.
      have hbefore : ¬ Overtakes L.chain Q K₀ (j - 1) := fun hover => hlight (hover.mono (by omega))
      rw [chainAt, if_neg hbefore] at hval
      rw [hiter, hseed, hwork]
      exact ⟨hpass.synced, hval, not_lt.mp fun hlt => hlight ⟨hj, hlt⟩⟩
  · intro hst
    have htaller := hst.taller
    refine ⟨?_, ?_, ?_, ?_⟩
    · show L.chain.length - 1 + 1 < Q.length
      omega
    · show L.chain.length - 1 < remoteHeight
      rw [← hheight]
      exact hst.claimed
    · show L.chain.length - 1 ≤ K₀ + maxForkSearchDepth
      -- The common ancestor is at most the search depth below the tip.
      obtain ⟨b, hb⟩ : ∃ b, Q[s.height.getD 0 - maxForkSearchDepth]? = some b :=
        ⟨_, List.getElem?_eq_getElem (by omega)⟩
      have hle := (h.blockKnown_iff hb).mp (hst.ancestor b hb)
      omega
    · intro j hj hlt hrange
      have hlt : j < Q.length := hlt
      have hrange : j ≤ L.chain.length - 1 + syncBatchSize := hrange
      have hlight : ∀ i, K₀ < i → i ≤ j → ¬ Overtakes L.chain Q K₀ i := by
        intro i hi hij hover
        obtain ⟨c, hc⟩ : ∃ c, Q[i]? = some c := ⟨_, List.getElem?_eq_getElem (by omega)⟩
        obtain ⟨_, _, hle⟩ := hst.lighter i c hc (by omega) ((h.unknown_iff hc).mpr hi)
        rw [hwork] at hle
        exact absurd hover.2 (not_lt.mpr hle)
      obtain ⟨b, hb⟩ : ∃ b, Q[j]? = some b := ⟨_, List.getElem?_eq_getElem hlt⟩
      obtain ⟨hsynced, hval, _⟩ := hst.lighter j b hb (by omega) ((h.unknown_iff hb).mpr hj)
      have hbefore : ¬ Overtakes L.chain Q K₀ (j - 1) := by
        intro hover
        exact hlight (j - 1) hover.1 (by omega) hover
      rw [hiter] at hsynced
      rw [hseed] at hval
      refine ⟨⟨hsynced, ⟨b, hb, ?_⟩, fun hover => absurd hover (hlight j hj (le_refl j))⟩,
        hlight j hj (le_refl j)⟩
      rw [chainAt, if_neg hbefore]
      exact hval

/-- A sync that stalls is still running after any number of rounds. -/
theorem Start.syncBlocks_stalled {L : Ledger} (h : Start P params U Q s L K₀)
    (hU : HashFaithful P U) (hQ : PeerChain P U Q) (hmodest : ModestDifficulty params)
    (hlength : Q.length ≤ 2 ^ 64) {now : Block → Nat} {remoteHeight : Nat}
    (hst : SyncStalls P params now s Q remoteHeight) (fuel : Nat) :
    syncBlocks P params now remoteHeight (servedBy Q) fuel s = none := by
  have hlaw := catchUp_lawful P params now L.chain remoteHeight h.copied.bound
  have hrun := h.syncBlocks_run now remoteHeight hU hQ hmodest hlength fuel
  have hnone : (catchUp P params now L.chain Q K₀ remoteHeight).run fuel
      ((catchUp P params now L.chain Q K₀ remoteHeight).start K₀) = none := by
    rw [← Option.not_isSome_iff_eq_none]
    intro hsome
    exact (CatchUp.Setting.halts_iff hlaw).mp ⟨fuel, hsome⟩
      ((h.stalls_iff hU now remoteHeight).mpr hst)
  rw [hnone] at hrun
  exact hrun

/-- **`sync_blocks` ends exactly when it does not stall**, whatever height the
    peer claims. -/
theorem syncBlocks_ends_iff (P : Primitives) (params : ConsensusParams) (U : Set Block)
    (hU : HashFaithful P U) (hmodest : ModestDifficulty params) (s : ChainState)
    (hs : ChainState.Reachable P params U s) (Q : List Block) (hQ : PeerChain P U Q)
    (hlength : Q.length ≤ 2 ^ 64) (hgenesis : SharesGenesis s Q) (now : Block → Nat)
    (remoteHeight : Nat) :
    (∃ fuel, (syncBlocks P params now remoteHeight (servedBy Q) fuel s).isSome) ↔
      ¬ SyncStalls P params now s Q remoteHeight := by
  obtain ⟨L, K₀, h⟩ := exists_start hs hU hmodest hQ hgenesis
  constructor
  · rintro ⟨fuel, hsome⟩ hst
    rw [h.syncBlocks_stalled hU hQ hmodest hlength hst] at hsome
    cases hsome
  · intro hst
    have hlaw := catchUp_lawful P params now L.chain remoteHeight h.copied.bound
    obtain ⟨fuel, hfuel⟩ := (CatchUp.Setting.halts_iff hlaw).mpr
      fun habs => hst ((h.stalls_iff hU now remoteHeight).mp habs)
    obtain ⟨⟨ok, K⟩, hrun⟩ := Option.isSome_iff_exists.mp hfuel
    have hsim := h.syncBlocks_run now remoteHeight hU hQ hmodest hlength fuel
    rw [hrun] at hsim
    refine ⟨fuel, ?_⟩
    cases ok with
    | true =>
      obtain ⟨synced, s', hsync, _⟩ := hsim
      rw [hsync]
      rfl
    | false =>
      obtain ⟨e, s', hsync, _⟩ := hsim
      rw [hsync]
      rfl

/-! ## A taller, lighter peer

    Two chains from one genesis block with the parameters of the main network.
    The blocks of one are a second apart, so its difficulty rises; those of the
    other are a quarter of an hour apart, so its difficulty falls. -/

/-- The genesis block of both. -/
def forkGenesis : Block := candidateBlock Primitives.sample mainnet none 1 "genesis" [] 0

/-- A chain on this genesis block, genesis first. -/
def forkOf (timestamps : List Nat) : List Block :=
  (grow Primitives.sample mainnet [forkGenesis] timestamps).reverse

/-- The state after the blocks of such a chain were submitted. -/
def stateOn (timestamps : List Nat) : ChainState :=
  (forkOf timestamps).foldl (fun s b => (s.submitBlock Primitives.sample mainnet b 100000).2)
    (ChainState.new.initGenesisNonce Primitives.sample mainnet 1 0).2

/-- The blocks of two chains. -/
def forkBlocksOf (timestamps timestamps' : List Nat) : List Block :=
  forkOf timestamps ++ forkOf timestamps'

/-- Distinct timestamps make distinct hashes. -/
theorem forkBlocksOf_faithful (timestamps timestamps' : List Nat)
    (hstamps : (timestamps.reverse ++ (timestamps'.reverse ++ [1])).Nodup)
    (hrange : ∀ t ∈ timestamps.reverse ++ (timestamps'.reverse ++ [1]), 0 < t ∧ t < 2 ^ 64) :
    HashFaithful Primitives.sample {b | b ∈ forkBlocksOf timestamps timestamps'} := by
  obtain ⟨new, hnew, hmap⟩ := grow_append (P := Primitives.sample) [forkGenesis] timestamps
  obtain ⟨new', hnew', hmap'⟩ := grow_append (P := Primitives.sample) [forkGenesis] timestamps'
  have hall : (new ++ (new' ++ [forkGenesis])).map (fun b => b.header.timestampSeconds)
      = timestamps.reverse ++ (timestamps'.reverse ++ [1]) := by
    rw [List.map_append, List.map_append, hmap, hmap']
    rfl
  have hfaithful := sample_faithful (l := new ++ (new' ++ [forkGenesis])) (by rwa [hall])
    (by rwa [hall])
  have hsub : ∀ b ∈ forkBlocksOf timestamps timestamps', b ∈ new ++ (new' ++ [forkGenesis]) := by
    intro b hb
    unfold forkBlocksOf forkOf at hb
    rw [hnew, hnew'] at hb
    simp only [List.mem_append, List.mem_reverse] at hb ⊢
    tauto
  exact ⟨fun a ha b hb => hfaithful.injective a (hsub a ha) b (hsub b hb),
    fun b hb => hfaithful.nonzero b (hsub b hb)⟩

/-- Both chains are chains of honest peers. -/
theorem forkOf_honest {U : Set Block} {timestamps : List Nat} (hmem : ∀ b ∈ forkOf timestamps, b ∈ U)
    (hnow : ∀ t ∈ timestamps, t ≤ 100000) :
    HonestPeer Primitives.sample mainnet U (fun _ => 100000) (forkOf timestamps) := by
  have hgenesis : forkGenesis ∈ U := by
    refine hmem forkGenesis ?_
    obtain ⟨new, hnew, _⟩ := grow_append (P := Primitives.sample) [forkGenesis] timestamps
    unfold forkOf
    rw [hnew]
    simp
  refine grow_honest sample_effortless (genesis_honest (by decide) 1 "genesis" hgenesis)
    (List.cons_ne_nil _ _) timestamps ?_ ?_
  · intro b hb
    exact hmem b (List.mem_reverse.mpr hb)
  · intro _ t ht
    have hle := hnow t ht
    omega

/-- The states are reachable. -/
theorem stateOn_reachable {U : Set Block} {timestamps : List Nat}
    (hstores : ChainState.StoresOnly U (stateOn timestamps)) :
    ChainState.Reachable Primitives.sample mainnet U (stateOn timestamps) := by
  have hfold : ∀ (chain : List Block) (s : ChainState),
      ChainState.Submits Primitives.sample mainnet s
        (chain.foldl (fun s b => (s.submitBlock Primitives.sample mainnet b 100000).2) s) := by
    intro chain
    induction chain with
    | nil => exact fun s => .refl
    | cons b chain ih =>
      intro s
      exact (ChainState.Submits.submit b 100000 .refl).trans (ih _)
  have hsubmits := hfold (forkOf timestamps)
    (ChainState.new.initGenesisNonce Primitives.sample mainnet 1 0).2
  have hgenesis : ChainState.StoresOnly U
      (ChainState.new.step Primitives.sample mainnet (.initGenesisNonce 1 0)) :=
    fun k b hk => hstores k b (hsubmits.grows k b hk)
  have hstart : ChainState.Reachable Primitives.sample mainnet U
      (ChainState.new.step Primitives.sample mainnet (.initGenesisNonce 1 0)) :=
    GuardedRun.Reachable.step _ GuardedRun.Reachable.init hgenesis
  exact hsubmits.reachable hstart hstores

theorem mainnet_modest : ModestDifficulty mainnet :=
  modestDifficulty_of_network (Or.inr (Or.inl rfl))

/-- Where every hash meets the work, a sync from near the genesis block stalls on
    an honest peer whose chain is taller and light for a batch. -/
theorem syncStalls_of_effortless (hP : Effortless P) {now : Block → Nat}
    (hQ : HonestPeer P params U now Q) (hsynced : Replays P params s.canonicalBlocksIter)
    {g : Block} (hg : Q.head? = some g) (hknown : s.blockKnown (g.hash P) = true) {height : Nat}
    (hheight : s.height = some height) (hnear : height ≤ maxForkSearchDepth)
    (htaller : height + 1 < Q.length) {remoteHeight : Nat} (hclaimed : height < remoteHeight)
    (hlight : branchWork (upTo Q (height + syncBatchSize)) ≤ s.chainWork (s.tipHash P)) :
    SyncStalls P params now s Q remoteHeight := by
  rw [List.head?_eq_getElem?] at hg
  refine ⟨by rw [hheight]; exact htaller, by rw [hheight]; exact hclaimed, ?_, ?_⟩
  · intro b hb
    have hzero : s.height.getD 0 - maxForkSearchDepth = 0 := by
      rw [hheight]
      exact Nat.sub_eq_zero_of_le hnear
    rw [hzero, hg] at hb
    rw [← Option.some.inj hb]
    exact hknown
  · intro j b hb hrange hfresh
    rw [hheight] at hrange
    refine ⟨hsynced, ?_, (branchWork_upTo_mono hrange).trans hlight⟩
    cases j with
    | zero =>
      rw [hg] at hb
      rw [← Option.some.inj hb, hknown] at hfresh
      cases hfresh
    | succ i =>
      rw [Nat.add_sub_cancel, (hQ.valid i b hb).validateBlock_eq, if_pos (hP _ _)]

/-- Five blocks in five seconds. -/
def fastStamps : List Nat := [2, 3, 4, 5, 6]

/-- Six blocks in more than an hour. -/
def slowStamps : List Nat := [10, 20, 1000, 2000, 3000, 4000]

/-- A peer with the slow chain is taller and lighter than a node with the fast
    one. The node stores the chain, and then asks for its last block forever. -/
theorem lighterPeer_never_ends :
    ChainState.Reachable Primitives.sample mainnet
      {b | b ∈ forkBlocksOf fastStamps slowStamps} (stateOn fastStamps) ∧
    PeerChain Primitives.sample {b | b ∈ forkBlocksOf fastStamps slowStamps} (forkOf slowStamps) ∧
    SharesGenesis (stateOn fastStamps) (forkOf slowStamps) ∧
    (stateOn fastStamps).height = some 5 ∧ (forkOf slowStamps).length = 7 ∧
    ∀ fuel, syncBlocks Primitives.sample mainnet (fun _ => 100000) 6 (servedBy (forkOf slowStamps))
      fuel (stateOn fastStamps) = none := by
  have heval : (∀ e ∈ (stateOn fastStamps).db.blocks.entries,
        e.2 ∈ forkBlocksOf fastStamps slowStamps) ∧
      (stateOn fastStamps).canonicalBlocksIter = forkOf fastStamps ∧
      (forkOf fastStamps).head? = some forkGenesis ∧
      (forkOf slowStamps).head? = some forkGenesis ∧
      (stateOn fastStamps).height = some 5 ∧ (forkOf slowStamps).length = 7 ∧
      (stateOn fastStamps).blockKnown (forkGenesis.hash Primitives.sample) = true ∧
      branchWork (upTo (forkOf slowStamps) (5 + syncBatchSize))
        ≤ (stateOn fastStamps).chainWork ((stateOn fastStamps).tipHash Primitives.sample) := by
    decide +kernel
  obtain ⟨hstores, hiter, hfirst, hfirst', hheight, hlength, hknown, hwork⟩ := heval
  have hU := forkBlocksOf_faithful fastStamps slowStamps (by decide) (by decide)
  have hfast : HonestPeer Primitives.sample mainnet {b | b ∈ forkBlocksOf fastStamps slowStamps}
      (fun _ => 100000) (forkOf fastStamps) :=
    forkOf_honest (fun b hb => List.mem_append_left _ hb) (by decide)
  have hslow : HonestPeer Primitives.sample mainnet {b | b ∈ forkBlocksOf fastStamps slowStamps}
      (fun _ => 100000) (forkOf slowStamps) :=
    forkOf_honest (fun b hb => List.mem_append_right _ hb) (by decide)
  have hs := stateOn_reachable (ChainState.storesOnly_of_entries hstores)
  -- Both chains start from one genesis block.
  have hshares : SharesGenesis (stateOn fastStamps) (forkOf slowStamps) :=
    ⟨forkGenesis, by rw [hiter]; exact hfirst, hfirst'⟩
  refine ⟨hs, hslow.chain, hshares, hheight, hlength, ?_⟩
  obtain ⟨L, K₀, hstart⟩ := exists_start hs hU mainnet_modest hslow.chain hshares
  refine hstart.syncBlocks_stalled hU hslow.chain mainnet_modest (by rw [hlength]; decide) ?_
  refine syncStalls_of_effortless sample_effortless hslow (by rw [hiter]; exact hfast.replays) hfirst'
    hknown hheight (by decide) (by rw [hlength]; decide) (by decide) ?_
  exact hwork

/-- Against the fast chain, a node at height four of the slow one comes to an
    end. -/
theorem syncBlocks_ends_iff_fastPeer :
    ∃ fuel, (syncBlocks Primitives.sample mainnet (fun _ => 100000) 5 (servedBy (forkOf fastStamps))
      fuel (stateOn (slowStamps.take 4))).isSome := by
  have heval : (∀ e ∈ (stateOn (slowStamps.take 4)).db.blocks.entries,
        e.2 ∈ forkBlocksOf (slowStamps.take 4) fastStamps) ∧
      (stateOn (slowStamps.take 4)).canonicalBlocksIter.head? = some forkGenesis ∧
      (forkOf fastStamps).head? = some forkGenesis ∧
      (stateOn (slowStamps.take 4)).height = some 4 ∧ (forkOf fastStamps).length = 6 ∧
      (∀ b ∈ (forkOf fastStamps)[5]?,
        (stateOn (slowStamps.take 4)).blockKnown (b.hash Primitives.sample) = false) ∧
      (stateOn (slowStamps.take 4)).chainWork ((stateOn (slowStamps.take 4)).tipHash
        Primitives.sample) < branchWork (upTo (forkOf fastStamps) 5) := by
    decide +kernel
  obtain ⟨hstores, hfirst, hfirst', hheight, hlength, hfresh, hwork⟩ := heval
  have hU := forkBlocksOf_faithful (slowStamps.take 4) fastStamps (by decide) (by decide)
  have hfast : HonestPeer Primitives.sample mainnet
      {b | b ∈ forkBlocksOf (slowStamps.take 4) fastStamps} (fun _ => 100000) (forkOf fastStamps) :=
    forkOf_honest (fun b hb => List.mem_append_right _ hb) (by decide)
  have hs := stateOn_reachable (ChainState.storesOnly_of_entries hstores)
  generalize forkOf fastStamps = fast at *
  generalize stateOn (slowStamps.take 4) = s at *
  refine (syncBlocks_ends_iff Primitives.sample mainnet _ hU mainnet_modest s hs fast hfast.chain
    (by rw [hlength]; decide) ⟨forkGenesis, hfirst, hfirst'⟩ (fun _ => 100000) 5).mpr ?_
  intro hst
  obtain ⟨b, hb⟩ : ∃ b, fast[5]? = some b :=
    ⟨_, List.getElem?_eq_getElem (by rw [hlength]; decide)⟩
  obtain ⟨_, _, hle⟩ := hst.lighter 5 b hb (by rw [hheight]; decide) (hfresh b hb)
  omega

end Node

end Tensorium
