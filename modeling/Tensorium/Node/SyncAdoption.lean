import Mathlib.Data.String.Basic
import Tensorium.Node.SyncTermination

/-! # Whether sync adopts a heavier chain

    A peer is asked only if it is taller, and its chain is adopted only if it
    outweighs the local one within a batch behind the local tip.
-/

namespace Tensorium

open BulkMap ParentLinked

namespace Node

variable {P : Primitives} {params : ConsensusParams} {U : Set Block} {Q : List Block}
variable {s : ChainState} {K₀ : Nat}

/-- The greeting of a peer with the given canonical chain. -/
def helloOf (params : ConsensusParams) (Q : List Block) : P2pHello where
  protocol := "tensorium-p2p"
  version := p2pProtocolVersion
  chainId := params.chainId
  height := Q.length - 1

/-- Sync gets to the end of the chain of the peer: the chain is taller than the
    local one, which replays; within the first batch behind the local tip it
    outweighs it; and until then its blocks meet their work under the epoch seeds
    of the local chain as well. -/
structure SyncAdopts (P : Primitives) (params : ConsensusParams) (s : ChainState)
    (Q : List Block) : Prop where
  taller : s.height.getD 0 + 1 < Q.length
  synced : Replays P params s.canonicalBlocksIter
  overtakes : ∃ j, j < Q.length ∧ j ≤ s.height.getD 0 + syncBatchSize ∧
    s.chainWork (s.tipHash P) < branchWork (upTo Q j)
  seeds : ∀ (j : Nat) (b : Block), Q[j]? = some b → s.blockKnown (b.hash P) = false →
    branchWork (upTo Q (j - 1)) ≤ s.chainWork (s.tipHash P) →
    headerMeetsWork P b.header (s.epochSeedForHeight P j) = true

/-- The peer's word is accepted. -/
theorem validateHello_helloOf (params : ConsensusParams) (Q : List Block) :
    validateHello (helloOf params Q) params = .ok () := by
  unfold validateHello helloOf
  simp

/-- The blocks of a valid chain that starts with a stored block are modest. -/
theorem Start.bits_le {L : Ledger} (h : Start P params U Q s L K₀)
    (hmodest : ModestDifficulty params) {now : Block → Nat} (hQ : HonestPeer P params U now Q) {j : Nat}
    {b : Block} (hb : Q[j]? = some b) : b.header.leadingZeroBits ≤ 63 := by
  cases j with
  | zero =>
    refine h.copied.bits b ?_
    unfold upTo
    rw [List.mem_reverse]
    exact List.mem_of_getElem? (by rw [List.getElem?_take_of_lt (Nat.zero_lt_succ _)]; exact hb)
  | succ j =>
    rw [(hQ.valid j b hb).bits]
    exact expectedLeadingZeroBits_le hmodest _ _

/-- Short of its end the chain of an honest peer has less work. -/
theorem Start.work_lt {L : Ledger} (h : Start P params U Q s L K₀)
    (hmodest : ModestDifficulty params) (hlength : Q.length ≤ 2 ^ 64) {now : Block → Nat}
    (hQ : HonestPeer P params U now Q) {j : Nat} (hj : j + 1 < Q.length) :
    branchWork (upTo Q j) < branchWork Q := by
  obtain ⟨b, hb⟩ : ∃ b, Q[j + 1]? = some b := ⟨_, List.getElem?_eq_getElem hj⟩
  have hnext : branchWork (upTo Q j) < branchWork (upTo Q (j + 1)) := by
    rw [upTo_succ hb]
    refine branchWork_lt_cons ?_ ?_
    · intro c hc
      rw [← upTo_succ hb] at hc
      unfold upTo at hc
      obtain ⟨i, hi⟩ := List.mem_iff_getElem?.mp (List.mem_of_mem_take (List.mem_reverse.mp hc))
      exact h.bits_le hmodest hQ hi
    · rw [List.length_cons, upTo_length (by omega)]
      omega
  have hwhole : branchWork Q = branchWork (upTo Q (Q.length - 1)) := by
    rw [upTo_last (by omega), branchWork_reverse]
  rw [hwhole]
  exact lt_of_lt_of_le hnext (branchWork_upTo_mono (by omega))

/-- Every block of the chain of an honest peer passes, and one in the first batch
    behind the local tip overtakes, under the conditions of `SyncAdopts`. -/
theorem Start.passes_iff {L : Ledger} (h : Start P params U Q s L K₀) (hU : HashFaithful P U)
    {now : Block → Nat} (hQ : HonestPeer P params U now Q)
    (htaller : s.height.getD 0 + 1 < Q.length) :
    ((∀ j, K₀ < j → j < Q.length → Passes P params now L.chain Q K₀ j) ∧
      ∃ j, K₀ < j ∧ j < Q.length ∧ j ≤ L.chain.length - 1 + syncBatchSize ∧
        Overtakes L.chain Q K₀ j) ↔ SyncAdopts P params s Q := by
  have hL := h.copied.wellFormed
  have hheight := h.height_eq
  have hseed := h.represents.epochSeedForHeight_eq hL
  have hiter := h.represents.canonicalBlocksIter_eq hL
  have hwork := h.tipWork_eq hU
  have hstored := h.stored_le hU hQ.chain (hQ.replays.take (K₀ + 1))
  constructor
  · rintro ⟨hall, j, hj, hlt, hrange, hover⟩
    refine ⟨htaller, ?_, ⟨j, hlt, by omega, ?_⟩, ?_⟩
    · rw [hiter]
      exact (hall j hj hlt).synced
    · rw [hwork]
      exact hover.2
    · intro i b hb hunknown hlight
      obtain ⟨hi, _⟩ := List.getElem?_eq_some_iff.mp hb
      obtain ⟨c, hc, hval⟩ := (hall i ((h.unknown_iff hb).mp hunknown) hi).valid
      obtain rfl := Option.some.inj (hb.symm.trans hc)
      rw [hwork] at hlight
      rw [chainAt, if_neg fun ho => absurd ho.2 (not_lt.mpr hlight)] at hval
      rw [hseed]
      exact (validateBlock_ok.mp hval).work
  · intro hcond
    constructor
    · intro j hj hlt
      obtain ⟨i, rfl⟩ : ∃ i, j = i + 1 := ⟨j - 1, by omega⟩
      obtain ⟨b, hb⟩ : ∃ b, Q[i + 1]? = some b := ⟨_, List.getElem?_eq_getElem hlt⟩
      have hsynced := hcond.synced
      rw [hiter] at hsynced
      refine ⟨hsynced, ⟨b, hb, ?_⟩, fun _ => hQ.replays.take _⟩
      rw [Nat.add_sub_cancel]
      by_cases hover : Overtakes L.chain Q K₀ i
      · -- The copy is canonical, and gives the block its own seed.
        rw [chainAt, if_pos hover]
        exact validateBlock_ok.mpr (hQ.valid i b hb)
      · rw [chainAt, if_neg hover]
        have hlight : branchWork (upTo Q i) ≤ branchWork L.chain := by
          by_cases hi : K₀ < i
          · exact not_lt.mp fun hlt => hover ⟨hi, hlt⟩
          · exact (branchWork_upTo_mono (by omega)).trans hstored
        have hmeets := hcond.seeds (i + 1) b hb ((h.unknown_iff hb).mpr hj)
          (by rw [Nat.add_sub_cancel, hwork]; exact hlight)
        rw [hseed] at hmeets
        rw [(hQ.valid i b hb).validateBlock_eq, if_pos hmeets]
    · obtain ⟨j, hlt, hrange, hheavy⟩ := hcond.overtakes
      rw [hwork] at hheavy
      have hj : K₀ < j := by
        by_contra hle
        have hless := branchWork_upTo_mono (Q := Q) (show j ≤ K₀ by omega)
        omega
      exact ⟨j, hj, hlt, by omega, hj, hheavy⟩

/-- The work behind a sync is that of the position at which it ended. -/
theorem chainWork_of_chainIs {A : List Block} {K : Nat} {s' : ChainState} {node : Node}
    (h : ChainIs P params U A Q K₀ s' K) (hU : HashFaithful P U) (hdb : node.db = s'.db) :
    node.loadState.chainWork (node.loadState.tipHash P) = branchWork (chainAt A Q K₀ K) := by
  obtain ⟨L', hR', hL', hchain⟩ := h
  rw [(represents_of_db hR' hL' hdb).tipWork_eq hL' hU, hchain]

/-- **Sync adopts the heavier chain of an honest peer exactly under the conditions
    of `SyncAdopts`.** The fork is within reach. -/
theorem syncFromPeer_adopts_iff (P : Primitives) (params : ConsensusParams) (U : Set Block)
    (hU : HashFaithful P U) (hmodest : ModestDifficulty params) (node : Node)
    (hs : Sound P params U node) (Q : List Block) (now : Block → Nat)
    (hQ : HonestPeer P params U now Q) (hlength : Q.length ≤ 2 ^ 64)
    (hgenesis : SharesGenesis node.loadState Q)
    (hheavier : node.loadState.chainWork (node.loadState.tipHash P) < branchWork Q)
    (hfork : ∃ (i : Nat) (b : Block), node.loadState.height.getD 0 ≤ i + maxForkSearchDepth ∧
      node.canonicalChain[i]? = some b ∧ Q[i]? = some b)
    (order : PendingOrder) :
    (∃ fuel result node',
      node.syncFromPeer P params order now (helloOf params Q) (servedBy Q) fuel
        = some (result, node') ∧
      branchWork Q ≤ node'.loadState.chainWork (node'.loadState.tipHash P)) ↔
    SyncAdopts P params node.loadState Q := by
  obtain ⟨L, K₀, h⟩ := exists_start hs hU hmodest hQ.chain hgenesis
  have hL := h.copied.wellFormed
  have hwork := h.tipWork_eq hU
  have hheight := h.height_eq
  have hlaw := catchUp_lawful P params now L.chain (Q.length - 1) h.copied.bound
  have hreach : L.chain.length - 1 ≤ K₀ + maxForkSearchDepth := by
    obtain ⟨i, b, hi, hlocal, hremote⟩ := hfork
    unfold canonicalChain at hlocal
    rw [h.represents.canonicalBlocksIter_eq hL] at hlocal
    have hmem : b ∈ L.chain := List.mem_reverse.mp (List.mem_of_getElem? hlocal)
    have hknown := hL.known_of_mem (hL.chain_ancestry h.nonempty) hmem
    by_contra hfar
    rw [h.copied.fresh i b hremote (by omega)] at hknown
    cases hknown
  -- Both sides need a taller peer; then it is about the abstract loop.
  by_cases htaller : node.loadState.height.getD 0 + 1 < Q.length
  · have hcopies := CatchUp.Setting.copies_iff hlaw
      (show L.chain.length - 1 + 1 < Q.length by omega)
      (show Q.length - 1 + 1 = Q.length by omega) hreach
    rw [← h.passes_iff hU hQ htaller]
    refine Iff.trans ?_ hcopies
    have hgate : node.loadState.height.getD 0 < (helloOf params Q).height := by
      show node.loadState.height.getD 0 < Q.length - 1
      omega
    constructor
    · rintro ⟨fuel, result, node', hrun, hgain⟩
      rcases syncFromPeer_cases hrun with rfl | ⟨outcome, s', hsync, _, hdb, _⟩
      · omega
      · refine ⟨fuel, ?_⟩
        obtain ⟨ok, K, hloop, ⟨rfl, _, _⟩ | ⟨rfl, _, hchain⟩⟩ :=
          h.run_of_syncBlocks hU hQ.chain hmodest hlength hsync
        · exact ⟨K, hloop⟩
        · -- A failed sync is left with less work than the peer has.
          rw [chainWork_of_chainIs hchain hU hdb] at hgain
          obtain ⟨_, hbound, _⟩ := CatchUp.Setting.run_ends hlaw (Or.inl hlaw.waiting) hloop
          unfold chainAt at hgain
          split_ifs at hgain
          · have hless := h.work_lt hmodest hlength hQ hbound
            omega
          · omega
    · rintro ⟨fuel, K, hrun⟩
      have hsim := h.syncBlocks_run now (Q.length - 1) hU hQ.chain hmodest hlength fuel
      rw [hrun] at hsim
      obtain ⟨synced, s', hsync, hat⟩ := hsim
      obtain ⟨hend, hover⟩ := h.copied_all now htaller hrun
      obtain ⟨node', hnode', hdb⟩ :=
        syncFromPeer_ok order (validateHello_helloOf params Q) hgate hsync
      refine ⟨fuel, _, node', hnode', ?_⟩
      rw [chainWork_of_chainIs hat.chainIs hU hdb, chainAt, if_pos hover, upTo_last hend,
        branchWork_reverse]
  · constructor
    · rintro ⟨fuel, result, node', hrun, hgain⟩
      exfalso
      have hgate : (helloOf params Q).height ≤ node.loadState.height.getD 0 := by
        show Q.length - 1 ≤ node.loadState.height.getD 0
        omega
      rw [syncFromPeer_gate (validateHello_helloOf params Q) hgate] at hrun
      obtain ⟨_, rfl⟩ := Prod.mk.inj (Option.some.inj hrun)
      omega
    · intro hcond
      exact absurd hcond.taller htaller

/-! ## A chain that is heavier too late

    The peer's difficulty falls for more than a batch before it rises. When the
    node has stored all that it asks for, the chain is still the lighter one, and
    the blocks that would tip the balance are never asked for. -/

/-- A node with the given chain and an empty mempool. -/
def nodeOn (timestamps : List Nat) : Node := ⟨(stateOn timestamps).db, Mempool.new⟩

/-- The timestamps of the peer. -/
def lateStamps : List Nat :=
  [10, 20] ++ (List.range 45).map (fun i => 10000 + 1000 * i) ++ (List.range 9).map (fun i => 21 + i)

/-- Such a node is sound. -/
theorem nodeOn_sound {U : Set Block} {timestamps : List Nat} (hU : HashFaithful Primitives.sample U)
    (hstores : ChainState.StoresOnly U (stateOn timestamps)) :
    Sound Primitives.sample mainnet U (nodeOn timestamps) :=
  .of_reachable (stateOn_reachable hstores) hU rfl

/-- The peer has a taller, valid chain with more work, forked four blocks ago, and
    the node never gets to the end of its sync. -/
theorem latePeer_not_adopted :
    let U : Set Block := {b | b ∈ forkBlocksOf (fastStamps.take 4) lateStamps}
    let node := nodeOn (fastStamps.take 4)
    HashFaithful Primitives.sample U ∧ Sound Primitives.sample mainnet U node ∧
    HonestPeer Primitives.sample mainnet U (fun _ => 100000) (forkOf lateStamps) ∧
    SharesGenesis node.loadState (forkOf lateStamps) ∧
    node.loadState.height = some 4 ∧ (forkOf lateStamps).length = 57 ∧
    node.loadState.chainWork (node.loadState.tipHash Primitives.sample)
      < branchWork (forkOf lateStamps) ∧
    ∀ order fuel, node.syncFromPeer Primitives.sample mainnet order (fun _ => 100000)
      (helloOf mainnet (forkOf lateStamps)) (servedBy (forkOf lateStamps)) fuel = none := by
  intro U node
  have heval : (∀ e ∈ (stateOn (fastStamps.take 4)).db.blocks.entries,
        e.2 ∈ forkBlocksOf (fastStamps.take 4) lateStamps) ∧
      node.loadState.canonicalBlocksIter = forkOf (fastStamps.take 4) ∧
      (forkOf (fastStamps.take 4)).head? = some forkGenesis ∧
      (forkOf lateStamps).head? = some forkGenesis ∧
      node.loadState.height = some 4 ∧ (forkOf lateStamps).length = 57 ∧
      node.loadState.blockKnown (forkGenesis.hash Primitives.sample) = true ∧
      branchWork (upTo (forkOf lateStamps) (4 + syncBatchSize))
        ≤ node.loadState.chainWork (node.loadState.tipHash Primitives.sample) ∧
      node.loadState.chainWork (node.loadState.tipHash Primitives.sample)
        < branchWork (forkOf lateStamps) := by
    decide +kernel
  obtain ⟨hstores, hiter, hfirst, hfirst', hheight, hlength, hknown, hlight, hheavy⟩ := heval
  have hU : HashFaithful Primitives.sample U :=
    forkBlocksOf_faithful (fastStamps.take 4) lateStamps (by decide) (by decide)
  have hlocal : HonestPeer Primitives.sample mainnet U (fun _ => 100000)
      (forkOf (fastStamps.take 4)) :=
    forkOf_honest (fun b hb => List.mem_append_left _ hb) (by decide)
  have hpeer : HonestPeer Primitives.sample mainnet U (fun _ => 100000) (forkOf lateStamps) :=
    forkOf_honest (fun b hb => List.mem_append_right _ hb) (by decide)
  have hs : Sound Primitives.sample mainnet U node :=
    nodeOn_sound hU (ChainState.storesOnly_of_entries hstores)
  have hshares : SharesGenesis node.loadState (forkOf lateStamps) :=
    ⟨forkGenesis, by rw [hiter]; exact hfirst, hfirst'⟩
  refine ⟨hU, hs, hpeer, hshares, hheight, hlength, hheavy, ?_⟩
  -- Within one batch the chain of the peer is lighter: the sync stalls.
  have hst : SyncStalls Primitives.sample mainnet (fun _ => 100000) node.loadState
      (forkOf lateStamps) (helloOf mainnet (forkOf lateStamps)).height := by
    refine syncStalls_of_effortless sample_effortless hpeer (by rw [hiter]; exact hlocal.replays)
      hfirst' hknown hheight (by decide) (by rw [hlength]; decide) ?_ hlight
    show 4 < (forkOf lateStamps).length - 1
    rw [hlength]
    decide
  obtain ⟨L, K₀, hstart⟩ := exists_start hs hU mainnet_modest hpeer.chain hshares
  intro order fuel
  refine syncFromPeer_none (validateHello_helloOf mainnet _) hst.claimed ?_
  exact hstart.syncBlocks_stalled hU hpeer.chain mainnet_modest (by rw [hlength]; decide) hst fuel

/-- The fast chain is adopted by a node at height four of the slow one. -/
theorem syncFromPeer_adopts_iff_fastPeer :
    ∃ fuel result node',
      (nodeOn (slowStamps.take 4)).syncFromPeer Primitives.sample mainnet Iteration.sorted
        (fun _ => 100000) (helloOf mainnet (forkOf fastStamps)) (servedBy (forkOf fastStamps)) fuel
        = some (result, node') ∧
      branchWork (forkOf fastStamps)
        ≤ node'.loadState.chainWork (node'.loadState.tipHash Primitives.sample) := by
  -- All that is said of the two chains is computed once.
  have heval : (∀ e ∈ (stateOn (slowStamps.take 4)).db.blocks.entries,
        e.2 ∈ forkBlocksOf (slowStamps.take 4) fastStamps) ∧
      (nodeOn (slowStamps.take 4)).loadState.canonicalBlocksIter = forkOf (slowStamps.take 4) ∧
      (forkOf (slowStamps.take 4)).head? = some forkGenesis ∧
      (forkOf fastStamps).head? = some forkGenesis ∧
      (nodeOn (slowStamps.take 4)).loadState.height = some 4 ∧ (forkOf fastStamps).length = 6 ∧
      (nodeOn (slowStamps.take 4)).loadState.chainWork
        ((nodeOn (slowStamps.take 4)).loadState.tipHash Primitives.sample)
        < branchWork (upTo (forkOf fastStamps) 5) ∧
      (nodeOn (slowStamps.take 4)).loadState.chainWork
        ((nodeOn (slowStamps.take 4)).loadState.tipHash Primitives.sample)
        < branchWork (forkOf fastStamps) := by
    decide +kernel
  obtain ⟨hstores, hiter, hfirst, hfirst', hheight, hlength, hover, hheavy⟩ := heval
  have hU := forkBlocksOf_faithful (slowStamps.take 4) fastStamps (by decide) (by decide)
  have hslow : HonestPeer Primitives.sample mainnet
      {b | b ∈ forkBlocksOf (slowStamps.take 4) fastStamps} (fun _ => 100000)
      (forkOf (slowStamps.take 4)) :=
    forkOf_honest (fun b hb => List.mem_append_left _ hb) (by decide)
  have hfast : HonestPeer Primitives.sample mainnet
      {b | b ∈ forkBlocksOf (slowStamps.take 4) fastStamps} (fun _ => 100000) (forkOf fastStamps) :=
    forkOf_honest (fun b hb => List.mem_append_right _ hb) (by decide)
  have hs := nodeOn_sound hU (ChainState.storesOnly_of_entries hstores)
  -- From here on the chains are variables, so that nothing unfolds them.
  generalize forkOf fastStamps = fast at *
  generalize forkOf (slowStamps.take 4) = slow at *
  generalize nodeOn (slowStamps.take 4) = node at *
  refine (syncFromPeer_adopts_iff Primitives.sample mainnet _ hU mainnet_modest node hs fast
    (fun _ => 100000) hfast (by rw [hlength]; decide) ⟨forkGenesis, by rw [hiter]; exact hfirst, hfirst'⟩
    hheavy ⟨0, forkGenesis, by rw [hheight]; decide, ?_, ?_⟩ Iteration.sorted).mpr ⟨?_, ?_, ?_, ?_⟩
  · unfold canonicalChain
    rw [← List.head?_eq_getElem?, hiter]
    exact hfirst
  · rw [← List.head?_eq_getElem?]
    exact hfirst'
  · rw [hheight, hlength]
    decide
  · rw [hiter]
    exact hslow.replays
  · exact ⟨5, by rw [hlength]; decide, by rw [hheight]; decide, hover⟩
  · intro j b _ _ _
    exact sample_effortless _ _

end Node

end Tensorium
