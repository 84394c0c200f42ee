import Tensorium.Node.Retention
import Tensorium.Node.SyncAdoption

/-! # What sync offers to the mempool again

    The blocks of the last reorganisation are forgotten with the next block that
    is stored, and `sync_from_peer` takes them once, at its end.
-/

namespace Tensorium

open BulkMap ParentLinked

namespace Node

variable {P : Primitives} {params : ConsensusParams} {U : Set Block} {Q : List Block}
variable {K₀ : Nat}

/-- What `take_reorg_requeue_candidates` returns at the end of a successful
    `sync_blocks`. `requeue_reorged_transactions` offers each of them to
    `Mempool::add`. -/
def requeueCandidates (P : Primitives) (params : ConsensusParams) (now : Block → Nat)
    (remoteHeight : Nat) (fetch : Nat → Except String (List Block)) (fuel : Nat)
    (s : ChainState) : List Transaction :=
  match syncBlocks P params now remoteHeight fetch fuel s with
  | some (.ok _, s') => s'.takeReorgRequeueCandidates.1
  | _ => []

/-- Every transaction of the given blocks, coinbases apart, is on a chain. -/
def CarriedBy (blocks : List Block) (chain : List Block) : Prop :=
  ∀ b ∈ blocks, b ∉ chain → ∀ tx ∈ b.transactions, tx.isCoinbase = false →
    ∃ c ∈ chain, tx ∈ c.transactions

/-- The canonical chain behind a sync is that of the position at which it ended. -/
theorem canonicalChain_of_chainIs {A : List Block} {K : Nat} {s' : ChainState} {node : Node}
    (h : ChainIs P params U A Q K₀ s' K) (hdb : node.db = s'.db) :
    node.canonicalChain = (chainAt A Q K₀ K).reverse := by
  obtain ⟨L', hR', hL', hchain⟩ := h
  unfold canonicalChain
  rw [(represents_of_db hR' hL' hdb).canonicalBlocksIter_eq hL', hchain]

/-- Behind a copy that ended with the last block of the peer, the candidates cover
    what was disconnected exactly if the copy had not overtaken before that block,
    or the peer has the transactions anyway. -/
theorem Start.offers_iff {s s' : ChainState} {L : Ledger} (h : Start P params U Q s L K₀)
    (hU : HashFaithful P U) (hQ : PeerChain P U Q) {now : Block → Nat} {K : Nat}
    (hat : At P params U L.chain Q K₀ s' K) (hend : K + 1 = Q.length)
    (hover : Overtakes L.chain Q K₀ K) (hpasses : Passes P params now L.chain Q K₀ K) :
    (∀ b ∈ L.chain.reverse, b ∉ Q → ∀ tx ∈ b.transactions, tx.isCoinbase = false →
      (∃ c ∈ Q, tx ∈ c.transactions) ∨ tx ∈ s'.takeReorgRequeueCandidates.1) ↔
    (branchWork Q.dropLast ≤ branchWork L.chain ∨ CarriedBy L.chain.reverse Q) := by
  have hbefore : branchWork Q.dropLast = branchWork (upTo Q (K - 1)) := by
    have hpos : K - 1 + 1 = Q.length - 1 := by
      have := hover.1
      omega
    unfold upTo
    rw [hpos, ← List.dropLast_eq_take, branchWork_reverse]
  rw [hbefore]
  by_cases hearlier : Overtakes L.chain Q K₀ (K - 1)
  · -- The copy had overtaken before the last block, which emptied the list.
    have hnone : s'.takeReorgRequeueCandidates.1 = [] := by
      unfold ChainState.takeReorgRequeueCandidates
      rw [hat.extended hover hearlier]
      rfl
    rw [hnone]
    constructor
    · intro hall
      right
      intro b hb hgone tx htx hcb
      rcases hall b hb hgone tx htx hcb with hcarried | hoffered
      · exact hcarried
      · cases hoffered
    · rintro (hless | hcarried)
      · exact absurd hearlier.2 (not_lt.mpr hless)
      · intro b hb hgone tx htx hcb
        exact Or.inl (hcarried b hb hgone tx htx hcb)
  · -- The last block is the one that overtakes, and the list is as it left it.
    have hless : branchWork (upTo Q (K - 1)) ≤ branchWork L.chain := by
      by_cases hK : K₀ < K - 1
      · exact not_lt.mp fun hlt => hearlier ⟨hK, hlt⟩
      · have hwhole := hpasses.spends hover
        rw [hend, List.take_length] at hwhole
        have hstored := h.stored_le hU hQ (hwhole.take (K₀ + 1))
        exact (branchWork_upTo_mono (by omega)).trans hstored
    refine ⟨fun _ => Or.inl hless, fun _ => ?_⟩
    intro b hb hgone tx htx hcb
    right
    have hmem : b ∈ s'.lastDisconnected := by
      apply hat.reorganized hover hearlier b
      · exact List.mem_reverse.mp hb
      · rw [upTo_last hend, List.mem_reverse]
        exact hgone
    unfold ChainState.takeReorgRequeueCandidates
    refine List.mem_filter.mpr ⟨List.mem_flatMap.mpr ⟨b, hmem, htx⟩, ?_⟩
    rw [hcb]
    rfl

/-- **A sync that succeeds offers every transaction it disconnects** exactly if
    nothing was asked for, or the last block of the peer is the one with which
    its chain outweighs the local one, or the peer has the transactions on its
    chain anyway. -/
theorem sync_requeues_iff (P : Primitives) (params : ConsensusParams) (U : Set Block)
    (hU : HashFaithful P U) (hmodest : ModestDifficulty params) (node : Node)
    (hs : Sound P params U node) (Q : List Block) (hQ : PeerChain P U Q)
    (hlength : Q.length ≤ 2 ^ 64) (hgenesis : SharesGenesis node.loadState Q)
    (now : Block → Nat) (order : PendingOrder) (fuel : Nat) (node' : Node)
    (hrun : node.syncFromPeer P params order now (helloOf params Q) (servedBy Q) fuel
      = some (.ok (), node')) :
    (∀ b ∈ node.canonicalChain, b ∉ node'.canonicalChain →
      ∀ tx ∈ b.transactions, tx.isCoinbase = false →
      (∃ c ∈ node'.canonicalChain, tx ∈ c.transactions) ∨
      tx ∈ requeueCandidates P params now (helloOf params Q).height (servedBy Q) fuel
        node.loadState) ↔
    (Q.length ≤ node.loadState.height.getD 0 + 1 ∨
      branchWork Q.dropLast ≤ node.loadState.chainWork (node.loadState.tipHash P) ∨
      CarriedBy node.canonicalChain Q) := by
  obtain ⟨L, K₀, h⟩ := exists_start hs hU hmodest hQ hgenesis
  have hlaw := catchUp_lawful P params now L.chain (Q.length - 1) h.copied.bound
  by_cases htaller : node.loadState.height.getD 0 + 1 < Q.length
  · have hgate : node.loadState.height.getD 0 < (helloOf params Q).height := by
      show node.loadState.height.getD 0 < Q.length - 1
      omega
    obtain ⟨synced, s', hsync, hdb⟩ := syncFromPeer_ok_inv (validateHello_helloOf params Q) hgate hrun
    -- The run of the abstract loop is the successful one.
    obtain ⟨ok, K, hloop, ⟨rfl, _, hat⟩ | ⟨_, ⟨e, he⟩, _⟩⟩ :=
      h.run_of_syncBlocks hU hQ hmodest hlength hsync
    · obtain ⟨hend, hover⟩ := h.copied_all now htaller hloop
      have hpasses : ∀ i, K₀ < i → i ≤ K → Passes P params now L.chain Q K₀ i :=
        (CatchUp.Setting.run_ends hlaw (Or.inl hlaw.waiting) hloop).2.2.1
      have hnew : node'.canonicalChain = Q := by
        rw [canonicalChain_of_chainIs hat.chainIs hdb, chainAt, if_pos hover, upTo_reverse, hend,
          List.take_length]
      have hold : node.canonicalChain = L.chain.reverse := by
        unfold canonicalChain
        rw [h.represents.canonicalBlocksIter_eq h.copied.wellFormed]
      have hcandidates : requeueCandidates P params now (helloOf params Q).height (servedBy Q) fuel
          node.loadState = s'.takeReorgRequeueCandidates.1 := by
        unfold requeueCandidates
        rw [hsync]
      have hasked : ¬ Q.length ≤ node.loadState.height.getD 0 + 1 := by omega
      rw [hnew, hold, hcandidates, h.tipWork_eq hU, or_iff_right hasked]
      exact h.offers_iff hU hQ hat hend hover (hpasses K hover.1 (le_refl K))
    · cases he
  · -- The peer is not asked, and nothing changes.
    have hgate : (helloOf params Q).height ≤ node.loadState.height.getD 0 := by
      show Q.length - 1 ≤ node.loadState.height.getD 0
      omega
    rw [syncFromPeer_gate (validateHello_helloOf params Q) hgate] at hrun
    obtain ⟨_, rfl⟩ := Prod.mk.inj (Option.some.inj hrun)
    refine ⟨fun _ => Or.inl (by omega), fun _ => ?_⟩
    intro b hb hgone
    exact absurd hb hgone

/-! ## One block too many

    The node has confirmed the spend of the genesis coinbase in its tenth block,
    while its peer went on without it. -/

/-- The node whose tip confirms the spend. -/
def confirmedNode : Node where
  db := ((ChainState.clockRun Primitives.sample testParams 9).submitBlock Primitives.sample
    testParams confirmingRival 100).2.db
  mempool := Mempool.new

/-- The chain of the peer up to a height. -/
def clockPeer (height : Nat) : List Block :=
  (List.range (height + 1)).map (clockChain Primitives.sample testParams)

/-- What catching up with the peer leaves. -/
def syncedNode (height : Nat) : Option (Except SyncError Unit × Node) :=
  confirmedNode.syncFromPeer Primitives.sample testParams Iteration.sorted (fun _ => 100)
    (helloOf testParams (clockPeer height)) (servedBy (clockPeer height)) 4

/-- All blocks involved. -/
def clockFork : List Block := clockPeer 12 ++ [confirmingRival]

theorem clockFork_faithful : HashFaithful Primitives.sample {b | b ∈ clockFork} := by
  have hstamps : clockFork.map (fun b => b.header.timestampSeconds)
      = [1, 2, 3, 4, 5, 6, 7, 8, 9, 10, 11, 12, 13, 99] := by decide
  refine sample_faithful ?_ ?_
  · rw [hstamps]
    decide
  · rw [hstamps]
    decide

theorem clockPeer_mem {k : Nat} (hk : k ≤ 12) :
    clockChain Primitives.sample testParams k ∈ {b | b ∈ clockFork} := by
  refine List.mem_append_left _ (List.mem_map.mpr ⟨k, List.mem_range.mpr ?_, rfl⟩)
  omega

theorem clockPeer_honest {height : Nat} (hheight : height ≤ 12) :
    HonestPeer Primitives.sample testParams {b | b ∈ clockFork} (fun _ => 100)
      (clockPeer height) := by
  have hlong : TensorHash.epochLength = 8192 := rfl
  refine clockChain_honest sample_easyNetwork (fun k hk => clockPeer_mem (hk.trans hheight)) (by omega) ?_
  intro _
  omega

/-- The node is sound. -/
theorem confirmedNode_sound
    (hstores : ∀ e ∈ confirmedNode.db.blocks.entries, e.2 ∈ clockFork) :
    Sound Primitives.sample testParams {b | b ∈ clockFork} confirmedNode := by
  have hmem : ∀ k ≤ 9, clockChain Primitives.sample testParams k ∈ {b | b ∈ clockFork} :=
    fun k hk => clockPeer_mem (hk.trans (by decide))
  obtain ⟨L, hgrown⟩ :=
    ChainState.clockRun_grown sample_easyNetwork clockFork_faithful hmem (by decide)
  have hreachable := hgrown.reachable
  unfold confirmedNode at hstores ⊢
  dsimp only at hstores
  generalize ChainState.clockRun Primitives.sample testParams 9 = s at *
  exact .of_reachable (hreachable.submitBlock (ChainState.storesOnly_of_entries hstores))
    clockFork_faithful rfl

/-- With a peer at height twelve the eleventh block reorganises the chain and the
    twelfth makes the node forget what that has disconnected: the spend is
    neither on the new chain nor offered to the mempool. -/
theorem longerPeer_forgets :
    Sound Primitives.sample testParams {b | b ∈ clockFork} confirmedNode ∧
    HonestPeer Primitives.sample testParams {b | b ∈ clockFork} (fun _ => 100) (clockPeer 12) ∧
    SharesGenesis confirmedNode.loadState (clockPeer 12) ∧
    confirmingRival ∈ confirmedNode.canonicalChain ∧
    genesisSpend ∈ confirmingRival.transactions ∧ genesisSpend.isCoinbase = false ∧
    ∃ node', syncedNode 12 = some (.ok (), node') ∧
      confirmingRival ∉ node'.canonicalChain ∧
      (∀ c ∈ node'.canonicalChain, genesisSpend ∉ c.transactions) ∧
      genesisSpend ∉ requeueCandidates Primitives.sample testParams (fun _ => 100)
        (helloOf testParams (clockPeer 12)).height (servedBy (clockPeer 12)) 4
        confirmedNode.loadState := by
  have heval : (∀ e ∈ confirmedNode.db.blocks.entries, e.2 ∈ clockFork) ∧
      confirmedNode.loadState.canonicalBlocksIter.head?
        = some (clockChain Primitives.sample testParams 0) ∧
      confirmingRival ∈ confirmedNode.canonicalChain ∧
      genesisSpend ∈ confirmingRival.transactions ∧ genesisSpend.isCoinbase = false ∧
      (syncedNode 12).map (fun out => out.1) = some (.ok ()) ∧
      (∀ out ∈ syncedNode 12, confirmingRival ∉ out.2.canonicalChain ∧
        ∀ c ∈ out.2.canonicalChain, genesisSpend ∉ c.transactions) ∧
      genesisSpend ∉ requeueCandidates Primitives.sample testParams (fun _ => 100)
        (helloOf testParams (clockPeer 12)).height (servedBy (clockPeer 12)) 4
        confirmedNode.loadState := by
    decide +kernel
  obtain ⟨hstores, hfirst, hrival, hspend, hplain, hok, hafter, hlost⟩ := heval
  refine ⟨confirmedNode_sound hstores, clockPeer_honest (by decide), ⟨_, hfirst, rfl⟩, hrival,
    hspend, hplain, ?_⟩
  obtain ⟨⟨result, node'⟩, hout, hresult⟩ := Option.map_eq_some_iff.mp hok
  dsimp only at hresult
  subst hresult
  obtain ⟨hgone, huncarried⟩ := hafter _ hout
  exact ⟨node', hout, hgone, huncarried, hlost⟩

/-- With a peer at height eleven the spend is offered again. -/
theorem sync_requeues_iff_lastBlock :
    ∃ node', syncedNode 11 = some (.ok (), node') ∧
      ∀ b ∈ confirmedNode.canonicalChain, b ∉ node'.canonicalChain →
      ∀ tx ∈ b.transactions, tx.isCoinbase = false →
      (∃ c ∈ node'.canonicalChain, tx ∈ c.transactions) ∨
      tx ∈ requeueCandidates Primitives.sample testParams (fun _ => 100)
        (helloOf testParams (clockPeer 11)).height (servedBy (clockPeer 11)) 4
        confirmedNode.loadState := by
  have heval : (∀ e ∈ confirmedNode.db.blocks.entries, e.2 ∈ clockFork) ∧
      confirmedNode.loadState.canonicalBlocksIter.head?
        = some (clockChain Primitives.sample testParams 0) ∧
      (syncedNode 11).map (fun out => out.1) = some (.ok ()) ∧
      branchWork (clockPeer 11).dropLast
        ≤ confirmedNode.loadState.chainWork (confirmedNode.loadState.tipHash Primitives.sample) := by
    decide +kernel
  obtain ⟨hstores, hfirst, hok, hwork⟩ := heval
  have hsound := confirmedNode_sound hstores
  have hpeer : HonestPeer Primitives.sample testParams {b | b ∈ clockFork} (fun _ => 100)
      (clockPeer 11) := clockPeer_honest (by decide)
  have hlength : (clockPeer 11).length ≤ 2 ^ 64 := by decide
  have hfirst' : (clockPeer 11).head? = some (clockChain Primitives.sample testParams 0) := rfl
  obtain ⟨⟨result, node'⟩, hout, hresult⟩ := Option.map_eq_some_iff.mp hok
  dsimp only at hresult
  subst hresult
  refine ⟨node', hout, ?_⟩
  unfold syncedNode at hout
  generalize clockPeer 11 = Q at *
  generalize confirmedNode = node at *
  exact (sync_requeues_iff Primitives.sample testParams _ clockFork_faithful
    (modestDifficulty_of_network (Or.inr (Or.inr rfl))) node hsound Q hpeer.chain hlength
    ⟨_, hfirst, hfirst'⟩ (fun _ => 100) Iteration.sorted 4 node' hout).mpr (Or.inr (Or.inl hwork))

end Node

end Tensorium
