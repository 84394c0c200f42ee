import Tensorium.Node.Retention

/-! # When pending transactions can be spent

    `Mempool::add` validates a transaction once. Afterwards the canonical chain
    changes under it: a request for a block removes what that block spends, and
    nothing else; `sync_from_peer` removes nothing. A pending entry stays valid,
    with the fee it was admitted with, as long as the blocks that come and go
    do not touch what it spends and the chain does not get shorter.
-/

namespace Tensorium

open BulkMap ParentLinked GuardedRun

namespace Node

variable {P : Primitives} {params : ConsensusParams} {U : Set Block} {node node' : Node}
variable {L : Ledger}

/-- The operations that change a node. -/
inductive Op where
  | request (request : Request)
  | syncFromPeer (order : PendingOrder) (now : Block → Nat) (remote : P2pHello)
      (fetch : Nat → Except String (List Block)) (fuel : Nat)

/-- The node after an operation. A sync that does not end within the fuel is not
    a completed operation; it is read as one that does nothing. -/
def step (P : Primitives) (params : ConsensusParams) (node : Node) : Op → Node
  | .request request => node.serve P params request
  | .syncFromPeer order now remote fetch fuel =>
    ((node.syncFromPeer P params order now remote fetch fuel).map Prod.snd).getD node

/-- What an operation leaves in the mempool of what was there: a request that
    brings an accepted block calls `remove_confirmed`, nothing else does. -/
def remaining (P : Primitives) (params : ConsensusParams) (node : Node) : Op → Mempool
  | .request request =>
    match request.block? with
    | none => node.mempool
    | some (block, nowSeconds) =>
      match (node.loadState.submitBlock P params block nowSeconds).1 with
      | .ok accepted => node.mempool.removeConfirmed accepted
      | .error _ => node.mempool
  | .syncFromPeer _ _ _ _ _ => node.mempool

/-- The operation does not touch what the remaining transactions spend: no block
    it takes off the canonical chain has created such an outpoint, no block it
    puts on the chain creates or spends one, and the height does not fall. -/
structure Undisturbed (P : Primitives) (params : ConsensusParams) (node : Node) (op : Op) :
    Prop where
  disconnected : ∀ b ∈ node.canonicalChain, b ∉ (node.step P params op).canonicalChain →
    ∀ key entry, (node.remaining P params op).pending.lookup key = some entry →
    ∀ outpoint ∈ entry.tx.outpoints, outpoint ∉ b.creates.map Prod.fst
  connected : ∀ b ∈ (node.step P params op).canonicalChain, b ∉ node.canonicalChain →
    ∀ key entry, (node.remaining P params op).pending.lookup key = some entry →
    ∀ outpoint ∈ entry.tx.outpoints,
      outpoint ∉ b.creates.map Prod.fst ∧ outpoint ∉ b.spends
  height : node.loadState.height.getD 0 ≤ (node.step P params op).loadState.height.getD 0

/-- What remains was pending before. -/
theorem lookup_remaining {op : Op} {key : String} {entry : MempoolEntry}
    (h : (node.remaining P params op).pending.lookup key = some entry) :
    node.mempool.pending.lookup key = some entry := by
  unfold remaining at h
  split at h
  · split at h
    · exact h
    · split at h
      · exact (lookup_removeConfirmed.mp h).1
      · exact h
  · exact h

/-- Every pending transaction is valid now, with the fee of its entry. -/
def Current (P : Primitives) (params : ConsensusParams) (node : Node) : Prop :=
  ∀ key entry, node.mempool.pending.lookup key = some entry →
    node.ValidNow P params entry.tx entry.feeAtoms

/-! ## From one chain to another -/

/-- A transaction stays valid if what it spends is not touched and the height does
    not fall. -/
theorem ValidNow.carry (hU : HashFaithful P U) (hs : Sound P params U node)
    (hs' : Sound P params U node')
    (hreplays : ∃ u, replayUtxo P params node'.canonicalChain = .ok u)
    (hheight : node.loadState.height.getD 0 ≤ node'.loadState.height.getD 0) {tx : Transaction}
    {fee : UInt64} (h : node.ValidNow P params tx fee)
    (hold : ∀ b ∈ node.canonicalChain, b ∉ node'.canonicalChain →
      ∀ op ∈ tx.outpoints, op ∉ b.creates.map Prod.fst)
    (hnew : ∀ b ∈ node'.canonicalChain, b ∉ node.canonicalChain →
      ∀ op ∈ tx.outpoints, op ∉ b.creates.map Prod.fst ∧ op ∉ b.spends) :
    node'.ValidNow P params tx fee := by
  obtain ⟨L, hR, hL⟩ := hs.represents hU
  obtain ⟨L', hR', hL'⟩ := hs'.represents hU
  obtain ⟨u, hu, hvalid⟩ := h
  obtain ⟨u', hu'⟩ := hreplays
  refine ⟨u', hu', ?_⟩
  unfold canonicalChain at hu hu' hold hnew
  rw [hR.canonicalBlocksIter_eq hL] at hu hold hnew
  rw [hR'.canonicalBlocksIter_eq hL'] at hu' hold hnew
  simp only [List.mem_reverse] at hold hnew
  have hsame : ∀ op ∈ tx.outpoints, u.lookup op = u'.lookup op := by
    intro op hop
    obtain ⟨entry, hentry⟩ := validateTransaction_lookup hvalid hop
    -- A block on both chains has the same blocks below it on both.
    have hshare : ∀ b l, (b :: l) <:+ L.chain → b ∈ L'.chain → (b :: l) <:+ L'.chain := by
      intro b l hl hb
      refine hL.suffix_of_mem hU hL' (hL.chain_ancestry ?_) (hL'.chain_ancestry ?_) hl hb
      · exact List.ne_nil_of_mem (hl.subset List.mem_cons_self)
      · exact List.ne_nil_of_mem hb
    have hnd : L'.chain.Nodup := by
      by_cases hempty : L'.chain = []
      · rw [hempty]
        exact List.nodup_nil
      · exact hL'.ancestry_nodup (hL'.chain_ancestry hempty)
    rw [hentry, replay_lookup_kept hshare hnd hu hu' hentry
      (fun b hb hnb => hold b hb hnb op hop) (fun b hb hnb => hnew b hb hnb op hop)]
  rw [validateTransaction_congr hsame] at hvalid
  exact validateTransaction_later hheight hvalid

/-- An entry behind `requeue_reorged_transactions` was left in place, or is valid
    now. -/
theorem requeued_validNow {s : ChainState} (hR : ChainState.Represents P params s L)
    (hL : L.WellFormed P U) (hstamped : ChainState.Stamped P s) (hdb : node.db = s.db)
    {order : PendingOrder} {m : Mempool} {key : String} {entry : MempoolEntry}
    (hentry : (s.takeReorgRequeueCandidates.1.foldl
      (requeueOne P params order s.takeReorgRequeueCandidates.2 (s.height.getD 0))
      (m, 0)).1.pending.lookup key = some entry) :
    m.pending.lookup key = some entry ∨
      node.ValidNow P params entry.tx entry.feeAtoms := by
  have hR' := represents_of_db hR hL hdb
  rcases lookup_requeue _ _ hentry with hkept | ⟨hcandidates, hvalid⟩
  · exact Or.inl hkept
  · right
    have hne : s.lastDisconnected ≠ [] := by
      intro hempty
      apply hcandidates
      unfold ChainState.takeReorgRequeueCandidates
      rw [hempty]
      rfl
    have hreplay := hR.utxo_of_disconnected hL hstamped hne
    have hheight : node.loadState.height = s.height := by
      unfold ChainState.height
      rw [hR'.heightCache, hR.heightCache]
    refine ⟨s.db.utxo, ?_, ?_⟩
    · unfold canonicalChain
      rw [hR'.canonicalBlocksIter_eq hL, ← hR.canonicalBlocksIter_eq hL]
      exact hreplay
    · rw [hheight]
      exact hvalid

/-! ## What an operation does -/

/-- The canonical chain behind an operation replays if the one before it does,
    and every entry behind it was left in place or is valid now. -/
structure Effect (P : Primitives) (params : ConsensusParams) (U : Set Block) (node node' : Node)
    (left : Mempool) : Prop where
  sound : Sound P params U node'
  replays : (∃ u, replayUtxo P params node.canonicalChain = .ok u) →
    ∃ u, replayUtxo P params node'.canonicalChain = .ok u
  entries : ∀ key entry, node'.mempool.pending.lookup key = some entry →
    left.pending.lookup key = some entry ∨ node'.ValidNow P params entry.tx entry.feeAtoms

theorem Effect.refl (hs : Sound P params U node) : Effect P params U node node node.mempool :=
  ⟨hs, fun h => h, fun _ _ h => Or.inl h⟩

/-- Behind a successful synchronisation the set is that of the canonical chain. -/
theorem replay_of_synced (hU : HashFaithful P U) {s s₁ : ChainState}
    (hs : ChainState.Reachable P params U s) (h : s.ensureUtxoSynced P params = (.ok (), s₁)) :
    replayUtxo P params s₁.canonicalBlocksIter = .ok s₁.db.utxo := by
  obtain ⟨L, hR, hL⟩ := hs.represents hU
  cases hreplay : replayUtxo P params L.chain.reverse with
  | error e =>
    rw [hR.ensureUtxoSynced_error hL hreplay] at h
    cases h
  | ok u =>
    obtain ⟨s₂, hs₂, hR₂, hutxo⟩ := hR.ensureUtxoSynced_ok hL hreplay
    obtain rfl : s₂ = s₁ := (Prod.mk.inj (hs₂.symm.trans h)).2
    rw [hR₂.canonicalBlocksIter_eq hL, hreplay]
    by_cases hempty : L.chain = []
    · -- Without a chain the set is empty on both sides.
      have hreach := hs.ensureUtxoSynced hU
      rw [h] at hreach
      rw [hreach.utxo_noTip hU (by rw [hR₂.tipCache, hempty]; rfl)]
      rw [hempty] at hreplay
      exact hreplay.symm
    · rw [(hutxo hempty).1]

theorem acceptPeerTx_effect (hU : HashFaithful P U) (hs : Sound P params U node)
    (order : PendingOrder) (tx : Transaction) :
    Effect P params U node (node.acceptPeerTx P params order tx).2 node.mempool := by
  obtain ⟨L, hR, hL⟩ := hs.represents hU
  obtain ⟨hdb, hmempool⟩ := acceptPeerTx_cases P params node order tx
  have hR₁ := hR.ensureUtxoSynced hL
  have hR' := represents_of_db hR₁ hL hdb
  have hchain : (node.acceptPeerTx P params order tx).2.canonicalChain = node.canonicalChain := by
    unfold canonicalChain
    rw [hR'.canonicalBlocksIter_eq hL, hR.canonicalBlocksIter_eq hL]
  refine ⟨.of_reachable (ChainState.Reachable.ensureUtxoSynced hs hU) hU hdb, ?_, ?_⟩
  · rw [hchain]
    exact fun h => h
  · intro key entry hentry
    rcases hmempool with hsame | ⟨s, hsync, hadd⟩
    · rw [hsame] at hentry
      exact Or.inl hentry
    · rcases Mempool.lookup_add hadd hentry with hold | ⟨rfl, hvalid⟩
      · exact Or.inl hold
      · right
        rw [validateTransaction_seeded] at hvalid
        rw [hsync] at hR₁
        -- It was validated against the synced state, which has the chain of the node.
        have hheight : (node.acceptPeerTx P params order entry.tx).2.loadState.height = s.height := by
          unfold ChainState.height
          rw [hR'.heightCache, hR₁.heightCache]
        refine ⟨s.db.utxo, ?_, by rw [hheight]; exact hvalid⟩
        rw [hchain]
        unfold canonicalChain
        rw [hR.canonicalBlocksIter_eq hL, ← hR₁.canonicalBlocksIter_eq hL]
        exact replay_of_synced hU hs hsync

/-- The effect of submissions followed by `requeue_reorged_transactions`. -/
theorem submits_effect (hU : HashFaithful P U) (hs : Sound P params U node) {s : ChainState}
    (hsubmits : ChainState.Submits P params node.loadState s) (hdb : node'.db = s.db)
    (hstores : ChainState.StoresOnly U node'.loadState) (order : PendingOrder) {left : Mempool}
    (hmempool : ∀ key entry, node'.mempool.pending.lookup key = some entry →
      left.pending.lookup key = some entry ∨
      (s.takeReorgRequeueCandidates.1.foldl
        (requeueOne P params order s.takeReorgRequeueCandidates.2 (s.height.getD 0))
        (left, 0)).1.pending.lookup key = some entry) :
    Effect P params U node node' left := by
  have hstores' : ChainState.StoresOnly U s := by
    intro k b hk
    refine hstores k b ?_
    unfold ChainState.getBlockByHash at hk ⊢
    rw [loadState_db, hdb]
    exact hk
  have hreach := hsubmits.reachable hs hstores'
  obtain ⟨L', hR', hL'⟩ := hreach.represents hU
  have hR'' := represents_of_db hR' hL' hdb
  -- A node opens its state without disconnected blocks, so they come from this run.
  have hstamped := hsubmits.stamped (P := P) (by
    left
    unfold loadState ChainState.openDb ChainState.reloadCaches
    dsimp only
    split
    · rfl
    · split
      · rfl
      · rfl)
  refine ⟨.of_reachable hreach hU hdb, ?_, ?_⟩
  · intro h
    obtain ⟨u, hu⟩ := hsubmits.replays hU hs hstores' h
    refine ⟨u, ?_⟩
    unfold canonicalChain
    rw [hR''.canonicalBlocksIter_eq hL', ← hR'.canonicalBlocksIter_eq hL']
    exact hu
  · intro key entry hentry
    rcases hmempool key entry hentry with hkept | hrequeued
    · exact Or.inl hkept
    · exact requeued_validNow hR' hL' hstamped hdb hrequeued

theorem takeBlock_effect (hU : HashFaithful P U) (hs : Sound P params U node)
    {order : PendingOrder} {block : Block} {nowSeconds : Nat}
    (hstores : ChainState.StoresOnly U
      (node.takeBlock P params order block nowSeconds).2.loadState) :
    Effect P params U node (node.takeBlock P params order block nowSeconds).2
      (match (node.loadState.submitBlock P params block nowSeconds).1 with
        | .ok accepted => node.mempool.removeConfirmed accepted
        | .error _ => node.mempool) := by
  have hdb := takeBlock_db P params node order block nowSeconds
  have hsubmits : ChainState.Submits P params node.loadState
      (node.loadState.submitBlock P params block nowSeconds).2 := .submit block nowSeconds .refl
  refine submits_effect hU hs hsubmits hdb hstores order ?_
  intro key entry hentry
  cases hsub : node.loadState.submitBlock P params block nowSeconds with
  | mk result s =>
    cases result with
    | error e =>
      rw [takeBlock_mempool_error (by rw [hsub])] at hentry
      exact Or.inl hentry
    | ok accepted =>
      rw [takeBlock_mempool_ok hsub] at hentry
      exact Or.inr hentry

theorem syncFromPeer_effect (hU : HashFaithful P U) (hs : Sound P params U node)
    {order : PendingOrder} {now : Block → Nat} {remote : P2pHello}
    {fetch : Nat → Except String (List Block)} {fuel : Nat} {result : Except SyncError Unit}
    (h : node.syncFromPeer P params order now remote fetch fuel = some (result, node'))
    (hstores : ChainState.StoresOnly U node'.loadState) :
    Effect P params U node node' node.mempool := by
  rcases syncFromPeer_cases h with rfl | ⟨outcome, s, hsync, _, hdb, hmempool⟩
  · exact .refl hs
  · refine submits_effect hU hs (syncLoop_submits hsync) hdb hstores order ?_
    intro key entry hentry
    rcases hmempool with hsame | hrequeue
    · left
      rwa [hsame] at hentry
    · right
      rwa [hrequeue, requeueReorgedTransactions_mempool] at hentry

theorem step_effect (hU : HashFaithful P U) (hs : Sound P params U node) {op : Op}
    (hstores : ChainState.StoresOnly U (node.step P params op).loadState) :
    Effect P params U node (node.step P params op) (node.remaining P params op) := by
  cases op with
  | request request =>
    have hstep : node.step P params (.request request) = node.serve P params request := rfl
    rw [hstep] at hstores ⊢
    rcases serve_cases P params node request with ⟨tx, hkind, hserve⟩ | ⟨block, now, hkind, hserve⟩
    · have hleft : node.remaining P params (.request request) = node.mempool := by
        dsimp only [remaining]
        rw [hkind]
      rw [hserve, hleft]
      exact acceptPeerTx_effect hU hs request.order tx
    · rw [hserve] at hstores ⊢
      dsimp only [remaining]
      rw [hkind]
      exact takeBlock_effect hU hs hstores
  | syncFromPeer order now remote fetch fuel =>
    show Effect P params U node _ node.mempool
    dsimp only [step] at hstores ⊢
    cases hsync : node.syncFromPeer P params order now remote fetch fuel with
    | none => exact .refl hs
    | some outcome =>
      rw [hsync] at hstores
      exact syncFromPeer_effect hU hs hsync hstores

/-! ## Runs -/

/-- One operation keeps every pending transaction valid. -/
theorem Current.step (hU : HashFaithful P U) (hs : Sound P params U node)
    (hcurrent : node.Current P params) {op : Op}
    (hstores : ChainState.StoresOnly U (node.step P params op).loadState)
    (hcond : node.Undisturbed P params op) :
    Sound P params U (node.step P params op) ∧ (node.step P params op).Current P params := by
  have heffect := step_effect hU hs hstores
  refine ⟨heffect.sound, fun key entry hentry => ?_⟩
  rcases heffect.entries key entry hentry with hleft | hvalid
  · have hbefore : node.ValidNow P params entry.tx entry.feeAtoms :=
      hcurrent key entry (lookup_remaining hleft)
    have hreplays : ∃ u, replayUtxo P params node.canonicalChain = .ok u := by
      obtain ⟨u, hu, _⟩ := hbefore
      exact ⟨u, hu⟩
    refine hbefore.carry hU hs heffect.sound (heffect.replays hreplays) hcond.height ?_ ?_
    · intro b hb hnb
      exact hcond.disconnected b hb hnb key entry hleft
    · intro b hb hnb
      exact hcond.connected b hb hnb key entry hleft
  · exact hvalid

/-- **The mempool holds only transactions that are valid now**, with the fee that
    validation returns, in every run of operations that starts with an empty
    mempool and never touches what the pending transactions spend. -/
theorem mempool_current (P : Primitives) (params : ConsensusParams) (U : Set Block)
    (hU : HashFaithful P U) (node : Node) (hs : Sound P params U node)
    (hempty : node.mempool = Mempool.new) (ops : List Op)
    (hrun : Along (step P params) (fun node op =>
      ChainState.StoresOnly U (node.step P params op).loadState ∧
      node.Undisturbed P params op) node ops) :
    (ops.foldl (step P params) node).Current P params := by
  have hstart : node.Current P params := by
    intro key entry hentry
    rw [hempty] at hentry
    cases hentry
  have hinv := hrun.invariant (fun node => Sound P params U node ∧ node.Current P params)
    ⟨hs, hstart⟩ ?_
  · exact hinv.2
  · rintro n op ⟨hs, hcurrent⟩ ⟨hstores, hcond⟩
    exact hcurrent.step hU hs hstores hcond

/-! ## A spend confirmed behind the mempool

    The node of the fork above, with the spend of the genesis coinbase pending,
    is one block behind its peer, and the block confirms the spend. -/

/-- A child of the tip that confirms the spend. -/
def confirmingChild : Block :=
  candidateBlock Primitives.sample testParams
    (some (clockChain Primitives.sample testParams 10)) 99 "m" [genesisSpend] 0

/-- A peer that holds this child. -/
def confirmingPeer (fromHeight : Nat) : Except String (List Block) :=
  .ok (if fromHeight = 11 then [confirmingChild] else [])

/-- Admitting the spend, then catching up with the peer. -/
def confirmedBySync : List Op :=
  [.request (.sendRawTransaction Iteration.sorted genesisSpend),
    .syncFromPeer Iteration.sorted (fun _ => 100)
      ⟨"tensorium-p2p", p2pProtocolVersion, testParams.chainId, 11⟩ confirmingPeer 1]

/-- The spend is confirmed by the new tip, and stays pending: it is valid no
    longer. -/
theorem sync_leaves_confirmed :
    let after := confirmedBySync.foldl (step Primitives.sample testParams) minedNode
    Sound Primitives.sample testParams {b | b ∈ minedFork} minedNode ∧
    minedNode.mempool = Mempool.new ∧
    after.canonicalChain.getLast? = some confirmingChild ∧
    genesisSpend ∈ confirmingChild.transactions ∧
    after.mempool.pending.lookup genesisSpend.id.toHex = some genesisSpendEntry ∧
    ¬ after.Current Primitives.sample testParams := by
  intro after
  have heval : after.canonicalChain.getLast? = some confirmingChild ∧
      genesisSpend ∈ confirmingChild.transactions ∧
      after.mempool.pending.lookup genesisSpend.id.toHex = some genesisSpendEntry ∧
      ((replayUtxo Primitives.sample testParams after.canonicalChain).toOption.bind fun u =>
        (validateTransaction Primitives.sample u genesisSpend
          (after.loadState.height.getD 0) testParams).toOption) = none := by
    decide +kernel
  obtain ⟨htip, hconfirmed, hpending, hinvalid⟩ := heval
  refine ⟨minedNode_sound, rfl, htip, hconfirmed, hpending, ?_⟩
  intro hcurrent
  obtain ⟨u, hu, hvalid⟩ := hcurrent _ _ hpending
  dsimp only [genesisSpendEntry] at hvalid
  rw [hu] at hinvalid
  dsimp only [Except.toOption, Option.bind] at hinvalid
  rw [hvalid] at hinvalid
  cases hinvalid

/-- Admitting the spend, then a child of the tip without it. -/
def undisturbedRun : List Op :=
  [.request (.sendRawTransaction Iteration.sorted genesisSpend),
    .request (.submitBlock Iteration.sorted plainChild 100)]

/-- Whether an operation leaves the remaining transactions alone is decided by
    evaluation. -/
theorem undisturbed_of_eval {op : Op}
    (hold : ∀ b ∈ node.canonicalChain, b ∈ (node.step P params op).canonicalChain)
    (hnew : ∀ b ∈ (node.step P params op).canonicalChain, b ∉ node.canonicalChain →
      ∀ e ∈ (node.remaining P params op).pending.entries, ∀ outpoint ∈ e.2.tx.outpoints,
        outpoint ∉ b.creates.map Prod.fst ∧ outpoint ∉ b.spends)
    (hheight : node.loadState.height.getD 0 ≤ (node.step P params op).loadState.height.getD 0) :
    node.Undisturbed P params op where
  disconnected b hb hnb := absurd (hold b hb) hnb
  connected b hb hnb key entry hentry :=
    hnew b hb hnb ⟨key, entry⟩ (Finmap.lookup_eq_some_iff.mp hentry)
  height := hheight

/-- The spend stays valid behind a child that does not touch it. -/
theorem mempool_current_plainChild :
    (undisturbedRun.foldl (step Primitives.sample testParams) minedNode).Current
      Primitives.sample testParams := by
  -- Everything about the concrete nodes is computed in one go.
  have heval : (∀ e ∈ spendingNode.db.blocks.entries, e.2 ∈ minedFork) ∧
      (∀ b ∈ minedNode.canonicalChain, b ∈ spendingNode.canonicalChain) ∧
      (∀ b ∈ spendingNode.canonicalChain, b ∈ minedNode.canonicalChain) ∧
      minedNode.loadState.height.getD 0 ≤ spendingNode.loadState.height.getD 0 ∧
      (∀ e ∈ (spendingNode.serve Primitives.sample testParams
        (.submitBlock Iteration.sorted plainChild 100)).db.blocks.entries, e.2 ∈ minedFork) ∧
      (∀ b ∈ spendingNode.canonicalChain, b ∈ (spendingNode.serve Primitives.sample testParams
        (.submitBlock Iteration.sorted plainChild 100)).canonicalChain) ∧
      (∀ b ∈ (spendingNode.serve Primitives.sample testParams
        (.submitBlock Iteration.sorted plainChild 100)).canonicalChain,
        b ∉ spendingNode.canonicalChain →
        ∀ e ∈ (spendingNode.remaining Primitives.sample testParams
          (.request (.submitBlock Iteration.sorted plainChild 100))).pending.entries,
        ∀ outpoint ∈ e.2.tx.outpoints,
          outpoint ∉ b.creates.map Prod.fst ∧ outpoint ∉ b.spends) ∧
      spendingNode.loadState.height.getD 0 ≤ (spendingNode.serve Primitives.sample testParams
        (.submitBlock Iteration.sorted plainChild 100)).loadState.height.getD 0 := by
    decide +kernel
  obtain ⟨hstores, hold, hsame, hheight, hstores', hold', hnew', hheight'⟩ := heval
  have hfirst : step Primitives.sample testParams minedNode
      (.request (.sendRawTransaction Iteration.sorted genesisSpend)) = spendingNode := rfl
  refine mempool_current Primitives.sample testParams {b | b ∈ minedFork} minedFork_faithful
    minedNode minedNode_sound rfl undisturbedRun ⟨⟨?_, ?_⟩, ⟨?_, ?_⟩, trivial⟩
  · rw [hfirst]
    exact storesOnly_loadState hstores
  · refine undisturbed_of_eval ?_ ?_ ?_
    · rw [hfirst]
      exact hold
    · rw [hfirst]
      exact fun b hb hnb => absurd (hsame b hb) hnb
    · rw [hfirst]
      exact hheight
  · rw [hfirst]
    generalize spendingNode = node at *
    exact storesOnly_loadState hstores'
  · rw [hfirst]
    generalize spendingNode = node at *
    exact undisturbed_of_eval hold' hnew' hheight'

end Node

end Tensorium
