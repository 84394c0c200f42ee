import Tensorium.Node.Runs
import Tensorium.State.Mining
import Tensorium.Utxo.Frame
import Mathlib.Data.String.Basic

/-! # Which pending transactions survive a block

    `accept_peer_block` and `POST /submitblock` call `remove_confirmed` for every
    block that `submit_block` accepts, also for one that it has only stored on a
    losing branch. What such a block carries is then neither confirmed nor
    pending. A pending transaction is safe in a run in which a block that makes
    it obsolete always becomes canonical, and spends what the transaction
    wants to spend.
-/

namespace Tensorium

open BulkMap ParentLinked GuardedRun

/-- The test of fork choice in `submit_block`, on the state before the block is
    stored. -/
def ChainState.Outweighs (P : Primitives) (s : ChainState) (block : Block) : Prop :=
  (s.storeBlock P block).chainWork (block.hash P)
    > (s.storeBlock P block).chainWork ((s.storeBlock P block).tipHash P)

namespace Node

variable {P : Primitives} {params : ConsensusParams} {U : Set Block} {node : Node} {L : Ledger}
variable {block : Block} {nowSeconds : Nat}

/-- Whenever the request brings a block that is accepted, that block makes a
    pending transaction obsolete only if it outweighs the canonical chain and
    spends, for good, some outpoint that the transaction spends. -/
def ObsoletesByConfirming (P : Primitives) (params : ConsensusParams) (node : Node)
    (request : Request) : Prop :=
  ∀ block nowSeconds, request.block? = some (block, nowSeconds) →
    (node.loadState.submitBlock P params block nowSeconds).1 = .ok block →
    ∀ key entry, node.mempool.pending.lookup key = some entry →
      Mempool.obsoletedBy block key entry = true →
      node.loadState.Outweighs P block ∧
        ∃ op ∈ entry.tx.outpoints, op ∈ block.spends ∧ op ∉ block.creates.map Prod.fst

/-- The calls of `Mempool::add` that a request makes, with the mempools before
    and after each. -/
def addCalls (P : Primitives) (params : ConsensusParams) (node : Node) (request : Request) :
    List (Mempool × Mempool) :=
  match request.block? with
  | none => [(node.mempool, (node.serve P params request).mempool)]
  | some (block, nowSeconds) => node.requeueCallsOf P params request.order block nowSeconds

/-! ## The chain after a block -/

section block

variable (hR : ChainState.Represents P params node.loadState L) (hL : L.WellFormed P U)
variable (hU : HashFaithful P U)

include hR hL hU in
/-- The test of fork choice, in terms of the ledger. -/
theorem outweighs_iff (hblock : block ∈ U) {parents : List Block}
    (hparents : L.AncestryOf block.previousHash parents)
    (hheight : block.header.height = parents.length) :
    node.loadState.Outweighs P block ↔
      branchWork (block :: parents) > branchWork L.chain := by
  have hR' := hR.storeBlock hL hU hblock
  have hL' := hL.store hU hblock hparents hheight
  have hne : L.chain ≠ [] := by
    obtain ⟨p, _, _, hp⟩ := hparents.head
    exact hL.nonempty _ _ hp
  have hnew := hR'.chainWork_eq hL' hU (hL.store_ancestry hU hblock hparents)
  have htip : (L.store P block).AncestryOf (L.tipHash P) L.chain :=
    (hL.chain_ancestry hne).mono (hL.store_extends hU hblock)
  unfold ChainState.Outweighs
  rw [hnew, hR'.tipHash_eq, show (L.store P block).tipHash P = L.tipHash P from rfl,
    hR'.chainWork_eq hL' hU htip]

include hR hL hU in
/-- A block that is accepted and outweighs the canonical chain becomes the last
    block of it. -/
theorem canonicalChain_of_outweighs {order : PendingOrder}
    (hstores : ChainState.StoresOnly U
      (node.takeBlock P params order block nowSeconds).2.loadState)
    (hok : (node.loadState.submitBlock P params block nowSeconds).1 = .ok block)
    (hout : node.loadState.Outweighs P block) :
    ∃ parents, (node.takeBlock P params order block nowSeconds).2.canonicalChain
      = parents ++ [block] := by
  have hdb := takeBlock_db P params node order block nowSeconds
  have hmem : (node.loadState.submitBlock P params block nowSeconds).2.getBlockByHash
      (block.hash P) = some block → block ∈ U := by
    intro h
    refine hstores (block.hash P) block ?_
    unfold ChainState.getBlockByHash at h ⊢
    rw [loadState_db, hdb]
    exact h
  obtain ⟨hres, hR', hL'⟩ := hR.submitBlock hL hU nowSeconds hmem
  rw [hok] at hres
  obtain ⟨u, parents, hfresh, hreplay, hparents, hval, hsubmit⟩ := Ledger.submit_ok hres.symm
  rw [hsubmit] at hres hR' hL'
  have hheight := hL.validated_height hparents hval
  obtain ⟨_, ⟨hwork, _, hadopt⟩ | ⟨hlight, hstore⟩⟩ := Ledger.choose_ok hres.symm
  · rw [hadopt] at hR' hL'
    have hR'' := represents_of_db hR' hL' hdb
    refine ⟨parents.reverse, ?_⟩
    unfold canonicalChain
    rw [hR''.canonicalBlocksIter_eq hL']
    exact List.reverse_cons
  · -- Stored only; but the block was heavy enough.
    have hblock : block ∈ U := by
      rw [hstore] at hL'
      exact hL'.mem _ _ (Ledger.store_known_self L block)
    exact absurd ((outweighs_iff hR hL hU hblock hparents hheight).mp hout) hlight

end block

/-- What the last block of a chain spends for good is not in the set behind it. -/
theorem replay_lookup_spent {chain : List Block} {u : UtxoSet}
    (hreplay : replayUtxo P params (chain ++ [block]) = .ok u) {op : OutPoint}
    (hspent : op ∈ block.spends) (hcreated : op ∉ block.creates.map Prod.fst) :
    u.lookup op = none := by
  rw [replayUtxo_concat] at hreplay
  obtain ⟨v, _, happly⟩ := ExceptFold.bind_eq_ok.mp hreplay
  obtain ⟨_, _, _, _, _, _, _, rfl⟩ := applyBlock_ok happly
  rw [lookup_applyDelta, lastBinding_eq_none.mpr hcreated, if_pos hspent, Option.none_or]

/-! ## One request -/

/-- `remove_confirmed` keeps what the block does not make obsolete. -/
theorem lookup_removeConfirmed {m : Mempool} {key : String} {entry : MempoolEntry} :
    (m.removeConfirmed block).pending.lookup key = some entry ↔
      m.pending.lookup key = some entry ∧ Mempool.obsoletedBy block key entry = false := by
  unfold Mempool.removeConfirmed
  dsimp only
  rw [lookup_retain, Option.filter_eq_some_iff]
  simp

/-- A transaction that was pending before a request and is valid after it is
    still pending. -/
theorem serve_keeps (hU : HashFaithful P U) (hs : Sound P params U node) {request : Request}
    (hstores : ChainState.StoresOnly U (node.serve P params request).loadState)
    (hcond : node.ObsoletesByConfirming P params request) {key : String} {entry : MempoolEntry}
    (hentry : node.mempool.pending.lookup key = some entry)
    (hevict : ¬ EvictedIn (node.addCalls P params request) key) {fee : UInt64}
    (hvalid : (node.serve P params request).ValidNow P params entry.tx fee) :
    (node.serve P params request).mempool.pending.lookup key = some entry := by
  rcases serve_cases P params node request with ⟨tx, hkind, hserve⟩ | ⟨block, now, hkind, hserve⟩
  · -- The mempool is the old one, or what `add` makes of it.
    have hcalls : node.addCalls P params request
        = [(node.mempool, (node.serve P params request).mempool)] := by
      unfold addCalls
      rw [hkind]
    rw [hcalls] at hevict
    rw [hserve] at hevict ⊢
    rcases (acceptPeerTx_cases P params node request.order tx).2 with hsame | ⟨s, _, hadd⟩
    · rw [hsame]
      exact hentry
    · rcases Mempool.add_keeps hadd hentry with hkept | ⟨hgone, _⟩
      · exact hkept
      · exact absurd ⟨_, List.mem_singleton_self _, by rw [hentry]; rfl, hgone⟩ hevict
  · obtain ⟨L, hR, hL⟩ := hs.represents hU
    have hcalls : node.addCalls P params request
        = node.requeueCallsOf P params request.order block now := by
      unfold addCalls
      rw [hkind]
    rw [hcalls] at hevict
    rw [hserve] at hstores hvalid ⊢
    cases hsub : node.loadState.submitBlock P params block now with
    | mk result s =>
      cases result with
      | error e =>
        rw [takeBlock_mempool_error (by rw [hsub])]
        exact hentry
      | ok accepted =>
        obtain rfl : accepted = block := ChainState.submitBlock_ok_eq (by rw [hsub])
        have hkept : Mempool.obsoletedBy accepted key entry = false := by
          by_contra hobsolete
          obtain ⟨hout, op, hop, hspent, hcreated⟩ := hcond accepted now hkind (by rw [hsub]) key
            entry hentry (Bool.not_eq_false _ ▸ hobsolete)
          obtain ⟨parents, hchain⟩ :=
            canonicalChain_of_outweighs hR hL hU hstores (by rw [hsub]) hout
          obtain ⟨u, hreplay, hval⟩ := hvalid
          rw [hchain] at hreplay
          obtain ⟨e, he⟩ := validateTransaction_lookup hval hop
          rw [replay_lookup_spent hreplay hspent hcreated] at he
          cases he
        rw [takeBlock_mempool_ok hsub]
        refine requeue_keeps _ _ (lookup_removeConfirmed.mpr ⟨hentry, hkept⟩) ?_
        unfold requeueCallsOf at hevict
        rw [hsub] at hevict
        exact hevict

/-! ## Runs -/

/-- A request leaves a sound node. -/
theorem serve_sound (hU : HashFaithful P U) (hs : Sound P params U node) {request : Request}
    (hstores : ChainState.StoresOnly U (node.serve P params request).loadState) :
    Sound P params U (node.serve P params request) := by
  rcases serve_cases P params node request with ⟨tx, _, hserve⟩ | ⟨block, now, _, hserve⟩
  · rw [hserve]
    exact .of_reachable (ChainState.Reachable.ensureUtxoSynced hs hU) hU
      (acceptPeerTx_cases P params node request.order tx).1
  · rw [hserve] at hstores ⊢
    have hdb := takeBlock_db P params node request.order block now
    have hstores' : ChainState.StoresOnly U
        (node.loadState.submitBlock P params block now).2 := by
      intro k b hk
      refine hstores k b ?_
      unfold ChainState.getBlockByHash at hk ⊢
      rw [loadState_db, hdb]
      exact hk
    exact .of_reachable (ChainState.Reachable.submitBlock hs hstores') hU hdb

/-- **A pending transaction stays pending as long as it is valid and not evicted**,
    in every run in which blocks make pending transactions obsolete by confirming
    or outspending them on the canonical chain. That it is not confirmed need not
    be assumed: what a canonical block spends is not valid behind it. -/
theorem pending_retained (P : Primitives) (params : ConsensusParams) (U : Set Block)
    (hU : HashFaithful P U) (node : Node) (hs : Sound P params U node) (key : String)
    (entry : MempoolEntry) (hentry : node.mempool.pending.lookup key = some entry)
    (requests : List Request)
    (hrun : Along (serve P params) (fun node request =>
      ChainState.StoresOnly U (node.serve P params request).loadState ∧
      node.ObsoletesByConfirming P params request ∧
      ¬ EvictedIn (node.addCalls P params request) key ∧
      ∃ fee, (node.serve P params request).ValidNow P params entry.tx fee) node requests) :
    (requests.foldl (serve P params) node).mempool.pending.lookup key = some entry := by
  have hinv := hrun.invariant
    (fun node => Sound P params U node ∧ node.mempool.pending.lookup key = some entry)
    ⟨hs, hentry⟩ ?_
  · exact hinv.2
  · rintro n request ⟨hs, hentry⟩ ⟨hstores, hcond, hevict, fee, hvalid⟩
    exact ⟨serve_sound hU hs hstores, serve_keeps hU hs hstores hcond hentry hevict hvalid⟩

/-! ## A fork

    The node has mined ten blocks and admits a spend of the genesis coinbase. A
    rival of its tip arrives, with the same work, in which another miner has
    confirmed the spend. -/

theorem sample_easyNetwork : EasyNetwork Primitives.sample testParams where
  work parent timestampSeconds miner := by
    show hashMeetsWork Hash256.zero testParams.initialLeadingZeroBits = true
    decide
  activation := by decide
  premint := by decide

/-- The public key that the address of the genesis block stands for. -/
def genesisKey : Bytes :=
  2 :: ((Hash256.ofSuffix (asBytes "genesis")).bytes.drop 12 ++ List.replicate 12 0)

/-- A spend of the genesis coinbase, signed. -/
def genesisSpend : Transaction :=
  let outpoint : OutPoint :=
    ⟨(Transaction.coinbase Primitives.sample 0 (rewardAtHeight testParams 0) "genesis").id, 0⟩
  let unsigned : Transaction := ⟨Hash256.zero, [⟨outpoint, []⟩], [⟨1, []⟩], []⟩
  let signature := genesisKey ++ (unsigned.signatureHash Primitives.sample).bytes
  let inputs : List TxInput := [⟨outpoint, Script.p2pkhScriptSig signature genesisKey⟩]
  { unsigned with
    id := transactionId Primitives.sample inputs unsigned.outputs unsigned.payload
    inputs := inputs }

/-- The entry it gets: all but one atom of the reward is fee. -/
def genesisSpendEntry : MempoolEntry := ⟨genesisSpend, rewardAtHeight testParams 0 - 1⟩

/-- A node that has mined ten blocks. -/
def minedNode : Node where
  db := (ChainState.clockRun Primitives.sample testParams 10).db
  mempool := Mempool.new

/-- The same node with the spend pending. -/
def spendingNode : Node :=
  minedNode.serve Primitives.sample testParams (.sendRawTransaction Iteration.sorted genesisSpend)

/-- A rival of the tip that confirms the spend. -/
def confirmingRival : Block :=
  candidateBlock Primitives.sample testParams
    (some (clockChain Primitives.sample testParams 9)) 99 "m" [genesisSpend] 0

/-- A child of the tip that does not. -/
def plainChild : Block :=
  candidateBlock Primitives.sample testParams
    (some (clockChain Primitives.sample testParams 10)) 99 "m" [] 0

/-- Validity is decided by evaluation. -/
theorem validNow_of_eval {tx : Transaction} {fee : UInt64}
    (h : ((replayUtxo P params node.canonicalChain).toOption.bind fun u =>
      (validateTransaction P u tx (node.loadState.height.getD 0) params).toOption) = some fee) :
    node.ValidNow P params tx fee := by
  obtain ⟨u, hu, hfee⟩ := Option.bind_eq_some_iff.mp h
  refine ⟨u, ?_, ?_⟩
  · cases hreplay : replayUtxo P params node.canonicalChain with
    | error e =>
      rw [hreplay] at hu
      cases hu
    | ok v =>
      rw [hreplay] at hu
      rw [Option.some.inj hu]
  · cases hval : validateTransaction P u tx (node.loadState.height.getD 0) params with
    | error e =>
      rw [hval] at hfee
      cases hfee
    | ok f =>
      rw [hval] at hfee
      rw [Option.some.inj hfee]

/-- The blocks of the fork. -/
def minedFork : List Block :=
  (List.range 11).map (clockChain Primitives.sample testParams) ++ [confirmingRival, plainChild]

theorem minedFork_faithful : HashFaithful Primitives.sample {b | b ∈ minedFork} := by
  have heval : (Hash256.zero :: minedFork.map (Block.hash Primitives.sample)).Nodup := by
    decide +kernel
  exact ChainState.hashFaithful_of_nodup heval

theorem minedNode_sound : Sound Primitives.sample testParams {b | b ∈ minedFork} minedNode := by
  have hmem : ∀ k ≤ 10, clockChain Primitives.sample testParams k ∈ {b | b ∈ minedFork} := by
    intro k hk
    refine List.mem_append_left _ (List.mem_map.mpr ⟨k, List.mem_range.mpr ?_, rfl⟩)
    omega
  obtain ⟨L, hgrown⟩ :=
    ChainState.clockRun_grown sample_easyNetwork minedFork_faithful hmem (by decide)
  refine .of_reachable hgrown.reachable minedFork_faithful ?_
  dsimp only [minedNode]

/-- The rival is stored beside the tip, and takes the spend out of the mempool:
    it is on no canonical block, valid before and after, evicted by nothing, and
    no longer pending. -/
theorem rival_loses_pending :
    let after := spendingNode.serve Primitives.sample testParams
      (.submitBlock Iteration.sorted confirmingRival 100)
    Sound Primitives.sample testParams {b | b ∈ minedFork} minedNode ∧
    spendingNode.mempool.pending.lookup genesisSpend.id.toHex = some genesisSpendEntry ∧
    after.canonicalChain = spendingNode.canonicalChain ∧
    (∀ b ∈ after.canonicalChain, genesisSpend.id ∉ b.transactions.map Transaction.id) ∧
    spendingNode.ValidNow Primitives.sample testParams genesisSpend genesisSpendEntry.feeAtoms ∧
    after.ValidNow Primitives.sample testParams genesisSpend genesisSpendEntry.feeAtoms ∧
    ¬ EvictedIn (spendingNode.addCalls Primitives.sample testParams
      (.submitBlock Iteration.sorted confirmingRival 100)) genesisSpend.id.toHex ∧
    after.mempool.pending.lookup genesisSpend.id.toHex = none := by
  intro after
  have heval : spendingNode.mempool.pending.lookup genesisSpend.id.toHex = some genesisSpendEntry ∧
      after.canonicalChain = spendingNode.canonicalChain ∧
      after.loadState.height = spendingNode.loadState.height ∧
      (∀ b ∈ spendingNode.canonicalChain, genesisSpend.id ∉ b.transactions.map Transaction.id) ∧
      ((replayUtxo Primitives.sample testParams spendingNode.canonicalChain).toOption.bind fun u =>
        (validateTransaction Primitives.sample u genesisSpend
          (spendingNode.loadState.height.getD 0) testParams).toOption)
        = some genesisSpendEntry.feeAtoms ∧
      (spendingNode.addCalls Primitives.sample testParams
        (.submitBlock Iteration.sorted confirmingRival 100)).isEmpty = true ∧
      after.mempool.pending.lookup genesisSpend.id.toHex = none := by
    decide +kernel
  obtain ⟨hpending, hchain, hheight, hunconfirmed, hvalid, hcalls, hlost⟩ := heval
  have hvalid' := validNow_of_eval hvalid
  refine ⟨minedNode_sound, hpending, hchain, ?_, hvalid', ?_, ?_, hlost⟩
  · rw [hchain]
    exact hunconfirmed
  · unfold ValidNow
    rw [hchain, hheight]
    exact hvalid'
  · -- Nothing is offered to the mempool, so nothing is evicted.
    rw [List.isEmpty_iff.mp hcalls]
    rintro ⟨call, hcall, _⟩
    cases hcall

/-- The store of a node is decided by its entries. -/
theorem storesOnly_loadState {l : List Block} (h : ∀ e ∈ node.db.blocks.entries, e.2 ∈ l) :
    ChainState.StoresOnly {b | b ∈ l} node.loadState :=
  ChainState.storesOnly_of_entries (by rw [loadState_db]; exact h)

/-- A child of the tip without the spend leaves it pending. -/
theorem pending_retained_plainChild :
    (spendingNode.serve Primitives.sample testParams
      (.submitBlock Iteration.sorted plainChild 100)).mempool.pending.lookup genesisSpend.id.toHex
      = some genesisSpendEntry := by
  have heval : (∀ e ∈ spendingNode.db.blocks.entries, e.2 ∈ minedFork) ∧
      (∀ e ∈ (spendingNode.serve Primitives.sample testParams
        (.submitBlock Iteration.sorted plainChild 100)).db.blocks.entries, e.2 ∈ minedFork) ∧
      spendingNode.mempool.pending.lookup genesisSpend.id.toHex = some genesisSpendEntry ∧
      (∀ e ∈ spendingNode.mempool.pending.entries,
        Mempool.obsoletedBy plainChild e.1 e.2 = false) ∧
      ((replayUtxo Primitives.sample testParams (spendingNode.serve Primitives.sample testParams
        (.submitBlock Iteration.sorted plainChild 100)).canonicalChain).toOption.bind fun u =>
        (validateTransaction Primitives.sample u genesisSpend
          ((spendingNode.serve Primitives.sample testParams (.submitBlock Iteration.sorted plainChild
            100)).loadState.height.getD 0) testParams).toOption)
        = some genesisSpendEntry.feeAtoms ∧
      (spendingNode.addCalls Primitives.sample testParams
        (.submitBlock Iteration.sorted plainChild 100)).isEmpty = true := by
    decide +kernel
  obtain ⟨hstores, hstores', hpending, hkept, hvalid, hcalls⟩ := heval
  have hsound : Sound Primitives.sample testParams {b | b ∈ minedFork} spendingNode := by
    unfold spendingNode at hstores ⊢
    exact serve_sound minedFork_faithful minedNode_sound (storesOnly_loadState hstores)
  -- From here on the node is any one with these facts.
  generalize spendingNode = node at *
  refine pending_retained Primitives.sample testParams {b | b ∈ minedFork} minedFork_faithful
    node hsound genesisSpend.id.toHex genesisSpendEntry hpending
    [.submitBlock Iteration.sorted plainChild 100] ⟨⟨?_, ?_, ?_, ?_⟩, trivial⟩
  · exact storesOnly_loadState hstores'
  · intro block now hblock _ key entry hentry hobsolete
    obtain ⟨rfl, rfl⟩ := Prod.mk.inj (Option.some.inj hblock)
    have hfalse := hkept ⟨key, entry⟩ (Finmap.lookup_eq_some_iff.mp hentry)
    rw [hobsolete] at hfalse
    cases hfalse
  · rw [List.isEmpty_iff.mp hcalls]
    rintro ⟨call, hcall, _⟩
    cases hcall
  · exact ⟨_, validNow_of_eval hvalid⟩

end Node

end Tensorium
