import Tensorium.Lib.GuardedRun
import Tensorium.Node.Runs
import Tensorium.State.Rooted
import Mathlib.Data.String.Basic

/-! # A network of nodes

    Nodes with one genesis block, and the messages between them. The network may
    delay, repeat, reorder and lose messages and hand them to any node, and anyone may
    send any message. A step is what one node does while it holds its database open;
    a node that synchronises holds it until the connection ends, and answers every
    other request with an error.
-/

namespace Tensorium

open BulkMap ParentLinked GuardedRun

/-- The messages that carry a height, blocks or a transaction. `Ack`, `Reject` and the
    like change no node. -/
inductive Message where
  | hello (hello : Node.P2pHello)
  | newBlock (block : Block)
  | newTx (tx : Transaction)
  | blocks (batch : List Block)
deriving DecidableEq

/-- The blocks in a message. -/
def Message.carried : Message → List Block
  | .newBlock block => [block]
  | .blocks batch => batch
  | .hello _ | .newTx _ => []

/-- A node. While it synchronises: the height of the peer, and the variables of
    `sync_blocks`. -/
structure Peer where
  node : Node
  syncing : Option (Nat × Node.SyncLoop)

namespace Peer

/-- The chain state the node works on. -/
def state (peer : Peer) : ChainState :=
  peer.syncing.elim peer.node.loadState fun sync => sync.2.state

/-- `handle_p2p_connection` or `handle_rpc_stream`, for a request that changes the node. -/
def serve (P : Primitives) (params : ConsensusParams) (peer : Peer) (request : Node.Request) :
    Peer :=
  match peer.syncing with
  | none => ⟨peer.node.serve P params request, none⟩
  | some _ => peer

/-- `broadcast_block_to_peers` and `broadcast_tx_to_peers`, which only the RPC calls. -/
def broadcast (P : Primitives) (params : ConsensusParams) (peer : Peer) (request : Node.Request) :
    List Message :=
  match peer.syncing, request with
  | none, .submitBlock order block nowSeconds =>
    match (peer.node.submitBlock P params order block nowSeconds).1 with
    | .ok reply => if reply.canonical.isSome then [.newBlock block] else []
    | .error _ => []
  | none, .sendRawTransaction order tx =>
    match (peer.node.sendRawTransaction P params order tx).1 with
    | .ok _ => [.newTx tx]
    | .error _ => []
  | _, _ => []

/-- The answer to `GetBlocks`. -/
def answer (peer : Peer) (fromHeight : Nat) : List Block :=
  match peer.syncing with
  | none => Node.getBlocks peer.node.loadState fromHeight
  | some _ => []

/-- `mine-once`. -/
def mineOnce (P : Primitives) (params : ConsensusParams) (peer : Peer) (timestampSeconds : Nat)
    (miner : String) (maxNonce : UInt64) : Peer :=
  match peer.syncing with
  | none => ⟨{ peer.node with
      db := (peer.node.loadState.mineNextBlock P params timestampSeconds miner maxNonce).2.db },
      none⟩
  | some _ => peer

/-- `sync_from_peer` up to the first request. -/
def startSync (params : ConsensusParams) (peer : Peer) (remote : Node.P2pHello) : Peer :=
  match peer.syncing, Node.validateHello remote params with
  | none, .ok () =>
    let s := peer.node.loadState
    if remote.height ≤ s.height.getD 0 then peer
    else { peer with syncing := some (remote.height, ⟨s, s.height.getD 0 + 1, 0, 0⟩) }
  | _, _ => peer

/-- The end of `sync_from_peer`. -/
def endSync (P : Primitives) (params : ConsensusParams) (order : PendingOrder) (peer : Peer)
    (s : ChainState) : Except Node.SyncError Nat → Peer
  | .error _ => ⟨{ peer.node with db := s.db }, none⟩
  | .ok _ =>
    let (s, m, requeued) := Node.requeueReorgedTransactions P params order s peer.node.mempool
    ⟨⟨s.db, if requeued > 0 then m else peer.node.mempool⟩, none⟩

/-- A batch arrives, or the connection fails. -/
def receiveBatch (P : Primitives) (params : ConsensusParams) (order : PendingOrder)
    (now : Block → Nat) (peer : Peer) (batch : Except String (List Block)) : Peer :=
  match peer.syncing with
  | none => peer
  | some (remoteHeight, loop) =>
    match Node.syncRound P params now remoteHeight (fun _ => batch) loop with
    | .again loop => { peer with syncing := some (remoteHeight, loop) }
    | .done result s => peer.endSync P params order s result

end Peer

/-- The nodes, and every message ever sent. -/
structure Network (ι : Type*) where
  peers : ι → Peer
  messages : List Message

namespace Network

variable {ι : Type*} [DecidableEq ι]

/-- The node after `init`. -/
def genesisNode (P : Primitives) (params : ConsensusParams) (timestampSeconds : Nat)
    (nonce : UInt64) : Node :=
  ⟨(ChainState.new.initGenesisNonce P params timestampSeconds nonce).2.db, Mempool.new⟩

def boot (P : Primitives) (params : ConsensusParams) (timestampSeconds : Nat) (nonce : UInt64) :
    Network ι where
  peers := fun _ => ⟨genesisNode P params timestampSeconds nonce, none⟩
  messages := []

inductive Event (ι : Type*) where
  /-- A request to a node, over RPC or from a peer. -/
  | request (i : ι) (request : Node.Request)
  /-- `mine-once` at a node; the block is not sent to anyone. -/
  | mineOnce (i : ι) (timestampSeconds : Nat) (miner : String) (maxNonce : UInt64)
  /-- A node says hello. -/
  | hello (i : ι)
  /-- A node answers `GetBlocks`. -/
  | getBlocks (i : ι) (fromHeight : Nat)
  /-- A node starts to synchronise with whoever said hello. -/
  | startSync (i : ι) (remote : Node.P2pHello)
  /-- It gets a batch of blocks, or none. -/
  | batch (i : ι) (order : PendingOrder) (now : Block → Nat) (batch : Except String (List Block))
  /-- Someone else sends a message. -/
  | forge (message : Message)

/-- The blocks an event brings into the network: submitted by a miner, mined by the
    node, or sent by someone else. -/
def makes (P : Primitives) (params : ConsensusParams) (w : Network ι) : Event ι → List Block
  | .request _ (.submitBlock _ block _) => [block]
  | .mineOnce i timestampSeconds miner maxNonce =>
    ((w.peers i).state.mineNextBlock P params timestampSeconds miner maxNonce).1.toOption.toList
  | .forge message => message.carried
  | _ => []

/-- What a node receives was sent. -/
def Enabled (w : Network ι) : Event ι → Prop
  | .request _ (.acceptPeerBlock _ block _) => .newBlock block ∈ w.messages
  | .request _ (.acceptPeerTx _ tx) => .newTx tx ∈ w.messages
  | .startSync _ remote => .hello remote ∈ w.messages
  | .batch _ _ _ (.ok blocks) => .blocks blocks ∈ w.messages
  | _ => True

def setPeer (w : Network ι) (i : ι) (peer : Peer) : Network ι :=
  { w with peers := Function.update w.peers i peer }

def send (w : Network ι) (messages : List Message) : Network ι :=
  { w with messages := w.messages ++ messages }

def step (P : Primitives) (params : ConsensusParams) (w : Network ι) : Event ι → Network ι
  | .request i request =>
    (w.setPeer i ((w.peers i).serve P params request)).send
      ((w.peers i).broadcast P params request)
  | .mineOnce i timestampSeconds miner maxNonce =>
    w.setPeer i ((w.peers i).mineOnce P params timestampSeconds miner maxNonce)
  | .hello i => w.send [.hello (Node.localHello (w.peers i).state params)]
  | .getBlocks i fromHeight => w.send [.blocks ((w.peers i).answer fromHeight)]
  | .startSync i remote => w.setPeer i ((w.peers i).startSync params remote)
  | .batch i order now batch =>
    w.setPeer i ((w.peers i).receiveBatch P params order now batch)
  | .forge message => w.send [message]

/-- The chain state of a node. -/
def state (w : Network ι) (i : ι) : ChainState := (w.peers i).state

end Network

/-! ## One node -/

namespace Node

variable {P : Primitives} {params : ConsensusParams} {U : Set Block} {g : Block}

/-- A batch of blocks of `U` makes the ledger grow. -/
theorem applyBatch_stores (hU : HashFaithful P U) (now : Block → Nat) (fetchFrom : Nat)
    {blocks : List Block} (hblocks : ∀ b ∈ blocks, b.MatchesRoot P → b ∈ U) (applied : Nat) {s : ChainState}
    {L : Ledger} (h : s.Stores P params U g L) :
    ∃ L', (applyBatch P params now fetchFrom blocks applied s).2.Stores P params U g L' ∧
      L.Grows L' := by
  induction blocks generalizing applied s L with
  | nil => exact ⟨L, h, .refl L⟩
  | cons block blocks ih =>
    obtain ⟨hone, hgrows⟩ := h.submitBlock hU (hblocks block List.mem_cons_self) (now block)
    have hrest : ∀ applied', ∃ L', (applyBatch P params now fetchFrom blocks applied'
        (s.submitBlock P params block (now block)).2).2.Stores P params U g L' ∧ L.Grows L' := by
      intro applied'
      obtain ⟨L', hL', hgrows'⟩ := ih (fun b hb => hblocks b (List.mem_cons_of_mem _ hb)) applied' hone
      exact ⟨L', hL', hgrows.trans hgrows'⟩
    unfold applyBatch
    cases hsub : s.submitBlock P params block (now block) with
    | mk result s₁ =>
      rw [hsub] at hone hrest
      cases result with
      | ok _ => exact hrest (applied + 1)
      | error e =>
        cases e with
        | alreadyKnown => exact hrest (applied + 1)
        | unknownParent =>
          dsimp only
          split_ifs
          · exact ⟨_, hone, hgrows⟩
          · exact ⟨_, hone, hgrows⟩
        | _ => exact ⟨_, hone, hgrows⟩

/-- The state behind a round of `sync_blocks`. -/
def Round.state : Round → ChainState
  | .done _ s => s
  | .again st => st.state

theorem syncRound_stores (hU : HashFaithful P U) (now : Block → Nat) (remoteHeight : Nat)
    {batch : Except String (List Block)} (hbatch : ∀ blocks, batch = .ok blocks →
      ∀ b ∈ blocks, b.MatchesRoot P → b ∈ U) {st : SyncLoop} {L : Ledger} (h : st.state.Stores P params U g L) :
    ∃ L', (syncRound P params now remoteHeight (fun _ => batch) st).state.Stores P params U g L' ∧
      L.Grows L' := by
  unfold syncRound
  cases batch with
  | error reason => exact ⟨L, h, .refl L⟩
  | ok blocks =>
    cases blocks with
    | nil => exact ⟨L, h, .refl L⟩
    | cons block blocks =>
      have happlied := applyBatch_stores hU now st.fetchFrom (hbatch _ rfl) 0 h
      dsimp only
      cases hrun : applyBatch P params now st.fetchFrom (block :: blocks) 0 st.state with
      | mk batchEnd s₁ =>
        rw [hrun] at happlied
        cases batchEnd with
        | failed e => exact happlied
        | forkedAt height =>
          dsimp only
          split_ifs
          · exact happlied
          · exact happlied
        | applied count =>
          dsimp only
          split_ifs
          · exact happlied
          · exact happlied

end Node

namespace Peer

variable {P : Primitives} {params : ConsensusParams} {U : Set Block} {g : Block}
variable {peer : Peer} {L : Ledger}

/-- A node whose database was written by a state that stores a ledger. -/
theorem stores_of_db {node : Node} {s : ChainState} (h : s.Stores P params U g L)
    (hdb : node.db = s.db) : node.loadState.Stores P params U g L := by
  unfold Node.loadState
  rw [hdb]
  exact h.openDb

/-- A request makes the ledger grow, if the block in it is of `U`. -/
theorem serve_stores (hU : HashFaithful P U) (h : peer.state.Stores P params U g L)
    {request : Node.Request}
    (hrequest : ∀ b now, request.block? = some (b, now) → b.MatchesRoot P → b ∈ U) :
    ∃ L', (peer.serve P params request).state.Stores P params U g L' ∧ L.Grows L' := by
  obtain ⟨node, syncing⟩ := peer
  cases syncing with
  | some sync => exact ⟨L, h, .refl L⟩
  | none =>
    have h : node.loadState.Stores P params U g L := h
    show ∃ L', (node.serve P params request).loadState.Stores P params U g L' ∧ L.Grows L'
    obtain ⟨tx, _, hserve⟩ | ⟨block, now, hblock, hserve⟩ := Node.serve_cases P params node request
    · have hdb := (Node.acceptPeerTx_cases P params node request.order tx).1
      rw [hserve]
      exact ⟨L, stores_of_db h.ensureUtxoSynced hdb, .refl L⟩
    · have hdb := Node.takeBlock_db P params node request.order block now
      obtain ⟨hnext, hgrows⟩ := h.submitBlock hU (hrequest block now hblock) now
      rw [hserve]
      exact ⟨_, stores_of_db hnext hdb, hgrows⟩

theorem mineOnce_stores (hU : HashFaithful P U) (h : peer.state.Stores P params U g L)
    {timestampSeconds : Nat} {miner : String} {maxNonce : UInt64}
    (hmade : ∀ b, (peer.state.mineNextBlock P params timestampSeconds miner maxNonce).1 = .ok b →
      b.MatchesRoot P → b ∈ U) :
    ∃ L', (peer.mineOnce P params timestampSeconds miner maxNonce).state.Stores P params U g L' ∧
      L.Grows L' := by
  obtain ⟨node, syncing⟩ := peer
  cases syncing with
  | some sync => exact ⟨L, h, .refl L⟩
  | none =>
    obtain ⟨L', hnext, hgrows⟩ := h.mineNextBlock hU timestampSeconds miner maxNonce hmade
    refine ⟨L', ?_, hgrows⟩
    exact stores_of_db hnext rfl

theorem startSync_state (params : ConsensusParams) (peer : Peer) (remote : Node.P2pHello) :
    (peer.startSync params remote).state = peer.state := by
  obtain ⟨node, syncing⟩ := peer
  unfold startSync
  cases syncing with
  | some sync => rfl
  | none =>
    cases Node.validateHello remote params with
    | error e => rfl
    | ok _ =>
      dsimp only
      split_ifs
      · rfl
      · rfl

theorem endSync_stores (order : PendingOrder) {s : ChainState} (h : s.Stores P params U g L)
    (result : Except Node.SyncError Nat) :
    (peer.endSync P params order s result).state.Stores P params U g L := by
  cases result with
  | error e => exact stores_of_db h rfl
  | ok synced =>
    apply stores_of_db h
    exact Node.requeueReorgedTransactions_db P params order s peer.node.mempool

theorem receiveBatch_stores (hU : HashFaithful P U) (h : peer.state.Stores P params U g L)
    (order : PendingOrder) (now : Block → Nat) {batch : Except String (List Block)}
    (hbatch : ∀ blocks, batch = .ok blocks → ∀ b ∈ blocks, b.MatchesRoot P → b ∈ U) :
    ∃ L', (peer.receiveBatch P params order now batch).state.Stores P params U g L' ∧
      L.Grows L' := by
  obtain ⟨node, syncing⟩ := peer
  cases syncing with
  | none => exact ⟨L, h, .refl L⟩
  | some sync =>
    obtain ⟨remoteHeight, loop⟩ := sync
    have h : loop.state.Stores P params U g L := h
    obtain ⟨L', hround, hgrows⟩ := Node.syncRound_stores hU now remoteHeight hbatch h
    refine ⟨L', ?_, hgrows⟩
    unfold receiveBatch
    dsimp only
    cases hresult : Node.syncRound P params now remoteHeight (fun _ => batch) loop with
    | again loop' =>
      rw [hresult] at hround
      exact hround
    | done result s =>
      rw [hresult] at hround
      exact endSync_stores order hround result

end Peer

/-! ## The network -/

namespace Network

variable {ι : Type*} {P : Primitives} {params : ConsensusParams} {U : Set Block} {g : Block}
variable {w w' : Network ι}

@[simp] theorem state_setPeer [DecidableEq ι] (w : Network ι) (i : ι) (peer : Peer) :
    (w.setPeer i peer).state i = peer.state := by
  simp [setPeer, state]

theorem state_setPeer_of_ne [DecidableEq ι] {i j : ι} (hj : j ≠ i) (w : Network ι) (peer : Peer) :
    (w.setPeer i peer).state j = w.state j := by
  simp [setPeer, state, hj]

@[simp] theorem state_send (w : Network ι) (messages : List Message) (i : ι) :
    (w.send messages).state i = w.state i := rfl

/-- Every ledger grows from one network to the next. -/
def Advances (P : Primitives) (params : ConsensusParams) (U : Set Block) (g : Block)
    (w w' : Network ι) : Prop :=
  ∀ i L, (w.state i).Stores P params U g L →
    ∃ L', (w'.state i).Stores P params U g L' ∧ L.Grows L'

theorem Advances.trans {w'' : Network ι} (h : Advances P params U g w w')
    (h' : Advances P params U g w' w'') : Advances P params U g w w'' := by
  intro i L hL
  obtain ⟨L', hL', hgrows⟩ := h i L hL
  obtain ⟨L'', hL'', hgrows'⟩ := h' i L' hL'
  exact ⟨L'', hL'', hgrows.trans hgrows'⟩

theorem advances_send (w : Network ι) (messages : List Message) :
    Advances P params U g w (w.send messages) :=
  fun _ L hL => ⟨L, hL, .refl L⟩

theorem advances_setPeer [DecidableEq ι] {i : ι} {peer : Peer}
    (h : ∀ L, (w.state i).Stores P params U g L →
      ∃ L', peer.state.Stores P params U g L' ∧ L.Grows L') :
    Advances P params U g w (w.setPeer i peer) := by
  intro j L hL
  by_cases hj : j = i
  · subst hj
    rw [state_setPeer]
    exact h L hL
  · rw [state_setPeer_of_ne hj]
    exact ⟨L, hL, .refl L⟩

variable [DecidableEq ι]

/-- Every node stores a ledger that has grown from `g`, and messages carry only blocks
    of `U`. -/
structure Inv (P : Primitives) (params : ConsensusParams) (U : Set Block) (g : Block)
    (w : Network ι) : Prop where
  stores : ∀ i, ∃ L, (w.state i).Stores P params U g L
  messages : ∀ message ∈ w.messages, ∀ b ∈ message.carried, b.MatchesRoot P → b ∈ U

/-- What a request broadcasts is a block or a transaction it came with. -/
theorem carried_broadcast {peer : Peer} {request : Node.Request} {message : Message}
    (hmessage : message ∈ peer.broadcast P params request) {b : Block} (hb : b ∈ message.carried) :
    ∃ order now, request = .submitBlock order b now := by
  unfold Peer.broadcast at hmessage
  split at hmessage
  next order block now _ =>
    split at hmessage
    · split_ifs at hmessage
      · rw [List.mem_singleton] at hmessage
        subst hmessage
        rw [List.mem_singleton.mp hb]
        exact ⟨order, now, rfl⟩
      · simp at hmessage
    · simp at hmessage
  · split at hmessage
    · rw [List.mem_singleton] at hmessage
      subst hmessage
      simp [Message.carried] at hb
    · simp at hmessage
  · simp at hmessage

/-- A node serves blocks of its ledger. -/
theorem answer_mem {peer : Peer} {L : Ledger} (h : peer.state.Stores P params U g L)
    (fromHeight : Nat) {b : Block} (hb : b ∈ peer.answer fromHeight) : b ∈ U := by
  obtain ⟨node, syncing⟩ := peer
  cases syncing with
  | some sync => simp [Peer.answer] at hb
  | none =>
    have h : node.loadState.Stores P params U g L := h
    have hL := h.rooted.wellFormed
    have hchain : b ∈ node.loadState.canonicalBlocksIter :=
      List.mem_of_mem_filter (List.mem_of_mem_take hb)
    rw [h.represents.canonicalBlocksIter_eq hL, List.mem_reverse] at hchain
    exact hL.mem _ _ (hL.known_of_mem (hL.chain_ancestry h.rooted.nonempty) hchain)

/-- One step: every ledger grows. -/
theorem Inv.advances (h : w.Inv P params U g) (hU : HashFaithful P U) {event : Event ι}
    (henabled : w.Enabled event) (hmakes : ∀ b ∈ w.makes P params event, b.MatchesRoot P → b ∈ U) :
    Advances P params U g w (w.step P params event) := by
  cases event with
  | request i request =>
    apply Advances.trans _ (advances_send _ _)
    apply advances_setPeer
    intro L hL
    apply Peer.serve_stores hU hL
    intro b now hblock
    -- A block comes with the request, or it was sent.
    cases request with
    | acceptPeerTx order tx => simp [Node.Request.block?] at hblock
    | sendRawTransaction order tx => simp [Node.Request.block?] at hblock
    | acceptPeerBlock order block nowSeconds =>
      simp only [Node.Request.block?, Option.some.injEq, Prod.mk.injEq] at hblock
      rw [← hblock.1]
      exact h.messages _ henabled block (by simp [Message.carried])
    | submitBlock order block nowSeconds =>
      simp only [Node.Request.block?, Option.some.injEq, Prod.mk.injEq] at hblock
      rw [← hblock.1]
      exact hmakes block (by simp [makes])
  | mineOnce i timestampSeconds miner maxNonce =>
    apply advances_setPeer
    intro L hL
    apply Peer.mineOnce_stores hU hL
    intro b hb
    apply hmakes
    simp only [makes, hb]
    simp [Except.toOption]
  | hello i => exact advances_send _ _
  | getBlocks i fromHeight => exact advances_send _ _
  | startSync i remote =>
    apply advances_setPeer
    intro L hL
    rw [Peer.startSync_state]
    exact ⟨L, hL, .refl L⟩
  | batch i order now batch =>
    apply advances_setPeer
    intro L hL
    apply Peer.receiveBatch_stores hU hL
    intro blocks hblocks b hb
    subst hblocks
    exact h.messages _ henabled b hb
  | forge message => exact advances_send _ _

theorem Inv.next (h : w.Inv P params U g) (hU : HashFaithful P U) {event : Event ι}
    (henabled : w.Enabled event) (hmakes : ∀ b ∈ w.makes P params event, b.MatchesRoot P → b ∈ U) :
    (w.step P params event).Inv P params U g where
  stores i := by
    obtain ⟨L, hL⟩ := h.stores i
    obtain ⟨L', hL', _⟩ := h.advances hU henabled hmakes i L hL
    exact ⟨L', hL'⟩
  messages := by
    have hsend : ∀ messages,
        (∀ message ∈ messages, ∀ b ∈ message.carried, b.MatchesRoot P → b ∈ U) →
        ∀ message ∈ w.messages ++ messages, ∀ b ∈ message.carried, b.MatchesRoot P → b ∈ U := by
      intro messages hnew message hmem
      obtain hold | hmem := List.mem_append.mp hmem
      · exact h.messages message hold
      · exact hnew message hmem
    cases event with
    | request i request =>
      apply hsend
      intro message hmessage b hb
      obtain ⟨order, now, rfl⟩ := carried_broadcast hmessage hb
      exact hmakes b (by simp [makes])
    | mineOnce i timestampSeconds miner maxNonce => exact h.messages
    | hello i =>
      apply hsend
      simp [Message.carried]
    | getBlocks i fromHeight =>
      apply hsend
      intro message hmessage b hb
      rw [List.mem_singleton.mp hmessage] at hb
      obtain ⟨L, hL⟩ := h.stores i
      exact fun _ => answer_mem hL fromHeight hb
    | startSync i remote => exact h.messages
    | batch i order now batch => exact h.messages
    | forge message =>
      apply hsend
      intro sent hsent b hb
      rw [List.mem_singleton.mp hsent] at hb
      exact hmakes b hb

/-- A run whose events are enabled and bring in only blocks of `U`. -/
def Proper (P : Primitives) (params : ConsensusParams) (U : Set Block) (w : Network ι)
    (events : List (Event ι)) : Prop :=
  Along (step P params) (fun w event =>
    w.Enabled event ∧ ∀ b ∈ w.makes P params event, b.MatchesRoot P → b ∈ U) w events

theorem Inv.run (h : w.Inv P params U g) (hU : HashFaithful P U) {events : List (Event ι)}
    (hrun : Proper P params U w events) :
    (events.foldl (step P params) w).Inv P params U g ∧
      Advances P params U g w (events.foldl (step P params) w) := by
  refine Along.invariant hrun (fun w' => w'.Inv P params U g ∧ Advances P params U g w w')
    ⟨h, fun _ L hL => ⟨L, hL, .refl L⟩⟩ ?_
  intro w' event hw' hevent
  exact ⟨hw'.1.next hU hevent.1 hevent.2,
    hw'.2.trans (hw'.1.advances hU hevent.1 hevent.2)⟩

/-! ## From the genesis block on -/

/-- The genesis block, and the blocks a run brings into the network, without those that
    do not match their root. -/
def blocks (P : Primitives) (params : ConsensusParams) (g : Block) (w : Network ι)
    (events : List (Event ι)) : Set Block :=
  {b | b = g ∨ b.MatchesRoot P ∧ b ∈ outputs (step P params) (makes P params) w events}

end Network

end Tensorium
