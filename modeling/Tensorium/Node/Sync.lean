import Tensorium.Node.Handlers

/-! # Catching up with a peer

    `sync_blocks` and `sync_from_peer` of `tensorium-node/src/main.rs`, and the
    two messages of the serving side they rely on. The `loop` of `sync_blocks`
    is given fuel, one unit a round; `none` means that it would still be
    running. A block is validated at most once in a run, since what was stored
    once is known from then on, so the clock is a function of the block.
-/

namespace Tensorium

namespace Node

/-- `SYNC_BATCH_SIZE`. -/
def syncBatchSize : Nat := 50

/-- `MAX_FORK_SEARCH_DEPTH`. -/
def maxForkSearchDepth : Nat := 1000

/-- `P2P_PROTOCOL_VERSION`. -/
def p2pProtocolVersion : Nat := 1

/-- `P2pHello`, less the fields that a syncing node does not read. -/
structure P2pHello where
  protocol : String
  version : Nat
  chainId : String
  height : Nat
  deriving DecidableEq

/-- The errors of `sync_from_peer`, before they are turned into text. -/
inductive SyncError where
  | unsupportedProtocol (protocol : String)
  | unsupportedVersion (version : Nat)
  | wrongChainId (chainId : String)
  | fetch (reason : String)
  | failedAt (height : Nat) (error : StateError)
  | noCommonAncestor (height : Nat)
  deriving DecidableEq, Repr

/-- `validate_hello`. -/
def validateHello (hello : P2pHello) (params : ConsensusParams) : Except SyncError Unit :=
  if hello.protocol ≠ "tensorium-p2p" then .error (.unsupportedProtocol hello.protocol)
  else if hello.version ≠ p2pProtocolVersion then .error (.unsupportedVersion hello.version)
  else if hello.chainId ≠ params.chainId then .error (.wrongChainId hello.chainId)
  else .ok ()

/-! ## The serving side -/

/-- `local_hello`. -/
def localHello (s : ChainState) (params : ConsensusParams) : P2pHello where
  protocol := "tensorium-p2p"
  version := p2pProtocolVersion
  chainId := params.chainId
  height := (s.tip.map fun tip => tip.header.height).getD 0

/-- The answer to `GetBlocks`. -/
def getBlocks (s : ChainState) (fromHeight : Nat) : List Block :=
  (s.canonicalBlocksIter.filter fun b => decide (b.header.height ≥ fromHeight)).take syncBatchSize

/-! ## The loop of `sync_blocks` -/

/-- How the `for` loop over one batch ends. -/
inductive BatchEnd where
  | applied (count : Nat)
  | forkedAt (height : Nat)
  | failed (error : SyncError)

/-- The `for` loop over one batch. -/
def applyBatch (P : Primitives) (params : ConsensusParams) (now : Block → Nat) (fetchFrom : Nat) :
    List Block → Nat → ChainState → BatchEnd × ChainState
  | [], applied, s => (.applied applied, s)
  | block :: blocks, applied, s =>
    match s.submitBlock P params block (now block) with
    | (.ok _, s) => applyBatch P params now fetchFrom blocks (applied + 1) s
    | (.error .alreadyKnown, s) => applyBatch P params now fetchFrom blocks (applied + 1) s
    | (.error .unknownParent, s) =>
      if fetchFrom > 1 then (.forkedAt block.header.height, s)
      else (.failed (.failedAt block.header.height .unknownParent), s)
    | (.error e, s) => (.failed (.failedAt block.header.height e), s)

/-- The variables of the `loop`. -/
structure SyncLoop where
  state : ChainState
  fetchFrom : Nat
  backtrack : Nat
  synced : Nat

/-- One round of the `loop`: it ends with a result, or goes on. -/
inductive Round where
  | done (result : Except SyncError Nat) (s : ChainState)
  | again (st : SyncLoop)

/-- The body of the `loop` of `sync_blocks`. -/
def syncRound (P : Primitives) (params : ConsensusParams) (now : Block → Nat) (remoteHeight : Nat)
    (fetch : Nat → Except String (List Block)) (st : SyncLoop) : Round :=
  match fetch st.fetchFrom with
  | .error reason => .done (.error (.fetch reason)) st.state
  | .ok [] => .done (.ok st.synced) st.state
  | .ok (block :: blocks) =>
    match applyBatch P params now st.fetchFrom (block :: blocks) 0 st.state with
    | (.failed e, s) => .done (.error e) s
    | (.forkedAt height, s) =>
      if st.backtrack + 1 > maxForkSearchDepth then .done (.error (.noCommonAncestor height)) s
      else .again ⟨s, st.fetchFrom - 1, st.backtrack + 1, st.synced⟩
    | (.applied applied, s) =>
      let currentHeight := s.height.getD 0
      if currentHeight ≥ remoteHeight then .done (.ok (st.synced + applied)) s
      else .again ⟨s, currentHeight + 1, 0, st.synced + applied⟩

/-- The `loop` of `sync_blocks`. -/
def syncLoop (P : Primitives) (params : ConsensusParams) (now : Block → Nat) (remoteHeight : Nat)
    (fetch : Nat → Except String (List Block)) :
    Nat → SyncLoop → Option (Except SyncError Nat × ChainState)
  | 0, _ => none
  | fuel + 1, st =>
    match syncRound P params now remoteHeight fetch st with
    | .done result s => some (result, s)
    | .again st => syncLoop P params now remoteHeight fetch fuel st

/-- `sync_blocks`. -/
def syncBlocks (P : Primitives) (params : ConsensusParams) (now : Block → Nat) (remoteHeight : Nat)
    (fetch : Nat → Except String (List Block)) (fuel : Nat) (s : ChainState) :
    Option (Except SyncError Nat × ChainState) :=
  syncLoop P params now remoteHeight fetch fuel ⟨s, s.height.getD 0 + 1, 0, 0⟩

/-- `sync_from_peer`, once the connection stands. -/
def syncFromPeer (P : Primitives) (params : ConsensusParams) (order : PendingOrder)
    (now : Block → Nat) (remote : P2pHello) (fetch : Nat → Except String (List Block))
    (fuel : Nat) (node : Node) : Option (Except SyncError Unit × Node) :=
  match validateHello remote params with
  | .error e => some (.error e, node)
  | .ok () =>
    if remote.height ≤ node.loadState.height.getD 0 then some (.ok (), node)
    else match syncBlocks P params now remote.height fetch fuel node.loadState with
      | none => none
      | some (.error e, s) => some (.error e, { node with db := s.db })
      | some (.ok _, s) =>
        let (s, m, requeued) := requeueReorgedTransactions P params order s node.mempool
        -- The mempool is written only if something was requeued.
        some (.ok (), ⟨s.db, if requeued > 0 then m else node.mempool⟩)

end Node

end Tensorium
