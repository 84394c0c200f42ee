import Tensorium.Lib.ParentLinked
import Tensorium.Core.Difficulty
import Tensorium.Core.Storage
import Tensorium.Core.Validation

/-! # The chain state

    `state.rs`. A `ChainState` is the database, the two caches of its tip and
    the blocks the last reorganisation disconnected. An operation returns its
    result together with the state it leaves, also when it fails: a failing
    call keeps whatever it had written.

    The loops that follow `previous_hash` through the store are `walk`s. They
    are given as much fuel as the store has blocks; `none` means that the loop
    of the source would still be running, which in a store without cycles it
    never is (`WellFormedChain.walks`).
-/

namespace Tensorium

open Saturating BulkMap ParentLinked

/-! ## State and errors -/

/-- `StateError`. -/
inductive StateError where
  | genesisAlreadyExists
  | missingGenesis
  | miningFailed
  | alreadyKnown
  | unknownParent
  | validation (error : ValidationError)
  | utxo (error : UtxoError)
  deriving DecidableEq, Repr

/-- `ChainState`. -/
structure ChainState where
  db : Db
  tipCache : Option Block
  heightCache : Option Nat
  lastDisconnected : List Block

/-- The result of an operation and the state after it. -/
abbrev Outcome (α : Type) : Type := Except StateError α × ChainState

namespace ChainState

/-- `ChainState::new`. -/
def new : ChainState := ⟨Db.empty, none, none, []⟩

/-- `reload_caches`. -/
def reloadCaches (s : ChainState) : ChainState :=
  match s.db.metaTip with
  | none => s
  | some hash =>
    match s.db.blocks.lookup hash with
    | none => s
    | some block => { s with heightCache := some block.header.height, tipCache := some block }

/-- `open_db` on a database that exists. -/
def openDb (db : Db) : ChainState := reloadCaches ⟨db, none, none, []⟩

/-! ## Reading -/

/-- `height`. -/
def height (s : ChainState) : Option Nat := s.heightCache

/-- `tip`. -/
def tip (s : ChainState) : Option Block := s.tipCache

/-- `tip_hash`. -/
def tipHash (P : Primitives) (s : ChainState) : Hash256 :=
  (s.tip.map (Block.hash P)).getD Hash256.zero

/-- `block_count`. -/
def blockCount (s : ChainState) : Nat := (s.heightCache.map (· + 1)).getD 0

/-- `get_block_by_hash`. -/
def getBlockByHash (s : ChainState) (hash : Hash256) : Option Block := s.db.blocks.lookup hash

/-- `block_known`. -/
def blockKnown (s : ChainState) (hash : Hash256) : Bool := (s.db.blocks.lookup hash).isSome

/-- `get_block_by_height`. -/
def getBlockByHeight (s : ChainState) (height : Nat) : Option Block :=
  (s.db.canonical.lookup height).bind s.getBlockByHash

/-- `canonical_blocks_iter`. -/
def canonicalBlocksIter (s : ChainState) : List Block :=
  (sortedKeys s.db.canonical).filterMap s.getBlockByHeight

/-- `utxo_get` and its public form `utxo_lookup`. -/
def utxoGet (s : ChainState) (op : OutPoint) : Option UtxoEntry := s.db.utxo.lookup op

/-- `utxos_for_script`. -/
def utxosForScript (s : ChainState) (script : Bytes) : List (OutPoint × UtxoEntry) :=
  (sortedEntries s.db.utxo).filter fun e => decide (e.2.output.scriptPubkey = script)

/-- `read_meta_utxo_tip`. -/
def readMetaUtxoTip (s : ChainState) : Option Hash256 := s.db.metaUtxoTip

/-- `take_reorg_requeue_candidates`. -/
def takeReorgRequeueCandidates (s : ChainState) : List Transaction × ChainState :=
  ((s.lastDisconnected.flatMap Block.transactions).filter fun tx => !tx.isCoinbase,
   { s with lastDisconnected := [] })

/-- The height whose block seeds the epoch of `height`: the last one of the
    epoch before. -/
def seedHeight (height : Nat) : Nat :=
  height / TensorHash.epochLength * TensorHash.epochLength - 1

/-- `epoch_seed_for_height`. -/
def epochSeedForHeight (P : Primitives) (s : ChainState) (height : Nat) : Hash256 :=
  if height / TensorHash.epochLength = 0 then Hash256.zero
  else ((s.getBlockByHeight (seedHeight height)).map (Block.hash P)).getD Hash256.zero

end ChainState

/-! ## Loops over the ancestry of a block -/

/-- The key a block names as its parent. -/
def Block.previousHash (b : Block) : Hash256 := b.header.previousHash

/-- `1u128 << leading_zero_bits`. The shift masks its amount, as the release
    build does; the debug build panics from 128 bits on. -/
def Block.work (b : Block) : Nat := 2 ^ (b.header.leadingZeroBits.toNat % 128)

/-- One round of the loop of `chain_work`. -/
def chainWorkVisit (work : Nat) (b : Block) : ForInStep Nat :=
  if b.previousHash = Hash256.zero then .done (satAdd 128 work b.work)
  else .yield (satAdd 128 work b.work)

/-- One round of the loop of `build_canonical_chain`. The source pushes to the
    back and reverses at the end. -/
def chainVisit (chain : List Block) (b : Block) : ForInStep (List Block) :=
  if b.previousHash = Hash256.zero then .done (b :: chain) else .yield (b :: chain)

/-- The first and the last block of a difficulty sample, as far as found. -/
abbrev SampleEnds : Type := Option Block × Option Block

/-- One round of the bootstrap loop of `expected_leading_zero_bits_for`. -/
def bootstrapVisit (activation height : Nat) (ends : SampleEnds) (b : Block) :
    ForInStep SampleEnds :=
  let last := if b.header.height = height - 1 ∧ ends.2.isNone then some b else ends.2
  if b.header.height = activation then .done (some b, last) else .yield (ends.1, last)

/-- One round of the window loop of `expected_leading_zero_bits_for`. -/
def windowVisit (windowStart windowEnd : Nat) (ends : SampleEnds) (b : Block) :
    ForInStep SampleEnds :=
  let last := if b.header.height = windowEnd then some b else ends.2
  let first := if b.header.height = windowStart then some b else ends.1
  if b.header.height ≤ windowStart then .done (first, last) else .yield (first, last)

/-- The sample `expected_leading_zero_bits_for` measures for the block at
    `height`; `run` is the loop over the ancestry, given what to do at each
    block. -/
def difficultySample (params : ConsensusParams) (height : Nat)
    (run : (SampleEnds → Block → ForInStep SampleEnds) → SampleEnds) :
    Option DifficultySample :=
  let activation := params.difficultyRetargetActivationHeight
  if height < activation then none
  else
    let window := max params.difficultyAdjustmentWindow 1
    let epoch := (height - activation) / window
    if epoch = 0 then
      -- The bootstrap sample: from the activation height to the parent.
      if height ≥ satAdd 64 activation 2 then
        match run (bootstrapVisit activation height) with
        | (some first, some last) => some
          { firstTimestampSeconds := first.header.timestampSeconds
            lastTimestampSeconds := last.header.timestampSeconds
            currentLeadingZeroBits := last.header.leadingZeroBits
            blockCount := last.header.height - first.header.height + 1 }
        | _ => none
      else none
    else
      -- The last completed window.
      let windowStart := activation + (epoch - 1) * window
      let windowEnd := windowStart + window - 1
      match run (windowVisit windowStart windowEnd) with
      | (some first, some last) => some
        { firstTimestampSeconds := first.header.timestampSeconds
          lastTimestampSeconds := last.header.timestampSeconds
          currentLeadingZeroBits := last.header.leadingZeroBits
          blockCount := windowEnd - windowStart + 1 }
      | _ => none

namespace ChainState

/-- A loop that starts at `cur` and goes on with the stored parent of each
    block. -/
def walk {σ : Type} (s : ChainState) (visit : σ → Block → ForInStep σ) (cur : Option Block)
    (acc : σ) : Option σ :=
  ParentLinked.walk Block.previousHash s.getBlockByHash visit s.db.blocks.keys.card cur acc

/-- The loop of `chain_work`. -/
def chainWorkLoop (s : ChainState) (tipHash : Hash256) : Option Nat :=
  s.walk chainWorkVisit (s.getBlockByHash tipHash) 0

/-- `chain_work`. -/
def chainWork (s : ChainState) (tipHash : Hash256) : Nat := (s.chainWorkLoop tipHash).getD 0

/-- The loop of `build_canonical_chain`. -/
def canonicalChainLoop (s : ChainState) (tipHash : Hash256) : Option (List Block) :=
  s.walk chainVisit (s.getBlockByHash tipHash) []

/-- `build_canonical_chain`. -/
def buildCanonicalChain (s : ChainState) (tipHash : Hash256) : List Block :=
  (s.canonicalChainLoop tipHash).getD []

/-- `expected_leading_zero_bits_for`. -/
def expectedLeadingZeroBitsFor (s : ChainState) (params : ConsensusParams)
    (parent : Option Block) : UInt8 :=
  let height := parent.elim 0 fun p => p.header.height + 1
  expectedLeadingZeroBits params height
    (difficultySample params height fun visit => (s.walk visit parent (none, none)).getD (none, none))

end ChainState

/-! ## Candidate blocks -/

/-- The free function `candidate_block`. -/
def candidateBlock (P : Primitives) (params : ConsensusParams) (parent : Option Block)
    (timestampSeconds : Nat) (miner : String) (extraTxs : List Transaction)
    (totalFees : UInt64) : Block :=
  let height := parent.elim 0 fun p => p.header.height + 1
  let reward := satAdd64 (rewardAtHeight params height) totalFees
  let coinbaseTx :=
    if height = 0 ∧ hasGenesisPremint params then
      Transaction.genesisCoinbase P reward miner params.founderAllocationAtoms
        params.founderAddress params.genesisAllocations
    else Transaction.coinbase P height reward miner
  let transactions := coinbaseTx :: extraTxs
  { header :=
      { version := 1
        chainId := params.chainId
        height := height
        previousHash := (parent.map (Block.hash P)).getD Hash256.zero
        merkleRoot := merkleRoot P transactions
        timestampSeconds := timestampSeconds
        leadingZeroBits := params.initialLeadingZeroBits
        nonce := 0 }
    transactions := transactions }

/-- A block with the difficulty its header declares replaced. -/
def Block.withBits (b : Block) (bits : UInt8) : Block :=
  { b with header := { b.header with leadingZeroBits := bits } }

/-- A block with its nonce replaced. -/
def Block.withNonce (b : Block) (nonce : UInt64) : Block :=
  { b with header := { b.header with nonce := nonce } }

/-- `mine_candidate_block`. -/
def mineCandidateBlock (P : Primitives) (params : ConsensusParams) (parent : Option Block)
    (timestampSeconds : Nat) (miner : String) (maxNonce : UInt64) (leadingZeroBits : UInt8)
    (epochSeed : Hash256) : Except StateError Block :=
  let block := (candidateBlock P params parent timestampSeconds miner [] 0).withBits leadingZeroBits
  match mineHeader P block.header epochSeed maxNonce with
  | none => .error .miningFailed
  | some header => .ok { block with header := header }

namespace ChainState

/-- The methods `candidate_block` (no extra transactions, no fees) and
    `candidate_block_with_mempool`. -/
def candidateBlockWithMempool (P : Primitives) (s : ChainState) (params : ConsensusParams)
    (timestampSeconds : Nat) (miner : String) (extraTxs : List Transaction)
    (totalFees : UInt64) : Except StateError Block :=
  match s.tip with
  | none => .error .missingGenesis
  | some parent =>
    .ok ((candidateBlock P params (some parent) timestampSeconds miner extraTxs totalFees).withBits
      (s.expectedLeadingZeroBitsFor params (some parent)))

/-! ## Writing blocks -/

/-- `put_block_batch`. -/
def putBlockBatch (P : Primitives) (block : Block) : WriteBatch :=
  [.putBlock (block.hash P) block,
   .putCanonical block.header.height (block.hash P),
   .putMetaTip (block.hash P),
   .putMetaHeight block.header.height,
   .putMetaChainId block.header.chainId]

/-- The common end of `init_genesis`, `init_genesis_nonce` and
    `mine_next_block`: write the block as the new tip and cache it. -/
def installTip (P : Primitives) (s : ChainState) (block : Block) : ChainState :=
  { s with
    db := s.db.write (putBlockBatch P block)
    tipCache := some block
    heightCache := some block.header.height }

/-- Validate a block the node built itself, then install it. -/
def validateAndInstall (P : Primitives) (params : ConsensusParams) (s : ChainState)
    (parent : Option Block) (block : Block) (nowSeconds : Nat) (leadingZeroBits : UInt8)
    (epochSeed : Hash256) : Outcome Block :=
  match validateBlock P params parent block nowSeconds leadingZeroBits epochSeed with
  | .error e => (.error (.validation e), s)
  | .ok () => (.ok block, s.installTip P block)

/-- `init_genesis`. -/
def initGenesis (P : Primitives) (params : ConsensusParams) (s : ChainState)
    (timestampSeconds : Nat) (maxNonce : UInt64) : Outcome Block :=
  if s.heightCache.isSome then (.error .genesisAlreadyExists, s)
  else
    let leadingZeroBits := s.expectedLeadingZeroBitsFor params none
    let epochSeed := s.epochSeedForHeight P 0
    match mineCandidateBlock P params none timestampSeconds "genesis" maxNonce leadingZeroBits
        epochSeed with
    | .error e => (.error e, s)
    | .ok block =>
      s.validateAndInstall P params none block timestampSeconds leadingZeroBits epochSeed

/-- `init_genesis_nonce`. -/
def initGenesisNonce (P : Primitives) (params : ConsensusParams) (s : ChainState)
    (timestampSeconds : Nat) (genesisNonce : UInt64) : Outcome Block :=
  if s.heightCache.isSome then (.error .genesisAlreadyExists, s)
  else
    let leadingZeroBits := s.expectedLeadingZeroBitsFor params none
    let epochSeed := s.epochSeedForHeight P 0
    let block := ((candidateBlock P params none timestampSeconds "genesis" [] 0).withBits
      leadingZeroBits).withNonce genesisNonce
    if !headerMeetsWork P block.header epochSeed then (.error .miningFailed, s)
    else s.validateAndInstall P params none block timestampSeconds leadingZeroBits epochSeed

/-- `mine_next_block`. -/
def mineNextBlock (P : Primitives) (params : ConsensusParams) (s : ChainState)
    (timestampSeconds : Nat) (miner : String) (maxNonce : UInt64) : Outcome Block :=
  match s.tip with
  | none => (.error .missingGenesis, s)
  | some parent =>
    let leadingZeroBits := s.expectedLeadingZeroBitsFor params (some parent)
    let epochSeed := s.epochSeedForHeight P (parent.header.height + 1)
    match mineCandidateBlock P params (some parent) timestampSeconds miner maxNonce leadingZeroBits
        epochSeed with
    | .error e => (.error e, s)
    | .ok block =>
      s.validateAndInstall P params (some parent) block timestampSeconds leadingZeroBits epochSeed

/-! ## The persistent set of unspent outputs -/

/-- `rewrite_utxo_into_batch`. -/
def rewriteUtxoIntoBatch (s : ChainState) (set : UtxoSet) (utxoTip : Hash256) : WriteBatch :=
  (sortedKeys s.db.utxo).map .deleteUtxo
    ++ (sortedEntries set).map (fun e => .putUtxo e.1 e.2)
    ++ [.putMetaUtxoTip utxoTip]

/-- `ensure_utxo_synced`. -/
def ensureUtxoSynced (P : Primitives) (params : ConsensusParams) (s : ChainState) :
    Outcome Unit :=
  match s.tipCache with
  | none => (.ok (), s)
  | some tipBlock =>
    if s.readMetaUtxoTip = some (tipBlock.hash P) then (.ok (), s)
    else match replayUtxo P params s.canonicalBlocksIter with
      | .error e => (.error (.utxo e), s)
      | .ok set =>
        (.ok (), { s with db := s.db.write (s.rewriteUtxoIntoBatch set (tipBlock.hash P)) })

/-- One round of the seeding loop of `validate_block_utxo`. -/
def seedInput (s : ChainState) (seed : UtxoSet) (op : OutPoint) : UtxoSet :=
  match s.utxoGet op with
  | some entry => seed.insert op entry
  | none => seed

/-- The set `validate_block_utxo` seeds: what the store holds for the inputs the
    block references, and nothing else. -/
def seedUtxo (s : ChainState) (block : Block) : UtxoSet :=
  block.spends.foldl s.seedInput ∅

/-- `validate_block_utxo`. -/
def validateBlockUtxo (P : Primitives) (params : ConsensusParams) (s : ChainState)
    (block : Block) : Except StateError Unit :=
  match applyBlock P params block (s.seedUtxo block) with
  | .error e => .error (.utxo e)
  | .ok _ => .ok ()

/-- `apply_utxo_delta_to_batch`. -/
def applyUtxoDeltaToBatch (block : Block) : WriteBatch :=
  block.spends.map .deleteUtxo ++ block.creates.map fun e => .putUtxo e.1 e.2

/-! ## Accepting a block -/

/-- The unconditional write of `submit_block`, which precedes fork choice. -/
def storeBlock (P : Primitives) (s : ChainState) (block : Block) : ChainState :=
  { s with db := s.db.write [.putBlock (block.hash P) block], lastDisconnected := [] }

/-- The fast path of `submit_block`: the block extends the tip. -/
def extendTip (P : Primitives) (params : ConsensusParams) (s : ChainState) (block : Block) :
    Outcome Block :=
  match s.validateBlockUtxo P params block with
  | .error e => (.error e, s)
  | .ok () =>
    let batch := [.putCanonical block.header.height (block.hash P)]
      ++ applyUtxoDeltaToBatch block
      ++ [.putMetaTip (block.hash P),
          .putMetaHeight block.header.height,
          .putMetaUtxoTip (block.hash P)]
    (.ok block,
     { s with
       db := s.db.write batch
       tipCache := some block
       heightCache := some block.header.height })

/-- The number of blocks two chains share at their start. -/
def forkIndex (P : Primitives) (old new : List Block) : Nat :=
  ((old.zip new).takeWhile fun p => decide (p.1.hash P = p.2.hash P)).length

/-- The batch of a reorganisation: the new index, the stale tail of the old one
    removed, the tip, and the rewritten set of unspent outputs. -/
def reorgBatch (P : Primitives) (s : ChainState) (block : Block) (newCanonical : List Block)
    (set : UtxoSet) : WriteBatch :=
  let height := (newCanonical.getLast?.map fun b => b.header.height).getD 0
  let oldHeight := s.heightCache.getD 0
  newCanonical.map (fun b => .putCanonical b.header.height (b.hash P))
    ++ (List.range' (height + 1) (oldHeight - height)).map .deleteCanonical
    ++ [.putMetaTip (block.hash P), .putMetaHeight height]
    ++ s.rewriteUtxoIntoBatch set (block.hash P)

/-- The reorganisation of `submit_block`: replay the branch of the block from
    genesis and, if that succeeds, make it the canonical chain. -/
def reorganize (P : Primitives) (params : ConsensusParams) (s : ChainState) (block : Block) :
    Outcome Block :=
  let newCanonical := s.buildCanonicalChain (block.hash P)
  match replayUtxo P params newCanonical with
  | .error e => (.error (.utxo e), s)
  | .ok set =>
    let oldCanonical := s.buildCanonicalChain (s.tipHash P)
    (.ok block,
     { s with
       db := s.db.write (s.reorgBatch P block newCanonical set)
       tipCache := some block
       heightCache := some ((newCanonical.getLast?.map fun b => b.header.height).getD 0)
       lastDisconnected := oldCanonical.drop (forkIndex P oldCanonical newCanonical) })

/-- The part of `submit_block` behind contextual validation: store the block,
    then choose between the branches. -/
def storeAndChoose (P : Primitives) (params : ConsensusParams) (s : ChainState)
    (block : Block) : Outcome Block :=
  let s := s.storeBlock P block
  if s.chainWork (block.hash P) > s.chainWork (s.tipHash P) then
    if block.header.previousHash = s.tipHash P then s.extendTip P params block
    else s.reorganize P params block
  else (.ok block, s)

/-- `submit_block`. -/
def submitBlock (P : Primitives) (params : ConsensusParams) (s : ChainState) (block : Block)
    (nowSeconds : Nat) : Outcome Block :=
  -- Known blocks are recognised by their hash alone.
  if s.blockKnown (block.hash P) then (.error .alreadyKnown, s)
  else match s.ensureUtxoSynced P params with
    | (.error e, s) => (.error e, s)
    | (.ok (), s) =>
      match s.getBlockByHash block.header.previousHash with
      | none => (.error .unknownParent, s)
      | some parent =>
        -- The difficulty follows the parent's ancestry, the seed the index.
        match validateBlock P params (some parent) block nowSeconds
            (s.expectedLeadingZeroBitsFor params (some parent))
            (s.epochSeedForHeight P block.header.height) with
        | .error e => (.error (.validation e), s)
        | .ok () => s.storeAndChoose P params block

/-! ## Runs -/

/-- The operations that change a chain state, with their arguments. `reopen`
    closes the database and opens it again. -/
inductive Op where
  | initGenesis (timestampSeconds : Nat) (maxNonce : UInt64)
  | initGenesisNonce (timestampSeconds : Nat) (genesisNonce : UInt64)
  | mineNextBlock (timestampSeconds : Nat) (miner : String) (maxNonce : UInt64)
  | submitBlock (block : Block) (nowSeconds : Nat)
  | ensureUtxoSynced
  | takeReorgRequeueCandidates
  | reopen

/-- The state after one operation, successful or not. -/
def step (P : Primitives) (params : ConsensusParams) (s : ChainState) : Op → ChainState
  | .initGenesis timestampSeconds maxNonce => (s.initGenesis P params timestampSeconds maxNonce).2
  | .initGenesisNonce timestampSeconds nonce => (s.initGenesisNonce P params timestampSeconds nonce).2
  | .mineNextBlock timestampSeconds miner maxNonce =>
    (s.mineNextBlock P params timestampSeconds miner maxNonce).2
  | .submitBlock block nowSeconds => (s.submitBlock P params block nowSeconds).2
  | .ensureUtxoSynced => (s.ensureUtxoSynced P params).2
  | .takeReorgRequeueCandidates => s.takeReorgRequeueCandidates.2
  | .reopen => openDb s.db

/-! ## A chain to run the model on -/

/-- The state after `init_genesis`. -/
def sampleGenesis : ChainState := (initGenesis Primitives.sample testParams new 1 0).2

/-- The block `init_genesis` installs there. -/
def sampleGenesisBlock : Block :=
  candidateBlock Primitives.sample testParams none 1 "genesis" [] 0

/-- A block on top of the genesis block whose coinbase claims `fees` more atoms
    than the reward; the block carries no fees, so it is valid for zero only. -/
def sampleChild (fees : UInt64) : Block :=
  candidateBlock Primitives.sample testParams (some sampleGenesisBlock) 2 "a" [] fees

end ChainState

end Tensorium
