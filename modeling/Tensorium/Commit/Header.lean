import Tensorium.Lib.LayeredTree
import Tensorium.Commit.Signature
import Tensorium.State.Runs

/-! # What a header commits to

    The merkle root of a header is built from the identifiers its transactions
    carry, and no path into the chain state recomputes them. The header commits
    to the contents of the transactions only in so far as those who submit
    blocks fill the identifiers in honestly.

    Collision freeness of `double_sha256` is assumed only on the byte strings
    that two given blocks hash.
-/

namespace Tensorium

open ByteCodec BulkMap ParentLinked

variable {P : Primitives} {params : ConsensusParams}

/-- `double_sha256` tells the byte strings of `S` apart. -/
def CollisionFree (P : Primitives) (S : Set Bytes) : Prop :=
  ∀ x ∈ S, ∀ y ∈ S, P.doubleSha256 x = P.doubleSha256 y → x = y

/-! ## The merkle tree of a fixed number of transactions -/

/-- The byte strings one pass over a layer hashes. -/
def layerPreimages : List Hash256 → List Bytes
  | [] => []
  | [a] => [a.bytes ++ a.bytes]
  | a :: b :: rest => (a.bytes ++ b.bytes) :: layerPreimages rest

/-- The byte strings the loop of `merkle_root` hashes. -/
def merklePreimages (P : Primitives) : Nat → List Hash256 → List Bytes
  | _, [] => []
  | _, [_] => []
  | 0, _ => []
  | fuel + 1, layer => layerPreimages layer ++ merklePreimages P fuel (merkleLayer P layer)

/-! The layers are those of a tree built in layers. -/

theorem merkleLayer_eq (layer : List Hash256) :
    merkleLayer P layer = LayeredTree.layer (merkleNode P) layer := by
  induction layer using merkleLayer.induct with
  | case1 => rfl
  | case2 a => rfl
  | case3 a b rest ih => simp [merkleLayer, LayeredTree.layer, ih]

theorem merkleLoop_eq (fuel : Nat) (layer : List Hash256) :
    merkleLoop P fuel layer = LayeredTree.loop (merkleNode P) Hash256.zero fuel layer := by
  induction fuel generalizing layer with
  | zero =>
    match layer with
    | [] => rfl
    | [a] => rfl
    | a :: b :: rest => rfl
  | succ fuel ih =>
    match layer with
    | [] => rfl
    | [a] => rfl
    | a :: b :: rest =>
      show merkleLoop P fuel (merkleLayer P (a :: b :: rest)) = _
      rw [merkleLayer_eq]
      exact ih _

theorem layerPreimages_eq (layer : List Hash256) :
    layerPreimages layer = (LayeredTree.layerPairs layer).map fun p => p.1.bytes ++ p.2.bytes := by
  induction layer using layerPreimages.induct with
  | case1 => rfl
  | case2 a => rfl
  | case3 a b rest ih => simp [layerPreimages, LayeredTree.layerPairs, ih]

theorem merklePreimages_eq (fuel : Nat) (layer : List Hash256) :
    merklePreimages P fuel layer
      = (LayeredTree.loopPairs (merkleNode P) fuel layer).map fun p => p.1.bytes ++ p.2.bytes := by
  induction fuel generalizing layer with
  | zero =>
    match layer with
    | [] => rfl
    | [a] => rfl
    | a :: b :: rest => rfl
  | succ fuel ih =>
    match layer with
    | [] => rfl
    | [a] => rfl
    | a :: b :: rest =>
      show layerPreimages (a :: b :: rest) ++ merklePreimages P fuel
        (merkleLayer P (a :: b :: rest)) = _
      rw [ih, layerPreimages_eq, merkleLayer_eq, ← List.map_append]
      rfl

/-- The pairs of nodes whose bytes are among those of a set. -/
def nodePairs (S : Set Bytes) : Set (Hash256 × Hash256) := {p | p.1.bytes ++ p.2.bytes ∈ S}

/-- Nodes with the same digest have the same children. -/
theorem merkleNode_inj {S : Set Bytes} (hS : CollisionFree P S) :
    ∀ p ∈ nodePairs S, ∀ q ∈ nodePairs S,
      merkleNode P p.1 p.2 = merkleNode P q.1 q.2 → p = q := by
  intro p hp q hq h
  have hbytes := hS _ hp _ hq h
  obtain ⟨hleft, hright⟩ := List.append_inj hbytes (by rw [p.1.size, q.1.size])
  exact Prod.ext (Hash256.ext hleft) (Hash256.ext hright)

/-- What the loop of `merkle_root` hashes, as pairs of nodes. -/
theorem loopPairs_subset {S : Set Bytes} {fuel : Nat} {layer : List Hash256}
    (h : ∀ x ∈ merklePreimages P fuel layer, x ∈ S) :
    ∀ p ∈ LayeredTree.loopPairs (merkleNode P) fuel layer, p ∈ nodePairs S := by
  intro p hp
  refine h _ ?_
  rw [merklePreimages_eq]
  exact List.mem_map_of_mem hp

/-! ## Blocks -/

/-- The bytes a transaction's identifier should be the hash of. -/
def Transaction.preimage (tx : Transaction) : Bytes :=
  transactionPreimage tx.inputs tx.outputs tx.payload

/-- The script lengths of a transaction's inputs and outputs. -/
def Transaction.layout (tx : Transaction) : List Nat × List Nat :=
  (tx.inputs.map fun i => i.signatureScript.length, tx.outputs.map fun o => o.scriptPubkey.length)

namespace Block

/-- Every transaction carries the identifier that `transaction_id` computes. -/
def HonestIds (P : Primitives) (b : Block) : Prop :=
  ∀ tx ∈ b.transactions, tx.id = tx.computedId P

/-- The layouts of a block's transactions. -/
def layout (b : Block) : List (List Nat × List Nat) := b.transactions.map Transaction.layout

/-- The byte strings that hashing a block feeds to `double_sha256`: its header,
    its merkle tree and its transactions. -/
def preimages (P : Primitives) (b : Block) : List Bytes :=
  b.header.preimage :: (merklePreimages P b.transactions.length (b.transactions.map Transaction.id)
    ++ b.transactions.map Transaction.preimage)

/-- Identifiers are filled in honestly, and the header names their root. -/
structure Committed (P : Primitives) (b : Block) : Prop where
  honest : b.HonestIds P
  root : b.header.merkleRoot = merkleRoot P b.transactions

end Block

/-- The merkle root stands at a fixed distance from the end of a header. -/
theorem BlockHeader.merkleRoot_of_preimage {h h' : BlockHeader} (heq : h.preimage = h'.preimage) :
    h.merkleRoot = h'.merkleRoot := by
  -- Behind the root stand the timestamp, the difficulty and the nonce.
  unfold BlockHeader.preimage BlockHeader.powPrefixBytes at heq
  obtain ⟨heq, _⟩ := List.append_inj' heq (by simp)
  obtain ⟨heq, _⟩ := List.append_inj' heq (by simp)
  obtain ⟨heq, _⟩ := List.append_inj' heq (by simp)
  obtain ⟨_, heq⟩ := List.append_inj' heq (by rw [h.merkleRoot.size, h'.merkleRoot.size])
  exact Hash256.ext heq

/-- Honest transactions with the same identifiers and layouts are the same. -/
theorem transactions_eq_of_ids {S : Set Bytes} (hS : CollisionFree P S)
    {txs txs' : List Transaction} (hhonest : ∀ tx ∈ txs, tx.id = tx.computedId P)
    (hhonest' : ∀ tx ∈ txs', tx.id = tx.computedId P)
    (hmem : ∀ tx ∈ txs, tx.preimage ∈ S) (hmem' : ∀ tx ∈ txs', tx.preimage ∈ S)
    (hlayout : txs.map Transaction.layout = txs'.map Transaction.layout)
    (hids : txs.map Transaction.id = txs'.map Transaction.id) : txs = txs' := by
  induction txs generalizing txs' with
  | nil => exact (List.map_eq_nil_iff.mp hids.symm).symm
  | cons tx txs ih =>
    match txs', hhonest', hmem', hlayout, hids with
    | tx' :: txs', hhonest', hmem', hlayout, hids =>
      simp only [List.map_cons, List.cons.injEq] at hlayout hids
      have hhash : P.doubleSha256 tx.preimage = P.doubleSha256 tx'.preimage :=
        ((hhonest tx List.mem_cons_self).symm.trans hids.1).trans
          (hhonest' tx' List.mem_cons_self)
      -- Honest identifiers are hashes, so they pin down the bytes; the layout
      -- then pins down how these are read.
      have hpre := hS _ (hmem tx List.mem_cons_self) _ (hmem' tx' List.mem_cons_self) hhash
      obtain ⟨hin, hout⟩ := Prod.mk.inj hlayout.1
      obtain ⟨hinputs, houtputs, hpayload⟩ := transactionPreimage_inj hin hout hpre
      have htx : tx = tx' := Transaction.ext hids.1 hinputs houtputs hpayload
      have htail := ih (fun t ht => hhonest t (List.mem_cons_of_mem _ ht))
        (fun t ht => hhonest' t (List.mem_cons_of_mem _ ht))
        (fun t ht => hmem t (List.mem_cons_of_mem _ ht))
        (fun t ht => hmem' t (List.mem_cons_of_mem _ ht)) hlayout.2 hids.2
      rw [htx, htail]

/-- Two committed blocks with the same header hash carry the same transactions
    exactly when these are laid out alike. -/
theorem Block.Committed.transactions_iff_layout {b₁ b₂ : Block} (h₁ : b₁.Committed P)
    (h₂ : b₂.Committed P)
    (hfree : CollisionFree P {x | x ∈ b₁.preimages P ∨ x ∈ b₂.preimages P})
    (hhash : b₁.hash P = b₂.hash P) :
    b₁.transactions = b₂.transactions ↔ b₁.layout = b₂.layout := by
  constructor
  · intro heq
    unfold Block.layout
    rw [heq]
  · intro hlayout
    -- From the header hash to the root, to the identifiers, to the contents.
    have hheader : b₁.header.preimage = b₂.header.preimage :=
      hfree _ (Or.inl List.mem_cons_self) _ (Or.inr List.mem_cons_self) hhash
    have hroot : merkleRoot P b₁.transactions = merkleRoot P b₂.transactions := by
      rw [← h₁.root, ← h₂.root]
      exact BlockHeader.merkleRoot_of_preimage hheader
    have hlen : b₁.transactions.length = b₂.transactions.length := by
      have := congrArg List.length hlayout
      unfold Block.layout at this
      rwa [List.length_map, List.length_map] at this
    have hids : b₁.transactions.map Transaction.id = b₂.transactions.map Transaction.id := by
      unfold merkleRoot at hroot
      rw [← hlen, merkleLoop_eq, merkleLoop_eq] at hroot
      refine LayeredTree.loop_inj (merkleNode_inj hfree)
        (by rw [List.length_map, List.length_map, hlen]) (by rw [List.length_map])
        (loopPairs_subset ?_) (loopPairs_subset ?_) hroot
      · exact fun x hx => Or.inl (List.mem_cons_of_mem _ (List.mem_append_left _ hx))
      · intro x hx
        rw [hlen] at hx
        exact Or.inr (List.mem_cons_of_mem _ (List.mem_append_left _ hx))
    refine transactions_eq_of_ids hfree h₁.honest h₂.honest ?_ ?_ hlayout hids
    · exact fun tx htx => Or.inl (List.mem_cons_of_mem _
        (List.mem_append_right _ (List.mem_map_of_mem htx)))
    · exact fun tx htx => Or.inr (List.mem_cons_of_mem _
        (List.mem_append_right _ (List.mem_map_of_mem htx)))

/-! ## Runs with honest submissions -/

namespace ChainState

variable {s s' : ChainState} {block : Block}

/-- An operation that, if it submits a block, submits one with honest
    identifiers. -/
def HonestOp (P : Primitives) : Op → Prop
  | .submitBlock block _ => block.HonestIds P
  | _ => True

/-- The states reached when all submitted blocks have honest identifiers. -/
abbrev HonestlyReachable (P : Primitives) (params : ConsensusParams) : ChainState → Prop :=
  GuardedRun.Reachable (step P params) (fun _ op => HonestOp P op) new

/-- Every stored block is committed. -/
def StoresCommitted (P : Primitives) (s : ChainState) : Prop :=
  ∀ k b, s.getBlockByHash k = some b → b.Committed P

/-- The node computes the identifiers of the coinbases it builds. -/
theorem candidateBlock_honestIds (parent : Option Block) (timestampSeconds : Nat)
    (miner : String) : (candidateBlock P params parent timestampSeconds miner [] 0).HonestIds P := by
  intro tx htx
  obtain rfl := List.mem_singleton.mp htx
  split_ifs
  · rfl
  · rfl

theorem BuildStep.storesCommitted (h : BuildStep P params s s') (hs : StoresCommitted P s) :
    StoresCommitted P s' := by
  cases h with
  | same => exact hs
  | installed parent timestampSeconds miner bits nonce seed _ hval =>
    intro k b hk
    unfold getBlockByHash installTip at hk
    change (s.db.blocks.insert _ _).lookup k = some b at hk
    rw [lookup_insert_ite] at hk
    split_ifs at hk
    · obtain rfl := Option.some.inj hk
      exact ⟨candidateBlock_honestIds parent timestampSeconds miner, hval.merkleRoot⟩
    · exact hs k b hk

/-- One operation keeps every stored block committed. -/
theorem StoresCommitted.step (hs : StoresCommitted P s) (op : Op) (hop : HonestOp P op) :
    StoresCommitted P (s.step P params op) := by
  cases op with
  | initGenesis timestampSeconds maxNonce =>
    exact (initGenesis_buildStep s timestampSeconds maxNonce).storesCommitted hs
  | initGenesisNonce timestampSeconds nonce =>
    exact (initGenesisNonce_buildStep s timestampSeconds nonce).storesCommitted hs
  | mineNextBlock timestampSeconds miner maxNonce =>
    exact (mineNextBlock_buildStep s timestampSeconds miner maxNonce).storesCommitted hs
  | submitBlock block nowSeconds =>
    -- Validation has checked the root, the guard of the run the identifiers.
    intro k b hk
    rcases submitBlock_stored hk with hold | ⟨rfl, _, _, _, hval⟩
    · exact hs k b hold
    · exact ⟨hop, hval.merkleRoot⟩
  | ensureUtxoSynced =>
    intro k b hk
    unfold getBlockByHash ChainState.step at hk
    dsimp only at hk
    rw [(ensureUtxoSynced_syncStep P params s).blocks] at hk
    exact hs k b hk
  | takeReorgRequeueCandidates => exact hs
  | reopen =>
    have hdb : (openDb s.db).db = s.db := by
      unfold openDb reloadCaches
      split
      · rfl
      · split
        · rfl
        · rfl
    intro k b hk
    unfold getBlockByHash ChainState.step at hk
    dsimp only at hk
    rw [hdb] at hk
    exact hs k b hk

/-- In a run of honest submissions every stored block is committed. -/
theorem HonestlyReachable.storesCommitted (h : HonestlyReachable P params s) :
    StoresCommitted P s := by
  refine h.invariant (StoresCommitted P) ?_ fun s op hs hop => hs.step op hop
  intro k b hk
  cases hk

/-- **When the header commits to the transactions.** In every run in which the
    submitted blocks carry the identifiers that `transaction_id` computes, every
    transaction of the canonical chain carries it; and two canonical blocks of
    such runs with the same header hash carry the same transactions if and only
    if these are laid out alike, provided `double_sha256` is collision free on
    what the two blocks hash. -/
theorem canonical_transactions_committed (P : Primitives) (params : ConsensusParams)
    (s₁ s₂ : ChainState) (h₁ : HonestlyReachable P params s₁)
    (h₂ : HonestlyReachable P params s₂) :
    (∀ b ∈ s₁.canonicalBlocksIter, ∀ tx ∈ b.transactions, tx.id = tx.computedId P) ∧
    ∀ b₁ ∈ s₁.canonicalBlocksIter, ∀ b₂ ∈ s₂.canonicalBlocksIter,
      CollisionFree P {x | x ∈ b₁.preimages P ∨ x ∈ b₂.preimages P} →
      b₁.hash P = b₂.hash P →
      (b₁.transactions = b₂.transactions ↔ b₁.layout = b₂.layout) := by
  constructor
  · intro b hb
    obtain ⟨k, hk⟩ := mem_canonicalBlocksIter hb
    exact (h₁.storesCommitted k b hk).honest
  · intro b₁ hb₁ b₂ hb₂ hfree hhash
    obtain ⟨k₁, hk₁⟩ := mem_canonicalBlocksIter hb₁
    obtain ⟨k₂, hk₂⟩ := mem_canonicalBlocksIter hb₂
    exact (h₁.storesCommitted k₁ b₁ hk₁).transactions_iff_layout (h₂.storesCommitted k₂ b₂ hk₂)
      hfree hhash

theorem sampleRun_honestlyReachable :
    HonestlyReachable Primitives.sample testParams sampleRun := by
  have hgenesis : new.step Primitives.sample testParams (Op.initGenesis 1 0) = sampleGenesis := rfl
  have hchild : sampleGenesis.step Primitives.sample testParams (Op.submitBlock (sampleChild 0) 10)
      = sampleRun := rfl
  rw [← hchild, ← hgenesis]
  refine GuardedRun.Reachable.step _ (GuardedRun.Reachable.step _ GuardedRun.Reachable.init trivial)
    ?_
  exact candidateBlock_honestIds (some sampleGenesisBlock) 2 "a"

theorem sampleRun_transactions_committed :
    sampleChild 0 ∈ sampleRun.canonicalBlocksIter ∧
    ∀ tx ∈ (sampleChild 0).transactions, tx.id = tx.computedId Primitives.sample := by
  have hmem : sampleChild 0 ∈ sampleRun.canonicalBlocksIter := by decide +kernel
  exact ⟨hmem, (canonical_transactions_committed Primitives.sample testParams sampleRun sampleRun
    sampleRun_honestlyReachable sampleRun_honestlyReachable).1 _ hmem⟩

/-! ## Identifiers nobody checks -/

/-- The coinbase a miner could claim in the block after genesis, under an
    identifier that has nothing to do with it. -/
def forgedCoinbase (miner : String) : Transaction :=
  { Transaction.coinbase Primitives.sample 1 (rewardAtHeight testParams 1) miner with
    id := Hash256.zero }

/-- A block after genesis with that coinbase. The root of a single transaction
    is its identifier. -/
def forgedBlock (miner : String) : Block :=
  { header := { (sampleChild 0).header with merkleRoot := Hash256.zero }
    transactions := [forgedCoinbase miner] }

/-- The chain after that block. -/
def forgedState (miner : String) : ChainState :=
  (sampleGenesis.submitBlock Primitives.sample testParams (forgedBlock miner) 10).2

theorem forgedState_reachable (miner : String) :
    Reachable Primitives.sample testParams Set.univ (forgedState miner) := by
  have hstep : sampleGenesis.step Primitives.sample testParams
      (Op.submitBlock (forgedBlock miner) 10) = forgedState miner := rfl
  rw [← hstep]
  exact GuardedRun.Reachable.step _ (sampleGenesis_reachable fun _ _ _ => Set.mem_univ _)
    fun _ _ _ => Set.mem_univ _

/-- Two blocks with forged identifiers become canonical; they have the same
    header and pay different miners. -/
theorem forged_blocks_canonical :
    Reachable Primitives.sample testParams Set.univ (forgedState "a") ∧
    Reachable Primitives.sample testParams Set.univ (forgedState "b") ∧
    forgedBlock "a" ∈ (forgedState "a").canonicalBlocksIter ∧
    forgedBlock "b" ∈ (forgedState "b").canonicalBlocksIter ∧
    forgedCoinbase "a" ∈ (forgedBlock "a").transactions ∧
    (forgedCoinbase "a").id ≠ (forgedCoinbase "a").computedId Primitives.sample ∧
    (forgedBlock "a").hash Primitives.sample = (forgedBlock "b").hash Primitives.sample ∧
    (forgedBlock "a").transactions ≠ (forgedBlock "b").transactions := by
  refine ⟨forgedState_reachable "a", forgedState_reachable "b", ?_, ?_, ?_, ?_, ?_, ?_⟩
  all_goals decide +kernel

end ChainState

end Tensorium
