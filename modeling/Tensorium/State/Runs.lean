import Tensorium.Lib.GuardedRun
import Tensorium.State.Refinement

/-! # Runs of the chain state

    Every operation of a chain state is a step of the ledger it stores, and so
    every state a run reaches stores a well-formed ledger. Runs are restricted
    only in that the blocks they store lie in a set `U` on which the header
    hash is faithful.
-/

namespace Tensorium

open BulkMap ParentLinked

/-! ## Steps of the ledger -/

/-- One step of a ledger: nothing, a submission, or a block the node built on
    its own tip. -/
inductive Ledger.Step (P : Primitives) (params : ConsensusParams) (L : Ledger) : Ledger → Prop where
  | idle : Ledger.Step P params L L
  | submitted (block : Block) (nowSeconds : Nat) :
      Ledger.Step P params L (L.submit P params block nowSeconds).2
  | built (block : Block) : block.previousHash = L.tipHash P →
      block.header.height = L.chain.length →
      Ledger.Step P params L (L.adopt P block L.chain)

namespace ChainState

variable {P : Primitives} {params : ConsensusParams} {U : Set Block}
variable {s s' : ChainState} {L : Ledger} {block : Block}

/-- Every stored block lies in `U`. -/
def StoresOnly (U : Set Block) (s : ChainState) : Prop :=
  ∀ k b, s.getBlockByHash k = some b → b ∈ U

/-- Opening a database leaves it as it is. -/
@[simp] theorem openDb_db (db : Db) : (openDb db).db = db := by
  unfold openDb reloadCaches
  dsimp only
  cases db.metaTip with
  | none => rfl
  | some hash =>
    dsimp only
    cases db.blocks.lookup hash with
    | none => rfl
    | some block => rfl

namespace Represents

variable (hR : Represents P params s L) (hL : L.WellFormed P U) (hU : HashFaithful P U)

include hR hL in
/-- A state that stores a well-formed ledger stores only blocks of `U`. -/
theorem storesOnly : StoresOnly U s := by
  intro k b hk
  rw [hR.known] at hk
  exact hL.mem k b hk

include hR hL hU in
/-- Installing a block on the tip adopts it. -/
theorem installTip (hblock : block ∈ U) (hheight : block.header.height = L.chain.length) :
    Represents P params (s.installTip P block) (L.adopt P block L.chain) where
  known := (hR.storeBlock hL hU hblock).known
  index := index_concat hR.index hheight
  tipCache := rfl
  heightCache := rfl
  metaTip := rfl
  metaHeight := rfl
  utxo h hh := by
    obtain ⟨t, ht, hok⟩ := hR.utxo h hh
    exact ⟨t, ht.mono (hL.store_extends hU hblock), hok⟩

include hR hL hU in
/-- Building a block, or a genesis, is a step of the ledger. -/
theorem buildStep (hbuild : BuildStep P params s s') (hstores : StoresOnly U s') :
    ∃ L', Ledger.Step P params L L' ∧ Represents P params s' L' ∧ L'.WellFormed P U := by
  cases hbuild with
  | same => exact ⟨L, .idle, hR, hL⟩
  | installed parent timestampSeconds miner bits nonce seed hparent hval =>
    generalize hb : ((candidateBlock P params parent timestampSeconds miner [] 0).withBits
      bits).withNonce nonce = block at hval hstores ⊢
    have hprev : block.previousHash = (parent.map (Block.hash P)).getD Hash256.zero := by
      rw [← hb]
      rfl
    have hmem : block ∈ U := hstores (block.hash P) block (Finmap.lookup_insert _)
    -- In a represented state the parent is the tip of the ledger.
    have htip : parent = L.chain.head? := by
      rcases hparent with hcache | ⟨hheight, rfl⟩
      · rw [← hcache, hR.tipCache]
      · rw [hR.heightCache, Option.map_eq_none_iff] at hheight
        exact hheight.symm
    have htipHash : block.previousHash = L.tipHash P := by rw [hprev, htip]; rfl
    cases hhead : L.chain.head? with
    | none =>
      -- A genesis: the ledger knows nothing yet.
      have hempty : L.chain = [] := List.head?_eq_none_iff.mp hhead
      have hnone : ∀ k, L.known k = none := by
        intro k
        cases hk : L.known k with
        | none => rfl
        | some b => exact absurd hempty (hL.nonempty k b hk)
      have hheight : block.header.height = L.chain.length := by
        rw [hval.height, htip, hhead, hempty]
        rfl
      have hroot : block.previousHash = Hash256.zero := by rw [hprev, htip, hhead]; rfl
      refine ⟨_, .built block htipHash hheight, hR.installTip hL hU hmem hheight, ?_⟩
      rw [hempty]
      exact Ledger.wellFormed_genesis hnone hmem hroot (by rw [hheight, hempty]; rfl)
    | some p =>
      have hheight : block.header.height = L.chain.length := by
        rw [hval.height, htip, hhead, ← hL.chain_length hhead]
        rfl
      have hparents : L.AncestryOf block.previousHash L.chain := by
        rw [htipHash]
        exact hL.chain_ancestry (List.ne_nil_of_mem (List.mem_of_head? hhead))
      exact ⟨_, .built block htipHash hheight, hR.installTip hL hU hmem hheight,
        hL.adopt hU hmem hparents hheight⟩

include hR hL in
theorem ensureUtxoSynced : Represents P params (s.ensureUtxoSynced P params).2 L := by
  cases hreplay : replayUtxo P params L.chain.reverse with
  | error e =>
    rw [hR.ensureUtxoSynced_error hL hreplay]
    exact hR
  | ok u =>
    obtain ⟨s₁, hs₁, hR₁, _⟩ := hR.ensureUtxoSynced_ok hL hreplay
    rw [hs₁]
    exact hR₁

include hR hL in
/-- Opening the database again finds the tip and rebuilds the caches. -/
theorem openDb : Represents P params (openDb s.db) L := by
  unfold ChainState.openDb reloadCaches
  cases hhead : L.chain.head? with
  | none =>
    have hmeta : s.db.metaTip = none := by rw [hR.metaTip, hhead]; rfl
    rw [hmeta]
    exact ⟨hR.known, hR.index, hhead.symm, by rw [hhead]; rfl, hR.metaTip, hR.metaHeight, hR.utxo⟩
  | some b =>
    have hmeta : s.db.metaTip = some (b.hash P) := by rw [hR.metaTip, hhead]; rfl
    have hget : s.db.blocks.lookup (b.hash P) = some b := by
      have hmem : b ∈ L.chain := List.mem_of_head? hhead
      have hk := hL.known_of_mem (hL.chain b hhead) hmem
      rw [← hR.known] at hk
      exact hk
    rw [hmeta]
    dsimp only
    rw [hget]
    exact ⟨hR.known, hR.index, hhead.symm, by rw [hhead]; rfl, hR.metaTip, hR.metaHeight, hR.utxo⟩

include hR hL hU in
/-- **Every operation is a step of the ledger.** -/
theorem step (op : Op) (hstores : StoresOnly U (s.step P params op)) :
    ∃ L', Ledger.Step P params L L' ∧ Represents P params (s.step P params op) L' ∧
      L'.WellFormed P U := by
  cases op with
  | initGenesis timestampSeconds maxNonce =>
    exact hR.buildStep hL hU (initGenesis_buildStep s timestampSeconds maxNonce) hstores
  | initGenesisNonce timestampSeconds nonce =>
    exact hR.buildStep hL hU (initGenesisNonce_buildStep s timestampSeconds nonce) hstores
  | mineNextBlock timestampSeconds miner maxNonce =>
    exact hR.buildStep hL hU (mineNextBlock_buildStep s timestampSeconds miner maxNonce) hstores
  | submitBlock block nowSeconds =>
    obtain ⟨_, hR', hL'⟩ := hR.submitBlock hL hU nowSeconds (hstores (block.hash P) block)
    exact ⟨_, .submitted block nowSeconds, hR', hL'⟩
  | ensureUtxoSynced => exact ⟨L, .idle, hR.ensureUtxoSynced hL, hL⟩
  | takeReorgRequeueCandidates =>
    exact ⟨L, .idle, ⟨hR.known, hR.index, hR.tipCache, hR.heightCache, hR.metaTip, hR.metaHeight,
      hR.utxo⟩, hL⟩
  | reopen => exact ⟨L, .idle, hR.openDb hL, hL⟩

end Represents

/-! ## Reachable states -/

/-- The states reached from an empty database by any operations that store only
    blocks of `U`. -/
abbrev Reachable (P : Primitives) (params : ConsensusParams) (U : Set Block) :
    ChainState → Prop :=
  GuardedRun.Reachable (step P params) (fun s op => StoresOnly U (s.step P params op)) new

/-- Every reachable state stores a well-formed ledger. -/
theorem Reachable.represents (h : Reachable P params U s) (hU : HashFaithful P U) :
    ∃ L, Represents P params s L ∧ L.WellFormed P U := by
  refine h.invariant (fun s => ∃ L, Represents P params s L ∧ L.WellFormed P U) ?_ ?_
  · exact ⟨Ledger.empty, represents_new, Ledger.wellFormed_empty⟩
  · rintro s op ⟨L, hR, hL⟩ hstores
    obtain ⟨L', _, hR', hL'⟩ := hR.step hL hU op hstores
    exact ⟨L', hR', hL'⟩

/-- A submission that stores only blocks of `U` leads to a reachable state. -/
theorem Reachable.submitBlock (h : Reachable P params U s) {nowSeconds : Nat}
    (hstores : StoresOnly U (s.submitBlock P params block nowSeconds).2) :
    Reachable P params U (s.submitBlock P params block nowSeconds).2 := by
  show Reachable P params U (s.step P params (.submitBlock block nowSeconds))
  exact .step _ h hstores

/-- So does synchronising the set of unspent outputs. -/
theorem Reachable.ensureUtxoSynced (h : Reachable P params U s) (hU : HashFaithful P U) :
    Reachable P params U (s.ensureUtxoSynced P params).2 := by
  obtain ⟨L, hR, hL⟩ := h.represents hU
  show Reachable P params U (s.step P params .ensureUtxoSynced)
  exact .step _ h ((hR.ensureUtxoSynced hL).storesOnly hL)

/-! ## A run to evaluate -/

/-- The store of a state is decided by its entries. -/
theorem storesOnly_of_entries {l : List Block} (h : ∀ e ∈ s.db.blocks.entries, e.2 ∈ l) :
    StoresOnly {b | b ∈ l} s := by
  intro k b hk
  exact h ⟨k, b⟩ (Finmap.lookup_eq_some_iff.mp hk)

/-- A hash is faithful on finitely many blocks if it is so by inspection. -/
theorem hashFaithful_of_list {l : List Block}
    (hinj : ∀ a ∈ l, ∀ b ∈ l, a.hash P = b.hash P → a = b)
    (hzero : ∀ b ∈ l, b.hash P ≠ Hash256.zero) : HashFaithful P {b | b ∈ l} :=
  ⟨hinj, hzero⟩

/-- The same, from the list of the hashes. -/
theorem hashFaithful_of_nodup {l : List Block}
    (h : (Hash256.zero :: l.map (Block.hash P)).Nodup) : HashFaithful P {b | b ∈ l} := by
  obtain ⟨hzero, hnd⟩ := List.nodup_cons.mp h
  constructor
  · intro a ha b hb heq
    exact List.inj_on_of_nodup_map hnd ha hb heq
  · intro b hb heq
    exact hzero (List.mem_map.mpr ⟨b, hb, heq⟩)

theorem sampleGenesis_reachable {U : Set Block} (h : StoresOnly U sampleGenesis) :
    Reachable Primitives.sample testParams U sampleGenesis := by
  have hstep : new.step Primitives.sample testParams (Op.initGenesis 1 0) = sampleGenesis := rfl
  rw [← hstep] at h ⊢
  exact GuardedRun.Reachable.step _ GuardedRun.Reachable.init h

/-- Genesis, then a submitted block on top of it. -/
def sampleRun : ChainState :=
  (sampleGenesis.submitBlock Primitives.sample testParams (sampleChild 0) 10).2

/-- The genesis block, a valid child, and one whose coinbase claims too much. -/
def sampleBlocks : List Block := [sampleGenesisBlock, sampleChild 0, sampleChild 1]

theorem sampleBlocks_faithful : HashFaithful Primitives.sample {b | b ∈ sampleBlocks} :=
  hashFaithful_of_list (by decide +kernel) (by decide +kernel)

theorem sampleGenesis_storesOnly : StoresOnly {b | b ∈ sampleBlocks} sampleGenesis :=
  storesOnly_of_entries (by decide)

theorem sampleRun_reachable :
    Reachable Primitives.sample testParams {b | b ∈ sampleBlocks} sampleRun := by
  have hstores : ∀ e ∈ sampleRun.db.blocks.entries, e.2 ∈ sampleBlocks := by decide +kernel
  have hstep : sampleGenesis.step Primitives.sample testParams (Op.submitBlock (sampleChild 0) 10)
      = sampleRun := rfl
  rw [← hstep] at hstores ⊢
  exact GuardedRun.Reachable.step _ (sampleGenesis_reachable sampleGenesis_storesOnly)
    (storesOnly_of_entries hstores)

end ChainState

end Tensorium
