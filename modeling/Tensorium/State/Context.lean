import Tensorium.State.Mining

/-! # The context a block is checked in

    `submit_block` checks a block against its parent, the difficulty that
    `expected_leading_zero_bits_for` requires and the seed that
    `epoch_seed_for_height` returns. The difficulty is a function of the
    block's own ancestry. The seed is read from the canonical index, so two
    nodes that hold the same ancestors need not agree on it: they do exactly
    when the block lies in the first epoch or their canonical chains have the
    same block at the end of the epoch before.
-/

namespace Tensorium

open BulkMap ParentLinked ByteCodec

namespace ChainState

variable {P : Primitives} {params : ConsensusParams} {U U₁ U₂ : Set Block}
variable {s s₁ s₂ : ChainState} {L : Ledger} {block : Block}

/-- What `validate_block` says of a block in `submit_block`. -/
def contextualVerdict (P : Primitives) (params : ConsensusParams) (s : ChainState) (block : Block)
    (nowSeconds : Nat) : Except ValidationError Unit :=
  let parent := s.getBlockByHash block.previousHash
  validateBlock P params parent block nowSeconds (s.expectedLeadingZeroBitsFor params parent)
    (s.epochSeedForHeight P block.header.height)

/-- `submit_block` decides a new child of a stored block by that verdict: the
    synchronisation that precedes it changes nothing the verdict reads. -/
theorem submitBlock_contextualVerdict {parent : Block} (nowSeconds : Nat)
    (hfresh : s.blockKnown (block.hash P) = false)
    (hsync : s.ensureUtxoSynced P params = (.ok (), s₁))
    (hparent : s.getBlockByHash block.previousHash = some parent) :
    (∀ e, contextualVerdict P params s block nowSeconds = .error e →
      s.submitBlock P params block nowSeconds = (.error (.validation e), s₁)) ∧
    (contextualVerdict P params s block nowSeconds = .ok () →
      s.submitBlock P params block nowSeconds = s₁.storeAndChoose P params block) := by
  have hstep := ensureUtxoSynced_syncStep P params s
  rw [hsync] at hstep
  have hblocks := hstep.blocks
  have hcanonical := hstep.chainUnchanged.canonical
  dsimp only at hblocks hcanonical
  have hget : s₁.getBlockByHash = s.getBlockByHash := hstep.getBlockByHash
  have hbits : s₁.expectedLeadingZeroBitsFor params (some parent)
      = s.expectedLeadingZeroBitsFor params (some parent) := by
    unfold expectedLeadingZeroBitsFor walk
    rw [hget, hblocks]
  have hseed : s₁.epochSeedForHeight P block.header.height
      = s.epochSeedForHeight P block.header.height := by
    unfold epochSeedForHeight getBlockByHeight
    rw [hget, hcanonical]
  have hparent₁ : s₁.getBlockByHash block.header.previousHash = some parent := by
    rw [hget]
    exact hparent
  unfold submitBlock contextualVerdict
  rw [hfresh, hsync]
  dsimp only
  rw [if_neg Bool.false_ne_true, hparent₁, hparent, ← hbits, ← hseed]
  dsimp only
  constructor
  · intro e he
    rw [he]
  · intro hok
    rw [hok]

/-- Two states check a block in the same context: they require the same
    difficulty of it, give it the same epoch seed, and so reach the same verdict
    at every time. -/
structure SameContext (P : Primitives) (params : ConsensusParams) (s₁ s₂ : ChainState)
    (block : Block) : Prop where
  bits : s₁.expectedLeadingZeroBitsFor params (s₁.getBlockByHash block.previousHash)
    = s₂.expectedLeadingZeroBitsFor params (s₂.getBlockByHash block.previousHash)
  seed : s₁.epochSeedForHeight P block.header.height = s₂.epochSeedForHeight P block.header.height
  verdict : ∀ nowSeconds, contextualVerdict P params s₁ block nowSeconds
    = contextualVerdict P params s₂ block nowSeconds

/-- The block lies in the first epoch, or the canonical chains have the same
    block, or both none, at the end of the epoch before its own. -/
def SameSeedBlock (s₁ s₂ : ChainState) (block : Block) : Prop :=
  block.header.height < TensorHash.epochLength ∨
    s₁.db.canonical.lookup (seedHeight block.header.height)
      = s₂.db.canonical.lookup (seedHeight block.header.height)

/-- The ancestry of a block as a state stores it, parent first. -/
abbrev StoredAncestry (s : ChainState) : Hash256 → List Block → Prop :=
  Ancestry Block.previousHash Hash256.zero s.getBlockByHash

/-! ## Difficulty -/

/-- The difficulty a reachable state requires is a function of the ancestry. -/
theorem Reachable.expectedLeadingZeroBitsFor_eq (h : Reachable P params U s)
    (hU : HashFaithful P U) {k : Hash256} {ancestors : List Block}
    (hancestors : s.StoredAncestry k ancestors) :
    s.expectedLeadingZeroBitsFor params (s.getBlockByHash k) = requiredBits params ancestors := by
  obtain ⟨L, hR, hL⟩ := h.represents hU
  have hL' : L.AncestryOf k ancestors := by
    unfold Ledger.AncestryOf
    rw [← hR.known]
    exact hancestors
  rw [hancestors.get_eq_head?, hR.expectedLeadingZeroBitsFor_eq hL hU hL']

/-! ## Seeds -/

/-- Past the first epoch a reachable state takes the seed straight from its
    index. -/
theorem Reachable.epochSeedForHeight_eq (h : Reachable P params U s) (hU : HashFaithful P U)
    {height : Nat} (hheight : TensorHash.epochLength ≤ height) :
    s.epochSeedForHeight P height
      = (s.db.canonical.lookup (seedHeight height)).getD Hash256.zero := by
  obtain ⟨L, hR, hL⟩ := h.represents hU
  have hepoch : height / TensorHash.epochLength ≠ 0 :=
    (Nat.div_pos hheight (by decide)).ne'
  rw [hR.epochSeedForHeight_eq hL, hR.index]
  unfold chainSeed
  rw [if_neg hepoch]

/-- No entry of a reachable index is the zero hash. -/
theorem Reachable.index_ne_zero (h : Reachable P params U s) (hU : HashFaithful P U)
    {height : Nat} {hash : Hash256} (hentry : s.db.canonical.lookup height = some hash) :
    hash ≠ Hash256.zero := by
  obtain ⟨L, hR, hL⟩ := h.represents hU
  rw [hR.index] at hentry
  obtain ⟨b, hb, rfl⟩ := Option.map_eq_some_iff.mp hentry
  have hmem : b ∈ L.chain := List.mem_reverse.mp (List.mem_of_getElem? hb)
  have hknown := hL.known_of_mem (hL.chain_ancestry (List.ne_nil_of_mem hmem)) hmem
  exact hU.nonzero b (hL.mem _ _ hknown)

/-- Two hashes that are absent or not zero agree if their defaults do. -/
theorem eq_of_getD_zero {a b : Option Hash256} (ha : ∀ h, a = some h → h ≠ Hash256.zero)
    (hb : ∀ h, b = some h → h ≠ Hash256.zero)
    (heq : a.getD Hash256.zero = b.getD Hash256.zero) : a = b := by
  cases a with
  | none =>
    cases b with
    | none => rfl
    | some y => exact absurd heq.symm (hb y rfl)
  | some x =>
    cases b with
    | none => exact absurd heq (ha x rfl)
    | some y => exact congrArg some heq

/-- Two reachable states give a block the same seed exactly when their
    canonical chains have the same seed block for it. -/
theorem sameSeed_iff (h₁ : Reachable P params U₁ s₁) (hU₁ : HashFaithful P U₁)
    (h₂ : Reachable P params U₂ s₂) (hU₂ : HashFaithful P U₂) (block : Block) :
    s₁.epochSeedForHeight P block.header.height = s₂.epochSeedForHeight P block.header.height ↔
      SameSeedBlock s₁ s₂ block := by
  unfold SameSeedBlock
  by_cases hepoch : block.header.height < TensorHash.epochLength
  · have hzero : block.header.height / TensorHash.epochLength = 0 := Nat.div_eq_of_lt hepoch
    unfold epochSeedForHeight
    rw [if_pos hzero, if_pos hzero]
    exact iff_of_true rfl (Or.inl hepoch)
  · have hlater := Nat.le_of_not_lt hepoch
    rw [h₁.epochSeedForHeight_eq hU₁ hlater, h₂.epochSeedForHeight_eq hU₂ hlater]
    constructor
    · intro heq
      exact Or.inr (eq_of_getD_zero (fun _ => h₁.index_ne_zero hU₁)
        (fun _ => h₂.index_ne_zero hU₂) heq)
    · intro hcase
      rw [hcase.resolve_left hepoch]

/-! ## Verdicts -/

/-- **Contextual validation is a function of the ancestry and the seed block.**
    Two reachable states that store the same ancestors of a block check it in
    the same context if and only if it lies in the first epoch or their
    canonical chains agree on the last block of the epoch before its own. -/
theorem sameContext_iff_sameSeedBlock (P : Primitives) (params : ConsensusParams)
    (U₁ U₂ : Set Block) (hU₁ : HashFaithful P U₁) (hU₂ : HashFaithful P U₂) (s₁ s₂ : ChainState)
    (h₁ : Reachable P params U₁ s₁) (h₂ : Reachable P params U₂ s₂) (block : Block)
    (ancestors : List Block) (ha₁ : s₁.StoredAncestry block.previousHash ancestors)
    (ha₂ : s₂.StoredAncestry block.previousHash ancestors) :
    SameContext P params s₁ s₂ block ↔ SameSeedBlock s₁ s₂ block := by
  have hbits : s₁.expectedLeadingZeroBitsFor params (s₁.getBlockByHash block.previousHash)
      = s₂.expectedLeadingZeroBitsFor params (s₂.getBlockByHash block.previousHash) := by
    rw [h₁.expectedLeadingZeroBitsFor_eq hU₁ ha₁, h₂.expectedLeadingZeroBitsFor_eq hU₂ ha₂]
  have hparent : s₁.getBlockByHash block.previousHash = s₂.getBlockByHash block.previousHash := by
    rw [ha₁.get_eq_head?, ha₂.get_eq_head?]
  -- The difficulty always agrees; everything turns on the seed.
  constructor
  · intro h
    exact (sameSeed_iff h₁ hU₁ h₂ hU₂ block).mp h.seed
  · intro h
    have hseed := (sameSeed_iff h₁ hU₁ h₂ hU₂ block).mpr h
    refine ⟨hbits, hseed, fun nowSeconds => ?_⟩
    unfold contextualVerdict
    dsimp only
    rw [hbits, hseed, hparent]

theorem sampleRun_sameContext :
    SameContext Primitives.sample testParams sampleGenesis sampleRun (sampleChild 1) := by
  have hgenesis : sampleGenesis.StoredAncestry (sampleChild 1).previousHash
      [sampleGenesisBlock] := .genesis (by decide) (by decide)
  have hrun : sampleRun.StoredAncestry (sampleChild 1).previousHash [sampleGenesisBlock] :=
    .genesis (by decide +kernel) (by decide +kernel)
  have hepoch : SameSeedBlock sampleGenesis sampleRun (sampleChild 1) := Or.inl (by decide)
  exact (sameContext_iff_sameSeedBlock Primitives.sample testParams {b | b ∈ sampleBlocks}
    {b | b ∈ sampleBlocks} sampleBlocks_faithful sampleBlocks_faithful sampleGenesis sampleRun
    (sampleGenesis_reachable sampleGenesis_storesOnly) sampleRun_reachable (sampleChild 1)
    [sampleGenesisBlock] hgenesis hrun).mpr hepoch

/-- The verdict, as a function of the ledger. -/
theorem Represents.contextualVerdict_eq (hR : Represents P params s L) (hL : L.WellFormed P U)
    (hU : HashFaithful P U) {ancestors : List Block}
    (hancestors : L.AncestryOf block.previousHash ancestors) (nowSeconds : Nat) :
    contextualVerdict P params s block nowSeconds
      = validateBlock P params ancestors.head? block nowSeconds (requiredBits params ancestors)
          (chainSeed P L.chain block.header.height) := by
  have hhead : s.getBlockByHash block.previousHash = ancestors.head? := by
    rw [hR.known]
    exact hancestors.get_eq_head?
  unfold contextualVerdict
  dsimp only
  rw [hhead, hR.expectedLeadingZeroBitsFor_eq hL hU hancestors, hR.epochSeedForHeight_eq hL]

/-- A block at the end of the first epoch seeds the second. -/
theorem chainSeed_epochLength {chain : List Block} (b : Block)
    (hlen : chain.length + 1 = TensorHash.epochLength) :
    chainSeed P (b :: chain) TensorHash.epochLength = b.hash P := by
  have hseed : seedHeight TensorHash.epochLength = chain.length := by
    have h : seedHeight TensorHash.epochLength = TensorHash.epochLength - 1 := by decide
    omega
  unfold chainSeed
  rw [if_neg (by decide), hseed, List.reverse_cons]
  simp

end ChainState

/-! ## A fork across the end of an epoch

    Two nodes hold the same chain up to the last block but one of the first
    epoch. One mines that chain's next block; the other mines a rival of it with
    the same work and then receives the block. Both now store every ancestor of
    the first block of the second epoch, but they seed that epoch differently.
-/

/-- The last 32 bytes of a string that ends in at least as many. -/
theorem Hash256.ofSuffix_append (a y : Bytes) (h : 32 ≤ y.length) :
    (Hash256.ofSuffix (a ++ y)).bytes = y.drop (y.length - 32) := by
  unfold Hash256.ofSuffix
  dsimp only
  have hlen : (a ++ y).length = (List.replicate 32 (0 : UInt8) ++ a).length + (y.length - 32) := by
    simp only [List.length_append, List.length_replicate]
    omega
  rw [hlen, ← List.append_assoc, List.drop_append, List.drop_of_length_le (by omega)]
  simp

/-- The eight bytes of a digest that hold the timestamp of the header, when the
    digest is the end of the header. -/
def stampOf (bytes : Bytes) : Nat := leNat ((bytes.drop 15).take 8)

/-- A dataset whose elements are zero unless the seed carries a late timestamp,
    and a last digest that tells whether the accumulator is zero. -/
def markedDigest (bytes : Bytes) : Hash256 :=
  if bytes.length = 40 then
    if stampOf bytes < 2 ^ 56 then Hash256.zero else ⟨1 :: List.replicate 31 0, by simp⟩
  else if bytes.length = 144 then
    if bytes.drop 112 = List.replicate 32 0 then Hash256.zero
    else ⟨List.replicate 32 255, by simp⟩
  else Hash256.zero

/-- Primitives whose work depends on the epoch seed: it is met by every header
    unless the seed is the hash of a header with a timestamp past `2 ^ 56`. -/
def Primitives.seedSensitive : Primitives :=
  { Primitives.sample with blake2b256 := markedDigest }

theorem datasetElement_seedSensitive (seed : Hash256) (index : Nat) :
    TensorHash.datasetElement Primitives.seedSensitive seed index
      = if stampOf seed.bytes < 2 ^ 56 then Hash256.zero
        else ⟨1 :: List.replicate 31 0, by simp⟩ := by
  have hlen : (seed.bytes ++ leBytes 8 index).length = 40 := by
    rw [List.length_append, seed.size, length_leBytes]
  have hstamp : stampOf (seed.bytes ++ leBytes 8 index) = stampOf seed.bytes := by
    unfold stampOf
    rw [List.drop_append_of_le_length (by rw [seed.size]; omega),
      List.take_append_of_le_length (by rw [List.length_drop, seed.size]; omega)]
  show markedDigest (seed.bytes ++ leBytes 8 index) = _
  unfold markedDigest
  rw [if_pos hlen, hstamp]

/-- The accumulator after all lookups, when they all find the same element. -/
def lookupsOf (element : Hash256) : Bytes :=
  TensorHash.u64x4ToBytes ((List.range TensorHash.lookups).foldl
    (fun acc _ => TensorHash.tensorMix acc (TensorHash.bytesToU64x4 element.bytes))
    (TensorHash.bytesToU64x4 Hash256.zero.bytes))

theorem powHash_seedSensitive {headerBytes : Bytes} (hlen : headerBytes.length = 104)
    (nonce : UInt64) (seed : Hash256) :
    TensorHash.powHash Primitives.seedSensitive headerBytes nonce seed
      = if stampOf seed.bytes < 2 ^ 56 then Hash256.zero else ⟨List.replicate 32 255, by simp⟩ := by
  have hinput : (headerBytes ++ leBytes 8 nonce.toNat).length = 112 := by
    rw [List.length_append, length_leBytes, hlen]
  have hdigest : Primitives.seedSensitive.blake2b256 (headerBytes ++ leBytes 8 nonce.toNat)
      = Hash256.zero := by
    show markedDigest _ = _
    unfold markedDigest
    rw [hinput]
    rfl
  have hlast : ∀ acc : Bytes, acc.length = 32 → Primitives.seedSensitive.blake2b256
      (headerBytes ++ leBytes 8 nonce.toNat ++ acc)
      = if acc = List.replicate 32 0 then Hash256.zero else ⟨List.replicate 32 255, by simp⟩ := by
    intro acc hacc
    show markedDigest _ = _
    unfold markedDigest
    rw [List.length_append, hinput, hacc, if_neg (by decide), if_pos (by decide),
      List.drop_left' hinput]
  unfold TensorHash.powHash
  dsimp only
  rw [hdigest]
  -- Whatever indices are drawn, all lookups find the same element.
  simp only [datasetElement_seedSensitive]
  split_ifs with hstamp
  · exact (hlast (lookupsOf Hash256.zero) (by decide)).trans
      (if_pos (by decide +kernel))
  · exact (hlast (lookupsOf ⟨1 :: List.replicate 31 0, by simp⟩) (by decide)).trans
      (if_neg (by decide +kernel))

/-- On the test network a header meets the work exactly if its seed is not
    marked. -/
theorem headerMeetsWork_seedSensitive {header : BlockHeader}
    (hid : header.chainId = testParams.chainId)
    (hbits : header.leadingZeroBits = testParams.initialLeadingZeroBits) (seed : Hash256) :
    headerMeetsWork Primitives.seedSensitive header seed
      = decide (stampOf seed.bytes < 2 ^ 56) := by
  have hlen : header.powPrefixBytes.length = 104 := by
    unfold BlockHeader.powPrefixBytes
    have hchain : (asBytes testParams.chainId).length = 19 := by decide
    simp only [List.length_append, length_leBytes, Hash256.size, hid, hchain, List.length_singleton]
  unfold headerMeetsWork hashMeetsWork BlockHeader.powHash
  rw [powHash_seedSensitive hlen, hbits]
  split_ifs with hstamp
  · rw [decide_eq_true hstamp]
    decide
  · rw [decide_eq_false hstamp]
    decide

/-- The hash of a block carries its timestamp. -/
theorem stampOf_hash {b : Block} (hb : b.header.timestampSeconds < 2 ^ 64) :
    stampOf (b.hash Primitives.seedSensitive).bytes = b.header.timestampSeconds := by
  let h := b.header
  let suffix : Bytes :=
    h.merkleRoot.bytes ++ (leBytes 8 h.timestampSeconds ++ ([h.leadingZeroBits]
      ++ leBytes 8 h.nonce.toNat))
  have hsuffix : suffix.length = 49 := by
    simp only [suffix, List.length_append, length_leBytes, Hash256.size, List.length_singleton]
  have hpre : h.preimage = (leBytes 4 h.version.toNat ++ asBytes h.chainId ++ leBytes 8 h.height
      ++ h.previousHash.bytes) ++ suffix := by
    simp only [BlockHeader.preimage, BlockHeader.powPrefixBytes, suffix, List.append_assoc]
  -- The second round of the hash keeps its 32 bytes as they are.
  have hhash : (b.hash Primitives.seedSensitive).bytes = suffix.drop 17 := by
    have hinner : (Hash256.ofSuffix h.preimage).bytes = suffix.drop 17 := by
      rw [hpre, Hash256.ofSuffix_append _ _ (by omega), hsuffix]
    have houter := Hash256.ofSuffix_append [] (Hash256.ofSuffix h.preimage).bytes
      (Hash256.ofSuffix h.preimage).size.ge
    rw [List.nil_append, (Hash256.ofSuffix h.preimage).size, Nat.sub_self, List.drop_zero] at houter
    exact houter.trans hinner
  unfold stampOf
  rw [hhash, List.drop_drop]
  show leNat ((suffix.drop 32).take 8) = _
  rw [List.drop_left' h.merkleRoot.size, List.take_left' (length_leBytes 8 _), leNat_leBytes]
  exact Nat.mod_eq_of_lt hb

theorem seedSensitive_easyNetwork : EasyNetwork Primitives.seedSensitive testParams where
  work parent timestampSeconds miner := by
    have hid : (candidateBlock Primitives.seedSensitive testParams parent timestampSeconds miner []
        0).header.chainId = testParams.chainId := rfl
    have hbits : (candidateBlock Primitives.seedSensitive testParams parent timestampSeconds miner
        [] 0).header.leadingZeroBits = testParams.initialLeadingZeroBits := rfl
    rw [headerMeetsWork_seedSensitive hid hbits]
    decide
  activation := by decide
  premint := by decide

section fork

variable {P : Primitives} {params : ConsensusParams} {n : Nat}

/-- The rival of the block at height `n + 1`. -/
def rivalBlock (P : Primitives) (params : ConsensusParams) (n : Nat) : Block :=
  childAt P params (clockChain P params n) (2 ^ 56)

/-- The blocks of the chain up to height `n + 1`, and the rival. -/
def forkBlocks (P : Primitives) (params : ConsensusParams) (n : Nat) : Set Block :=
  {b | (∃ k ≤ n + 1, b = clockChain P params k) ∨ b = rivalBlock P params n}

/-- The blocks of the fork have different timestamps, none of them zero. -/
theorem forkBlocks_timestamp (hn : n + 2 < 2 ^ 56) {a : Block} (ha : a ∈ forkBlocks P params n) :
    0 < a.header.timestampSeconds ∧ a.header.timestampSeconds < 2 ^ 64 ∧
      ∀ b ∈ forkBlocks P params n,
        a.header.timestampSeconds = b.header.timestampSeconds → a = b := by
  have hrival : (rivalBlock P params n).header.timestampSeconds = 2 ^ 56 := rfl
  rcases ha with ⟨k, hk, rfl⟩ | rfl
  · rw [clockChain_timestamp]
    refine ⟨by omega, by omega, ?_⟩
    rintro b (⟨j, hj, rfl⟩ | rfl) htime
    · rw [clockChain_timestamp] at htime
      rw [Nat.succ.inj htime]
    · rw [hrival] at htime
      omega
  · rw [hrival]
    refine ⟨by decide, by decide, ?_⟩
    rintro b (⟨j, hj, rfl⟩ | rfl) htime
    · rw [clockChain_timestamp] at htime
      omega
    · rfl

theorem forkBlocks_faithful (hn : n + 2 < 2 ^ 56) :
    HashFaithful Primitives.seedSensitive (forkBlocks Primitives.seedSensitive params n) := by
  constructor
  · intro a ha b hb hhash
    obtain ⟨_, ha64, hinj⟩ := forkBlocks_timestamp hn ha
    obtain ⟨_, hb64, _⟩ := forkBlocks_timestamp hn hb
    refine hinj b hb ?_
    rw [← stampOf_hash ha64, ← stampOf_hash hb64, hhash]
  · intro b hb hzero
    obtain ⟨hpos, hb64, _⟩ := forkBlocks_timestamp hn hb
    have hstamp := stampOf_hash hb64
    rw [hzero] at hstamp
    have hnone : stampOf Hash256.zero.bytes = 0 := by decide
    omega

/-- A node that mined the rival at height `n + 1` and then received the block of
    the chain. -/
def rivalRun (P : Primitives) (params : ConsensusParams) (n : Nat) : ChainState :=
  ((ChainState.clockRun P params n).step P params (.mineNextBlock (2 ^ 56) "m" 0)).step P params
    (.submitBlock (clockChain P params (n + 1)) (n + 2))

/-- Two reachable states store every ancestor of a block, but one accepts it and
    the other finds no proof of work in it. -/
structure ContextSplit (P : Primitives) (params : ConsensusParams) (U : Set Block)
    (s₁ s₂ : ChainState) (block : Block) (nowSeconds : Nat) : Prop where
  faithful : HashFaithful P U
  reachable₁ : ChainState.Reachable P params U s₁
  reachable₂ : ChainState.Reachable P params U s₂
  ancestry : ∃ ancestors, s₁.StoredAncestry block.previousHash ancestors ∧
    s₂.StoredAncestry block.previousHash ancestors
  seed : s₁.epochSeedForHeight P block.header.height ≠ s₂.epochSeedForHeight P block.header.height
  accepted : s₁.contextualVerdict P params block nowSeconds = .ok ()
  rejected : s₂.contextualVerdict P params block nowSeconds = .error .invalidProofOfWork

/-- What the two nodes store: the same chain below, each its own block at the
    end of the epoch, and both the chain's block there. -/
theorem fork_ledgers (hnet : EasyNetwork P params) (hU : HashFaithful P (forkBlocks P params n))
    (hn : n + 2 = TensorHash.epochLength) (hclock : n + 2 ≠ 2 ^ 56) :
    ∃ chain L₁ L₂, chain.length + 1 = TensorHash.epochLength ∧
      ChainState.Reachable P params (forkBlocks P params n) (ChainState.clockRun P params (n + 1)) ∧
      ChainState.Represents P params (ChainState.clockRun P params (n + 1)) L₁ ∧
      L₁.WellFormed P (forkBlocks P params n) ∧
      L₁.chain = clockChain P params (n + 1) :: chain ∧
      ChainState.Reachable P params (forkBlocks P params n) (rivalRun P params n) ∧
      ChainState.Represents P params (rivalRun P params n) L₂ ∧
      L₂.WellFormed P (forkBlocks P params n) ∧
      L₂.chain = rivalBlock P params n :: chain ∧
      L₂.AncestryOf ((clockChain P params (n + 1)).hash P)
        (clockChain P params (n + 1) :: chain) := by
  have hmem : ∀ k ≤ n + 1, clockChain P params k ∈ forkBlocks P params n := fun k hk =>
    Or.inl ⟨k, hk, rfl⟩
  have hrival : rivalBlock P params n ∈ forkBlocks P params n := Or.inr rfl
  -- Up to the last block of the epoch both nodes are one.
  obtain ⟨L, hL⟩ := ChainState.clockRun_grown hnet hU
    (fun k hk => hmem k (Nat.le_succ_of_le hk)) (by omega : n < TensorHash.epochLength)
  have hepoch : (clockChain P params n).header.height + 1 < TensorHash.epochLength := by
    rw [clockChain_height]
    omega
  have hmined := hL.mine hnet hU (n + 2) (hmem (n + 1) le_rfl) hepoch
  obtain ⟨hreach, hR₂, hL₂⟩ := hL.submitRival hnet hU hrival (hmem (n + 1) le_rfl)
    (Ne.symm hclock) hepoch
  have hlen : L.chain.length + 1 = TensorHash.epochLength := by
    have h := hL.wellFormed.chain_length hL.head
    rw [clockChain_height] at h
    omega
  have hparents : (L.adopt P (rivalBlock P params n) L.chain).AncestryOf
      (clockChain P params (n + 1)).previousHash L.chain :=
    (hL.wellFormed.chain _ hL.head).mono (hL.wellFormed.store_extends hU hrival)
  have hwf := (hL.mine hnet hU (2 ^ 56) hrival hepoch).wellFormed
  exact ⟨L.chain, _, _, hlen, hmined.reachable, hmined.represents, hmined.wellFormed, rfl, hreach,
    hR₂, hL₂, rfl, hwf.store_ancestry hU (hmem (n + 1) le_rfl) hparents⟩

/-- The first block of the second epoch is checked with the hash of whatever
    block is canonical at the end of the first. -/
theorem fork_verdict {U : Set Block} {s : ChainState} {L : Ledger} {chain : List Block}
    {last tip : Block} (hnet : EasyNetwork P params) (hU : HashFaithful P U)
    (hR : ChainState.Represents P params s L) (hL : L.WellFormed P U)
    (hchain : L.chain = last :: chain) (hlen : chain.length + 1 = TensorHash.epochLength)
    (htip : tip.header.height + 1 = TensorHash.epochLength)
    (hancestors : L.AncestryOf (tip.hash P) (tip :: chain)) (timestampSeconds : Nat) :
    s.epochSeedForHeight P (childAt P params tip timestampSeconds).header.height = last.hash P ∧
    s.contextualVerdict P params (childAt P params tip timestampSeconds) timestampSeconds
      = if headerMeetsWork P (childAt P params tip timestampSeconds).header (last.hash P)
        then .ok () else .error .invalidProofOfWork := by
  have hheight : (childAt P params tip timestampSeconds).header.height
      = TensorHash.epochLength := htip
  have hseed : chainSeed P L.chain (childAt P params tip timestampSeconds).header.height
      = last.hash P := by
    rw [hheight, hchain]
    exact ChainState.chainSeed_epochLength last hlen
  have hbits : requiredBits params (tip :: chain) = params.initialLeadingZeroBits :=
    requiredBits_inactive rfl (htip ▸ hnet.activation)
  have hparents : L.AncestryOf (childAt P params tip timestampSeconds).previousHash
      (tip :: chain) := hancestors
  have hverdict := hR.contextualVerdict_eq hL hU hparents timestampSeconds
  refine ⟨(hR.epochSeedForHeight_eq hL _).trans hseed, hverdict.trans ?_⟩
  rw [hseed, hbits]
  exact (ChainState.childAt_validated hnet tip timestampSeconds).validateBlock_eq (last.hash P)

/-- If the work of the first block of the second epoch is met under the chain's
    seed and not under the rival's, the nodes disagree on it. -/
theorem fork_splits (hnet : EasyNetwork P params) (hU : HashFaithful P (forkBlocks P params n))
    (hn : n + 2 = TensorHash.epochLength)
    (hmet : headerMeetsWork P (clockChain P params (n + 2)).header
      ((clockChain P params (n + 1)).hash P) = true)
    (hunmet : headerMeetsWork P (clockChain P params (n + 2)).header
      ((rivalBlock P params n).hash P) = false) :
    ContextSplit P params (forkBlocks P params n) (ChainState.clockRun P params (n + 1))
      (rivalRun P params n) (clockChain P params (n + 2)) (n + 3) := by
  have hclock : n + 2 ≠ 2 ^ 56 := by
    rw [hn]
    decide
  obtain ⟨chain, L₁, L₂, hlen, hreach₁, hR₁, hL₁, hchain₁, hreach₂, hR₂, hL₂, hchain₂, hanc₂⟩ :=
    fork_ledgers hnet hU hn hclock
  have htip : (clockChain P params (n + 1)).header.height + 1 = TensorHash.epochLength := by
    rw [clockChain_height]
    exact hn
  have hanc₁ : L₁.AncestryOf ((clockChain P params (n + 1)).hash P)
      (clockChain P params (n + 1) :: chain) := by
    have hhead : L₁.chain.head? = some (clockChain P params (n + 1)) := by
      rw [hchain₁]
      rfl
    rw [← hchain₁]
    exact hL₁.chain _ hhead
  obtain ⟨hseed₁, hverdict₁⟩ := fork_verdict hnet hU hR₁ hL₁ hchain₁ hlen htip hanc₁ (n + 3)
  obtain ⟨hseed₂, hverdict₂⟩ := fork_verdict hnet hU hR₂ hL₂ hchain₂ hlen htip hanc₂ (n + 3)
  refine ⟨hU, hreach₁, hreach₂, ⟨clockChain P params (n + 1) :: chain, ?_, ?_⟩, ?_,
    hverdict₁.trans (if_pos hmet), hverdict₂.trans (if_neg (Bool.eq_false_iff.mp hunmet))⟩
  · unfold ChainState.StoredAncestry
    rw [hR₁.known]
    exact hanc₁
  · unfold ChainState.StoredAncestry
    rw [hR₂.known]
    exact hanc₂
  · -- The same seed would mean the same last block of the first epoch.
    intro hseed
    have hhash := hseed₁.symm.trans (hseed.trans hseed₂)
    have heq := hU.injective _ (Or.inl ⟨n + 1, le_rfl, rfl⟩) _ (Or.inr rfl) hhash
    exact hclock (congrArg (fun b => b.header.timestampSeconds) heq)

end fork

/-- A child meets the work exactly under the hash of an early block. -/
theorem childAt_meetsWork (parent b : Block) (timestampSeconds : Nat)
    (hb : b.header.timestampSeconds < 2 ^ 64) :
    headerMeetsWork Primitives.seedSensitive
      (childAt Primitives.seedSensitive testParams parent timestampSeconds).header
      (b.hash Primitives.seedSensitive) = decide (b.header.timestampSeconds < 2 ^ 56) := by
  have hid : (childAt Primitives.seedSensitive testParams parent
      timestampSeconds).header.chainId = testParams.chainId := rfl
  have hbits : (childAt Primitives.seedSensitive testParams parent
      timestampSeconds).header.leadingZeroBits = testParams.initialLeadingZeroBits := rfl
  rw [headerMeetsWork_seedSensitive hid hbits, stampOf_hash hb]

/-- **The seed splits the network.** Two reachable nodes store every ancestor of
    block 8192; one accepts the block, the other rejects its proof of work. -/
theorem epochFork_splits_verdict :
    ContextSplit Primitives.seedSensitive testParams
      (forkBlocks Primitives.seedSensitive testParams 8190)
      (ChainState.clockRun Primitives.seedSensitive testParams 8191)
      (rivalRun Primitives.seedSensitive testParams 8190)
      (clockChain Primitives.seedSensitive testParams 8192) 8193 := by
  refine fork_splits seedSensitive_easyNetwork (forkBlocks_faithful (by decide)) (by decide) ?_ ?_
  · have hstamp : (clockChain Primitives.seedSensitive testParams 8191).header.timestampSeconds
        = 8192 := clockChain_timestamp 8191
    refine (childAt_meetsWork _ _ _ ?_).trans ?_
    · rw [hstamp]
      decide
    · rw [hstamp]
      decide
  · exact (childAt_meetsWork _ (rivalBlock Primitives.seedSensitive testParams 8190) _
      (by decide : 2 ^ 56 < 2 ^ 64)).trans (by decide : decide (2 ^ 56 < 2 ^ 56) = false)

end Tensorium
