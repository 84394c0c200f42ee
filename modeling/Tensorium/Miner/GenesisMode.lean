import Tensorium.Miner.Kernels
import Tensorium.Miner.SameHeader
import Tensorium.Node.GenesisMining

/-! # The genesis mode of the miner

    `--mode genesis`: a thread for each GPU goes over its share of the nonces, launch
    by launch, until one of them reports a nonce, which the host then checks before it
    is printed. A GPU whose context or dataset fails takes no part. The text of
    `--prefix` is the hexadecimal form of the bytes it starts from here.
-/

namespace Tensorium.Miner

open GuardedRun ByteCodec GenesisMining
open ParallelSearch.Search (Over)

/-- `MAX_GPUS`. -/
def maxGpus : Nat := 16

/-- `th_ctx_generate_dataset` can return 0 with this context. -/
structure GeneratesDataset (seed : Hash256) (spotCount : Nat) (ctx : TensorHashCtx) : Prop where
  kernel : ∃ buf memory ts,
    Along (Generating.step seed buf) Generating.IsRunning
      (Generating.launch Generating.datasetGrid memory) ts ∧
    Generating.Synchronized
      (ts.foldl (Generating.step seed buf) (Generating.launch Generating.datasetGrid memory)) ∧
    ctx.dataset
      = (ts.foldl (Generating.step seed buf)
          (Generating.launch Generating.datasetGrid memory)).dataset
  spotCheck : ∃ hostBuf, Generating.spotCheck hostBuf seed ctx.dataset spotCount = 0
  currentSeed : ctx.currentSeed = seed
  seedValid : ctx.seedValid = true

theorem GeneratesDataset.rows {seed : Hash256} {spotCount : Nat} {ctx : TensorHashCtx}
    (h : GeneratesDataset seed spotCount ctx) :
    ∀ r < thDatasetN, Generating.RowDone seed ctx.dataset r := by
  obtain ⟨buf, memory, ts, hrun, hover, hdataset⟩ := h.kernel
  rw [hdataset]
  exact Generating.rows_done hrun hover

/-- The dataset can be generated for every seed, and passes its checks. -/
theorem exists_generatesDataset (seed : Hash256) (spotCount : Nat) :
    ∃ ctx, GeneratesDataset seed spotCount ctx := by
  have hinv : Generating.Inv seed (Generating.launch Generating.datasetGrid 0) :=
    Generating.inv_launch seed 0
  obtain ⟨ts, hrun, hover⟩ :=
    Generating.exists_synchronized seed (fun _ => Vector.replicate _ 0) hinv
  have hrows := Generating.rows_done hrun hover
  refine ⟨⟨_, seed, true⟩, ⟨_, 0, ts, hrun, hover, rfl⟩, ?_, rfl, rfl⟩
  exact ⟨Vector.replicate _ 0, Generating.spotCheck_eq_zero hrows _ _⟩

/-! ## Launches -/

/-- `iters` of `genesis_thread`. -/
def itersPerLaunch (grid : Grid) : UInt32 :=
  let iters := ((16777216 : UInt64) / grid.stride).toUInt32
  if iters < 1 then 1 else iters

/-- `per_launch` of `genesis_thread`. -/
def perLaunch (grid : Grid) : UInt64 := grid.stride * (itersPerLaunch grid).toUInt64

theorem toNat_perLaunch (grid : Grid) :
    (perLaunch grid).toNat = grid.stride.toNat * (itersPerLaunch grid).toNat ∧
      0 < (itersPerLaunch grid).toNat := by
  have hstride := grid.stride.toNat_lt
  have hpos := grid.stride_pos
  have hquot : ((16777216 : UInt64) / grid.stride).toNat = 16777216 / grid.stride.toNat := by
    simp
  have hsmall : 16777216 / grid.stride.toNat < 2 ^ 32 :=
    Nat.lt_of_le_of_lt (Nat.div_le_self _ _) (by norm_num)
  have hiters : ((16777216 : UInt64) / grid.stride).toUInt32.toNat
      = 16777216 / grid.stride.toNat := by
    rw [UInt64.toNat_toUInt32, hquot, Nat.mod_eq_of_lt hsmall]
  unfold perLaunch itersPerLaunch
  dsimp only
  split_ifs with hzero
  · simp
  · have hone : 1 ≤ 16777216 / grid.stride.toNat := by
      rw [← hiters]
      exact UInt32.le_iff_toNat_le.mp (UInt32.not_lt.mp hzero)
    have hle : grid.stride.toNat * (16777216 / grid.stride.toNat) ≤ 16777216 :=
      Nat.mul_div_le _ _
    rw [UInt64.toNat_mul, UInt32.toNat_toUInt64, hiters, Nat.mod_eq_of_lt (by omega)]
    exact ⟨rfl, hone⟩

section Hash

variable {P : Primitives} {ctx : TensorHashCtx} {seed : Hash256} {headerBytes : Bytes}

/-- The device hashes what the node hashes, on a full dataset. -/
theorem thPowHashDevice_eq (hP : ∀ data, (P.blake2b256 data).bytes = Blake2b.hash 32 data)
    (hheader : headerBytes.length ≤ thPrefixMax) (nonce : UInt64) {dataset : Nat → UInt8}
    (hrows : ∀ r < thDatasetN, Generating.RowDone seed dataset r)
    (buf : Vector UInt8 (thPrefixMax + 8 + 32)) (ibuf : Vector UInt8 40) :
    thPowHashDevice dataset buf ibuf headerBytes nonce
      = (TensorHash.powHash P headerBytes nonce seed).bytes := by
  apply powHashWith_eq hP _ buf ibuf hheader
  intro idx hidx
  have hlen : (seed.bytes ++ leBytes 8 idx.toNat).length = 40 := by simp [seed.size]
  have hrow := hrows idx.toNat hidx
  unfold Generating.RowDone at hrow
  rw [thBlake2b256_eq hlen.ge (by norm_num), List.take_of_length_le hlen.le, ← hP] at hrow
  exact ldg_row hrow

/-- The nonces from `start` on that one launch covers. -/
def InLaunch (grid : Grid) (start nonce : UInt64) : Prop :=
  (nonce - start).toNat < (perLaunch grid).toNat

/-- **A launch finds a nonce if there is one.** On a full dataset, with a header that
    fits, `th_launch_mining` returns a nonce of its window that meets the target under
    the node's own hash, and fails only if the window has none. -/
theorem launch_spec (hP : ∀ data, (P.blake2b256 data).bytes = Blake2b.hash 32 data)
    (hlength : 0 < headerBytes.length ∧ headerBytes.length ≤ thPrefixMax)
    (hrows : ∀ r < thDatasetN, Generating.RowDone seed ctx.dataset r)
    (hvalid : ctx.seedValid = true) {zeros : Bytes} (hzeros : zeros.length = 8)
    {difficultyBits : UInt8} {start : UInt64} {grid : Grid} {result : Option UInt64}
    (h : ThLaunchMining ctx (headerBytes ++ zeros) difficultyBits start grid
      (itersPerLaunch grid) result) :
    (∀ nonce, result = some nonce → InLaunch grid start nonce ∧
      hashMeetsWork (TensorHash.powHash P headerBytes nonce seed) difficultyBits = true) ∧
    (result = none → ∀ nonce, InLaunch grid start nonce →
      hashMeetsWork (TensorHash.powHash P headerBytes nonce seed) difficultyBits = false) := by
  have htotal : (headerBytes ++ zeros).length = headerBytes.length + 8 := by simp [hzeros]
  unfold ThLaunchMining at h
  have hfits : ¬ (ctx.seedValid = false ∨ (headerBytes ++ zeros).length ≤ 8 ∨
      thPrefixMax < (headerBytes ++ zeros).length - 8) := by
    rw [hvalid, htotal]
    simp only [Bool.true_eq_false, false_or]
    omega
  rw [if_neg hfits] at h
  obtain ⟨buf, ibuf, houtcome⟩ := h
  obtain ⟨hsome, hnone⟩ := houtcome.spec
  rw [htotal, Nat.add_sub_cancel, List.take_left] at hsome hnone
  have hmeets : ∀ nonce, difficultyBits.toNat
        ≤ thLeadingZeroBitsDev (thPowHashDevice ctx.dataset buf ibuf headerBytes nonce)
      ↔ hashMeetsWork (TensorHash.powHash P headerBytes nonce seed) difficultyBits = true := by
    intro nonce
    rw [thPowHashDevice_eq hP hlength.2 nonce hrows, thLeadingZeroBitsDev_eq]
    exact decide_eq_true_iff.symm
  simp only [MineKernel.InWindow, MineKernel.Meets, hmeets, ← (toNat_perLaunch grid).1]
    at hsome hnone
  refine ⟨hsome, fun hresult nonce hnonce => ?_⟩
  exact Bool.eq_false_iff.mpr (hnone hresult nonce hnonce)

end Hash

/-! ## The threads -/

/-- What `run_genesis` hands to its threads. A GPU without a context has failed to get
    one, or to generate the dataset. -/
structure GenesisArgs where
  gpuCount : Nat
  ctx : Fin gpuCount → Option TensorHashCtx
  headerBytes : Bytes
  bits : Int
  startNonce : UInt64
  grid : Grid

namespace GenesisArgs

variable {args : GenesisArgs}

/-- `span`. -/
def span (args : GenesisArgs) : UInt64 :=
  (18446744073709551615 - args.startNonce) / UInt64.ofNat args.gpuCount

/-- `nonce_start` of a GPU. -/
def nonceStart (args : GenesisArgs) (i : Fin args.gpuCount) : UInt64 :=
  args.startNonce + UInt64.ofNat i * args.span

/-- `nonce_end` of a GPU. -/
def nonceEnd (args : GenesisArgs) (i : Fin args.gpuCount) : UInt64 :=
  if i.val + 1 = args.gpuCount then 18446744073709551615
  else args.startNonce + UInt64.ofNat (i + 1) * args.span

/-- The header with eight zeros for the nonce. -/
def header (args : GenesisArgs) : Bytes := args.headerBytes ++ List.replicate 8 0

/-- The threads of `genesis_thread`. They share `g_gen_found`, which is set under a mutex
    by the first that has a nonce, and `g_gen_nonce`. -/
def search (args : GenesisArgs) : ParallelSearch.Search (Fin args.gpuCount) UInt64 UInt64 where
  start := fun i =>
    if args.ctx i ≠ none ∧ args.nonceStart i < args.nonceEnd i then some (args.nonceStart i)
    else none
  next := fun i nonce =>
    if nonce + perLaunch args.grid < args.nonceEnd i then some (nonce + perLaunch args.grid)
    else none
  Yields := fun i nonce found => ∃ ctx, args.ctx i = some ctx ∧
    ThLaunchMining ctx args.header (UInt8.ofNat (args.bits % 256).toNat) nonce args.grid
      (itersPerLaunch args.grid) (some found)
  exclusive := true

/-! ### The shares of the GPUs -/

theorem toNat_span (hmax : args.gpuCount ≤ maxGpus) :
    args.span.toNat = (2 ^ 64 - 1 - args.startNonce.toNat) / args.gpuCount := by
  have hstart := args.startNonce.toNat_lt
  have hcount : (UInt64.ofNat args.gpuCount).toNat = args.gpuCount :=
    UInt64.toNat_ofNat_of_lt' (Nat.lt_of_le_of_lt hmax (by decide))
  have hle : args.startNonce ≤ 18446744073709551615 :=
    UInt64.le_iff_toNat_le.mpr (Nat.le_of_lt_succ hstart)
  unfold span
  rw [UInt64.toNat_div, hcount, UInt64.toNat_sub_of_le _ _ hle]
  rfl

/-- A multiple of the span does not go past the last nonce. -/
theorem toNat_share (hmax : args.gpuCount ≤ maxGpus) {i : Nat}
    (hi : i ≤ args.gpuCount) :
    (args.startNonce + UInt64.ofNat i * args.span).toNat
      = args.startNonce.toNat + i * args.span.toNat := by
  have hstart := args.startNonce.toNat_lt
  have hspan := toNat_span hmax
  have hmul : i * args.span.toNat ≤ 2 ^ 64 - 1 - args.startNonce.toNat := by
    rw [hspan]
    exact (Nat.mul_le_mul_right _ hi).trans (Nat.mul_div_le _ _)
  have hcount : (UInt64.ofNat i).toNat = i :=
    UInt64.toNat_ofNat_of_lt' (Nat.lt_of_le_of_lt (hi.trans hmax) (by decide))
  rw [UInt64.toNat_add, UInt64.toNat_mul, hcount, Nat.mod_eq_of_lt (a := i * _) (by omega),
    Nat.mod_eq_of_lt (by omega)]

/-- Every nonce from the first on, but for `u64::MAX`, is in the share of a GPU. -/
theorem exists_share (hgpus : 0 < args.gpuCount) (hmax : args.gpuCount ≤ maxGpus) {nonce : UInt64}
    (hfrom : args.startNonce ≤ nonce) (hbelow : nonce < 18446744073709551615) :
    ∃ i, args.nonceStart i ≤ nonce ∧ nonce < args.nonceEnd i := by
  have hfrom := UInt64.le_iff_toNat_le.mp hfrom
  let last : Fin args.gpuCount := ⟨args.gpuCount - 1, by omega⟩
  by_cases hlast : args.startNonce.toNat + (args.gpuCount - 1) * args.span.toNat ≤ nonce.toNat
  · refine ⟨last, ?_, ?_⟩
    · rw [UInt64.le_iff_toNat_le, nonceStart, toNat_share hmax last.isLt.le]
      exact hlast
    · rw [nonceEnd, if_pos (by simp [last]; omega)]
      exact hbelow
  · have hspan : 0 < args.span.toNat := by
      apply Nat.pos_of_ne_zero
      intro hzero
      rw [hzero] at hlast
      omega
    let k := (nonce.toNat - args.startNonce.toNat) / args.span.toNat
    have hle : k * args.span.toNat ≤ nonce.toNat - args.startNonce.toNat :=
      Nat.div_mul_le_self _ _
    have hlt : nonce.toNat - args.startNonce.toNat < (k + 1) * args.span.toNat := by
      rw [Nat.mul_comm]
      exact Nat.lt_mul_div_succ _ hspan
    have hk : k < args.gpuCount - 1 := by
      by_contra hge
      have hmul := Nat.mul_le_mul_right args.span.toNat (Nat.not_lt.mp hge)
      omega
    refine ⟨⟨k, by omega⟩, ?_, ?_⟩
    · rw [UInt64.le_iff_toNat_le, nonceStart, toNat_share hmax (by dsimp only; omega)]
      dsimp only
      omega
    · rw [nonceEnd, if_neg (by dsimp only; omega), UInt64.lt_iff_toNat_lt,
        toNat_share hmax (by dsimp only; omega)]
      dsimp only
      omega

/-- A GPU gets to a launch that covers a nonce of its share, unless it leaves before. -/
theorem exists_launch {i : Fin args.gpuCount} (hctx : args.ctx i ≠ none) {nonce : UInt64}
    (hfrom : args.nonceStart i ≤ nonce) (hbelow : nonce < args.nonceEnd i) :
    ∃ start, args.search.Candidate i start ∧ InLaunch args.grid start nonce := by
  have hfrom' := UInt64.le_iff_toNat_le.mp hfrom
  have hlt := nonce.toNat_lt
  obtain ⟨hlaunch, hiters⟩ := toNat_perLaunch args.grid
  have hpos : 0 < (perLaunch args.grid).toNat := by
    rw [hlaunch]
    exact Nat.mul_pos args.grid.stride_pos hiters
  have hreach : ∀ (k : Nat) (start : UInt64),
      start.toNat = (args.nonceStart i).toNat + k * (perLaunch args.grid).toNat →
      start ≤ nonce → args.search.Candidate i start := by
    intro k
    induction k with
    | zero =>
      intro start hstart _
      rw [Nat.zero_mul, Nat.add_zero] at hstart
      obtain rfl := UInt64.toNat_inj.mp hstart
      have hshare : args.nonceStart i < args.nonceEnd i := UInt64.lt_of_le_of_lt hfrom hbelow
      exact .start (by simp [search, hctx, hshare])
    | succ k ih =>
      intro start hstart hle
      have hle' := UInt64.le_iff_toNat_le.mp hle
      rw [Nat.succ_mul, ← Nat.add_assoc] at hstart
      have hprev : (start - perLaunch args.grid).toNat
          = (args.nonceStart i).toNat + k * (perLaunch args.grid).toNat := by
        rw [UInt64.toNat_sub_of_le _ _ (UInt64.le_iff_toNat_le.mpr (by omega))]
        omega
      have hcandidate := ih (start - perLaunch args.grid) hprev
        (UInt64.le_iff_toNat_le.mpr (by omega))
      have hsum : start - perLaunch args.grid + perLaunch args.grid = start := by grind
      have hend : start < args.nonceEnd i := UInt64.lt_of_le_of_lt hle hbelow
      exact .next hcandidate (by simp [search, hsum, hend])
  let k := (nonce.toNat - (args.nonceStart i).toNat) / (perLaunch args.grid).toNat
  have hle : k * (perLaunch args.grid).toNat ≤ nonce.toNat - (args.nonceStart i).toNat :=
    Nat.div_mul_le_self _ _
  have hless : nonce.toNat - (args.nonceStart i).toNat
      < (perLaunch args.grid).toNat * (k + 1) := Nat.lt_mul_div_succ _ hpos
  have hstart : (UInt64.ofNat ((args.nonceStart i).toNat + k * (perLaunch args.grid).toNat)).toNat
      = (args.nonceStart i).toNat + k * (perLaunch args.grid).toNat :=
    UInt64.toNat_ofNat_of_lt' (Nat.lt_of_le_of_lt (by omega) hlt)
  have hreached : UInt64.ofNat ((args.nonceStart i).toNat + k * (perLaunch args.grid).toNat)
      ≤ nonce := UInt64.le_iff_toNat_le.mpr (hstart.trans_le (by omega))
  refine ⟨_, hreach k _ hstart hreached, ?_⟩
  unfold InLaunch
  rw [UInt64.toNat_sub_of_le _ _ hreached, hstart]
  rw [Nat.mul_succ, Nat.mul_comm] at hless
  omega

end GenesisArgs

/-! ## The report -/

/-- How `run_genesis` ends. -/
inductive Report where
  | genesisNonce (nonce : UInt64)
  /-- The host does not count as many zeros. -/
  | failedVerification
  | notFound
  deriving DecidableEq

/-- The end of `run_genesis`, with the threads joined. -/
def report (hostHash : Bytes → UInt64 → Bytes → Bytes) (args : GenesisArgs)
    (s : ParallelSearch.State (Fin args.gpuCount) UInt64 UInt64) : Report :=
  if !s.raised then .notFound
  else
    let nonce := s.winner.getD 0
    let zeros := hostLeadingZeroBits (hostHash args.headerBytes nonce Hash256.zero.bytes)
    if (zeros : Int) < args.bits then .failedVerification else .genesisNonce nonce

/-- A launch that can return nothing is one that can return no nonce. -/
theorem launch_none_iff {P : Primitives} (hP : ∀ data, (P.blake2b256 data).bytes = Blake2b.hash 32 data)
    {ctx : TensorHashCtx} (hctx : GeneratesDataset .zero 4096 ctx) {headerBytes : Bytes}
    (hlength : 0 < headerBytes.length ∧ headerBytes.length ≤ thPrefixMax)
    (difficultyBits : UInt8) (start : UInt64) (grid : Grid) :
    ThLaunchMining ctx (headerBytes ++ List.replicate 8 0) difficultyBits start grid
        (itersPerLaunch grid) none ↔
      ∀ nonce, ¬ ThLaunchMining ctx (headerBytes ++ List.replicate 8 0) difficultyBits start grid
        (itersPerLaunch grid) (some nonce) := by
  constructor
  · intro hnone nonce hsome
    obtain ⟨hwindow, hmeets⟩ := (launch_spec hP hlength hctx.rows hctx.seedValid
      List.length_replicate hsome).1 nonce rfl
    have hfails := (launch_spec hP hlength hctx.rows hctx.seedValid
      List.length_replicate hnone).2 rfl nonce hwindow
    rw [hmeets] at hfails
    cases hfails
  · intro hall
    obtain ⟨result, hresult⟩ := exists_thLaunchMining ctx (headerBytes ++ List.replicate 8 0)
      difficultyBits start grid (itersPerLaunch grid)
    cases result with
    | none => exact hresult
    | some nonce => exact absurd hresult (hall nonce)

/-- What a search on the header of `print-genesis-prefix` is about. -/
theorem verifyGenesis_ok_iff {P : Primitives} (timestamp : Nat) (nonce : UInt64) :
    verifyGenesis P timestamp nonce = .ok () ↔
      hashMeetsWork (TensorHash.powHash P (genesisHeaderTemplate P timestamp).powPrefixBytes nonce
        .zero) 42 = true := by
  have hsame : headerMeetsWork P { genesisHeaderTemplate P timestamp with nonce := nonce } .zero
      = hashMeetsWork (TensorHash.powHash P (genesisHeaderTemplate P timestamp).powPrefixBytes
          nonce .zero) 42 := rfl
  unfold verifyGenesis
  dsimp only
  rw [hsame]
  split_ifs with hmeets
  · simp [hmeets]
  · simp [hmeets]

/-- **The GPUs find the genesis nonce.** The miner is started on the prefix and the bits
    that the node prints. However the threads of the GPUs interleave, and within each
    launch those of the kernel, a nonce it reports passes `verify-genesis`, the host
    never finds fault with what the device has found, and if all GPUs have taken part,
    the miner comes out without a nonce only if from the first nonce on, but for
    `u64::MAX`, there is none to find. -/
theorem genesis_on_gpus (P : Primitives)
    (hP : ∀ data, (P.blake2b256 data).bytes = Blake2b.hash 32 data) (timestamp : Nat)
    (args : GenesisArgs)
    (hheader : args.headerBytes = (genesisHeaderTemplate P timestamp).powPrefixBytes)
    (hbits : args.bits = 42) (hgpus : 0 < args.gpuCount) (hmax : args.gpuCount ≤ maxGpus)
    (hctx : ∀ i ctx, args.ctx i = some ctx → GeneratesDataset .zero 4096 ctx)
    (events : List (ParallelSearch.Event (Fin args.gpuCount) UInt64))
    (hrun : Along args.search.step args.search.Enabled args.search.init events)
    (hover : Over (events.foldl args.search.step args.search.init))
    (buf : Vector UInt8 (thPrefixMax + 8 + 32)) (ibuf elementBuf : Vector UInt8 40) :
    (∀ nonce, report (hostPowHash buf ibuf elementBuf) args
        (events.foldl args.search.step args.search.init) = .genesisNonce nonce →
      verifyGenesis P timestamp nonce = .ok ()) ∧
    report (hostPowHash buf ibuf elementBuf) args
        (events.foldl args.search.step args.search.init) ≠ .failedVerification ∧
    (report (hostPowHash buf ibuf elementBuf) args
        (events.foldl args.search.step args.search.init) = .notFound →
      (∀ i, args.ctx i ≠ none) → ∀ nonce, args.startNonce ≤ nonce →
        nonce < 18446744073709551615 → verifyGenesis P timestamp nonce ≠ .ok ()) := by
  have hlength : 0 < args.headerBytes.length ∧ args.headerBytes.length ≤ thPrefixMax := by
    rw [hheader, length_powPrefixBytes]
    have hchain : (asBytes mainnet.chainId).length = 17 := by decide
    have hid : (genesisHeaderTemplate P timestamp).chainId = mainnet.chainId := rfl
    rw [hid, hchain]
    decide
  have hcast : UInt8.ofNat (args.bits % 256).toNat = 42 := by rw [hbits]; rfl
  have hinv := ParallelSearch.Search.Inv.run hrun
  obtain ⟨hfound, hnone⟩ := hinv.over hover
  have hraised := hinv.raised_iff hover
  generalize events.foldl args.search.step args.search.init = s at hfound hnone hraised ⊢
  -- What a GPU has written meets the work.
  have hmeets : ∀ nonce, s.winner = some nonce → hashMeetsWork
      (TensorHash.powHash P args.headerBytes nonce .zero) 42 = true := by
    intro nonce hnonce
    obtain ⟨i, start, _, ctx, hi, hlaunch⟩ := hfound nonce hnonce
    have hvalid := hctx i ctx hi
    rw [hcast] at hlaunch
    exact ((launch_spec hP hlength hvalid.rows hvalid.seedValid List.length_replicate hlaunch).1
      nonce rfl).2
  unfold report
  cases hwinner : s.winner with
  | none =>
    have hdown : s.raised = false := by
      simpa [hwinner] using hraised
    rw [hdown]
    refine ⟨by simp, by simp, fun _ hall nonce hfrom hbelow hok => ?_⟩
    obtain ⟨i, hstart, hend⟩ := GenesisArgs.exists_share hgpus hmax hfrom hbelow
    obtain ⟨start, hcandidate, hwindow⟩ := GenesisArgs.exists_launch (hall i) hstart hend
    obtain ⟨ctx, hi⟩ := Option.ne_none_iff_exists'.mp (hall i)
    have hvalid := hctx i ctx hi
    have hlaunch : ThLaunchMining ctx args.header 42 start args.grid (itersPerLaunch args.grid)
        none := by
      refine (launch_none_iff hP hvalid hlength _ _ _).mpr fun found hlaunch => ?_
      refine hnone hwinner found ⟨i, start, hcandidate, ctx, hi, ?_⟩
      rw [hcast]
      exact hlaunch
    have hfails := (launch_spec hP hlength hvalid.rows hvalid.seedValid List.length_replicate
      hlaunch).2 rfl nonce hwindow
    rw [verifyGenesis_ok_iff, ← hheader, hfails] at hok
    cases hok
  | some nonce =>
    have hup : s.raised = true := by
      simpa [hwinner] using hraised
    have hwork := hmeets nonce hwinner
    have hhost : ¬ ((hostLeadingZeroBits (hostPowHash buf ibuf elementBuf args.headerBytes nonce
        Hash256.zero.bytes) : Nat) : Int) < args.bits := by
      rw [hostPowHash_eq hP hlength.2, hostLeadingZeroBits_eq, hbits]
      have hcount : 42 ≤ _ := of_decide_eq_true hwork
      omega
    rw [hup]
    simp only [Bool.not_true, Bool.false_eq_true, if_false, Option.getD_some, hhost]
    refine ⟨fun nonce' hnonce' => ?_, by simp, by simp⟩
    obtain rfl := Report.genesisNonce.inj hnonce'
    rw [verifyGenesis_ok_iff, ← hheader]
    exact hwork

/-- One GPU with one thread, started so late that one launch is all there is. -/
def lastLaunch (ctx : TensorHashCtx) : GenesisArgs where
  gpuCount := 1
  ctx := fun _ => some ctx
  headerBytes := (genesisHeaderTemplate rfc7693 0).powPrefixBytes
  bits := 42
  startNonce := 18446744073692774399
  grid := ⟨1, 1, Nat.one_pos, Nat.one_pos⟩

theorem genesis_on_gpus_lastLaunch : ∃ (ctx : TensorHashCtx)
    (events : List (ParallelSearch.Event (Fin (lastLaunch ctx).gpuCount) UInt64)),
    Over (events.foldl (lastLaunch ctx).search.step (lastLaunch ctx).search.init) ∧
      report (hostPowHash (Vector.replicate _ 0) (Vector.replicate _ 0) (Vector.replicate _ 0))
        (lastLaunch ctx) (events.foldl (lastLaunch ctx).search.step (lastLaunch ctx).search.init)
          ≠ .failedVerification := by
  obtain ⟨ctx, hctx⟩ := exists_generatesDataset .zero 4096
  have hnext : ∀ i start, (lastLaunch ctx).search.Candidate i start →
      (lastLaunch ctx).search.next i start = none := by
    intro i start hstart
    induction hstart with
    | start hstart =>
      simp only [GenesisArgs.search] at hstart
      split_ifs at hstart
      obtain rfl := Option.some.inj hstart
      obtain rfl : i = ⟨0, Nat.one_pos⟩ := Subsingleton.elim (α := Fin 1) i _
      apply if_neg
      show ¬ ((18446744073692774399 : UInt64)
        + UInt64.ofNat 0 * ((18446744073709551615 - 18446744073692774399) / UInt64.ofNat 1)
        + perLaunch ⟨1, 1, Nat.one_pos, Nat.one_pos⟩ < 18446744073709551615)
      decide +kernel
    | next _ hnext ih =>
      rw [ih] at hnext
      cases hnext
  let rank : Fin (lastLaunch ctx).gpuCount → UInt64 → Nat := fun _ _ => 0
  have hrank : ∀ i a b, (lastLaunch ctx).search.Candidate i a →
      (lastLaunch ctx).search.next i a = some b → rank i b < rank i a := by
    intro i a b ha hb
    simp [hnext i a ha] at hb
  obtain ⟨events, hrun, hover⟩ := (lastLaunch ctx).search.inv_init.exists_over hrank
  have hall : ∀ i c, (lastLaunch ctx).ctx i = some c → GeneratesDataset .zero 4096 c := by
    intro i c hc
    obtain rfl := Option.some.inj hc
    exact hctx
  have hmain := genesis_on_gpus rfc7693 (fun _ => rfl) 0 (lastLaunch ctx) rfl rfl Nat.one_pos
    (Nat.one_le_two_pow (n := 4)) hall events hrun hover (Vector.replicate _ 0) (Vector.replicate _ 0)
    (Vector.replicate _ 0)
  exact ⟨ctx, events, hover, hmain.2.1⟩

end Tensorium.Miner
