import Tensorium.Lib.ParallelSearch
import Tensorium.Miner.LeadingZeros
import Tensorium.Miner.PowHash

/-! # The kernels

    `th_dataset_gen_kernel` and `th_mine_kernel` with their launches. The threads of a
    grid go over the rows, or over the nonces, in strides of the whole grid. What they
    share is the dataset in the first, and in the second the flag `found`, which
    `atomicCAS` lets one of them set, and the nonce of the one that did. A load of the
    flag goes through a cache and may give what was there before.
-/

namespace Tensorium.Miner

open GuardedRun ByteCodec

/-! ## Grids -/

/-- `gridDim.x` and `blockDim.x` of a launch. -/
structure Grid where
  gridDim : UInt32
  blockDim : UInt32
  gridDim_pos : 0 < gridDim.toNat
  blockDim_pos : 0 < blockDim.toNat

namespace Grid

variable {grid : Grid}

/-- A thread by `blockIdx.x` and `threadIdx.x`. -/
abbrev Thread (grid : Grid) : Type := Fin grid.gridDim.toNat × Fin grid.blockDim.toNat

/-- `(uint64_t)gridDim.x * blockDim.x`. -/
def stride (grid : Grid) : UInt64 := grid.gridDim.toUInt64 * grid.blockDim.toUInt64

/-- `(uint64_t)blockIdx.x * blockDim.x + threadIdx.x`. -/
def gid (t : grid.Thread) : UInt64 :=
  UInt64.ofNat t.1 * grid.blockDim.toUInt64 + UInt64.ofNat t.2

theorem toNat_stride (grid : Grid) :
    grid.stride.toNat = grid.gridDim.toNat * grid.blockDim.toNat := by
  have hgrid := grid.gridDim.toNat_lt
  have hblock := grid.blockDim.toNat_lt
  have hlt : grid.gridDim.toNat * grid.blockDim.toNat < 2 ^ 32 * 2 ^ 32 :=
    Nat.mul_lt_mul'' hgrid hblock
  rw [← Nat.pow_add] at hlt
  unfold stride
  rw [UInt64.toNat_mul, UInt32.toNat_toUInt64, UInt32.toNat_toUInt64, Nat.mod_eq_of_lt hlt]

theorem stride_pos (grid : Grid) : 0 < grid.stride.toNat := by
  rw [toNat_stride]
  exact Nat.mul_pos grid.gridDim_pos grid.blockDim_pos

/-- The threads have the numbers below the stride. -/
theorem toNat_gid (t : grid.Thread) :
    (gid t).toNat = t.1 * grid.blockDim.toNat + t.2 ∧ (gid t).toNat < grid.stride.toNat := by
  have hbelow : t.1 * grid.blockDim.toNat + t.2 < grid.stride.toNat := by
    have hfirst : (t.1 + 1) * grid.blockDim.toNat ≤ grid.gridDim.toNat * grid.blockDim.toNat :=
      Nat.mul_le_mul_right _ t.1.isLt
    have hsecond := t.2.isLt
    rw [Nat.succ_mul] at hfirst
    rw [toNat_stride]
    omega
  have hlt := grid.stride.toNat_lt
  have hthread : t.2.val < 2 ^ 64 := by omega
  have hblock : t.1.val < 2 ^ 64 := by
    have hle := Nat.le_mul_of_pos_right t.1.val grid.blockDim_pos
    omega
  have heq : (gid t).toNat = t.1 * grid.blockDim.toNat + t.2 := by
    unfold gid
    rw [UInt64.toNat_add, UInt64.toNat_mul, UInt32.toNat_toUInt64,
      UInt64.toNat_ofNat_of_lt' hblock, UInt64.toNat_ofNat_of_lt' hthread, Nat.mod_add_mod,
      Nat.mod_eq_of_lt (by omega)]
  exact ⟨heq, heq ▸ hbelow⟩

theorem exists_gid {k : Nat} (hk : k < grid.stride.toNat) :
    ∃ t : grid.Thread, (gid t).toNat = k := by
  rw [toNat_stride, Nat.mul_comm] at hk
  let t : grid.Thread :=
    (⟨k / grid.blockDim.toNat, Nat.div_lt_of_lt_mul hk⟩,
      ⟨k % grid.blockDim.toNat, Nat.mod_lt _ grid.blockDim_pos⟩)
  refine ⟨t, ?_⟩
  rw [(toNat_gid t).1]
  exact Nat.div_add_mod' k grid.blockDim.toNat

end Grid

/-! ## Generating the dataset -/

/-- The memory of the dataset, and the row each thread writes next. -/
structure Generating (grid : Grid) where
  dataset : Nat → UInt8
  row : grid.Thread → Option UInt64

namespace Generating

variable {grid : Grid} {seed : Hash256} {buf : grid.Thread → Vector UInt8 40} {s : Generating grid}

/-- The condition of the loop. -/
def check (i : UInt64) : Option UInt64 := if i < UInt64.ofNat thDatasetN then some i else none

/-- The launch, on memory that holds anything. -/
def launch (grid : Grid) (dataset : Nat → UInt8) : Generating grid where
  dataset := dataset
  row := fun t => check (Grid.gid t)

/-- `th_blake2b256` into the 32 bytes at `dataset + i * 32`. -/
def writeRow (dataset : Nat → UInt8) (i : UInt64) (row : Bytes) : Nat → UInt8 := fun address =>
  if address / 32 = i.toNat then row.getD (address % 32) 0 else dataset address

/-- A pass through the loop of a thread, whose `buf` is filled as in
    `host_dataset_element`. -/
def step (seed : Hash256) (buf : grid.Thread → Vector UInt8 40) (s : Generating grid)
    (t : grid.Thread) : Generating grid :=
  match s.row t with
  | none => s
  | some i =>
    { dataset := writeRow s.dataset i (hostDatasetElement (buf t) seed.bytes i)
      row := Function.update s.row t (check (i + grid.stride)) }

/-- The thread has not returned. -/
def IsRunning (s : Generating grid) (t : grid.Thread) : Prop := s.row t ≠ none

/-- All threads have. -/
def Synchronized (s : Generating grid) : Prop := ∀ t, s.row t = none

/-- The row of a dataset is what the seed and its index hash to. -/
def RowDone (seed : Hash256) (dataset : Nat → UInt8) (r : Nat) : Prop :=
  (List.range 32).map (fun k => dataset (r * 32 + k))
    = thBlake2b256 (seed.bytes ++ leBytes 8 r) 40

/-- The rows of a thread's residue below the one it is at are done. -/
structure Inv (seed : Hash256) (s : Generating grid) : Prop where
  row : ∀ t i, s.row t = some i → i.toNat < thDatasetN ∧
    i.toNat % grid.stride.toNat = (Grid.gid t).toNat
  done : ∀ t, ∀ r < thDatasetN, r % grid.stride.toNat = (Grid.gid t).toNat →
    (∀ i, s.row t = some i → r < i.toNat) → RowDone seed s.dataset r

theorem check_some {i j : UInt64} (h : check i = some j) : j = i ∧ i.toNat < thDatasetN := by
  unfold check at h
  split_ifs at h with hlt
  · exact ⟨(Option.some.inj h).symm, by simpa [thDatasetN] using UInt64.lt_iff_toNat_lt.mp hlt⟩

theorem check_none {i : UInt64} (h : check i = none) : thDatasetN ≤ i.toNat := by
  unfold check at h
  split_ifs at h with hlt
  simpa [thDatasetN] using UInt64.le_iff_toNat_le.mp (UInt64.not_lt.mp hlt)

theorem hostDatasetElement_row (buf : Vector UInt8 40) (seed : Hash256) (i : UInt64) :
    hostDatasetElement buf seed.bytes i
      = thBlake2b256 (seed.bytes ++ leBytes 8 i.toNat) 40 := by
  have hseed := take_storeBytes buf.toList 0 seed.bytes (by simp [seed.size])
  have hlen : (seed.bytes ++ leBytes 8 i.toNat).length = 40 := by simp [seed.size]
  rw [seed.size] at hseed
  unfold hostDatasetElement
  rw [hash_forty (by rw [length_storeBytes, Vector.length_toList]), hseed,
    thBlake2b256_eq hlen.ge (by norm_num), List.take_of_length_le hlen.le]
  rfl

theorem rowDone_writeRow {dataset : Nat → UInt8} (buf : Vector UInt8 40) (i : UInt64) :
    RowDone seed (writeRow dataset i (hostDatasetElement buf seed.bytes i)) i.toNat := by
  have hlen : (thBlake2b256 (seed.bytes ++ leBytes 8 i.toNat) 40).length = 32 := by
    simp [thBlake2b256]
  unfold RowDone
  rw [hostDatasetElement_row]
  apply List.ext_getElem
  · simp [hlen]
  · intro k hk hk'
    have hk32 : k < 32 := by simpa using hk
    have hdiv : (i.toNat * 32 + k) / 32 = i.toNat := by omega
    have hmod : (i.toNat * 32 + k) % 32 = k := by omega
    rw [List.getElem_map, List.getElem_range, writeRow, if_pos hdiv, hmod,
      List.getD_eq_getElem?_getD, List.getElem?_eq_getElem hk', Option.getD_some]

/-- A write to one row leaves the others. -/
theorem RowDone.writeRow {dataset : Nat → UInt8} {r : Nat} (h : RowDone seed dataset r)
    {i : UInt64} (hne : r ≠ i.toNat) (row : Bytes) :
    RowDone seed (writeRow dataset i row) r := by
  unfold RowDone at h ⊢
  rw [← h]
  apply List.map_congr_left
  intro k hk
  have hk32 : k < 32 := by simpa using hk
  have hdiv : (r * 32 + k) / 32 = r := by omega
  rw [Generating.writeRow, if_neg (by rw [hdiv]; exact hne)]

theorem inv_launch (seed : Hash256) (dataset : Nat → UInt8) : Inv seed (launch grid dataset) where
  row := by
    intro t i hi
    obtain ⟨rfl, hlt⟩ := check_some hi
    exact ⟨hlt, Nat.mod_eq_of_lt (Grid.toNat_gid t).2⟩
  done := by
    intro t r hr hmod hbelow
    have hle : (Grid.gid t).toNat ≤ r := hmod ▸ Nat.mod_le r _
    cases hrow : (launch grid dataset).row t with
    | none =>
      have hover := check_none hrow
      omega
    | some i =>
      have hlt := hbelow i hrow
      obtain ⟨rfl, _⟩ := check_some hrow
      omega

/-- The stride is short enough not to carry a row past the last number. -/
theorem toNat_next {i : UInt64} (hlt : i.toNat < thDatasetN) (grid : Grid) :
    (i + grid.stride).toNat = i.toNat + grid.stride.toNat := by
  have hgrid := grid.gridDim.toNat_lt
  have hblock := grid.blockDim.toNat_lt
  have hle : grid.stride.toNat ≤ (2 ^ 32 - 1) * (2 ^ 32 - 1) := by
    rw [Grid.toNat_stride]
    exact Nat.mul_le_mul (by omega) (by omega)
  rw [UInt64.toNat_add, Nat.mod_eq_of_lt]
  unfold thDatasetN at hlt
  omega

theorem Inv.step (h : Inv seed s) {t : grid.Thread} (ht : IsRunning s t) :
    Inv seed (step seed buf s t) := by
  obtain ⟨i, hi⟩ := Option.ne_none_iff_exists'.mp ht
  obtain ⟨hlt, hmod⟩ := h.row t i hi
  have hnext := toNat_next hlt grid
  unfold Generating.step
  rw [hi]
  constructor
  · intro t' j hj
    by_cases htt : t' = t
    · subst htt
      simp only [Function.update_self] at hj
      obtain ⟨rfl, hlt'⟩ := check_some hj
      refine ⟨hlt', ?_⟩
      rw [hnext, Nat.add_mod_right, hmod]
    · simp only [Function.update_of_ne htt] at hj
      exact h.row t' j hj
  · intro t' r hr hres hbelow
    by_cases hri : r = i.toNat
    · subst hri
      exact rowDone_writeRow (buf t) i
    · apply RowDone.writeRow _ hri
      by_cases htt : t' = t
      · subst htt
        simp only [Function.update_self] at hbelow
        apply h.done t' r hr hres
        intro j hj
        obtain rfl := Option.some.inj (hi.symm.trans hj)
        -- Of the residue, there is no row between one of the thread and the next.
        have hless : r < i.toNat + grid.stride.toNat := by
          rw [← hnext]
          cases hcheck : check (i + grid.stride) with
          | none => exact Nat.lt_of_lt_of_le hr (check_none hcheck)
          | some j =>
            have hlt' := hbelow j hcheck
            rwa [(check_some hcheck).1] at hlt'
        by_contra hge
        apply hri
        have hzero := Nat.sub_mod_eq_zero_of_mod_eq (hres.trans hmod.symm)
        rw [Nat.mod_eq_of_lt (by omega)] at hzero
        omega
      · simp only [Function.update_of_ne htt] at hbelow
        exact h.done t' r hr hres hbelow

/-- Whatever the interleaving, all rows are there once the threads have returned. -/
theorem rows_done {dataset : Nat → UInt8} {ts : List grid.Thread}
    (hrun : Along (step seed buf) IsRunning (launch grid dataset) ts)
    (hover : Synchronized (ts.foldl (step seed buf) (launch grid dataset))) :
    ∀ r < thDatasetN, RowDone seed (ts.foldl (step seed buf) (launch grid dataset)).dataset r := by
  have hinv := hrun.invariant (Inv seed) (inv_launch seed dataset) fun _ _ h ht => h.step ht
  intro r hr
  obtain ⟨t, ht⟩ := Grid.exists_gid (Nat.mod_lt r grid.stride_pos)
  exact hinv.done t r hr ht.symm fun i hi => absurd hi (by simp [hover t])

/-- What a thread has before it. -/
def rowsLeft : Option UInt64 → Nat
  | none => 0
  | some i => thDatasetN - i.toNat + 1

/-- The kernel can always be brought to its end. -/
theorem exists_synchronized (seed : Hash256) (buf : grid.Thread → Vector UInt8 40)
    {s : Generating grid} (h : Inv seed s) :
    ∃ ts, Along (step seed buf) IsRunning s ts ∧ Synchronized (ts.foldl (step seed buf) s) := by
  induction hleft : ∑ t, rowsLeft (s.row t) using Nat.strong_induction_on generalizing s with
  | _ left ih =>
    by_cases hover : Synchronized s
    · exact ⟨[], trivial, hover⟩
    · obtain ⟨t, ht⟩ := not_forall.mp hover
      obtain ⟨i, hi⟩ := Option.ne_none_iff_exists'.mp ht
      have hlt := (h.row t i hi).1
      have hnext := toNat_next hlt grid
      have hpos := grid.stride_pos
      have hrow : (step seed buf s t).row = Function.update s.row t (check (i + grid.stride)) := by
        simp [step, hi]
      have hfewer : rowsLeft (check (i + grid.stride)) < rowsLeft (s.row t) := by
        rw [hi]
        cases hcheck : check (i + grid.stride) with
        | none => simp [rowsLeft]
        | some j =>
          obtain ⟨rfl, hbelow⟩ := check_some hcheck
          simp only [rowsLeft]
          omega
      have hless : ∑ t', rowsLeft ((step seed buf s t).row t') < ∑ t', rowsLeft (s.row t') := by
        apply Finset.sum_lt_sum
        · intro t' _
          by_cases htt : t' = t
          · subst htt
            simpa [hrow] using hfewer.le
          · simp [hrow, htt]
        · exact ⟨t, Finset.mem_univ t, by simpa [hrow] using hfewer⟩
      obtain ⟨ts, hrun, hend⟩ := ih _ (hleft ▸ hless) (h.step ht) rfl
      exact ⟨t :: ts, ⟨ht, hrun⟩, hend⟩

/-! ### Spot checks -/

/-- `th_dataset_gen_kernel<<<4096, 256>>>`. -/
def datasetGrid : Grid := ⟨4096, 256, Nat.succ_pos 4095, Nat.succ_pos 255⟩

def xorshift (rng : UInt64) : UInt64 :=
  let rng := rng ^^^ (rng <<< 13)
  let rng := rng ^^^ (rng >>> 7)
  rng ^^^ (rng <<< 17)

/-- The indices that are checked after the first and the last. -/
def randomIndices : Nat → UInt64 → List UInt64
  | 0, _ => []
  | count + 1, rng =>
    let rng := xorshift rng
    rng % UInt64.ofNat thDatasetN :: randomIndices count rng

def spotIndices (spotCount : Nat) : List UInt64 :=
  0 :: UInt64.ofNat (thDatasetN - 1) :: randomIndices spotCount 0x9e3779b97f4a7c15

/-- What `th_ctx_generate_dataset` returns once the kernel is through: 0, or 1 more than
    the number of the first check that fails. -/
def spotCheck (hostBuf : Vector UInt8 40) (seed : Hash256) (dataset : Nat → UInt8)
    (spotCount : Nat) : Nat :=
  let fails := (spotIndices spotCount).map fun idx =>
    decide ((List.range 32).map (fun k => dataset (idx.toNat * 32 + k))
      ≠ hostDatasetElement hostBuf seed.bytes idx)
  if true ∈ fails then fails.idxOf true + 1 else 0

theorem lt_of_mem_spotIndices {spotCount : Nat} {idx : UInt64} (h : idx ∈ spotIndices spotCount) :
    idx.toNat < thDatasetN := by
  have hrandom : ∀ (count : Nat) (rng : UInt64), ∀ idx ∈ randomIndices count rng,
      idx.toNat < thDatasetN := by
    intro count
    induction count with
    | zero => simp [randomIndices]
    | succ count ih =>
      intro rng idx hidx
      rcases List.mem_cons.mp hidx with rfl | hidx
      · rw [UInt64.toNat_mod]
        exact Nat.mod_lt _ (by decide)
      · exact ih _ idx hidx
  rcases List.mem_cons.mp h with rfl | h
  · decide
  · rcases List.mem_cons.mp h with rfl | h
    · decide
    · exact hrandom spotCount _ idx h

/-- A full dataset passes every spot check. -/
theorem spotCheck_eq_zero {dataset : Nat → UInt8} (hrows : ∀ r < thDatasetN, RowDone seed dataset r)
    (hostBuf : Vector UInt8 40) (spotCount : Nat) :
    spotCheck hostBuf seed dataset spotCount = 0 := by
  unfold spotCheck
  apply if_neg
  intro hmem
  obtain ⟨idx, hidx, hfails⟩ := List.mem_map.mp hmem
  have hrow := hrows idx.toNat (lt_of_mem_spotIndices hidx)
  apply of_decide_eq_true hfails
  rw [hostDatasetElement_row]
  exact hrow

end Generating

/-! ## Mining -/

/-- The arguments of `th_mine_kernel`, what is in constant memory, and what the local
    arrays of a thread hold before anything is written to them. -/
structure MineKernel where
  grid : Grid
  dataset : Nat → UInt8
  buf : Vector UInt8 (thPrefixMax + 8 + 32)
  ibuf : Vector UInt8 40
  headerBytes : Bytes
  difficultyBits : UInt8
  startNonce : UInt64
  iters : UInt32

namespace MineKernel

open ParallelSearch.Search (Over)

variable {k : MineKernel}

/-- `th_leading_zero_bits_dev(hash) >= (int)difficulty_bits`. -/
def Meets (k : MineKernel) (nonce : UInt64) : Prop :=
  k.difficultyBits.toNat
    ≤ thLeadingZeroBitsDev (thPowHashDevice k.dataset k.buf k.ibuf k.headerBytes nonce)

/-- The threads of the kernel. A candidate is the number of a pass through the loop and
    the nonce tried in it. The loads of `found` at the start and in the first pass are one
    look. -/
def search (k : MineKernel) : ParallelSearch.Search k.grid.Thread (Nat × UInt64) UInt64 where
  start := fun t => if 0 < k.iters.toNat then some (0, k.startNonce + Grid.gid t) else none
  next := fun _ pass =>
    if pass.1 + 1 < k.iters.toNat then some (pass.1 + 1, pass.2 + k.grid.stride) else none
  Yields := fun _ pass nonce => nonce = pass.2 ∧ k.Meets nonce
  exclusive := true

/-- The nonces of a launch: `stride * iters` of them from the first on. -/
def InWindow (k : MineKernel) (nonce : UInt64) : Prop :=
  (nonce - k.startNonce).toNat < k.grid.stride.toNat * k.iters.toNat

theorem pass_add_stride (start gid i stride : UInt64) :
    start + (gid + i * stride) + stride = start + (gid + (i + 1) * stride) := by
  grind

theorem candidate_spec {t : k.grid.Thread} {pass : Nat × UInt64}
    (h : k.search.Candidate t pass) : pass.1 < k.iters.toNat ∧
      pass.2 = k.startNonce + (Grid.gid t + UInt64.ofNat pass.1 * k.grid.stride) := by
  induction h with
  | start hstart =>
    simp only [search] at hstart
    split_ifs at hstart with hiters
    obtain rfl := Option.some.inj hstart
    exact ⟨hiters, by simp⟩
  | next _ hnext ih =>
    obtain ⟨_, hnonce⟩ := ih
    simp only [search] at hnext
    split_ifs at hnext with hiters
    obtain rfl := Option.some.inj hnext
    refine ⟨hiters, ?_⟩
    rw [hnonce, UInt64.ofNat_add]
    exact pass_add_stride _ _ _ _

theorem candidate_pass {t : k.grid.Thread} {i : Nat} (hi : i < k.iters.toNat) :
    k.search.Candidate t
      (i, k.startNonce + (Grid.gid t + UInt64.ofNat i * k.grid.stride)) := by
  induction i with
  | zero =>
    refine .start ?_
    simp [search, hi]
  | succ i ih =>
    refine .next (ih (by omega)) ?_
    simp only [search, hi, if_true, UInt64.ofNat_add, pass_add_stride]
    rfl

theorem inWindow_of_candidate {t : k.grid.Thread} {pass : Nat × UInt64}
    (h : k.search.Candidate t pass) : k.InWindow pass.2 := by
  obtain ⟨hpass, hnonce⟩ := candidate_spec h
  have hgid := (Grid.toNat_gid t).2
  have hdiff : pass.2 - k.startNonce
      = Grid.gid t + UInt64.ofNat pass.1 * k.grid.stride := by
    rw [hnonce]
    grind
  unfold InWindow
  rw [hdiff]
  calc (Grid.gid t + UInt64.ofNat pass.1 * k.grid.stride).toNat
      ≤ (Grid.gid t).toNat + pass.1 * k.grid.stride.toNat := by
        rw [UInt64.toNat_add, UInt64.toNat_mul, UInt64.toNat_ofNat', Nat.mod_mul_mod,
          Nat.add_mod_mod]
        exact Nat.mod_le _ _
    _ < k.grid.stride.toNat * (pass.1 + 1) := by
        rw [Nat.mul_comm, Nat.mul_succ]
        omega
    _ ≤ k.grid.stride.toNat * k.iters.toNat := Nat.mul_le_mul_left _ hpass

theorem exists_candidate {nonce : UInt64} (h : k.InWindow nonce) :
    ∃ t i, k.search.Candidate t (i, nonce) := by
  have hpos := k.grid.stride_pos
  obtain ⟨t, ht⟩ := Grid.exists_gid (Nat.mod_lt (nonce - k.startNonce).toNat hpos)
  have hi : (nonce - k.startNonce).toNat / k.grid.stride.toNat < k.iters.toNat :=
    Nat.div_lt_of_lt_mul h
  have hpass := candidate_pass (t := t) hi
  have hdiff : Grid.gid t
      + UInt64.ofNat ((nonce - k.startNonce).toNat / k.grid.stride.toNat) * k.grid.stride
      = nonce - k.startNonce := by
    apply UInt64.toNat_inj.mp
    rw [UInt64.toNat_add, UInt64.toNat_mul, UInt64.toNat_ofNat', ht, Nat.mod_mul_mod,
      Nat.add_mod_mod, Nat.mul_comm, Nat.mod_add_div, Nat.mod_eq_of_lt (UInt64.toNat_lt _)]
  have hsum : k.startNonce + (nonce - k.startNonce) = nonce := by grind
  rw [hdiff, hsum] at hpass
  exact ⟨t, _, hpass⟩

theorem hit_iff {nonce : UInt64} : k.search.Hit nonce ↔ k.InWindow nonce ∧ k.Meets nonce := by
  constructor
  · intro h
    obtain ⟨t, pass, hpass, rfl, hmeets⟩ := h
    exact ⟨inWindow_of_candidate hpass, hmeets⟩
  · intro h
    obtain ⟨hwindow, hmeets⟩ := h
    obtain ⟨t, i, hi⟩ := exists_candidate hwindow
    exact ⟨t, (i, nonce), hi, rfl, hmeets⟩

/-! ### A launch -/

/-- What `th_launch_mining` reads back: `h_found` and `h_nonce`. -/
def readBack (s : ParallelSearch.State k.grid.Thread (Nat × UInt64) UInt64) : Option UInt64 :=
  if s.raised then some (s.winner.getD 18446744073709551615) else none

/-- The kernel can come to an end with this result. -/
def Outcome (k : MineKernel) (result : Option UInt64) : Prop :=
  ∃ events, Along k.search.step k.search.Enabled k.search.init events ∧
    Over (events.foldl k.search.step k.search.init) ∧
    readBack (events.foldl k.search.step k.search.init) = result

/-- A launch reports a nonce of its window that meets the target, if there is one. -/
theorem Outcome.spec {result : Option UInt64} (h : k.Outcome result) :
    (∀ nonce, result = some nonce → k.InWindow nonce ∧ k.Meets nonce) ∧
      (result = none → ∀ nonce, k.InWindow nonce → ¬ k.Meets nonce) := by
  obtain ⟨events, hrun, hover, rfl⟩ := h
  have hinv := ParallelSearch.Search.Inv.run hrun
  obtain ⟨hfound, hnone⟩ := hinv.over hover
  have hraised := hinv.raised_iff hover
  unfold readBack
  cases hwinner : (events.foldl k.search.step k.search.init).winner with
  | none =>
    rw [if_neg (by simp [hraised, hwinner])]
    refine ⟨by simp, fun _ nonce hwindow hmeets => ?_⟩
    exact hnone hwinner nonce (hit_iff.mpr ⟨hwindow, hmeets⟩)
  | some b =>
    rw [if_pos (by simp [hraised, hwinner])]
    refine ⟨fun nonce hnonce => ?_, by simp⟩
    obtain rfl := Option.some.inj hnonce
    exact hit_iff.mp (hfound b hwinner)

/-- Every launch comes to an end. -/
theorem exists_outcome (k : MineKernel) : ∃ result, k.Outcome result := by
  have hrank : ∀ t a b, k.search.Candidate t a → k.search.next t a = some b →
      k.iters.toNat - b.1 < k.iters.toNat - a.1 := by
    intro t a b _ hnext
    simp only [search] at hnext
    split_ifs at hnext with hiters
    obtain rfl := Option.some.inj hnext
    omega
  obtain ⟨events, hrun, hover⟩ := k.search.inv_init.exists_over hrank
  exact ⟨_, events, hrun, hover, rfl⟩

end MineKernel

/-- `TensorHashCtx`: the dataset, and the seed it was generated for. -/
structure TensorHashCtx where
  dataset : Nat → UInt8
  currentSeed : Hash256
  seedValid : Bool

/-- `result` is one that `th_launch_mining` can return. -/
def ThLaunchMining (ctx : TensorHashCtx) (headerTemplate : Bytes) (difficultyBits : UInt8)
    (startNonce : UInt64) (grid : Grid) (iters : UInt32) (result : Option UInt64) : Prop :=
  if ctx.seedValid = false ∨ headerTemplate.length ≤ 8 ∨ thPrefixMax < headerTemplate.length - 8 then
    result = none
  else
    ∃ buf ibuf, MineKernel.Outcome
      { grid := grid
        dataset := ctx.dataset
        buf := buf
        ibuf := ibuf
        headerBytes := headerTemplate.take (headerTemplate.length - 8)
        difficultyBits := difficultyBits
        startNonce := startNonce
        iters := iters } result

theorem exists_thLaunchMining (ctx : TensorHashCtx) (headerTemplate : Bytes)
    (difficultyBits : UInt8) (startNonce : UInt64) (grid : Grid) (iters : UInt32) :
    ∃ result, ThLaunchMining ctx headerTemplate difficultyBits startNonce grid iters result := by
  unfold ThLaunchMining
  split_ifs
  · exact ⟨none, rfl⟩
  · obtain ⟨result, hresult⟩ := MineKernel.exists_outcome
      { grid := grid
        dataset := ctx.dataset
        buf := Vector.replicate _ 0
        ibuf := Vector.replicate _ 0
        headerBytes := headerTemplate.take (headerTemplate.length - 8)
        difficultyBits := difficultyBits
        startNonce := startNonce
        iters := iters }
    exact ⟨result, _, _, hresult⟩

end Tensorium.Miner
