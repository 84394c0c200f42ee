import Tensorium.Indexer.Incremental

/-! # How far behind the checkpoint is

    A block is taken as a checkpoint by the call of `scan` that applies it, and only if
    the tip of that very call is far enough above it. Later calls do not come back to it,
    so where the checkpoint stands depends on where the calls end.
-/

namespace Tensorium

open Replay

namespace SyncIndexer

variable {encode : String → Bytes → String} {chain : List Served} {fetch : Fetch}
  {s t : SyncIndexer} {tip height : Nat} {tips : List Nat}

/-! ## One call -/

theorem advance_checkpoint {served : Served} (h : s.advance encode tip height served = some t) :
    (height % checkpointInterval = 0 ∧ height + checkpointSafety ≤ tip ∧
      ∃ hash snap, t.checkpoint = some (height, hash, snap)) ∨
    (¬ (height % checkpointInterval = 0 ∧ height + checkpointSafety ≤ tip) ∧
      t.checkpoint = s.checkpoint) := by
  obtain ⟨idx, _, rfl⟩ := Option.map_eq_some_iff.mp h
  dsimp only
  split_ifs with hcond
  · exact Or.inl ⟨hcond.1, hcond.2, _, _, rfl⟩
  · exact Or.inr ⟨hcond, rfl⟩

/-- What a loop that comes to its end leaves as checkpoint: the last height it has taken,
    or the old one. -/
structure LoopMarks (tip height rounds : Nat) (s t : SyncIndexer) : Prop where
  from_loop : ∀ cp ∈ t.checkpoint, cp ∈ s.checkpoint ∨
    height ≤ cp.1 ∧ cp.1 % checkpointInterval = 0 ∧ cp.1 + checkpointSafety ≤ tip
  not_below : ∀ cp ∈ s.checkpoint, ∃ cp' ∈ t.checkpoint, cp.1 ≤ cp'.1
  taken : ∀ h, height ≤ h → h < height + rounds → h % checkpointInterval = 0 →
    h + checkpointSafety ≤ tip → ∃ cp ∈ t.checkpoint, h ≤ cp.1

theorem scanLoop_checkpoint {rounds applied k : Nat}
    (h : scanLoop encode fetch tip rounds height applied s = some (t, .ok k))
    (hold : ∀ cp ∈ s.checkpoint, cp.1 < height) : LoopMarks tip height rounds s t := by
  induction rounds generalizing height applied s with
  | zero =>
    obtain ⟨rfl, _⟩ := Prod.mk.inj (Option.some.inj h)
    constructor
    · intro cp hcp
      exact Or.inl hcp
    · intro cp hcp
      exact ⟨cp, hcp, le_rfl⟩
    · intro h hle hlt
      omega
  | succ rounds ih =>
    unfold scanLoop at h
    cases hanswer : fetch (2 + applied) height with
    | error e =>
      rw [hanswer] at h
      cases (Prod.mk.inj (Option.some.inj h)).2
    | ok served =>
      rw [hanswer] at h
      obtain ⟨s', hadvance, hloop⟩ := Option.bind_eq_some_iff.mp h
      rcases advance_checkpoint hadvance with ⟨hmod, hsafe, hash, snap, hcp⟩ | ⟨hnot, hcp⟩
      · have hmarks := ih hloop (by
          intro cp hmem
          rw [hcp] at hmem
          obtain rfl := Option.mem_some_iff.mp hmem
          exact Nat.lt_succ_self height)
        -- The block at `height` is the checkpoint now, and nothing below comes after it.
        obtain ⟨cp', hcp', hle'⟩ := hmarks.not_below _ (by rw [hcp]; exact rfl)
        constructor
        · intro cp hmem
          rcases hmarks.from_loop cp hmem with hnew | ⟨hle, hrest⟩
          · rw [hcp] at hnew
            obtain rfl := Option.mem_some_iff.mp hnew
            exact Or.inr ⟨le_rfl, hmod, hsafe⟩
          · exact Or.inr ⟨by omega, hrest⟩
        · intro cp hmem
          have hlt := hold cp hmem
          exact ⟨cp', hcp', hlt.le.trans hle'⟩
        · intro h hle hlt hmod' hsafe'
          rcases hle.eq_or_lt with rfl | hgt
          · exact ⟨cp', hcp', hle'⟩
          · exact hmarks.taken h hgt (by omega) hmod' hsafe'
      · have hmarks := ih hloop (by
          intro cp hmem
          rw [hcp] at hmem
          exact (hold cp hmem).trans (Nat.lt_succ_self height))
        constructor
        · intro cp hmem
          rcases hmarks.from_loop cp hmem with hold | ⟨hle, hrest⟩
          · rw [hcp] at hold
            exact Or.inl hold
          · exact Or.inr ⟨by omega, hrest⟩
        · intro cp hmem
          rw [← hcp] at hmem
          exact hmarks.not_below cp hmem
        · intro h hle hlt hmod hsafe
          rcases hle.eq_or_lt with rfl | hgt
          · exact absurd ⟨hmod, hsafe⟩ hnot
          · exact hmarks.taken h hgt (by omega) hmod hsafe

/-- Without a reorg the check changes nothing. -/
theorem reorgCheck_tracks (hs : Tracks encode chain s.start s.toIndexer s.lastHash)
    (hfetch : FromChain chain fetch) (ht : s.reorgCheck fetch = .ok t) : t = s := by
  by_cases hcheck : s.scannedAny = true ∧ 0 < s.lastHeight
  · obtain ⟨hscanned, hpos⟩ := hcheck
    rw [reorgCheck_asked hscanned hpos] at ht
    obtain ⟨served, hlast, ht⟩ := ExceptFold.bind_eq_ok.mp ht
    rw [start, if_pos hscanned] at hs
    obtain ⟨old, hold, hhash⟩ := hs.served
    rw [hfetch _ _ _ hlast] at hold
    obtain rfl := Option.some.inj hold
    have hsame : ¬ s.needsRebuild served.1.toHex = true := by
      rw [needsRebuild_iff hscanned hpos, not_not]
      exact hhash
    rw [if_neg hsame] at ht
    exact (Except.ok.inj ht).symm
  · rw [reorgCheck_unasked hcheck] at ht
    exact (Except.ok.inj ht).symm

/-! ## Call after call -/

/-- Scan after scan, each of which returns `Ok`. -/
def okScans (encode : String → Bytes → String) (s : SyncIndexer) (calls : List ScanCall) :
    Option SyncIndexer :=
  calls.foldlM (fun s call => (s.scan encode call.tip call.fetch).bind fun r =>
    match r.2 with
    | .ok _ => some r.1
    | .error _ => none) s

/-- A multiple of the interval that some call has applied with its tip far enough above:
    all calls before have ended below it. -/
def Buried (tips : List Nat) (height : Nat) : Prop :=
  height % checkpointInterval = 0 ∧ ∃ before tip after, tips = before ++ tip :: after ∧
    (∀ earlier ∈ before, earlier < height) ∧ height + checkpointSafety ≤ tip

theorem buried_concat {height : Nat} : Buried (tips ++ [tip]) height ↔ Buried tips height ∨
    height % checkpointInterval = 0 ∧ (∀ earlier ∈ tips, earlier < height) ∧
      height + checkpointSafety ≤ tip := by
  constructor
  · rintro ⟨hmod, before, tip', after, htips, hbefore, hsafe⟩
    rcases List.eq_nil_or_concat after with rfl | ⟨after, last, rfl⟩
    · obtain ⟨rfl, hlast⟩ := List.append_inj' htips rfl
      obtain rfl := (List.cons.inj hlast).1
      exact Or.inr ⟨hmod, hbefore, hsafe⟩
    · rw [List.concat_eq_append, ← List.cons_append, ← List.append_assoc] at htips
      obtain ⟨rfl, _⟩ := List.append_inj' htips rfl
      exact Or.inl ⟨hmod, before, tip', after, rfl, hbefore, hsafe⟩
  · rintro (⟨hmod, before, tip', after, rfl, hbefore, hsafe⟩ | ⟨hmod, hbefore, hsafe⟩)
    · exact ⟨hmod, before, tip', after ++ [tip], by simp, hbefore, hsafe⟩
    · exact ⟨hmod, tips, tip, [], rfl, hbefore, hsafe⟩

/-- The height behind the last call. -/
def nextHeight (tips : List Nat) : Nat := (tips.getLast?.map fun last => last + 1).getD 0

theorem nextHeight_concat (tips : List Nat) (tip : Nat) : nextHeight (tips ++ [tip]) = tip + 1 := by
  unfold nextHeight
  rw [List.getLast?_concat]
  rfl

/-- Tips that do not decrease are all below a height once the last one is. -/
theorem forall_lt_iff (hmono : tips.Pairwise (· ≤ ·)) :
    (∀ earlier ∈ tips, earlier < height) ↔ nextHeight tips ≤ height := by
  rcases List.eq_nil_or_concat tips with rfl | ⟨before, last, rfl⟩
  · exact iff_of_true (by simp) (Nat.zero_le _)
  · rw [List.concat_eq_append] at hmono ⊢
    rw [nextHeight_concat]
    constructor
    · intro hall
      exact hall last (by simp)
    · intro hlt earlier hearlier
      rcases List.mem_append.mp hearlier with hbefore | hlast
      · have hle := (List.pairwise_append.mp hmono).2.2 earlier hbefore last (by simp)
        omega
      · obtain rfl := List.mem_singleton.mp hlast
        exact hlt

/-- The checkpoint is the highest of the buried blocks. -/
structure Marked (encode : String → Bytes → String) (chain : List Served) (tips : List Nat)
    (s : SyncIndexer) : Prop where
  tracks : Tracks encode chain (nextHeight tips) s.toIndexer s.lastHash
  buried : ∀ cp ∈ s.checkpoint, Buried tips cp.1
  highest : ∀ height, Buried tips height → ∃ cp ∈ s.checkpoint, height ≤ cp.1

theorem Marked.start (h : Marked encode chain tips s) : s.start = nextHeight tips := by
  obtain ⟨hheight, hscanned⟩ := h.tracks.books.height
  unfold SyncIndexer.start
  split_ifs with hany
  · have hpos := hscanned.mp hany
    omega
  · by_contra hne
    exact hany (hscanned.mpr (by omega))

theorem Marked.default (encode : String → Bytes → String) (chain : List Served) :
    Marked encode chain [] SyncIndexer.default := by
  constructor
  · exact Tracks.zero encode chain
  · intro cp hcp
    cases hcp
  · rintro height ⟨_, before, tip, after, htips, _⟩
    cases before <;> cases htips

theorem Marked.scan {call : ScanCall} {k : Nat} (h : Marked encode chain tips s)
    (hchain : call.chain <+: chain) (hmono : (tips ++ [call.tip]).Pairwise (· ≤ ·))
    (ht : s.scan encode call.tip call.fetch = some (t, .ok k)) :
    Marked encode chain (tips ++ [call.tip]) t := by
  have hfetch : FromChain chain call.fetch := by
    intro place height served hserved
    obtain ⟨rest, rfl⟩ := hchain
    have hget := call.fromChain place height served hserved
    rw [List.getElem?_append_left (List.getElem?_eq_some_iff.mp hget).1]
    exact hget
  have hstart := h.start
  have htracks := h.tracks
  rw [← hstart] at htracks
  have hnext : nextHeight tips ≤ call.tip + 1 := by
    rw [← forall_lt_iff (List.pairwise_append.mp hmono).1]
    intro earlier hearlier
    exact Nat.lt_succ_of_le ((List.pairwise_append.mp hmono).2.2 earlier hearlier _ (by simp))
  unfold SyncIndexer.scan at ht
  cases hcheck : s.reorgCheck call.fetch with
  | error e =>
    rw [hcheck] at ht
    cases (Prod.mk.inj (Option.some.inj ht)).2
  | ok s' =>
    rw [hcheck] at ht
    obtain rfl := reorgCheck_tracks htracks hfetch hcheck
    dsimp only at ht
    -- An old checkpoint lies below the height the loop begins at.
    have hbelow : ∀ cp ∈ s'.checkpoint, cp.1 < s'.start := by
      intro cp hcp
      obtain ⟨_, before, tip, after, rfl, _, hsafe⟩ := h.buried cp hcp
      have hlt := (forall_lt_iff (List.pairwise_append.mp hmono).1).mpr le_rfl tip (by simp)
      omega
    have hmarks := scanLoop_checkpoint ht hbelow
    obtain ⟨n, _, htracks', _, hend⟩ := scanLoop_tracks hfetch htracks ht
    have hn : n = call.tip + 1 := by
      have := hend k rfl
      omega
    constructor
    · rw [nextHeight_concat, ← hn]
      exact htracks'
    · -- A checkpoint is an old one, or was taken at a buried height by the loop.
      intro cp hcp
      rw [buried_concat, forall_lt_iff (List.pairwise_append.mp hmono).1, ← hstart]
      rcases hmarks.from_loop cp hcp with hold | ⟨hle, hmod, hsafe⟩
      · exact Or.inl (h.buried cp hold)
      · exact Or.inr ⟨hmod, hle, hsafe⟩
    · -- A height that was buried before has a checkpoint that is not replaced by a lower one.
      intro height hburied
      rw [buried_concat, forall_lt_iff (List.pairwise_append.mp hmono).1, ← hstart] at hburied
      rcases hburied with hold | ⟨hmod, hle, hsafe⟩
      · obtain ⟨cp, hcp, hle⟩ := h.highest height hold
        obtain ⟨cp', hcp', hle'⟩ := hmarks.not_below cp hcp
        exact ⟨cp', hcp', hle.trans hle'⟩
      · unfold checkpointSafety at hsafe
        exact hmarks.taken height hle (by omega) hmod hsafe

theorem Marked.okScans {calls : List ScanCall} (hchains : ∀ call ∈ calls, call.chain <+: chain)
    (hmono : (calls.map ScanCall.tip).Pairwise (· ≤ ·))
    (hs : SyncIndexer.default.okScans encode calls = some s) :
    Marked encode chain (calls.map ScanCall.tip) s := by
  -- Induction on the calls, the last one split off.
  induction calls using List.reverseRecOn generalizing s with
  | nil =>
    obtain rfl := Option.some.inj hs
    exact Marked.default encode chain
  | append_singleton calls call ih =>
    rw [List.map_append, List.map_singleton] at hmono ⊢
    unfold SyncIndexer.okScans at hs
    rw [List.foldlM_append] at hs
    obtain ⟨s', hs', hlast⟩ := Option.bind_eq_some_iff.mp hs
    rw [List.foldlM_cons] at hlast
    obtain ⟨_, hcall, hdone⟩ := Option.bind_eq_some_iff.mp hlast
    obtain rfl := Option.some.inj hdone
    obtain ⟨⟨t, result⟩, hscan, hok⟩ := Option.bind_eq_some_iff.mp hcall
    have hmarked := ih (fun c hc => hchains c (List.mem_append_left _ hc))
      (List.pairwise_append.mp hmono).1 hs'
    cases result with
    | error e => cases hok
    | ok k =>
      obtain rfl := Option.some.inj hok
      exact hmarked.scan (hchains call (by simp)) hmono hscan

/-- Once the indexer is far enough up, it holds a checkpoint that is buried, but not too
    deep. -/
def CheckpointNear (s : SyncIndexer) : Prop :=
  checkpointInterval + checkpointSafety ≤ s.lastHeight →
    ∃ cp ∈ s.checkpoint, s.lastHeight - checkpointInterval - checkpointSafety ≤ cp.1 ∧
      cp.1 ≤ s.lastHeight - checkpointSafety

/-- **The checkpoint is near the tip exactly if a call has buried a block there.** After
    successful scans of one growing chain, up to tips that do not decrease, the condition
    is on these tips: a multiple of the interval that is no deeper below the last tip has
    been applied by a call that went on far enough beyond it. -/
theorem checkpoint_near_iff (encode : String → Bytes → String) (chain : List Served)
    (calls : List ScanCall) (hchains : ∀ call ∈ calls, call.chain <+: chain)
    (hmono : (calls.map ScanCall.tip).Pairwise (· ≤ ·)) {s : SyncIndexer}
    (hs : SyncIndexer.default.okScans encode calls = some s) :
    s.CheckpointNear ↔ ∀ last ∈ (calls.map ScanCall.tip).getLast?,
      checkpointInterval + checkpointSafety ≤ last →
        ∃ height, Buried (calls.map ScanCall.tip) height ∧
          last ≤ height + checkpointInterval + checkpointSafety := by
  have hmarked := Marked.okScans hchains hmono hs
  generalize calls.map ScanCall.tip = tips at hmarked hmono
  have hheight := hmarked.tracks.books.height.1
  rcases List.eq_nil_or_concat tips with rfl | ⟨before, last, rfl⟩
  · refine iff_of_true ?_ (by simp)
    intro hle
    rw [hheight] at hle
    exact absurd hle (by decide)
  · rw [List.concat_eq_append] at hmarked hmono ⊢
    rw [List.concat_eq_append, nextHeight_concat, Nat.add_sub_cancel] at hheight
    rw [List.getLast?_concat]
    have hbelow : ∀ height, Buried (before ++ [last]) height →
        height + checkpointSafety ≤ last := by
      rintro height ⟨_, earlier, tip, after, htips, _, hsafe⟩
      have hmem : tip ∈ before ++ [last] := by
        rw [htips]
        simp
      have hle := (forall_lt_iff hmono).mpr (nextHeight_concat before last).le tip hmem
      omega
    unfold CheckpointNear
    rw [hheight]
    constructor
    · intro hnear last' hlast' hle
      obtain rfl := Option.mem_some_iff.mp hlast'
      obtain ⟨cp, hcp, hdeep, _⟩ := hnear hle
      exact ⟨cp.1, hmarked.buried cp hcp, by omega⟩
    · intro hall hle
      obtain ⟨height, hburied, hdeep⟩ := hall last rfl hle
      obtain ⟨cp, hcp, hhigher⟩ := hmarked.highest height hburied
      have hsafe := hbelow cp.1 (hmarked.buried cp hcp)
      exact ⟨cp, hcp, by omega, by omega⟩

/-- A chain of `n` blocks. -/
def longChain (n : Nat) : List Served :=
  (List.range n).map fun height =>
    sampleServed (UInt8.ofNat (height + 1)) (UInt8.ofNat height) height

/-- One call up to 26 takes the block at 20. -/
theorem checkpoint_near_oneCall :
    ∃ s, SyncIndexer.default.okScans Indexer.sampleEncode [.served 26 (longChain 27)] = some s ∧
      (s.CheckpointNear ↔ ∀ last ∈ [26].getLast?, checkpointInterval + checkpointSafety ≤ last →
        ∃ height, Buried [26] height ∧ last ≤ height + checkpointInterval + checkpointSafety) := by
  have hrun : (SyncIndexer.default.okScans Indexer.sampleEncode
      [.served 26 (longChain 27)]).isSome = true := by
    decide +kernel
  obtain ⟨s, hs⟩ := Option.isSome_iff_exists.mp hrun
  exact ⟨s, hs, checkpoint_near_iff Indexer.sampleEncode (longChain 27) [.served 26 (longChain 27)]
    (fun call hcall => (List.mem_singleton.mp hcall).symm ▸ List.prefix_refl _)
    (List.pairwise_singleton _ _) hs⟩

/-! ## One block at a time -/

/-- Calls that apply one block each never take a checkpoint. -/
theorem checkpoint_oneByOne {calls : List ScanCall} {n : Nat}
    (hchains : ∀ call ∈ calls, call.chain <+: chain)
    (htips : calls.map ScanCall.tip = List.range n)
    (hs : SyncIndexer.default.okScans encode calls = some s) : s.checkpoint = none := by
  have hmono : (calls.map ScanCall.tip).Pairwise (· ≤ ·) := by
    rw [htips]
    exact List.pairwise_lt_range.imp fun h => h.le
  have hmarked := Marked.okScans hchains hmono hs
  rw [htips] at hmarked
  rw [Option.eq_none_iff_forall_not_mem]
  intro cp hcp
  obtain ⟨_, before, tip, after, hsplit, hbefore, hsafe⟩ := hmarked.buried cp hcp
  -- The call that ends at the checkpoint comes before the one with this tip.
  have hlt : cp.1 < tip := by
    unfold checkpointSafety at hsafe
    omega
  have htip : tip ∈ List.range n := by
    rw [hsplit]
    simp
  have hmem : cp.1 ∈ before ++ tip :: after := by
    rw [← hsplit, List.mem_range]
    exact hlt.trans (List.mem_range.mp htip)
  have hsorted : (tip :: after).Pairwise (· < ·) := by
    have hrange := List.pairwise_lt_range (n := n)
    rw [hsplit] at hrange
    exact (List.pairwise_append.mp hrange).2.1
  rcases List.mem_append.mp hmem with hearlier | hlater
  · exact absurd (hbefore cp.1 hearlier) (Nat.lt_irrefl _)
  · rcases List.mem_cons.mp hlater with heq | hafter
    · omega
    · have hgt := (List.pairwise_cons.mp hsorted).1 cp.1 hafter
      omega

/-- Two calls, the first of which ends just above a multiple of the interval. -/
def twoCalls : List ScanCall := [.served 24 (longChain 25), .served 26 (longChain 27)]

/-- The block at 20 is not taken by the first call, and the second one starts above it. -/
theorem checkpoint_left_behind : (∀ call ∈ twoCalls, call.chain <+: longChain 27) ∧
    ∃ s, SyncIndexer.default.okScans Indexer.sampleEncode twoCalls = some s ∧
      s.lastHeight = 26 ∧ s.checkpoint.map Prod.fst = some 0 ∧ ¬ s.CheckpointNear := by
  refine ⟨by decide +kernel, ?_⟩
  have hrun : (SyncIndexer.default.okScans Indexer.sampleEncode twoCalls).map (fun s =>
      (s.lastHeight, s.checkpoint.map Prod.fst)) = some (26, some 0) := by
    decide +kernel
  obtain ⟨s, hs, hend⟩ := Option.map_eq_some_iff.mp hrun
  obtain ⟨hheight, hcheckpoint⟩ := Prod.mk.inj hend
  refine ⟨s, hs, hheight, hcheckpoint, ?_⟩
  intro hnear
  unfold CheckpointNear at hnear
  rw [hheight] at hnear
  obtain ⟨cp, hcp, hdeep, _⟩ := hnear (by decide)
  rw [Option.mem_def.mp hcp] at hcheckpoint
  rw [Option.some.inj hcheckpoint] at hdeep
  exact absurd hdeep (by decide)

end SyncIndexer

end Tensorium
