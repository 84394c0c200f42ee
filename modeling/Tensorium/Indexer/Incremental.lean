import Tensorium.Indexer.Follow

/-! # Incremental scans and fresh ones

    Between two scans the node may replace its chain by any other one. Whatever
    it does, the indexer continues from books that are the replay of a start of
    the chain it scans, so what it ends with is what a scan from the start gives.
-/

namespace Tensorium

open Replay

namespace SyncIndexer

variable {encode : String → Bytes → String} {genesis : Served} {chain : List Served}
  {seen seen' : List (List Served)} {fetch : Fetch} {s t : SyncIndexer} {tip : Nat}

/-- The books are the replay of a start of a chain that was served, or empty;
    the checkpoint is below, and of a chain that was served. -/
structure Sound (encode : String → Bytes → String) (seen : List (List Served))
    (s : SyncIndexer) : Prop where
  tracks : ∃ chain ∈ [] :: seen, ∃ n, Tracks encode chain n s.toIndexer s.lastHash
  checkpoint : ∀ cp ∈ s.checkpoint, cp.1 ≤ s.lastHeight ∧
    ∃ chain ∈ seen, CheckpointOf encode chain cp

theorem Sound.default (encode : String → Bytes → String) (seen : List (List Served)) :
    Sound encode seen SyncIndexer.default := by
  constructor
  · exact ⟨[], List.mem_cons_self, 0, Tracks.zero _ _⟩
  · intro cp hcp
    cases hcp

theorem Sound.mono (h : Sound encode seen s) (hsub : seen ⊆ seen') : Sound encode seen' s := by
  obtain ⟨chain, hchain, n, htracks⟩ := h.tracks
  constructor
  · exact ⟨chain, List.cons_subset_cons _ hsub hchain, n, htracks⟩
  · intro cp hcp
    obtain ⟨hle, chain, hchain, hof⟩ := h.checkpoint cp hcp
    exact ⟨hle, chain, hsub hchain, hof⟩

/-- Books that are not empty are those of a chain that was served. -/
theorem Sound.tracks_scanned (h : Sound encode seen s) (hscanned : s.scannedAny = true) :
    ∃ chain ∈ seen, Tracks encode chain (s.lastHeight + 1) s.toIndexer s.lastHash := by
  obtain ⟨chain, hchain, n, htracks⟩ := h.tracks
  obtain ⟨hheight, hpos⟩ := htracks.books.height
  have hn := hpos.mp hscanned
  obtain rfl : n = s.lastHeight + 1 := by omega
  rcases List.mem_cons.mp hchain with rfl | hmem
  · exact absurd htracks.books.le (by simp [blocksOf])
  · exact ⟨chain, hmem, htracks⟩

theorem Sound.tracks_empty (h : Sound encode seen s) (hscanned : ¬ s.scannedAny = true)
    (chain : List Served) : Tracks encode chain 0 s.toIndexer s.lastHash := by
  obtain ⟨_, _, n, htracks⟩ := h.tracks
  obtain rfl : n = 0 := by
    have := htracks.books.height.2
    by_contra hne
    exact hscanned (this.mpr (Nat.pos_of_ne_zero hne))
  obtain ⟨hbooks, hhash⟩ := htracks
  refine ⟨?_, hhash⟩
  rw [hbooks.eq_init]
  exact Upto.zero _ _ _

/-- After the reorg check the books are the replay of a start of the chain the
    node has now, no longer than before. -/
theorem Sound.reorgCheck (h : Sound encode seen s) (hchains : Compatible genesis seen)
    (hmem : chain ∈ seen) (hne : chain ≠ []) (hfetch : FromChain chain fetch)
    (ht : s.reorgCheck fetch = .ok t) :
    Sound encode seen t ∧ Tracks encode chain t.start t.toIndexer t.lastHash ∧
      t.lastHeight ≤ s.lastHeight := by
  rcases reorgCheck_cases ht with ⟨hcheck, rfl⟩ | ⟨hscanned, rfl, served, hlast, hsame⟩ |
    ⟨cpHeight, cpHash, snap, canon, hcp, hcanon, hsame, rfl⟩ | rfl
  · -- Nothing scanned, or the genesis block only.
    refine ⟨h, ?_, le_rfl⟩
    unfold start
    split_ifs with hscanned
    · obtain ⟨old, hold, htracks⟩ := h.tracks_scanned hscanned
      have hzero : t.lastHeight = 0 := by
        by_contra hpos
        exact hcheck ⟨hscanned, Nat.pos_of_ne_zero hpos⟩
      rw [hzero] at htracks ⊢
      exact htracks.switch_genesis hchains hold hmem hne
    · exact h.tracks_empty hscanned chain
  · -- The last block is still there, so all blocks before it are.
    obtain ⟨old, hold, htracks⟩ := h.tracks_scanned hscanned
    refine ⟨h, ?_, le_rfl⟩
    rw [start, if_pos hscanned]
    exact htracks.switch (hchains.agree _ hold _ hmem) (hfetch _ _ _ hlast) hsame
  · -- The checkpoint is still on the chain.
    obtain ⟨hle, old, hold, hof⟩ := h.checkpoint _ hcp
    have htracks : Tracks encode chain (cpHeight + 1) snap.toIndexer snap.lastHash :=
      hof.tracks.switch (hchains.agree _ hold _ hmem) (hfetch _ _ _ hcanon)
        (hsame.trans hof.hash)
    have hheight : snap.lastHeight = cpHeight := htracks.books.height.1
    refine ⟨⟨⟨chain, List.mem_cons_of_mem _ hmem, _, htracks⟩, ?_⟩, ?_, ?_⟩
    · intro cp hmem'
      replace hmem' : cp ∈ s.checkpoint := hmem'
      rw [hcp] at hmem'
      obtain rfl := Option.mem_some_iff.mp hmem'
      exact ⟨hheight.ge, old, hold, hof⟩
    · show Tracks encode chain (snap.lastHeight + 1) snap.toIndexer snap.lastHash
      rw [hheight]
      exact htracks
    · show snap.lastHeight ≤ s.lastHeight
      rw [hheight]
      exact hle
  · exact ⟨Sound.default _ _, Tracks.zero _ _, Nat.zero_le _⟩

/-- A scan follows the chain it is served; if it returns `Ok` and does not end
    below where the indexer was, it has followed it up to the tip. -/
theorem Sound.scan {result : Except String Nat} (h : Sound encode seen s)
    (hchains : Compatible genesis seen) (hmem : chain ∈ seen) (hne : chain ≠ [])
    (hfetch : FromChain chain fetch) (ht : s.scan encode tip fetch = some (t, result)) :
    Sound encode seen t ∧ ∀ k, result = .ok k → s.lastHeight ≤ tip →
      Tracks encode chain (tip + 1) t.toIndexer t.lastHash := by
  unfold SyncIndexer.scan at ht
  cases hcheck : s.reorgCheck fetch with
  | error e =>
    rw [hcheck] at ht
    obtain ⟨rfl, rfl⟩ := Prod.mk.inj (Option.some.inj ht)
    refine ⟨h, ?_⟩
    intro k hk
    cases hk
  | ok s' =>
    rw [hcheck] at ht
    -- The check leaves the replay of some chain seen, from which the loop goes on.
    obtain ⟨hsound, htracks, hle⟩ := h.reorgCheck hchains hmem hne hfetch hcheck
    obtain ⟨n, hstart, ht', hcp, hok⟩ := scanLoop_tracks hfetch htracks ht
    have hheight := ht'.books.height.1
    have hheight' := htracks.books.height.1
    constructor
    · refine ⟨⟨chain, List.mem_cons_of_mem _ hmem, n, ht'⟩, ?_⟩
      intro cp hmem'
      rcases hcp cp hmem' with hold | ⟨hlt, hof⟩
      · obtain ⟨hle', other, hother, hof⟩ := hsound.checkpoint cp hold
        exact ⟨by omega, other, hother, hof⟩
      · exact ⟨by omega, chain, hmem, hof⟩
    · intro k hk htip
      have hn := hok k hk
      have hs' : s'.start ≤ tip + 1 := by omega
      rw [show tip + 1 = n by omega]
      exact ht'

/-- A fresh indexer that scans a start of a chain has its replay. -/
theorem fresh_scan {n : Nat} {idx : Indexer} {lastHash : String}
    (h : Tracks encode chain (n + 1) idx lastHash) :
    ∃ fresh, SyncIndexer.default.scan encode n (serve chain) = some (fresh, .ok (n + 1)) ∧
      fresh.toIndexer = idx ∧ fresh.lastHash = lastHash := by
  have hempty : Tracks encode chain 0 SyncIndexer.default.toIndexer SyncIndexer.default.lastHash :=
    Tracks.zero _ _
  obtain ⟨fresh, hloop⟩ := scanLoop_serve n (n + 1) 0 hempty
    (by rw [Nat.zero_add]; exact h.books)
  obtain ⟨m, _, htracks, _, hok⟩ := scanLoop_tracks (fromChain_serve chain) hempty hloop
  obtain rfl : m = n + 1 := by
    rw [hok _ rfl, Nat.zero_add]
  refine ⟨fresh, ?_, htracks.books.unique h.books, htracks.hash.trans h.hash.symm⟩
  show scanLoop encode (serve chain) n (n + 1) 0 0 SyncIndexer.default = _
  rw [hloop, Nat.zero_add]

/-- The same of books that are tracked, as an equality of the books. -/
theorem sameBooks_fresh {n : Nat} (h : Tracks encode chain (n + 1) t.toIndexer t.lastHash) :
    ∃ fresh k, SyncIndexer.default.scan encode n (serve chain) = some (fresh, .ok k) ∧
      t.SameBooks fresh := by
  obtain ⟨fresh, hscan, hidx, hhash⟩ := fresh_scan h
  refine ⟨fresh, n + 1, hscan, ?_⟩
  exact ⟨by rw [hidx], by rw [hidx], by rw [hidx], by rw [hidx], hhash.symm⟩

/-! ## Sequences of scans -/

/-- One call of `scan`: the chain of the node does not change while it runs, but
    the node may fail to answer at any point. -/
structure ScanCall where
  tip : Nat
  chain : List Served
  fetch : Fetch
  fromChain : FromChain chain fetch

/-- Scan after scan on one indexer, whatever each of them returns. -/
def scans (encode : String → Bytes → String) (s : SyncIndexer) (calls : List ScanCall) :
    Option SyncIndexer :=
  calls.foldlM (fun s call => (s.scan encode call.tip call.fetch).map Prod.fst) s

theorem Sound.scans {calls : List ScanCall} (h : Sound encode seen s)
    (hchains : Compatible genesis seen) (hcalls : ∀ call ∈ calls, call.chain ∈ seen)
    (hne : ∀ call ∈ calls, call.chain ≠ []) (ht : s.scans encode calls = some t) :
    Sound encode seen t := by
  induction calls generalizing s with
  | nil =>
    obtain rfl := Option.some.inj ht
    exact h
  | cons call calls ih =>
    obtain ⟨s', hscan, hrest⟩ := Option.bind_eq_some_iff.mp ht
    obtain ⟨⟨_, result⟩, hcall, rfl⟩ := Option.map_eq_some_iff.mp hscan
    have hs' := (h.scan hchains (hcalls call List.mem_cons_self) (hne call List.mem_cons_self)
      call.fromChain hcall).1
    exact ih hs' (fun c hc => hcalls c (List.mem_cons_of_mem _ hc))
      (fun c hc => hne c (List.mem_cons_of_mem _ hc)) hrest

/-- The chains of some calls, if they grow from one genesis block. -/
theorem compatible_calls {calls : List ScanCall}
    (hgenesis : ∀ c ∈ calls, c.chain[0]? = some genesis)
    (hagree : ∀ c ∈ calls, ∀ c' ∈ calls, Agree c.chain c'.chain) :
    Compatible genesis (calls.map ScanCall.chain) := by
  constructor
  · intro chain hchain served hserved
    obtain ⟨c, hc, rfl⟩ := List.mem_map.mp hchain
    rw [hgenesis c hc] at hserved
    exact (Option.some.inj hserved).symm
  · intro chain hchain chain' hchain'
    obtain ⟨c, hc, rfl⟩ := List.mem_map.mp hchain
    obtain ⟨c', hc', rfl⟩ := List.mem_map.mp hchain'
    exact hagree c hc c' hc'

theorem chain_ne_nil (h : chain[0]? = some genesis) : chain ≠ [] := by
  rintro rfl
  cases h

/-- **A scan leaves what a fresh one would.** After any scans of chains with one
    genesis block, a scan that returns `Ok` and does not end below where the
    indexer was leaves the books of a fresh scan of the current chain up to the
    tip; one that returns an error leaves those of a fresh scan of a prefix of a
    chain served so far. -/
theorem scan_equals_fresh (encode : String → Bytes → String) (genesis : Served)
    (calls : List ScanCall) (call : ScanCall)
    (hgenesis : ∀ c ∈ calls ++ [call], c.chain[0]? = some genesis)
    (hagree : ∀ c ∈ calls ++ [call], ∀ c' ∈ calls ++ [call], Agree c.chain c'.chain)
    {s t : SyncIndexer} {result : Except String Nat}
    (hs : SyncIndexer.default.scans encode calls = some s)
    (ht : s.scan encode call.tip call.fetch = some (t, result)) :
    (∀ applied, result = .ok applied → s.lastHeight ≤ call.tip →
      ∃ fresh k, SyncIndexer.default.scan encode call.tip (serve call.chain)
        = some (fresh, .ok k) ∧ t.SameBooks fresh) ∧
    (∀ e, result = .error e →
      ∃ c ∈ calls ++ [call], ∃ start, start <+: c.chain ∧
        ∃ fresh r, SyncIndexer.default.scan encode (start.length - 1) (serve start)
          = some (fresh, r) ∧ t.SameBooks fresh) := by
  have hchains := compatible_calls hgenesis hagree
  have hmem : ∀ c ∈ calls ++ [call], c.chain ∈ (calls ++ [call]).map ScanCall.chain :=
    fun c hc => List.mem_map_of_mem hc
  have hne : ∀ c ∈ calls ++ [call], c.chain ≠ [] := fun c hc => chain_ne_nil (hgenesis c hc)
  have hlast : call ∈ calls ++ [call] := by simp
  have hsound := (Sound.default encode _).scans hchains
    (fun c hc => hmem c (List.mem_append_left _ hc))
    (fun c hc => hne c (List.mem_append_left _ hc)) hs
  obtain ⟨hsound', hok⟩ := hsound.scan hchains (hmem call hlast) (hne call hlast)
    call.fromChain ht
  constructor
  · intro applied happlied htip
    exact sameBooks_fresh (hok applied happlied htip)
  · -- A failed scan stops behind some block of the chain it was at.
    intro e he
    obtain ⟨chain, hchain, n, htracks⟩ := hsound'.tracks
    cases n with
    | zero =>
      refine ⟨call, hlast, [], List.nil_prefix, SyncIndexer.default, _, rfl, ?_⟩
      have hidx : t.toIndexer = Indexer.default := htracks.books.eq_init
      exact ⟨by rw [hidx]; rfl, by rw [hidx]; rfl, by rw [hidx]; rfl, by rw [hidx]; rfl,
        htracks.hash⟩
    | succ n =>
      have hlen := htracks.books.le
      rw [length_blocksOf] at hlen
      rcases List.mem_cons.mp hchain with rfl | hserved
      · exact absurd hlen (by simp)
      · obtain ⟨c, hc, rfl⟩ := List.mem_map.mp hserved
        have htake : (c.chain.take (n + 1)).length - 1 = n := by
          rw [List.length_take, Nat.min_eq_left hlen]
          rfl
        -- What tracks a chain up to a height tracks its prefix.
        have hstart : Tracks encode (c.chain.take (n + 1)) (n + 1) t.toIndexer t.lastHash := by
          constructor
          · show Upto _ _ (blocksOf (c.chain.take (n + 1))) _ _
            rw [blocksOf_take]
            exact htracks.books.take
          · rw [htracks.hash, hashAfter, hashAfter, List.getElem?_take_of_lt (Nat.lt_succ_self n)]
        obtain ⟨fresh, k, hfresh, hbooks⟩ := sameBooks_fresh hstart
        refine ⟨c, hc, c.chain.take (n + 1), List.take_prefix _ _, fresh, .ok k, ?_, hbooks⟩
        rw [htake]
        exact hfresh

/-! ## A reorganisation -/

/-- A block with a synthetic hash, which pays one atom to an address of its own. -/
def sampleServed (name previous : UInt8) (height : Nat) : Served :=
  (Hash256.ofSuffix [name],
    { header := ⟨1, "test", height, Hash256.ofSuffix [previous], Hash256.zero, 0, 0, 0⟩
      transactions :=
        [⟨Hash256.ofSuffix [name], [], [⟨1, Script.p2pkhScript (List.replicate 20 name)⟩], []⟩] })

/-- Two branches from one genesis block. -/
def branchA : List Served := [sampleServed 1 0 0, sampleServed 2 1 1, sampleServed 3 2 2]

def branchB : List Served := [sampleServed 1 0 0, sampleServed 12 1 1, sampleServed 13 12 2]

/-- The second branch, one block later. -/
def grownB : List Served := branchB ++ [sampleServed 14 13 3]

/-- A call that the node answers from its chain. -/
def ScanCall.served (tip : Nat) (chain : List Served) : ScanCall :=
  ⟨tip, chain, serve chain, fromChain_serve chain⟩

/-- The first branch is scanned to height 1, then the second to height 2. -/
theorem scan_equals_fresh_branches :
    ∃ s t applied fresh k,
      SyncIndexer.default.scans Indexer.sampleEncode [.served 1 branchA] = some s ∧
      s.scan Indexer.sampleEncode 2 (serve branchB) = some (t, .ok applied) ∧
      SyncIndexer.default.scan Indexer.sampleEncode 2 (serve branchB) = some (fresh, .ok k) ∧
      t.SameBooks fresh := by
  have heval : ((SyncIndexer.default.scans Indexer.sampleEncode [.served 1 branchA]).bind fun s =>
      (s.scan Indexer.sampleEncode 2 (serve branchB)).map fun r => (s.lastHeight, r.2.toOption))
        = some (1, some 3) := by
    decide
  obtain ⟨s, hs, hscan⟩ := Option.bind_eq_some_iff.mp heval
  obtain ⟨⟨t, result⟩, ht, heq⟩ := Option.map_eq_some_iff.mp hscan
  obtain ⟨hheight, hresult⟩ := Prod.mk.inj heq
  cases result with
  | error e => cases hresult
  | ok applied =>
    obtain ⟨fresh, k, hfresh, hbooks⟩ := (scan_equals_fresh Indexer.sampleEncode (sampleServed 1 0 0)
      [.served 1 branchA] (.served 2 branchB) (by decide) (by decide) hs ht).1
        applied rfl (by rw [hheight]; decide)
    exact ⟨s, t, applied, fresh, k, hs, ht, hfresh, hbooks⟩

end SyncIndexer

end Tensorium
