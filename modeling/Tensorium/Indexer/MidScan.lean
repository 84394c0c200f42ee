import Tensorium.Indexer.Incremental

/-! # Reorganisations during a scan

    The loop of a scan asks for one block after the other, by height, and does
    not look at the parent of what it gets. If the node leaves the block that was
    applied last before it answers again, the books mix two chains, and the next
    scan only looks at the last height. As long as it does not, they are the
    replay of one chain, whatever else the node does.
-/

namespace Tensorium

open Replay

/-! ## Linked chains -/

/-- A chain from a genesis block in which every block names the one before it. -/
structure LinkedFrom (genesis : Served) (chain : List Served) : Prop where
  genesis : chain[0]? = some genesis
  linked : ∀ height parent child, chain[height]? = some parent →
    chain[height + 1]? = some child → child.2.header.previousHash = parent.1

instance (genesis : Served) (chain : List Served) : Decidable (LinkedFrom genesis chain) :=
  have : Decidable (∀ height < chain.length, ∀ parent ∈ chain[height]?,
      ∀ child ∈ chain[height + 1]?, child.2.header.previousHash = parent.1) := inferInstance
  decidable_of_iff
    (chain[0]? = some genesis ∧ ∀ height < chain.length, ∀ parent ∈ chain[height]?,
      ∀ child ∈ chain[height + 1]?, child.2.header.previousHash = parent.1) <| by
    constructor
    · rintro ⟨hgenesis, hlinked⟩
      refine ⟨hgenesis, ?_⟩
      intro height parent child hparent hchild
      obtain ⟨hlt, _⟩ := List.getElem?_eq_some_iff.mp hparent
      exact hlinked height hlt parent hparent child hchild
    · intro h
      exact ⟨h.genesis, fun height _ parent hparent child hchild =>
        h.linked height parent child hparent hchild⟩

/-- Among blocks that their hash determines, the chain up to a block is as well. -/
theorem LinkedFrom.unique {genesis : Served} {chain chain' : List Served}
    (h : LinkedFrom genesis chain) (h' : LinkedFrom genesis chain')
    (hhash : ∀ served ∈ chain, ∀ served' ∈ chain', served.1 = served'.1 → served = served')
    {height : Nat} {served served' : Served} (hserved : chain[height]? = some served)
    (hserved' : chain'[height]? = some served') (heq : served.1 = served'.1) :
    chain.take (height + 1) = chain'.take (height + 1) := by
  have hsame := hhash served (List.mem_of_getElem? hserved) served'
    (List.mem_of_getElem? hserved') heq
  subst hsame
  -- Going down from the block, both chains have the same parent.
  induction height generalizing served with
  | zero => rw [List.take_add_one, List.take_add_one, hserved, hserved']; rfl
  | succ height ih =>
    obtain ⟨hlt, _⟩ := List.getElem?_eq_some_iff.mp hserved
    obtain ⟨hlt', _⟩ := List.getElem?_eq_some_iff.mp hserved'
    have hparent := List.getElem?_eq_getElem (show height < chain.length by omega)
    have hparent' := List.getElem?_eq_getElem (show height < chain'.length by omega)
    have hlink := h.linked _ _ _ hparent hserved
    have hlink' := h'.linked _ _ _ hparent' hserved'
    have hsame := hhash _ (List.getElem_mem _) _ (List.getElem_mem _) (hlink.symm.trans hlink')
    rw [← hsame] at hparent'
    rw [List.take_add_one, ih hparent hparent' rfl, List.take_add_one (i := height + 1), hserved,
      hserved']

/-- A linked chain is extended by a block that names its last one. -/
theorem LinkedFrom.append {genesis served : Served} {chain : List Served}
    (h : LinkedFrom genesis chain)
    (hlast : ∀ last, chain[chain.length - 1]? = some last →
      served.2.header.previousHash = last.1) : LinkedFrom genesis (chain ++ [served]) := by
  have hpos : 0 < chain.length := (List.getElem?_eq_some_iff.mp h.genesis).1
  constructor
  · rw [List.getElem?_append_left hpos]
    exact h.genesis
  · intro height parent child hparent hchild
    obtain ⟨hlt, _⟩ := List.getElem?_eq_some_iff.mp hchild
    rw [List.length_append, List.length_singleton] at hlt
    rw [List.getElem?_append_left (by omega)] at hparent
    by_cases hinner : height + 1 < chain.length
    · rw [List.getElem?_append_left hinner] at hchild
      exact h.linked _ _ _ hparent hchild
    · obtain rfl : height = chain.length - 1 := by omega
      rw [List.getElem?_append_right (by omega)] at hchild
      rw [show chain.length - 1 + 1 - chain.length = 0 by omega] at hchild
      obtain rfl := Option.some.inj hchild
      exact hlast parent hparent

namespace SyncIndexer

variable {encode : String → Bytes → String} {genesis : Served} {held : Served → Prop}
  {chain : List Served} {s t : SyncIndexer} {tip height : Nat}

/-- One call of `scan` while the node may reorganise: the chain it has when it
    answers in each place. -/
structure MovingScan where
  tip : Nat
  chainAt : Nat → List Served
  fetch : Fetch
  fromChain : ∀ place height served, fetch place height = .ok served →
    (chainAt place)[height]? = some served

/-- Scan after scan on one indexer, whatever each of them returns. -/
def movingScans (encode : String → Bytes → String) (s : SyncIndexer) (calls : List MovingScan) :
    Option SyncIndexer :=
  calls.foldlM (fun s call => (s.scan encode call.tip call.fetch).map Prod.fst) s

/-- The blocks the node has had on its chain at some time. -/
def Held (calls : List MovingScan) (served : Served) : Prop :=
  ∃ call ∈ calls, ∃ place, served ∈ call.chainAt place

/-! ## One chain -/

/-- The books are the replay of one linked chain of blocks the node has had, which
    ends in the block with the recorded hash at the recorded height. -/
def OneChain (encode : String → Bytes → String) (genesis : Served) (held : Served → Prop)
    (s : SyncIndexer) : Prop :=
  ∃ chain, (chain = [] ∨ LinkedFrom genesis chain) ∧ (∀ served ∈ chain, held served) ∧
    Tracks encode chain chain.length s.toIndexer s.lastHash

/-- The same of a checkpoint. -/
def CheckpointOne (encode : String → Bytes → String) (genesis : Served) (held : Served → Prop)
    (cp : Nat × String × CheckpointSnap) : Prop :=
  ∃ chain, LinkedFrom genesis chain ∧ (∀ served ∈ chain, held served) ∧
    chain.length = cp.1 + 1 ∧ CheckpointOf encode chain cp

/-- Books and checkpoint, each of one chain. -/
structure Unmixed (encode : String → Bytes → String) (genesis : Served) (held : Served → Prop)
    (s : SyncIndexer) : Prop where
  books : OneChain encode genesis held s
  checkpoint : ∀ cp ∈ s.checkpoint, CheckpointOne encode genesis held cp

theorem Unmixed.default (encode : String → Bytes → String) (genesis : Served)
    (held : Served → Prop) : Unmixed encode genesis held SyncIndexer.default := by
  constructor
  · refine ⟨[], Or.inl rfl, ?_, Tracks.zero _ _⟩
    intro served hserved
    cases hserved
  · intro cp hcp
    cases hcp

theorem start_eq (h : Tracks encode chain chain.length s.toIndexer s.lastHash) :
    s.start = chain.length := by
  obtain ⟨hheight, hpos⟩ := h.books.height
  unfold start
  split_ifs with hscanned
  · have := hpos.mp hscanned
    omega
  · by_contra hne
    exact hscanned (hpos.mpr (by omega))

/-- The reorg check only goes back to books that were of one chain. -/
theorem Unmixed.reorgCheck {fetch : Fetch} (h : Unmixed encode genesis held s)
    (ht : s.reorgCheck fetch = .ok t) : Unmixed encode genesis held t := by
  rcases reorgCheck_cases ht with ⟨_, rfl⟩ | ⟨_, rfl, _⟩ |
    ⟨cpHeight, cpHash, snap, _, hcp, _, _, rfl⟩ | rfl
  · exact h
  · exact h
  · obtain ⟨chain, hlinked, hheld, hlength, hof⟩ := h.checkpoint _ hcp
    refine ⟨⟨chain, Or.inr hlinked, hheld, ?_⟩, h.checkpoint⟩
    rw [hlength]
    exact hof.tracks
  · exact Unmixed.default _ _ _

/-! ## Steady scans -/

/-- Each time the loop gets an answer, the node still has the block that was
    applied last, one height below. -/
def SteadyLoop (encode : String → Bytes → String) (call : MovingScan) :
    Nat → Nat → Nat → SyncIndexer → Prop
  | 0, _, _, _ => True
  | rounds + 1, height, applied, s =>
    ∀ served, call.fetch (2 + applied) height = .ok served →
      hashAfter (call.chainAt (2 + applied)) height = s.lastHash ∧
      ∀ s', s.advance encode call.tip height served = some s' →
        SteadyLoop encode call rounds (height + 1) (applied + 1) s'

/-- The same of a whole scan. -/
def Steady (encode : String → Bytes → String) (s : SyncIndexer) (call : MovingScan) : Prop :=
  ∀ s', s.reorgCheck call.fetch = .ok s' →
    SteadyLoop encode call (call.tip + 1 - s'.start) s'.start 0 s'

/-- The node still has the last block exactly if the next one names it. -/
theorem hashAfter_eq_iff {served : Served} {lastHash : String} (h : LinkedFrom genesis chain)
    (hserved : chain[height + 1]? = some served) :
    hashAfter chain (height + 1) = lastHash ↔
      served.2.header.previousHash.toHex = lastHash := by
  obtain ⟨hlt, _⟩ := List.getElem?_eq_some_iff.mp hserved
  have hparent := List.getElem?_eq_getElem (show height < chain.length by omega)
  rw [hashAfter, hparent, h.linked _ _ _ hparent hserved]
  rfl

/-- A round in which the node still has the last block extends the chain. -/
theorem Unmixed.advance {node : List Served} {served : Served}
    (h : Unmixed encode genesis held s) (hstart : s.start = height)
    (hnode : LinkedFrom genesis node) (hheld : ∀ served ∈ node, held served)
    (hserved : node[height]? = some served) (hlast : hashAfter node height = s.lastHash)
    (ht : s.advance encode tip height served = some t) :
    Unmixed encode genesis held t ∧ t.start = height + 1 := by
  obtain ⟨chain, hchain, hblocks, htracks⟩ := h.books
  obtain rfl : height = chain.length := by
    rw [← hstart]
    exact start_eq htracks
  have hlinked : LinkedFrom genesis (chain ++ [served]) := by
    rcases hchain with rfl | hchain
    · constructor
      · rw [← hnode.genesis]
        exact hserved.symm
      · intro height parent child _ hchild
        simp at hchild
    · apply hchain.append
      intro last hlast'
      have hpos : 0 < chain.length := (List.getElem?_eq_some_iff.mp hchain.genesis).1
      obtain ⟨n, hn⟩ : ∃ n, chain.length = n + 1 := ⟨chain.length - 1, by omega⟩
      rw [hn] at hserved hlast htracks
      have hname := (hashAfter_eq_iff hnode hserved).mp hlast
      obtain ⟨recorded, hrecorded, hhash⟩ := htracks.served
      rw [hn, Nat.add_sub_cancel, hrecorded] at hlast'
      obtain rfl := Option.some.inj hlast'
      exact Hash256.toHex_injective (hname.trans hhash)
  have hmem : ∀ served' ∈ chain ++ [served], held served' := by
    intro served' hserved'
    rcases List.mem_append.mp hserved' with hold | hnew
    · exact hblocks served' hold
    · rw [List.mem_singleton.mp hnew]
      exact hheld served (List.mem_of_getElem? hserved)
  -- The chain is tracked as a start of the longer one, which has the block next.
  have hbefore : Tracks encode (chain ++ [served]) chain.length s.toIndexer s.lastHash := by
    constructor
    · apply htracks.books.of_prefix
      rw [blocksOf, blocksOf, List.map_append]
      exact List.prefix_append _ _
    · rw [htracks.hash]
      cases hlength : chain.length with
      | zero => rfl
      | succ n => rw [hashAfter, hashAfter, List.getElem?_append_left (by omega)]
  obtain ⟨hafter, hcp⟩ := tracks_advance hbefore (by simp) ht
  have hlength : (chain ++ [served]).length = chain.length + 1 := by simp
  rw [← hlength] at hafter
  refine ⟨⟨⟨chain ++ [served], Or.inr hlinked, hmem, hafter⟩, ?_⟩, ?_⟩
  · intro cp hmem'
    rcases hcp cp hmem' with hold | ⟨hheight, hof⟩
    · exact h.checkpoint cp hold
    · exact ⟨chain ++ [served], hlinked, hmem, by rw [hlength, hheight], hof⟩
  · rw [start_eq hafter, hlength]

theorem Unmixed.scanLoop {call : MovingScan} {rounds applied : Nat} {result : Except String Nat}
    (hnode : ∀ place, LinkedFrom genesis (call.chainAt place))
    (hheld : ∀ place, ∀ served ∈ call.chainAt place, held served)
    (h : Unmixed encode genesis held s) (hstart : s.start = height)
    (hsteady : SteadyLoop encode call rounds height applied s)
    (ht : scanLoop encode call.fetch call.tip rounds height applied s = some (t, result)) :
    Unmixed encode genesis held t := by
  induction rounds generalizing height applied s with
  | zero =>
    obtain ⟨rfl, _⟩ := Prod.mk.inj (Option.some.inj ht)
    exact h
  | succ rounds ih =>
    unfold SyncIndexer.scanLoop at ht
    cases hanswer : call.fetch (2 + applied) height with
    | error e =>
      rw [hanswer] at ht
      obtain ⟨rfl, _⟩ := Prod.mk.inj (Option.some.inj ht)
      exact h
    | ok served =>
      rw [hanswer] at ht
      obtain ⟨s', hadvance, hloop⟩ := Option.bind_eq_some_iff.mp ht
      obtain ⟨hlast, hrest⟩ := hsteady served hanswer
      obtain ⟨hs', hstart'⟩ := h.advance hstart (hnode _) (hheld _)
        (call.fromChain _ _ _ hanswer) hlast hadvance
      exact ih hs' hstart' (hrest s' hadvance) hloop

theorem Unmixed.scan {call : MovingScan} {result : Except String Nat}
    (hnode : ∀ place, LinkedFrom genesis (call.chainAt place))
    (hheld : ∀ place, ∀ served ∈ call.chainAt place, held served)
    (h : Unmixed encode genesis held s) (hsteady : Steady encode s call)
    (ht : s.scan encode call.tip call.fetch = some (t, result)) :
    Unmixed encode genesis held t := by
  unfold SyncIndexer.scan at ht
  cases hcheck : s.reorgCheck call.fetch with
  | error e =>
    rw [hcheck] at ht
    obtain ⟨rfl, _⟩ := Prod.mk.inj (Option.some.inj ht)
    exact h
  | ok s' =>
    rw [hcheck] at ht
    exact (h.reorgCheck hcheck).scanLoop hnode hheld rfl (hsteady s' hcheck) ht

/-- **Only a reorganisation between two answers can mix two chains.** In every
    sequence of scans, with the node reorganising at any time, the books are the
    replay of one linked chain after every return, if each time the loop gets a
    block the node still has the one that was applied last. -/
theorem steady_scans_oneChain (encode : String → Bytes → String) (genesis : Served)
    (calls : List MovingScan)
    (hnode : ∀ call ∈ calls, ∀ place, LinkedFrom genesis (call.chainAt place))
    (hsteady : ∀ before call after, calls = before ++ call :: after →
      ∀ s, SyncIndexer.default.movingScans encode before = some s → Steady encode s call)
    {t : SyncIndexer} (ht : SyncIndexer.default.movingScans encode calls = some t) :
    OneChain encode genesis (Held calls) t := by
  -- Induction on the scans done so far.
  suffices h : ∀ after, ∀ before s, calls = before ++ after →
      SyncIndexer.default.movingScans encode before = some s →
      Unmixed encode genesis (Held calls) s → s.movingScans encode after = some t →
      Unmixed encode genesis (Held calls) t by
    exact (h calls [] SyncIndexer.default rfl rfl (Unmixed.default _ _ _) ht).books
  intro after
  induction after with
  | nil =>
    intro before s _ _ hs hrest
    obtain rfl := Option.some.inj hrest
    exact hs
  | cons call after ih =>
    intro before s hcalls hbefore hs hrest
    obtain ⟨s', hscan, hrest⟩ := Option.bind_eq_some_iff.mp hrest
    obtain ⟨⟨_, result⟩, hcall, rfl⟩ := Option.map_eq_some_iff.mp hscan
    have hmem : call ∈ calls := by simp [hcalls]
    have hs' := hs.scan (hnode call hmem) (fun place served hserved => ⟨call, hmem, place, hserved⟩)
      (hsteady before call after hcalls s hbefore) hcall
    refine ih (before ++ [call]) _ (by simp [hcalls]) ?_ hs' hrest
    unfold movingScans at hbefore ⊢
    rw [List.foldlM_append, hbefore]
    simp only [Option.bind_eq_bind, Option.bind_some, List.foldlM_cons, hcall, Option.map_some,
      List.foldlM_nil]
    rfl

/-- A chain that only grows while it is scanned disturbs nothing. -/
theorem steadyLoop_of_prefix {call : MovingScan} {rounds applied : Nat}
    (hgrow : ∀ place, call.chainAt place <+: chain)
    (hs : Tracks encode chain height s.toIndexer s.lastHash) :
    SteadyLoop encode call rounds height applied s := by
  induction rounds generalizing height applied s with
  | zero => trivial
  | succ rounds ih =>
    intro served hserved
    have hanswer := call.fromChain _ _ _ hserved
    obtain ⟨rest, hrest⟩ := hgrow (2 + applied)
    obtain ⟨hlt, _⟩ := List.getElem?_eq_some_iff.mp hanswer
    constructor
    · rw [hs.hash, ← hrest]
      cases height with
      | zero => rfl
      | succ n => rw [hashAfter, hashAfter, List.getElem?_append_left (by omega)]
    · intro s' hadvance
      have hnext : chain[height]? = some served := by
        rw [← hrest, List.getElem?_append_left hlt]
        exact hanswer
      exact ih (tracks_advance hs hnext hadvance).1

/-! ## A reorganisation between two answers -/

/-- The node has the first branch until it has answered for height 1, and then the
    second one, which is longer. -/
def movedNode (place : Nat) : List Served :=
  if place < 4 then branchA else grownB

/-- A scan of that node. -/
def movedScan (tip : Nat) : MovingScan where
  tip := tip
  chainAt := movedNode
  fetch := fun place => serve (movedNode place) place
  fromChain := fun place => fromChain_serve (movedNode place) place

/-- A scan of the node that it has become. -/
def settledScan (tip : Nat) : MovingScan where
  tip := tip
  chainAt := fun _ => grownB
  fetch := serve grownB
  fromChain := fun place => fromChain_serve grownB place

/-- Every block that is on the chain of one of these nodes at some time. -/
theorem held_branches {calls : List MovingScan}
    (hcalls : ∀ call ∈ calls, call = movedScan 2 ∨ call = settledScan 3) {served : Served}
    (h : Held calls served) : served ∈ branchA ++ grownB := by
  obtain ⟨call, hcall, place, hserved⟩ := h
  rcases hcalls call hcall with rfl | rfl
  · unfold movedScan movedNode at hserved
    dsimp only at hserved
    split_ifs at hserved
    · exact List.mem_append_left _ hserved
    · exact List.mem_append_right _ hserved
  · exact List.mem_append_right _ hserved

/-- Books that end in a block of the second branch are of one chain only if they
    are the replay of that branch. -/
theorem OneChain.grownB_of_hash {calls : List MovingScan}
    (hcalls : ∀ call ∈ calls, call = movedScan 2 ∨ call = settledScan 3)
    (h : OneChain Indexer.sampleEncode (sampleServed 1 0 0) (Held calls) s) {n : Nat}
    (hstart : s.start = n + 1) {served : Served}
    (hserved : grownB[n]? = some served)
    (hhash : s.lastHash = served.1.toHex) :
    feed (Indexer.apply Indexer.sampleEncode) 0 Indexer.default
      ((blocksOf grownB).take (n + 1))
        = some s.toIndexer := by
  obtain ⟨chain, hchain, hheld, htracks⟩ := h
  have hlength : chain.length = n + 1 := by
    rw [← start_eq htracks]
    exact hstart
  rcases hchain with rfl | hlinked
  · cases hlength
  · rw [hlength] at htracks
    obtain ⟨last, hlast, hname⟩ := htracks.served
    have hnode : LinkedFrom (sampleServed 1 0 0)
        grownB := by
      decide
    have hdistinct : ∀ r ∈ branchA ++ grownB,
        ∀ r' ∈ grownB, r.1 = r'.1 → r = r' := by
      decide
    have htake := hlinked.unique hnode
      (fun r hr r' hr' => hdistinct r (held_branches hcalls (hheld r hr)) r' hr') hlast hserved
      (Hash256.toHex_injective (hname.symm.trans hhash))
    rw [← blocksOf_take, ← htake, blocksOf_take]
    exact htracks.books.fed

/-- The node moves after the first scan has applied block 1 of the first branch;
    the scan goes on with block 2 of the second, and the next scan finds nothing
    wrong with that. -/
theorem moved_scan_mixes :
    (∀ call ∈ [movedScan 2, settledScan 3], ∀ place,
      LinkedFrom (sampleServed 1 0 0) (call.chainAt place)) ∧
    (∃ s, SyncIndexer.default.movingScans Indexer.sampleEncode [movedScan 2] = some s ∧
      ¬ OneChain Indexer.sampleEncode (sampleServed 1 0 0) (Held [movedScan 2]) s) ∧
    ∃ t, SyncIndexer.default.movingScans Indexer.sampleEncode [movedScan 2, settledScan 3]
        = some t ∧
      ¬ OneChain Indexer.sampleEncode (sampleServed 1 0 0)
        (Held [movedScan 2, settledScan 3]) t := by
  have hnode : ∀ call ∈ [movedScan 2, settledScan 3], ∀ place,
      LinkedFrom (sampleServed 1 0 0) (call.chainAt place) := by
    have hbranches : LinkedFrom (sampleServed 1 0 0) branchA ∧
        LinkedFrom (sampleServed 1 0 0) grownB := by
      decide
    intro call hcall place
    simp only [List.mem_cons, List.not_mem_nil, or_false] at hcall
    rcases hcall with rfl | rfl
    · unfold movedScan movedNode
      dsimp only
      split_ifs
      · exact hbranches.1
      · exact hbranches.2
    · exact hbranches.2
  -- What a run records, and whether the outpoints are those of the second branch.
  have heval : ∀ run ∈ [([movedScan 2], 2), ([movedScan 2, settledScan 3], 3)],
      (SyncIndexer.default.movingScans Indexer.sampleEncode run.1).map (fun s =>
        (s.start, s.lastHash, (feed (Indexer.apply Indexer.sampleEncode) 0 Indexer.default
          ((blocksOf grownB).take (run.2 + 1))).map fun idx =>
            decide (idx.outpoints = s.outpoints)))
      = some (run.2 + 1, hashAfter grownB (run.2 + 1),
          some false) := by
    decide
  have hmixed : ∀ run ∈ [([movedScan 2], 2), ([movedScan 2, settledScan 3], 3)],
      ∃ s, SyncIndexer.default.movingScans Indexer.sampleEncode run.1 = some s ∧
        ¬ OneChain Indexer.sampleEncode (sampleServed 1 0 0) (Held run.1) s := by
    intro run hrun
    obtain ⟨s, hs, heq⟩ := Option.map_eq_some_iff.mp (heval run hrun)
    obtain ⟨hstart, heq⟩ := Prod.mk.inj heq
    obtain ⟨hhash, hdiffer⟩ := Prod.mk.inj heq
    refine ⟨s, hs, ?_⟩
    intro hone
    have hcalls : ∀ call ∈ run.1, call = movedScan 2 ∨ call = settledScan 3 := by
      simp only [List.mem_cons, List.not_mem_nil, or_false] at hrun
      rcases hrun with rfl | rfl
      · simp
      · simp
    have hlt : run.2 < grownB.length := by
      simp only [List.mem_cons, List.not_mem_nil, or_false] at hrun
      rcases hrun with rfl | rfl
      · decide
      · decide
    have hserved := List.getElem?_eq_getElem hlt
    rw [hashAfter, hserved] at hhash
    have hfed := hone.grownB_of_hash hcalls hstart hserved hhash
    rw [hfed] at hdiffer
    simp at hdiffer
  exact ⟨hnode, hmixed _ List.mem_cons_self, hmixed _ (List.mem_cons_of_mem _ List.mem_cons_self)⟩

/-- The second branch, which grows while it is scanned. -/
def growingScan : MovingScan where
  tip := 3
  chainAt := fun place => if place < 4 then branchB else grownB
  fetch := fun place => serve (if place < 4 then branchB else grownB) place
  fromChain := fun place => fromChain_serve (if place < 4 then branchB else grownB) place

/-- A fresh scan of it ends in one chain. -/
theorem growing_scan_oneChain :
    ∃ t, SyncIndexer.default.movingScans Indexer.sampleEncode [growingScan] = some t ∧
      OneChain Indexer.sampleEncode (sampleServed 1 0 0) (Held [growingScan]) t := by
  have heval : (SyncIndexer.default.movingScans Indexer.sampleEncode [growingScan]).isSome := by
    decide
  obtain ⟨t, ht⟩ := Option.isSome_iff_exists.mp heval
  have hbranches : LinkedFrom (sampleServed 1 0 0) branchB ∧
      LinkedFrom (sampleServed 1 0 0) grownB := by
    decide
  refine ⟨t, ht, steady_scans_oneChain Indexer.sampleEncode (sampleServed 1 0 0) [growingScan]
    ?_ ?_ ht⟩
  · intro call hcall place
    obtain rfl := List.mem_singleton.mp hcall
    unfold growingScan
    dsimp only
    split_ifs
    · exact hbranches.1
    · exact hbranches.2
  · intro before call after hcalls s hs s' hcheck
    obtain ⟨rfl, rfl, rfl⟩ : before = [] ∧ call = growingScan ∧ after = [] := by
      cases before with
      | nil =>
        obtain ⟨hcall, hafter⟩ := List.cons.inj hcalls
        exact ⟨rfl, hcall.symm, hafter.symm⟩
      | cons c before => simp at hcalls
    obtain rfl := Option.some.inj hs
    obtain rfl := Except.ok.inj hcheck
    -- The chain only grows while it is scanned.
    have hgrow : ∀ place, growingScan.chainAt place <+: grownB := by
      intro place
      unfold growingScan
      dsimp only
      split_ifs
      · exact List.prefix_append _ _
      · exact List.prefix_refl _
    exact steadyLoop_of_prefix hgrow (Tracks.zero Indexer.sampleEncode grownB)

end SyncIndexer

end Tensorium
