import Tensorium.Lib.ExceptFold
import Tensorium.Lib.Replay
import Tensorium.Indexer.Scan

/-! # What a scan leaves behind

    The books of the indexer are always the replay of a start of one chain that
    the node has served, and so is its checkpoint. Going on from there gives the
    same as starting again.
-/

namespace Tensorium

open Replay

/-- The blocks of a chain. -/
def blocksOf (chain : List Served) : List Block := chain.map Prod.snd

/-- The hash recorded after the first `n` blocks of a chain. -/
def hashAfter (chain : List Served) : Nat → String
  | 0 => ""
  | n + 1 => (chain[n]?.map fun served => served.1.toHex).getD ""

/-- Equal hashes at a height imply equal blocks up to that height. -/
def Agree (chain chain' : List Served) : Prop :=
  ∀ height served served', chain[height]? = some served → chain'[height]? = some served' →
    served.1 = served'.1 →
      blocksOf (chain.take (height + 1)) = blocksOf (chain'.take (height + 1))

instance (chain chain' : List Served) : Decidable (Agree chain chain') :=
  decidable_of_iff
    (∀ height < chain.length, ∀ served ∈ chain[height]?, ∀ served' ∈ chain'[height]?,
      served.1 = served'.1 →
        blocksOf (chain.take (height + 1)) = blocksOf (chain'.take (height + 1))) <| by
    constructor
    · intro h height served served' hserved hserved'
      obtain ⟨hlt, _⟩ := List.getElem?_eq_some_iff.mp hserved
      exact h height hlt served hserved served' hserved'
    · intro h height _ served hserved served' hserved'
      exact h height served served' hserved hserved'

/-- Chains that grow from one genesis block. -/
structure Compatible (genesis : Served) (chains : List (List Served)) : Prop where
  genesis : ∀ chain ∈ chains, ∀ served, chain[0]? = some served → served = genesis
  agree : ∀ chain ∈ chains, ∀ chain' ∈ chains, Agree chain chain'

/-- The node answers from one chain, if it answers. -/
def FromChain (chain : List Served) (fetch : Fetch) : Prop :=
  ∀ place height served, fetch place height = .ok served → chain[height]? = some served

/-- A node that answers whatever its chain has. -/
def serve (chain : List Served) : Fetch := fun _ height =>
  match chain[height]? with
  | some served => .ok served
  | none => .error "block not found"

theorem fromChain_serve (chain : List Served) : FromChain chain (serve chain) := by
  intro place height served h
  unfold serve at h
  cases hget : chain[height]? with
  | none =>
    rw [hget] at h
    cases h
  | some served' =>
    rw [hget] at h
    cases h
    rfl

theorem blocksOf_take (chain : List Served) (n : Nat) :
    blocksOf (chain.take n) = (blocksOf chain).take n :=
  List.map_take

theorem length_blocksOf (chain : List Served) : (blocksOf chain).length = chain.length :=
  List.length_map _

theorem getElem?_blocksOf {chain : List Served} {height : Nat} {served : Served}
    (h : chain[height]? = some served) : (blocksOf chain)[height]? = some served.2 := by
  rw [blocksOf, List.getElem?_map, h]
  rfl

/-! ## Books -/

/-- `apply_block`, with the arguments in the order of a replay. -/
def Indexer.apply (encode : String → Bytes → String) (idx : Indexer) (height : Nat)
    (block : Block) : Option Indexer :=
  idx.applyBlock encode block height

/-- The replay of the first `n` blocks of a chain. -/
abbrev Indexer.Replays (encode : String → Bytes → String) (chain : List Served) (n : Nat)
    (idx : Indexer) : Prop :=
  Upto (Indexer.apply encode) Indexer.default (blocksOf chain) n idx

section books

variable {encode : String → Bytes → String} {chain chain' : List Served} {n : Nat}
  {idx idx' : Indexer}

theorem Indexer.apply_height {height : Nat} {block : Block}
    (h : idx.apply encode height block = some idx') :
    idx'.lastHeight = height ∧ idx'.scannedAny = true := by
  obtain ⟨_, _, rfl⟩ := Option.map_eq_some_iff.mp h
  exact ⟨rfl, rfl⟩

/-- The height of a replay is that of its last block. -/
theorem Indexer.Replays.height (h : idx.Replays encode chain n) :
    idx.lastHeight = n - 1 ∧ (idx.scannedAny = true ↔ 0 < n) := by
  cases n with
  | zero =>
    rw [h.eq_init]
    exact ⟨rfl, by simp [Indexer.default]⟩
  | succ n =>
    obtain ⟨_, _, _, _, happly⟩ := Upto.succ_iff.mp h
    obtain ⟨hheight, hscanned⟩ := Indexer.apply_height happly
    exact ⟨hheight, by simp [hscanned]⟩

/-- The books are the replay of the first `n` blocks of the chain, and the
    recorded hash is that of the last of them. -/
structure Tracks (encode : String → Bytes → String) (chain : List Served) (n : Nat)
    (idx : Indexer) (lastHash : String) : Prop where
  books : idx.Replays encode chain n
  hash : lastHash = hashAfter chain n

theorem Tracks.zero (encode : String → Bytes → String) (chain : List Served) :
    Tracks encode chain 0 Indexer.default "" :=
  ⟨Upto.zero _ _ _, rfl⟩

theorem Tracks.succ {lastHash : String} {served : Served}
    (h : Tracks encode chain n idx lastHash) (hserved : chain[n]? = some served)
    (happly : idx.applyBlock encode served.2 n = some idx') :
    Tracks encode chain (n + 1) idx' served.1.toHex := by
  constructor
  · exact h.books.succ (getElem?_blocksOf hserved) happly
  · rw [hashAfter, hserved]
    rfl

/-- The block that is recorded. -/
theorem Tracks.served {lastHash : String} (h : Tracks encode chain (n + 1) idx lastHash) :
    ∃ served, chain[n]? = some served ∧ lastHash = served.1.toHex := by
  have hlt : n < chain.length := by
    rw [← length_blocksOf]
    exact h.books.le
  refine ⟨chain[n], List.getElem?_eq_getElem hlt, ?_⟩
  rw [h.hash, hashAfter, List.getElem?_eq_getElem hlt]
  rfl

/-- A chain that has the recorded hash where it was recorded is tracked as well. -/
theorem Tracks.switch {lastHash : String} {served : Served}
    (h : Tracks encode chain (n + 1) idx lastHash) (hagree : Agree chain chain')
    (hserved : chain'[n]? = some served) (hhash : served.1.toHex = lastHash) :
    Tracks encode chain' (n + 1) idx lastHash := by
  obtain ⟨old, hold, holdhash⟩ := h.served
  have heq : old.1 = served.1 := Hash256.toHex_injective (by rw [← holdhash, hhash])
  constructor
  · apply h.books.congr
    rw [← blocksOf_take, ← blocksOf_take]
    exact hagree n old served hold hserved heq
  · rw [hashAfter, hserved]
    exact hhash.symm

/-- Two chains with one genesis block are tracked alike up to it. -/
theorem Tracks.switch_genesis {lastHash : String} {genesis : Served}
    {chains : List (List Served)} (h : Tracks encode chain 1 idx lastHash)
    (hchains : Compatible genesis chains) (hmem : chain ∈ chains) (hmem' : chain' ∈ chains)
    (hne : chain' ≠ []) : Tracks encode chain' 1 idx lastHash := by
  obtain ⟨old, hold, hhash⟩ := h.served
  have hserved : chain'[0]? = some (chain'.head hne) := by
    rw [← List.head?_eq_getElem?, List.head?_eq_some_head]
  apply h.switch (hchains.agree _ hmem _ hmem') hserved
  rw [hchains.genesis _ hmem' _ hserved, hhash, hchains.genesis _ hmem _ hold]

end books

namespace CheckpointSnap

/-- The books of a snapshot. -/
def toIndexer (snap : CheckpointSnap) : Indexer :=
  ⟨snap.state, snap.outpoints, snap.history, snap.lastHeight, true⟩

end CheckpointSnap

namespace SyncIndexer

variable {encode : String → Bytes → String} {chain : List Served} {fetch : Fetch}
  {s t : SyncIndexer} {tip height : Nat}

/-- The books the indexer answers from are the same. -/
structure SameBooks (s t : SyncIndexer) : Prop where
  state : s.state = t.state
  outpoints : s.outpoints = t.outpoints
  history : s.history = t.history
  lastHeight : s.lastHeight = t.lastHeight
  lastHash : s.lastHash = t.lastHash

/-- A checkpoint is a snapshot of the replay of a chain up to its height. -/
structure CheckpointOf (encode : String → Bytes → String) (chain : List Served)
    (cp : Nat × String × CheckpointSnap) : Prop where
  tracks : Tracks encode chain (cp.1 + 1) cp.2.2.toIndexer cp.2.2.lastHash
  hash : cp.2.1 = cp.2.2.lastHash

@[simp] theorem toIndexer_restore (s : SyncIndexer) (snap : CheckpointSnap) :
    (s.restore snap).toIndexer = snap.toIndexer := rfl

@[simp] theorem lastHash_restore (s : SyncIndexer) (snap : CheckpointSnap) :
    (s.restore snap).lastHash = snap.lastHash := rfl

@[simp] theorem checkpoint_restore (s : SyncIndexer) (snap : CheckpointSnap) :
    (s.restore snap).checkpoint = s.checkpoint := rfl

/-- The node is asked for the last block, and the hash it reports decides. -/
theorem reorgCheck_asked (hscanned : s.scannedAny = true) (hpos : 0 < s.lastHeight) :
    s.reorgCheck fetch = fetch 0 s.lastHeight >>= fun served =>
      if s.needsRebuild served.1.toHex = true then
        (s.tryRollback fetch).map fun r => r.getD SyncIndexer.default
      else .ok s := by
  unfold reorgCheck
  rw [if_pos ⟨hscanned, hpos⟩]
  cases fetch 0 s.lastHeight <;> rfl

/-- Before the second block the node is not asked. -/
theorem reorgCheck_unasked (h : ¬ (s.scannedAny = true ∧ 0 < s.lastHeight)) :
    s.reorgCheck fetch = .ok s := if_neg h

theorem needsRebuild_iff (hscanned : s.scannedAny = true) (hpos : 0 < s.lastHeight)
    {hash : String} : s.needsRebuild hash = true ↔ s.lastHash ≠ hash := by
  simp [needsRebuild, hscanned, hpos]

/-- How the reorg check can end: nothing to check, the last block is still there,
    back to the checkpoint, or back to the start. -/
theorem reorgCheck_cases (h : s.reorgCheck fetch = .ok t) :
    (¬ (s.scannedAny = true ∧ 0 < s.lastHeight) ∧ t = s) ∨
    (s.scannedAny = true ∧ t = s ∧
      ∃ served, fetch 0 s.lastHeight = .ok served ∧ served.1.toHex = s.lastHash) ∨
    (∃ cpHeight cpHash snap served, s.checkpoint = some (cpHeight, cpHash, snap) ∧
      fetch 1 cpHeight = .ok served ∧ served.1.toHex = cpHash ∧ t = s.restore snap) ∨
    t = SyncIndexer.default := by
  by_cases hcheck : s.scannedAny = true ∧ 0 < s.lastHeight
  · obtain ⟨hscanned, hpos⟩ := hcheck
    rw [reorgCheck_asked hscanned hpos] at h
    right
    obtain ⟨served, hlast, h⟩ := ExceptFold.bind_eq_ok.mp h
    -- The node reports another hash, or the same.
    split_ifs at h with hrebuild
    · right
      unfold tryRollback at h
      cases hcp : s.checkpoint with
      | none =>
        rw [hcp] at h
        exact Or.inr (Except.ok.inj h).symm
      | some cp =>
        obtain ⟨cpHeight, cpHash, snap⟩ := cp
        rw [hcp] at h
        cases hcanon : fetch 1 cpHeight with
        | error e =>
          simp only [hcanon] at h
          cases h
        | ok canon =>
          simp only [hcanon] at h
          replace h : (if canon.1.toHex = cpHash then some (s.restore snap) else none).getD
              SyncIndexer.default = t := Except.ok.inj h
          -- The checkpoint is used if the node still has its block.
          split_ifs at h with hsame
          · exact Or.inl ⟨cpHeight, cpHash, snap, canon, rfl, hcanon, hsame, h.symm⟩
          · exact Or.inr h.symm
    · left
      rw [needsRebuild_iff hscanned hpos, not_not] at hrebuild
      exact ⟨hscanned, (Except.ok.inj h).symm, served, hlast, hrebuild.symm⟩
  · rw [reorgCheck_unasked hcheck] at h
    exact Or.inl ⟨hcheck, (Except.ok.inj h).symm⟩

/-- What one round of the loop does: it applies the block and may take a
    checkpoint of the outcome. -/
theorem advance_cases {served : Served} (h : s.advance encode tip height served = some t) :
    s.applyBlock encode served.2 height = some t.toIndexer ∧ t.lastHash = served.1.toHex ∧
      (t.checkpoint = s.checkpoint ∨ t.checkpoint = some (height, t.lastHash, t.snapshot)) := by
  obtain ⟨idx, hidx, rfl⟩ := Option.map_eq_some_iff.mp h
  dsimp only
  split_ifs
  · exact ⟨hidx, rfl, Or.inr rfl⟩
  · exact ⟨hidx, rfl, Or.inl rfl⟩

theorem advance_isSome (tip : Nat) {served : Served} {idx : Indexer}
    (h : s.applyBlock encode served.2 height = some idx) :
    ∃ t, s.advance encode tip height served = some t := by
  unfold advance
  rw [h]
  exact ⟨_, rfl⟩

/-- A round that applies the next block of a chain goes on tracking it. -/
theorem tracks_advance {served : Served} (hs : Tracks encode chain height s.toIndexer s.lastHash)
    (hserved : chain[height]? = some served) (h : s.advance encode tip height served = some t) :
    Tracks encode chain (height + 1) t.toIndexer t.lastHash ∧
      ∀ cp ∈ t.checkpoint, cp ∈ s.checkpoint ∨ cp.1 = height ∧ CheckpointOf encode chain cp := by
  obtain ⟨happly, hhash, hcheckpoint⟩ := advance_cases h
  have ht : Tracks encode chain (height + 1) t.toIndexer t.lastHash := by
    rw [hhash]
    exact hs.succ hserved happly
  refine ⟨ht, ?_⟩
  intro cp hcp
  rcases hcheckpoint with hold | hnew
  · left
    rwa [← hold]
  · right
    rw [hnew] at hcp
    obtain rfl := Option.mem_some_iff.mp hcp
    have hbooks : t.snapshot.toIndexer = t.toIndexer := by
      have hscanned := (Indexer.apply_height happly).2
      show (⟨t.state, t.outpoints, t.history, t.lastHeight, true⟩ : Indexer) = t.toIndexer
      rw [← hscanned]
    refine ⟨rfl, ?_, rfl⟩
    show Tracks encode chain (height + 1) t.snapshot.toIndexer t.lastHash
    rw [hbooks]
    exact ht

/-- The loop follows the chain as far as it gets, and to its end if it returns `Ok`. -/
theorem scanLoop_tracks (hfetch : FromChain chain fetch) {rounds applied : Nat}
    {result : Except String Nat} (hs : Tracks encode chain height s.toIndexer s.lastHash)
    (h : scanLoop encode fetch tip rounds height applied s = some (t, result)) :
    ∃ n, height ≤ n ∧ Tracks encode chain n t.toIndexer t.lastHash ∧
      (∀ cp ∈ t.checkpoint, cp ∈ s.checkpoint ∨ cp.1 < n ∧ CheckpointOf encode chain cp) ∧
      (∀ k, result = .ok k → n = height + rounds) := by
  induction rounds generalizing height applied s with
  | zero =>
    obtain ⟨rfl, rfl⟩ := Prod.mk.inj (Option.some.inj h)
    exact ⟨height, le_rfl, hs, fun cp hcp => Or.inl hcp, fun _ _ => rfl⟩
  | succ rounds ih =>
    unfold scanLoop at h
    cases hanswer : fetch (2 + applied) height with
    | error e =>
      rw [hanswer] at h
      obtain ⟨rfl, rfl⟩ := Prod.mk.inj (Option.some.inj h)
      refine ⟨height, le_rfl, hs, fun cp hcp => Or.inl hcp, ?_⟩
      intro k hk
      cases hk
    | ok served =>
      rw [hanswer] at h
      obtain ⟨s', hadvance, hloop⟩ := Option.bind_eq_some_iff.mp h
      obtain ⟨hs', hcp'⟩ := tracks_advance hs (hfetch _ _ _ hanswer) hadvance
      obtain ⟨n, hle, ht, hcp, hok⟩ := ih hs' hloop
      refine ⟨n, by omega, ht, ?_, ?_⟩
      · intro cp hmem
        -- The checkpoint was there before, or was taken in this round or a later one.
        rcases hcp cp hmem with hold | hnew
        · rcases hcp' cp hold with hold | ⟨hheight, hof⟩
          · exact Or.inl hold
          · exact Or.inr ⟨by omega, hof⟩
        · exact Or.inr hnew
      · intro k hk
        have := hok k hk
        omega

/-- Against a node that answers, the loop gets as far as the replay does. -/
theorem scanLoop_serve (tip rounds applied : Nat) {idx : Indexer}
    (hs : Tracks encode chain height s.toIndexer s.lastHash)
    (hidx : idx.Replays encode chain (height + rounds)) :
    ∃ t, scanLoop encode (serve chain) tip rounds height applied s
      = some (t, .ok (applied + rounds)) := by
  induction rounds generalizing height applied s with
  | zero => exact ⟨s, rfl⟩
  | succ rounds ih =>
    obtain ⟨idx', hidx'⟩ := hidx.of_le (show height + 1 ≤ height + (rounds + 1) by omega)
    have hlt : height < chain.length := by
      have hle := hidx'.le
      rw [length_blocksOf] at hle
      omega
    have hserved := List.getElem?_eq_getElem hlt
    obtain ⟨block, hblock, happly⟩ := hs.books.next hidx'
    rw [getElem?_blocksOf hserved] at hblock
    obtain rfl := Option.some.inj hblock
    -- The replay goes on past this block, so applying it does not panic.
    obtain ⟨s', hadvance⟩ : ∃ s', s.advance encode tip height chain[height] = some s' :=
      advance_isSome tip happly
    obtain ⟨hs', _⟩ := tracks_advance hs hserved hadvance
    obtain ⟨t, ht⟩ := ih (applied + 1) hs' (by rwa [Nat.add_right_comm, Nat.add_assoc])
    refine ⟨t, ?_⟩
    unfold scanLoop serve
    rw [hserved]
    show (s.advance encode tip height chain[height]).bind _ = _
    rw [hadvance]
    show scanLoop encode (serve chain) tip rounds (height + 1) (applied + 1) s' = _
    rw [ht]
    congr 3
    omega

end SyncIndexer

end Tensorium
