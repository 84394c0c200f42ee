import Tensorium.State.Runs

/-! # The persistent unspent outputs refine the replayed ones

    Three paths write the column family: the delta of the fast path, the
    rewrite of a reorganisation, and the lazy rebuild. A fourth, mining, moves
    the tip and leaves the family behind with a stale stamp. Whenever the stamp
    names the tip, the family is the replay of the canonical chain.
-/

namespace Tensorium

open BulkMap ParentLinked

namespace ChainState

variable {P : Primitives} {params : ConsensusParams} {U : Set Block} {s : ChainState} {L : Ledger}
variable {block : Block}

namespace Represents

variable (hR : Represents P params s L) (hL : L.WellFormed P U)

include hR hL in
/-- A stamp that names the tip: the family is the replay of the canonical chain. -/
theorem replay_of_stamp (hstamp : s.db.metaUtxoTip = some (s.tipHash P)) :
    replayUtxo P params s.canonicalBlocksIter = .ok s.db.utxo := by
  obtain ⟨t, ht, hok⟩ := hR.utxo _ hstamp
  rw [hR.tipHash_eq] at ht
  have hne : L.chain ≠ [] := by
    -- Without a chain the tip hash is zero, and no block is filed under zero.
    intro hempty
    obtain ⟨b, _, _, hb⟩ := ht.head
    exact hL.nonempty _ _ hb hempty
  rw [hR.canonicalBlocksIter_eq hL, ← ht.unique (hL.chain_ancestry hne)]
  exact hok

end Represents

/-- `validate_block_utxo`, which seeds only the inputs the block references,
    accepts exactly what `apply_block` accepts on the whole family. -/
theorem validateBlockUtxo_ok_iff (s : ChainState) (block : Block) :
    s.validateBlockUtxo P params block = .ok () ↔
      ∃ u', applyBlock P params block s.db.utxo = .ok u' := by
  have hseed : ∀ e, applyBlock P params block (s.seedUtxo block) = .error e ↔
      applyBlock P params block s.db.utxo = .error e :=
    Represents.applyBlock_seedUtxo_error s block
  unfold validateBlockUtxo
  constructor
  · intro h
    cases hfull : applyBlock P params block s.db.utxo with
    | ok u' => exact ⟨u', rfl⟩
    | error e =>
      rw [(hseed e).mpr hfull] at h
      cases h
  · rintro ⟨u', hu'⟩
    cases hsub : applyBlock P params block (s.seedUtxo block) with
    | ok _ => rfl
    | error e =>
      rw [(hseed e).mp hsub] at hu'
      cases hu'

/-- The delta batch turns the family into the set `apply_block` returns. -/
theorem write_applyUtxoDelta_eq {u' : UtxoSet}
    (h : applyBlock P params block s.db.utxo = .ok u') :
    (s.db.write (applyUtxoDeltaToBatch block)).utxo = u' := by
  obtain ⟨_, _, _, _, _, _, _, rfl⟩ := applyBlock_ok h
  rw [write_applyUtxoDelta]

/-- **The persistent set of unspent outputs refines the replayed one.** In every
    reachable state in which the stamp names the tip, the column family is the
    replay of the canonical chain from genesis; on a block that extends the tip
    the seeded check then decides as `apply_block` on the replayed set does, and
    the delta batch produces the same set. -/
theorem utxo_refines_replay (P : Primitives) (params : ConsensusParams) (U : Set Block)
    (hU : HashFaithful P U) (s : ChainState) (hs : Reachable P params U s)
    (hstamp : s.db.metaUtxoTip = some (s.tipHash P)) :
    ∃ u, replayUtxo P params s.canonicalBlocksIter = .ok u ∧ s.db.utxo = u ∧
      ∀ block : Block, block.header.previousHash = s.tipHash P →
        (s.validateBlockUtxo P params block = .ok () ↔
          ∃ u', applyBlock P params block u = .ok u') ∧
        ∀ u', applyBlock P params block u = .ok u' →
          (s.db.write (applyUtxoDeltaToBatch block)).utxo = u' := by
  obtain ⟨L, hR, hL⟩ := hs.represents hU
  refine ⟨s.db.utxo, hR.replay_of_stamp hL hstamp, rfl, fun block _ => ⟨?_, ?_⟩⟩
  · exact validateBlockUtxo_ok_iff s block
  · exact fun u' hu' => write_applyUtxoDelta_eq hu'

theorem sampleRun_utxo_refines :
    sampleRun.db.metaUtxoTip = some (sampleRun.tipHash Primitives.sample) ∧
    ∃ u, replayUtxo Primitives.sample testParams sampleRun.canonicalBlocksIter = .ok u ∧
      sampleRun.db.utxo = u := by
  have hstamp : sampleRun.db.metaUtxoTip = some (sampleRun.tipHash Primitives.sample) := by
    decide +kernel
  obtain ⟨u, hreplay, hutxo, _⟩ := utxo_refines_replay Primitives.sample testParams _
    sampleBlocks_faithful sampleRun sampleRun_reachable hstamp
  exact ⟨hstamp, u, hreplay, hutxo⟩

end ChainState

end Tensorium
