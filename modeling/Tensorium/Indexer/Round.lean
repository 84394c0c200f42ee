import Tensorium.Assets.Operation
import Tensorium.Indexer.Source

/-! # The round of one transaction

    What the indexer makes of a transaction, somewhere in a block behind a chain that it
    has scanned: whose operation it is, and what becomes of the books.
-/

namespace Tensorium.Indexer

open BulkMap Assets

variable {P : Primitives} {params : ConsensusParams} {encode : String → Bytes → String}

/-- The indexer before and after a transaction that follows others in a block behind a
    chain. -/
structure Round (encode : String → Bytes → String) (pre : List Block) (b : Block)
    (before : List Transaction) (tx : Transaction) (idx idx' : Indexer) : Prop where
  scanned : ((default.applyChain encode pre).bind fun idx =>
    idx.applyTxs encode b.header.height before) = some idx
  applied : idx.applyTx encode b.header.height tx = some idx'

/-- There is always one, with conserved books before it. -/
theorem exists_round (encode : String → Bytes → String) (pre : List Block) (b : Block)
    (before : List Transaction) (tx : Transaction) :
    ∃ idx idx', Round encode pre b before tx idx idx' ∧
      Scanned encode (pre.flatMap Block.transactions ++ before) idx := by
  obtain ⟨idx₀, hpre, h₀⟩ := (scanned_default encode).applyChain pre
  obtain ⟨idx, hbefore, h⟩ := h₀.applyTxs before b.header.height
  obtain ⟨idx', htx, _⟩ := h.applyTx tx b.header.height
  rw [List.nil_append] at h
  refine ⟨idx, idx', ⟨?_, htx⟩, h⟩
  rw [hpre]
  exact hbefore

/-- The source is the address of an output that an earlier part of the chain has
    created. -/
theorem Scanned.resolveSource_eq {pre : List Block} {b : Block} {before after : List Transaction}
    {tx : Transaction} {idx : Indexer}
    (h : Scanned encode (pre.flatMap Block.transactions ++ before) idx)
    (htxs : b.transactions = before ++ tx :: after)
    (hstable : AddressStable encode (pre ++ [b])) {input : TxInput}
    (hinput : tx.inputs.head? = some input) {entry : UtxoEntry}
    (hcreated : (input.previousOutput, entry) ∈ chainCreates pre) :
    idx.resolveSource tx = Script.extractAddress encode entry.output.scriptPubkey := by
  have hsub : ∀ tx' ∈ pre.flatMap Block.transactions ++ before,
      ∃ height, ∀ c ∈ tx'.creates height, c ∈ chainCreates (pre ++ [b]) := by
    intro tx' htx'
    have hblock : ∃ b' ∈ pre ++ [b], tx' ∈ b'.transactions := by
      rcases List.mem_append.mp htx' with hin | hin
      · obtain ⟨b', hb', hmem⟩ := List.mem_flatMap.mp hin
        exact ⟨b', List.mem_append_left _ hb', hmem⟩
      · refine ⟨b, by simp, ?_⟩
        rw [htxs]
        exact List.mem_append_left _ hin
    obtain ⟨b', hb', hmem⟩ := hblock
    refine ⟨b'.header.height, fun c hc => ?_⟩
    exact List.mem_flatMap.mpr ⟨b', hb', List.mem_flatMap.mpr ⟨tx', hmem, hc⟩⟩
  unfold resolveSource
  rw [hinput, Option.bind_some]
  refine h.lookup_eq hstable hsub ?_ ?_
  · unfold chainCreates at hcreated ⊢
    rw [List.flatMap_append]
    exact List.mem_append_left _ hcreated
  · obtain ⟨b', hb', hmem⟩ := List.mem_flatMap.mp hcreated
    obtain ⟨tx', htx', hc⟩ := List.mem_flatMap.mp hmem
    exact ⟨tx', List.mem_append_left _ (List.mem_flatMap.mpr ⟨b', hb', htx'⟩), _, hc⟩

/-- The books after the round of an operation are those that `apply` leaves. -/
theorem applyTx_eq_apply {idx idx' : Indexer} {height : Nat} {tx : Transaction} {op : AssetOp}
    {source : String} (h : idx.applyTx encode height tx = some idx')
    (hop : extractAssetOp tx = some op) (hsource : idx.resolveSource tx = some source) :
    ∃ r, idx.state.apply tx.id height source (destOf encode tx op) op
      = some (r, idx'.state) := by
  obtain ⟨idx₁, happly, rfl⟩ := Option.map_eq_some_iff.mp h
  unfold applyOp at happly
  rw [hop, hsource] at happly
  dsimp only at happly
  obtain ⟨⟨r, state⟩, hcall, happly⟩ := Option.bind_eq_some_iff.mp happly
  refine ⟨r, ?_⟩
  have hstate : idx₁.state = state := by
    obtain rfl := Option.some.inj happly
    dsimp only
    by_cases happlied : r = .applied
    · rw [if_pos happlied, (recordHistory_frame _ _ _ _ _ _).2]
    · rw [if_neg happlied]
  show _ = some (r, idx₁.state)
  rw [hstate]
  exact hcall

/-- An operation that a transaction carries is done, in the name of whoever the first
    output it spends belongs to, if the books admit it; otherwise nothing is done. -/
theorem exists_round_of_operation {pre : List Block} {b : Block}
    {before after : List Transaction} {tx : Transaction} {op : AssetOp}
    (htxs : b.transactions = before ++ tx :: after)
    (hstable : AddressStable encode (pre ++ [b])) (hop : extractAssetOp tx = some op)
    {input : TxInput} (hinput : tx.inputs.head? = some input) {entry : UtxoEntry}
    (hcreated : (input.previousOutput, entry) ∈ chainCreates pre) {owner dest : String}
    (howner : Script.extractAddress encode entry.output.scriptPubkey = some owner)
    (hdest : ∀ d, op = .transfer d → destOf encode tx op = some dest) :
    ∃ idx idx', Round encode pre b before tx idx idx' ∧
      ((idx.state.Admits tx.id owner op ∧
          idx.state.Performs idx'.state tx.id b.header.height owner dest op) ∨
        (¬ idx.state.Admits tx.id owner op ∧ idx'.state = idx.state)) := by
  obtain ⟨idx, idx', hround, hscanned⟩ := exists_round encode pre b before tx
  have hsource := (hscanned.resolveSource_eq htxs hstable hinput hcreated).trans howner
  obtain ⟨r, hcall⟩ := applyTx_eq_apply hround.applied hop hsource
  -- The destination matters to a transfer only.
  have hnamed : idx.state.apply tx.id b.header.height owner (some dest) op
      = some (r, idx'.state) := by
    cases op with
    | issue d => exact hcall
    | nftMint d => exact hcall
    | transfer d =>
      rw [hdest d rfl] at hcall
      exact hcall
  exact ⟨idx, idx', hround, hscanned.conserved.apply_cases hnamed⟩

end Tensorium.Indexer
