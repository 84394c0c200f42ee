import Tensorium.Assets.Transfer
import Tensorium.Indexer.Source
import Tensorium.Settlement.Layout

/-! # Delivery of the asset

    `verify_settlement` does not look at the inputs. The indexer takes a transfer
    from the address whose output the first input spends, whoever the terms name
    as the seller.
-/

namespace Tensorium

open Assets AssetState Indexer

variable {encode : String → Bytes → String} {terms : SettlementTerms} {tx : Transaction}

/-- The first output is the destination. -/
theorem destOf_transfer (hcarrier : CarrierFirst encode tx terms.buyerAddr) :
    destOf encode tx (.transfer ⟨terms.assetId, terms.amount, 0⟩) = some terms.buyerAddr := by
  obtain ⟨carrier, rest, houtputs, _, hpays⟩ := hcarrier
  show tx.outputs[0]?.bind _ = _
  rw [houtputs]
  exact of_decide_eq_true hpays

/-- The round of a settlement changes the assets as the transfer of the resolved
    source does, if there is one. -/
theorem applyTx_settlement {idx idx' : Indexer} {height : Nat}
    (hverified : verifySettlement encode tx terms = some [])
    (h : idx.applyTx encode height tx = some idx') :
    (idx.resolveSource tx = none ∧ idx'.state = idx.state) ∨
      ∃ source r, idx.resolveSource tx = some source ∧
        idx.state.applyTransfer source (some terms.buyerAddr) ⟨terms.assetId, terms.amount, 0⟩
          = some (r, idx'.state) := by
  obtain ⟨_, htransfer, hcarrier, _⟩ := verifySettlement_nil_iff.mp hverified
  obtain ⟨idx₁, happly, rfl⟩ := Option.map_eq_some_iff.mp h
  unfold applyOp at happly
  rw [htransfer] at happly
  cases hsource : idx.resolveSource tx with
  | none =>
    rw [hsource] at happly
    cases happly
    exact Or.inl ⟨rfl, rfl⟩
  | some source =>
    rw [hsource] at happly
    dsimp only at happly
    rw [destOf_transfer hcarrier] at happly
    obtain ⟨⟨r, state⟩, hcall, happly⟩ := Option.bind_eq_some_iff.mp happly
    refine Or.inr ⟨source, r, rfl, ?_⟩
    have hstate : idx₁.state = state := by
      obtain rfl := Option.some.inj happly
      dsimp only
      by_cases happlied : r = .applied
      · rw [if_pos happlied, (recordHistory_frame _ _ _ _ _ _).2]
      · rw [if_neg happlied]
    show _ = some (r, idx₁.state)
    rw [hstate]
    exact hcall

/-- The output that the first input spends is recorded with the address of the
    seller; or nothing has to move, and nothing does. -/
def Indexer.Delivers (idx : Indexer) (tx : Transaction) (terms : SettlementTerms) : Prop :=
  terms.amount = 0 ∨ idx.resolveSource tx = some terms.sellerAddr ∨
    terms.sellerAddr = terms.buyerAddr ∧
      ∀ source, idx.resolveSource tx = some source →
        ¬ idx.state.Holds terms.assetId terms.amount source

theorem moves_iff_delivers {idx idx' : Indexer} {height : Nat}
    (hverified : verifySettlement encode tx terms = some [])
    (h : idx.applyTx encode height tx = some idx')
    (hholds : idx.state.Holds terms.assetId terms.amount terms.sellerAddr) :
    Moves idx.state idx'.state terms.assetId terms.amount terms.sellerAddr terms.buyerAddr ↔
      idx.Delivers tx terms := by
  have hknown : ∃ info, idx.state.assets.lookup terms.assetId = some info := by
    cases hholds with
    | balance hid => exact ⟨_, hid⟩
    | token hid => exact ⟨_, hid⟩
  -- What the seller holds is an asset the indexer knows.
  obtain ⟨info, hid⟩ := hknown
  unfold Delivers
  rcases applyTx_settlement hverified h with ⟨hnone, hstate⟩ | ⟨source, r, hsource, hcall⟩
  · rw [hnone, hstate, moves_self_iff hholds]
    simp
  · rw [hsource]
    -- The transfer takes from the source that the inputs give, or is ignored.
    rcases applyTransfer_cases hid hcall with ⟨hpos, hable, hmoves⟩ | ⟨hignored, hstate⟩
    · constructor
      · intro hwanted
        rw [hmoves.source_eq hpos hwanted]
        exact Or.inr (Or.inl rfl)
      · rintro (hzero | hseller | ⟨_, hnot⟩)
        · exact absurd hzero hpos
        · rw [← Option.some.inj hseller]
          exact hmoves
        · exact absurd hable (hnot source rfl)
    · rw [hstate, moves_self_iff hholds]
      constructor
      · rintro (hzero | hsame)
        · exact Or.inl hzero
        · rcases hignored with hzero | hnot
          · exact Or.inl hzero
          · refine Or.inr (Or.inr ⟨hsame, ?_⟩)
            intro other hother
            rwa [← Option.some.inj hother]
      · rintro (hzero | hseller | ⟨hsame, _⟩)
        · exact Or.inl hzero
        · rw [Option.some.inj hseller] at hignored
          exact Or.inl (hignored.resolve_right (not_not_intro hholds))
        · exact Or.inr hsame

/-- **A settlement that passes the check delivers if its first input is the
    seller's.** Behind any chain and any part of a block, `apply_block` comes to the
    transaction in a state in which the seller may have the asset to give; it then
    moves exactly the amount to the buyer if and only if the output that the first
    input spends is recorded with the address of the seller, or nothing has to move. -/
theorem settlement_moves_iff (encode : String → Bytes → String) (pre : List Block) (b : Block)
    (before after : List Transaction) (tx : Transaction) (terms : SettlementTerms)
    (htxs : b.transactions = before ++ tx :: after)
    (hverified : verifySettlement encode tx terms = some []) :
    ∃ idx idx',
      ((default.applyChain encode pre).bind fun idx =>
        idx.applyTxs encode b.header.height before) = some idx ∧
      idx.applyTx encode b.header.height tx = some idx' ∧
      ((default.applyChain encode pre).bind fun idx => idx.applyBlock encode b b.header.height)
        = (idx'.applyTxs encode b.header.height after).map (fun idx =>
          { idx with lastHeight := b.header.height, scannedAny := true }) ∧
      (idx.state.Holds terms.assetId terms.amount terms.sellerAddr →
        (Moves idx.state idx'.state terms.assetId terms.amount terms.sellerAddr terms.buyerAddr ↔
          idx.Delivers tx terms)) := by
  obtain ⟨idx₀, hpre, h₀⟩ := (scanned_default encode).applyChain pre
  obtain ⟨idx, hbefore, h⟩ := h₀.applyTxs before b.header.height
  obtain ⟨idx', htx, _⟩ := h.applyTx tx b.header.height
  refine ⟨idx, idx', ?_, htx, ?_, moves_iff_delivers hverified htx⟩
  · rw [hpre]
    exact hbefore
  · rw [hpre, Option.bind_some]
    unfold Indexer.applyBlock
    rw [htxs]
    unfold applyTxs at hbefore ⊢
    rw [List.foldlM_append, hbefore]
    show (List.foldlM (applyTx encode b.header.height) idx (tx :: after)).map _ = _
    rw [List.foldlM_cons, htx]
    rfl

/-! ## A sale anchored elsewhere -/

section Sale

/-- The key of the seller. -/
def sellerKey : Bytes := List.replicate 33 7

/-- The key of a wallet that has no part in the sale. -/
def otherKey : Bytes := List.replicate 33 8

/-- The key of the buyer. -/
def buyerKey : Bytes := List.replicate 33 9

def scriptOfKey (key : Bytes) : Bytes := Script.p2pkhFromPubkey Primitives.sample key

def addressOfKey (key : Bytes) : String :=
  sampleEncode Script.addressHrp ((Primitives.sample.sha256 key).bytes.take 20)

/-- A coinbase of block 1 that funds the three. -/
def fundingCoinbase : Transaction where
  id := Hash256.ofSuffix [8]
  inputs := []
  outputs := [⟨2000, scriptOfKey sellerKey⟩, ⟨2000, scriptOfKey otherKey⟩,
    ⟨2000, scriptOfKey buyerKey⟩, ⟨2000, scriptOfKey sellerKey⟩]
  payload := Transaction.coinbasePayload 1 1 "b"

/-- A transaction that spends outputs of the funding, signed by their keys. -/
def spendFunding (id : Hash256) (spends : List (UInt32 × Bytes)) (outputs : List TxOutput) :
    Transaction :=
  let unsigned : Transaction :=
    ⟨id, spends.map fun spend => ⟨⟨fundingCoinbase.id, spend.1⟩, []⟩, outputs, []⟩
  let hash := (unsigned.signatureHash Primitives.sample).bytes
  { unsigned with
    inputs := spends.map fun spend =>
      ⟨⟨fundingCoinbase.id, spend.1⟩, Script.p2pkhScriptSig (spend.2 ++ hash) spend.2⟩ }

/-- The seller issues five pieces of an asset. -/
def saleIssue : Transaction :=
  spendFunding (Hash256.ofSuffix [9]) [(0, sellerKey)]
    [⟨0, opReturnScript (encodeOp (.issue ⟨"A", 0, 5, "", 0⟩))⟩]

/-- The sale of all of them, at a price too small for a fee. -/
def saleTerms : SettlementTerms where
  assetId := Hash256.ofSuffix [9]
  amount := 5
  priceAtoms := 39
  royaltyBps := 0
  royaltyAddr := ""
  sellerAddr := addressOfKey sellerKey
  buyerAddr := addressOfKey buyerKey
  minerFeeAtoms := 2961

/-- The settlement, with the given output of the funding spent first. -/
def saleSettlement (anchor : UInt32 × Bytes) : Transaction :=
  spendFunding (Hash256.ofSuffix [10]) [anchor, (2, buyerKey)]
    [⟨1000, scriptOfKey buyerKey⟩, transferOutput saleTerms, ⟨39, scriptOfKey sellerKey⟩]

def saleChain : List Block := reusedIdChain fundingCoinbase ++ [plainBlock 11 [saleIssue]]

def saleBlock (anchor : UInt32 × Bytes) : Block := plainBlock 12 [saleSettlement anchor]

/-- The indexer when it comes to the settlement. -/
def saleIndexer : Option Indexer :=
  (default.applyChain sampleEncode saleChain).bind fun idx =>
    idx.applyTxs sampleEncode 12 [Transaction.coinbase Primitives.sample 12 0 "a"]

theorem saleSettlement_verified (anchor : UInt32 × Bytes) :
    verifySettlement sampleEncode (saleSettlement anchor) saleTerms = some [] := by
  have hcarrier : CarriesNone ⟨1000, scriptOfKey buyerKey⟩ := by
    intro data hdata
    cases hdata
  apply verifySettlement_nil_iff.mpr
  have hproceeds : ⟨39, scriptOfKey sellerKey⟩ ∈ (saleSettlement anchor).outputs :=
    List.mem_cons_of_mem _ (List.mem_cons_of_mem _ List.mem_cons_self)
  have hseller : TxOutput.paysTo sampleEncode saleTerms.sellerAddr ⟨39, scriptOfKey sellerKey⟩
      = true := by decide
  refine ⟨by decide, extractAssetOp_transferOutput rfl hcarrier, ⟨_, _, rfl, rfl, by decide⟩, ?_,
    ?_, ?_⟩
  · intro hpos
    exact absurd hpos (by decide)
  · intro hpos
    exact absurd hpos (by decide)
  · exact ⟨_, List.mem_map_of_mem (List.mem_filter.mpr ⟨hproceeds, hseller⟩), by decide⟩

theorem saleIndexer_holds {idx : Indexer} (h : saleIndexer = some idx) :
    idx.state.Holds saleTerms.assetId saleTerms.amount saleTerms.sellerAddr := by
  have hkind : saleIndexer.map (fun idx =>
      (idx.state.assets.lookup saleTerms.assetId).map AssetInfo.kind) = some (some .fungible) := by
    decide
  have hbalance : saleIndexer.map (fun idx =>
      idx.state.ftBalance saleTerms.sellerAddr saleTerms.assetId) = some 5 := by
    decide
  rw [h] at hkind hbalance
  obtain ⟨info, hid, hfungible⟩ := Option.map_eq_some_iff.mp (Option.some.inj hkind)
  exact .balance hid hfungible (UInt64.le_of_eq (Option.some.inj hbalance).symm)

/-- Anchored at an output of the seller, the settlement delivers. -/
theorem settlement_moves_iff_seller :
    ∃ idx idx' : Indexer, saleIndexer = some idx ∧
      idx.applyTx sampleEncode 12 (saleSettlement (3, sellerKey)) = some idx' ∧
      Moves idx.state idx'.state saleTerms.assetId 5 saleTerms.sellerAddr saleTerms.buyerAddr := by
  have hsource : saleIndexer.map (fun idx => idx.resolveSource (saleSettlement (3, sellerKey)))
      = some (some saleTerms.sellerAddr) := by
    decide
  obtain ⟨idx, idx', hidx, htx, _, hiff⟩ := settlement_moves_iff sampleEncode saleChain
    (saleBlock (3, sellerKey)) [Transaction.coinbase Primitives.sample 12 0 "a"] []
    (saleSettlement (3, sellerKey)) saleTerms rfl (saleSettlement_verified _)
  have hidx : saleIndexer = some idx := hidx
  refine ⟨idx, idx', hidx, htx, (hiff (saleIndexer_holds hidx)).mpr (Or.inr (Or.inl ?_))⟩
  rw [hidx] at hsource
  exact Option.some.inj hsource

set_option maxRecDepth 4000 in
/-- Anchored at an output of another wallet, the settlement passes the check and is
    accepted in a block; the seller has the asset, and it stays there. -/
theorem settlement_not_delivered :
    (replayUtxo Primitives.sample testParams (saleChain ++ [saleBlock (1, otherKey)])).isOk = true ∧
      verifySettlement sampleEncode (saleSettlement (1, otherKey)) saleTerms = some [] ∧
      ∃ idx idx' : Indexer, saleIndexer = some idx ∧
        idx.applyTx sampleEncode 12 (saleSettlement (1, otherKey)) = some idx' ∧
        idx.state.Holds saleTerms.assetId saleTerms.amount saleTerms.sellerAddr ∧
        ¬ Moves idx.state idx'.state saleTerms.assetId saleTerms.amount saleTerms.sellerAddr
          saleTerms.buyerAddr := by
  have hsource : saleIndexer.map (fun idx => idx.resolveSource (saleSettlement (1, otherKey)))
      = some (some (addressOfKey otherKey)) := by
    decide
  have haddr : saleTerms.sellerAddr ≠ saleTerms.buyerAddr ∧
      addressOfKey otherKey ≠ saleTerms.sellerAddr := by
    decide
  obtain ⟨idx₀, hchain, h₀⟩ := (scanned_default sampleEncode).applyChain saleChain
  obtain ⟨idx, hbefore, h⟩ := h₀.applyTxs [Transaction.coinbase Primitives.sample 12 0 "a"] 12
  obtain ⟨idx', htx, _⟩ := h.applyTx (saleSettlement (1, otherKey)) 12
  have hidx : saleIndexer = some idx := by
    unfold saleIndexer
    rw [hchain]
    exact hbefore
  have hholds := saleIndexer_holds hidx
  refine ⟨by decide, saleSettlement_verified _, idx, idx', hidx, htx, hholds, ?_⟩
  rw [hidx] at hsource
  have hsource : idx.resolveSource (saleSettlement (1, otherKey)) = some (addressOfKey otherKey) :=
    Option.some.inj hsource
  rw [moves_iff_delivers (saleSettlement_verified _) htx hholds]
  rintro (hzero | hseller | ⟨hsame, _⟩)
  · exact absurd hzero (by decide)
  · rw [hsource] at hseller
    exact haddr.2 (Option.some.inj hseller)
  · exact haddr.1 hsame

end Sale

end Tensorium
