import Tensorium.Assets.Conservation
import Tensorium.Indexer.Index
import Tensorium.Utxo.Accept
import Tensorium.Utxo.Frame

/-! # The source of an operation

    The indexer's map of addresses is never pruned and is written only for
    outputs that carry an address, transaction by transaction; consensus keeps
    one entry per unspent outpoint and checks a block against the set before
    it. The two agree on a spent outpoint as long as no outpoint is ever created
    with two different addresses.
-/

namespace Tensorium

open BulkMap Assets ExceptFold

variable {P : Primitives} {params : ConsensusParams} {encode : String → Bytes → String}

/-! ## Keys -/

theorem Indexer.outpointKey_injective : Function.Injective Indexer.outpointKey := by
  rintro ⟨txid, index⟩ ⟨txid', index'⟩ h
  unfold Indexer.outpointKey at h
  dsimp only at h
  rw [← String.toList_inj, String.toList_append, String.toList_append, String.toList_append,
    String.toList_append, List.append_assoc, List.append_assoc] at h
  -- The hexadecimal part has a fixed length.
  have hlen : ∀ t : Hash256, t.toHex.toList.length = 64 := by
    intro t
    unfold Hash256.toHex ByteCodec.hexEncode ByteCodec.hexDigits
    rw [String.toList_ofList, List.length_flatMap]
    simp [t.size]
  obtain ⟨htxid, hrest⟩ := List.append_inj h (by rw [hlen, hlen])
  have hindex := List.append_cancel_left hrest
  rw [Nat.toList_repr, Nat.toList_repr] at hindex
  have hnat := congrArg (fun ds => Nat.ofDigitChars 10 ds 0) hindex
  simp only [Nat.ofDigitChars_ten_toDigits] at hnat
  rw [Hash256.toHex_injective (String.toList_inj.mp htxid), UInt32.toNat_inj.mp hnat]

/-! ## What the chain creates -/

/-- The entries a list of blocks creates, in order. -/
def chainCreates (chain : List Block) : List (OutPoint × UtxoEntry) :=
  chain.flatMap Block.creates

/-- Two entries created at the same outpoint carry the same address, or both
    none. -/
def AddressStable (encode : String → Bytes → String) (chain : List Block) : Prop :=
  ∀ op e e', (op, e) ∈ chainCreates chain → (op, e') ∈ chainCreates chain →
    Script.extractAddress encode e.output.scriptPubkey
      = Script.extractAddress encode e'.output.scriptPubkey

/-- Every entry of a replayed set was created by the chain. -/
theorem replayUtxo_mem_creates {chain : List Block} {u : UtxoSet}
    (h : replayUtxo P params chain = .ok u) {op : OutPoint} {entry : UtxoEntry}
    (hentry : u.lookup op = some entry) : (op, entry) ∈ chainCreates chain := by
  induction chain using List.reverseRecOn generalizing u with
  | nil =>
    cases h
    cases hentry
  | append_singleton chain b ih =>
    rw [replayUtxo_concat] at h
    obtain ⟨u₀, hu₀, hb⟩ := bind_eq_ok.mp h
    obtain ⟨_, _, _, _, _, _, _, rfl⟩ := applyBlock_ok hb
    have happend : chainCreates (chain ++ [b]) = chainCreates chain ++ b.creates := by
      simp [chainCreates]
    rw [happend, List.mem_append]
    rw [lookup_applyDelta] at hentry
    -- The entry is one the last block creates, or an older one it leaves.
    cases hlast : lastBinding b.creates op with
    | some e =>
      rw [hlast, Option.some_or] at hentry
      obtain rfl := Option.some.inj hentry
      exact Or.inr (mem_of_lastBinding hlast)
    | none =>
      rw [hlast, Option.none_or] at hentry
      split_ifs at hentry with hspent
      exact Or.inl (ih hu₀ hentry)

namespace Indexer

/-- The indexer records an address for an outpoint exactly when an entry with
    that address is created there. -/
theorem mem_addressBindings {tx : Transaction} {op : OutPoint} {addr : String} (height : Nat) :
    (outpointKey op, addr) ∈ addressBindings encode tx ↔
      ∃ e, (op, e) ∈ tx.creates height ∧
        Script.extractAddress encode e.output.scriptPubkey = some addr := by
  unfold addressBindings Transaction.creates
  simp only [List.mem_filterMap]
  constructor
  · rintro ⟨⟨o, i⟩, ho, hmap⟩
    obtain ⟨a, ha, hpair⟩ := Option.map_eq_some_iff.mp hmap
    obtain ⟨hkey, rfl⟩ := Prod.mk.inj hpair
    obtain rfl := outpointKey_injective hkey
    -- An output with an address is not an `OP_RETURN` output.
    have hspendable : ¬ o.scriptPubkey.head? = some Script.opReturnByte := by
      intro hreturn
      rw [Script.extractAddress_opReturn encode hreturn] at ha
      cases ha
    refine ⟨⟨o, height, tx.isCoinbase⟩, ⟨(o, i), ho, ?_⟩, ha⟩
    unfold Transaction.createdEntry
    rw [if_neg hspendable]
  · rintro ⟨e, ⟨⟨o, i⟩, ho, hcreated⟩, haddr⟩
    unfold Transaction.createdEntry at hcreated
    split_ifs at hcreated with hreturn
    obtain ⟨rfl, rfl⟩ := Prod.mk.inj (Option.some.inj hcreated)
    exact ⟨(o, i), ho, Option.map_eq_some_iff.mpr ⟨addr, haddr, rfl⟩⟩

/-! ## The map after a prefix of the chain -/

/-- Every binding is one some transaction of the list made. -/
def bindingsOf (encode : String → Bytes → String) (txs : List Transaction) :
    List (String × String) :=
  txs.flatMap (addressBindings encode)

/-- The state an indexer is in after the transactions `txs`: its map holds their
    bindings, and its assets are conserved. -/
structure Scanned (encode : String → Bytes → String) (txs : List Transaction)
    (idx : Indexer) : Prop where
  outpoints : idx.outpoints = insertAll ∅ (bindingsOf encode txs)
  conserved : idx.state.Conserved

theorem scanned_default (encode : String → Bytes → String) : Scanned encode [] default :=
  ⟨rfl, AssetState.conserved_default⟩

theorem pushHistory_frame (idx : Indexer) (addr : String) (entry : HistoryEntry) :
    (idx.pushHistory addr entry).outpoints = idx.outpoints ∧
      (idx.pushHistory addr entry).state = idx.state := ⟨rfl, rfl⟩

/-- Recording the history touches neither the map nor the assets. -/
theorem recordHistory_frame (idx : Indexer) (height : Nat) (txid : Hash256) (source : String)
    (dest : Option String) (op : AssetOp) :
    (idx.recordHistory height txid source dest op).outpoints = idx.outpoints ∧
      (idx.recordHistory height txid source dest op).state = idx.state := by
  unfold recordHistory
  dsimp only
  split_ifs
  · exact ⟨rfl, rfl⟩
  · exact ⟨rfl, rfl⟩

/-- Applying the operation of a transaction: it returns, leaves the map alone,
    keeps the assets conserved, and takes only from the resolved source. -/
theorem applyOp_spec (encode : String → Bytes → String) {idx : Indexer}
    (h : idx.state.Conserved) (tx : Transaction) (height : Nat) :
    ∃ idx', idx.applyOp encode tx height = some idx' ∧ idx'.outpoints = idx.outpoints ∧
      idx'.state.Conserved ∧
      ∀ addr id, AssetState.Loses idx.state idx'.state addr id →
        idx.resolveSource tx = some addr := by
  have hsame : ∀ addr id, AssetState.Loses idx.state idx.state addr id →
      idx.resolveSource tx = some addr :=
    fun addr id hloses => absurd hloses (AssetState.not_loses_self _ _ _)
  unfold applyOp
  cases hop : extractAssetOp tx with
  | none => exact ⟨idx, rfl, rfl, h, hsame⟩
  | some op =>
  cases hsrc : idx.resolveSource tx with
  | none =>
    rw [hsrc] at hsame
    exact ⟨idx, rfl, rfl, h, hsame⟩
  | some src =>
    obtain ⟨r, st, hcall, hsound⟩ := h.apply tx.id height src (destOf encode tx op) op
    have hloses : ∀ addr id, AssetState.Loses idx.state st addr id → some src = some addr :=
      fun addr id hl => congrArg some (h.source_of_loses hcall hl)
    dsimp only
    rw [hcall, Option.bind_eq_bind, Option.bind_some]
    dsimp only
    -- The history is written for an applied operation only, and is no part of the books.
    by_cases happlied : r = .applied
    · obtain ⟨hout, hstate⟩ := recordHistory_frame { idx with state := st } height tx.id src
        (destOf encode tx op) op
      rw [if_pos happlied]
      refine ⟨_, rfl, hout, ?_, ?_⟩
      · rw [hstate]
        exact hsound.conserved
      · rw [hstate]
        exact hloses
    · rw [if_neg happlied]
      exact ⟨_, rfl, rfl, hsound.conserved, hloses⟩

/-- One round of the loop. -/
theorem Scanned.applyTx {idx : Indexer} {txs : List Transaction} (h : Scanned encode txs idx)
    (tx : Transaction) (height : Nat) :
    ∃ idx', idx.applyTx encode height tx = some idx' ∧ Scanned encode (txs ++ [tx]) idx' ∧
      ∀ addr id, AssetState.Loses idx.state idx'.state addr id →
        idx.resolveSource tx = some addr := by
  obtain ⟨idx₁, hop, hout, hconserved, hloses⟩ := applyOp_spec encode h.conserved tx height
  refine ⟨idx₁.recordOutputs encode tx, ?_, ⟨?_, hconserved⟩, hloses⟩
  · unfold Indexer.applyTx
    rw [hop]
    rfl
  · show insertAll idx₁.outpoints (addressBindings encode tx) = _
    rw [hout, h.outpoints, ← insertAll_append]
    simp [bindingsOf]

theorem Scanned.applyTxs {idx : Indexer} {txs : List Transaction} (h : Scanned encode txs idx)
    (more : List Transaction) (height : Nat) :
    ∃ idx', idx.applyTxs encode height more = some idx' ∧ Scanned encode (txs ++ more) idx' := by
  induction more generalizing idx txs with
  | nil => exact ⟨idx, rfl, by rwa [List.append_nil]⟩
  | cons tx more ih =>
    obtain ⟨idx₁, htx, h₁, _⟩ := h.applyTx tx height
    obtain ⟨idx', hmore, h'⟩ := ih h₁
    refine ⟨idx', ?_, by rwa [List.append_assoc] at h'⟩
    unfold Indexer.applyTxs at hmore ⊢
    rw [List.foldlM_cons, htx]
    exact hmore

theorem Scanned.applyChain {idx : Indexer} {txs : List Transaction} (h : Scanned encode txs idx)
    (chain : List Block) :
    ∃ idx', idx.applyChain encode chain = some idx' ∧
      Scanned encode (txs ++ chain.flatMap Block.transactions) idx' := by
  induction chain generalizing idx txs with
  | nil => exact ⟨idx, rfl, by rwa [List.flatMap_nil, List.append_nil]⟩
  | cons b chain ih =>
    obtain ⟨idx₁, htxs, h₁⟩ := h.applyTxs b.transactions b.header.height
    have h₂ : Scanned encode (txs ++ b.transactions)
        { idx₁ with lastHeight := b.header.height, scannedAny := true } :=
      ⟨h₁.outpoints, h₁.conserved⟩
    obtain ⟨idx', hchain, h'⟩ := ih h₂
    refine ⟨idx', ?_, by rwa [List.append_assoc, ← List.flatMap_cons] at h'⟩
    unfold Indexer.applyChain at hchain ⊢
    rw [List.foldlM_cons]
    unfold Indexer.applyBlock
    rw [htxs]
    exact hchain

/-! ## The resolved source -/

/-- What the map holds for an outpoint: the address of any entry created there,
    if all of them agree. -/
theorem Scanned.lookup_eq {idx : Indexer} {txs : List Transaction} {chain : List Block}
    (h : Scanned encode txs idx) (hstable : AddressStable encode chain)
    (hsub : ∀ tx ∈ txs, ∃ height, ∀ c ∈ tx.creates height, c ∈ chainCreates chain)
    {op : OutPoint} {entry : UtxoEntry} (hchain : (op, entry) ∈ chainCreates chain)
    (hcreated : ∃ tx ∈ txs, ∃ height, (op, entry) ∈ tx.creates height) :
    idx.outpoints.lookup (outpointKey op)
      = Script.extractAddress encode entry.output.scriptPubkey := by
  -- Whatever is recorded for the outpoint is the address of this entry.
  have hagree : ∀ addr, (outpointKey op, addr) ∈ bindingsOf encode txs →
      Script.extractAddress encode entry.output.scriptPubkey = some addr := by
    intro addr hmem
    obtain ⟨tx, htx, hbind⟩ := List.mem_flatMap.mp hmem
    obtain ⟨height, hheight⟩ := hsub tx htx
    obtain ⟨e, he, haddr⟩ := (mem_addressBindings height).mp hbind
    rw [hstable op entry e hchain (hheight _ he)]
    exact haddr
  rw [h.outpoints, lookup_insertAll, Finmap.lookup_empty, Option.or_none]
  cases haddr : Script.extractAddress encode entry.output.scriptPubkey with
  | some addr =>
    obtain ⟨tx, htx, height, hmem⟩ := hcreated
    refine lastBinding_eq_some ?_ ?_
    · exact List.mem_flatMap.mpr ⟨tx, htx, (mem_addressBindings height).mpr ⟨entry, hmem, haddr⟩⟩
    · intro addr' hmem'
      have h' := hagree addr' hmem'
      rw [haddr] at h'
      exact (Option.some.inj h').symm
  | none =>
    rw [lastBinding_eq_none]
    intro hmem
    obtain ⟨⟨key, addr⟩, hpair, rfl⟩ := List.mem_map.mp hmem
    have h' := hagree addr hpair
    rw [haddr] at h'
    cases h'

/-- **The indexer attributes an operation to the address that consensus checked**,
    on every accepted chain whose outpoints keep their addresses. When it comes to
    a transaction behind the coinbase, the source it resolves is the address of
    the entry that consensus spends for the first input, as it stands in the set
    before the block. So whoever loses an asset in that transaction is the address
    of that entry, whose script has executed. -/
theorem resolveSource_agrees (P : Primitives) (params : ConsensusParams)
    (encode : String → Bytes → String) (pre post : List Block) (b : Block)
    (before after : List Transaction) (tx : Transaction)
    (haccepted : ∃ v, replayUtxo P params (pre ++ b :: post) = .ok v)
    (htxs : b.transactions = before ++ tx :: after) (hne : before ≠ [])
    (hstable : AddressStable encode (pre ++ b :: post)) :
    ∃ u idx idx', replayUtxo P params pre = .ok u ∧
      ((default.applyChain encode pre).bind fun idx =>
        idx.applyTxs encode b.header.height before) = some idx ∧
      idx.applyTx encode b.header.height tx = some idx' ∧
      (∀ input, tx.inputs.head? = some input →
        ∃ entry, Spendable P params u b.header.height tx input entry ∧
          idx.resolveSource tx = Script.extractAddress encode entry.output.scriptPubkey) ∧
      ∀ addr id, AssetState.Loses idx.state idx'.state addr id →
        ∃ input entry, tx.inputs.head? = some input ∧
          Spendable P params u b.header.height tx input entry ∧
          Script.extractAddress encode entry.output.scriptPubkey = some addr := by
  obtain ⟨v, hv⟩ := haccepted
  unfold replayUtxo at hv
  rw [List.foldlM_append] at hv
  obtain ⟨u, hu, hrest⟩ := bind_eq_ok.mp hv
  obtain ⟨u', hb, _⟩ := foldlM_cons_ok.mp hrest
  obtain ⟨_, hspends⟩ := applyBlock_spends hb
  obtain ⟨idx₀, hpre, h₀⟩ := (scanned_default encode).applyChain pre
  obtain ⟨idx, hbefore, h⟩ := h₀.applyTxs before b.header.height
  obtain ⟨idx', htx, _, hloses⟩ := h.applyTx tx b.header.height
  rw [List.nil_append] at h
  -- What the scanned transactions create, the chain creates.
  have hpreCreates : ∀ c ∈ chainCreates pre, c ∈ chainCreates (pre ++ b :: post) := by
    intro c hc
    unfold chainCreates
    rw [List.flatMap_append]
    exact List.mem_append_left _ hc
  have hsub : ∀ tx' ∈ pre.flatMap Block.transactions ++ before,
      ∃ height, ∀ c ∈ tx'.creates height, c ∈ chainCreates (pre ++ b :: post) := by
    intro tx' htx'
    have hblock : ∃ b' ∈ pre ++ b :: post, tx' ∈ b'.transactions := by
      rcases List.mem_append.mp htx' with hin | hin
      · obtain ⟨b', hb', hmem⟩ := List.mem_flatMap.mp hin
        exact ⟨b', List.mem_append_left _ hb', hmem⟩
      · refine ⟨b, by simp, ?_⟩
        rw [htxs]
        exact List.mem_append_left _ hin
    obtain ⟨b', hb', hmem⟩ := hblock
    refine ⟨b'.header.height, fun c hc => ?_⟩
    exact List.mem_flatMap.mpr ⟨b', hb', List.mem_flatMap.mpr ⟨tx', hmem, hc⟩⟩
  have hdrop : tx ∈ b.transactions.drop 1 := by
    obtain ⟨first, rest, rfl⟩ := List.exists_cons_of_ne_nil hne
    rw [htxs]
    simp
  have hsource : ∀ input, tx.inputs.head? = some input →
      ∃ entry, Spendable P params u b.header.height tx input entry ∧
        idx.resolveSource tx = Script.extractAddress encode entry.output.scriptPubkey := by
    intro input hinput
    obtain ⟨entry, hspend⟩ := hspends tx hdrop input (List.mem_of_head? hinput)
    have hcreated := replayUtxo_mem_creates hu hspend.1
    refine ⟨entry, hspend, ?_⟩
    unfold resolveSource
    rw [hinput, Option.bind_some]
    refine h.lookup_eq hstable hsub (hpreCreates _ hcreated) ?_
    obtain ⟨b', hb', hmem⟩ := List.mem_flatMap.mp hcreated
    obtain ⟨tx', htx', hc⟩ := List.mem_flatMap.mp hmem
    exact ⟨tx', List.mem_append_left _ (List.mem_flatMap.mpr ⟨b', hb', htx'⟩), _, hc⟩
  refine ⟨u, idx, idx', hu, ?_, htx, hsource, ?_⟩
  · rw [hpre]
    exact hbefore
  · intro addr id hl
    have hsrc := hloses addr id hl
    cases hinput : tx.inputs.head? with
    | none =>
      unfold resolveSource at hsrc
      rw [hinput] at hsrc
      cases hsrc
    | some input =>
      obtain ⟨entry, hspend, heq⟩ := hsource input hinput
      exact ⟨input, entry, rfl, hspend, heq.symm.trans hsrc⟩

/-! ## A chain on which the two disagree -/

/-- The coinbase of block 0, which pays an address. -/
def payingCoinbase : Transaction :=
  Transaction.coinbase Primitives.sample 0 (rewardAtHeight testParams 0) "a"

/-- A coinbase of block 1 under the same identifier, whose output anyone can
    spend. -/
def openCoinbase : Transaction where
  id := payingCoinbase.id
  inputs := []
  outputs := [⟨1, [0x51]⟩]
  payload := Transaction.coinbasePayload 1 1 "b"

/-- A block with an empty coinbase and the given transactions. -/
def plainBlock (height : Nat) (txs : List Transaction) : Block :=
  bareBlock height (Transaction.coinbase Primitives.sample height 0 "a" :: txs)

/-- The spend of that output. -/
def openSpend : Transaction where
  id := Hash256.ofSuffix [9]
  inputs := [⟨⟨payingCoinbase.id, 0⟩, []⟩]
  outputs := []
  payload := []

/-- The first eleven blocks; the open coinbase matures behind them. -/
def reusedIdChain (second : Transaction) : List Block :=
  bareBlock 0 [payingCoinbase] :: bareBlock 1 [second]
    :: (List.range 9).map fun i => plainBlock (i + 2) []

/-- The chain is accepted; the entry consensus spends has no address, and the
    indexer names the payee of block 0 as the source. -/
theorem resolveSource_stale :
    (replayUtxo Primitives.sample testParams
      (reusedIdChain openCoinbase ++ [plainBlock 11 [openSpend]])).isOk = true ∧
    ((replayUtxo Primitives.sample testParams (reusedIdChain openCoinbase)).toOption.bind
        fun u => (u.lookup ⟨payingCoinbase.id, 0⟩).map fun e =>
          Script.extractAddress sampleEncode e.output.scriptPubkey) = some none ∧
    (((default.applyChain sampleEncode (reusedIdChain openCoinbase)).bind fun idx =>
        idx.applyTxs sampleEncode 11 [Transaction.coinbase Primitives.sample 11 0 "a"]).bind
      fun idx => idx.resolveSource openSpend)
      = Script.extractAddress sampleEncode (Transaction.payTo Primitives.sample "a") ∧
    (Script.extractAddress sampleEncode (Transaction.payTo Primitives.sample "a")).isSome = true := by
  decide

/-- A public key, and a coinbase of block 1 that pays to it. -/
def ownKey : Bytes := List.replicate 33 7

def ownCoinbase : Transaction where
  id := Hash256.ofSuffix [8]
  inputs := []
  outputs := [⟨1, Script.p2pkhFromPubkey Primitives.sample ownKey⟩]
  payload := Transaction.coinbasePayload 1 1 "b"

/-- The spend of that output, signed. -/
def ownSpend : Transaction :=
  let unsigned : Transaction :=
    ⟨Hash256.ofSuffix [9], [⟨⟨Hash256.ofSuffix [8], 0⟩, []⟩], [], []⟩
  let signature := ownKey ++ (unsigned.signatureHash Primitives.sample).bytes
  { unsigned with
    inputs := [⟨⟨Hash256.ofSuffix [8], 0⟩, Script.p2pkhScriptSig signature ownKey⟩] }

theorem resolveSource_ownSpend :
    ∃ u, ∃ idx : Indexer, ∃ entry,
      replayUtxo Primitives.sample testParams (reusedIdChain ownCoinbase) = .ok u ∧
      ((default.applyChain sampleEncode (reusedIdChain ownCoinbase)).bind fun idx =>
        idx.applyTxs sampleEncode 11 [Transaction.coinbase Primitives.sample 11 0 "a"]) = some idx ∧
      u.lookup ⟨Hash256.ofSuffix [8], 0⟩ = some entry ∧
      idx.resolveSource ownSpend
        = Script.extractAddress sampleEncode entry.output.scriptPubkey := by
  have hcreates : ∀ c ∈ chainCreates (reusedIdChain ownCoinbase ++ [plainBlock 11 [ownSpend]]),
      ∀ c' ∈ chainCreates (reusedIdChain ownCoinbase ++ [plainBlock 11 [ownSpend]]),
      c.1 = c'.1 → Script.extractAddress sampleEncode c.2.output.scriptPubkey
        = Script.extractAddress sampleEncode c'.2.output.scriptPubkey := by
    decide
  have hok : (replayUtxo Primitives.sample testParams
      (reusedIdChain ownCoinbase ++ [plainBlock 11 [ownSpend]])).isOk = true := by
    decide
  obtain ⟨u, idx, _, hu, hidx, _, hsource, _⟩ := resolveSource_agrees Primitives.sample testParams
    sampleEncode (reusedIdChain ownCoinbase) [] (plainBlock 11 [ownSpend])
    [Transaction.coinbase Primitives.sample 11 0 "a"] [] ownSpend
    (by
      cases hreplay : replayUtxo Primitives.sample testParams
          (reusedIdChain ownCoinbase ++ [plainBlock 11 [ownSpend]]) with
      | ok v => exact ⟨v, rfl⟩
      | error e => rw [hreplay] at hok; cases hok)
    rfl (by simp) (fun op e e' h h' => hcreates (op, e) h (op, e') h' rfl)
  obtain ⟨entry, hspend, heq⟩ := hsource _ rfl
  exact ⟨u, idx, entry, hu, hidx, hspend.1, heq⟩

end Indexer

end Tensorium
