import Tensorium.Node.MempoolInvariant
import Tensorium.Node.Spendable
import Tensorium.Utxo.Complete

/-! # When a node admits a transaction

    What `Mempool::add` refuses is refused by one of its own checks; and a node that
    stores a chain that replays asks `Mempool::add` about the canonical set of unspent
    outputs.
-/

namespace Tensorium

open BulkMap

/-! ## The mempool -/

namespace Mempool

variable {P : Primitives} {params : ConsensusParams} {order : PendingOrder} {m m' : Mempool}
variable {utxos : UtxoSet} {tx : Transaction} {tipHeight : Nat} {fee : UInt64}

/-- There is a place left, or one that an entry with a lower fee holds. -/
def HasRoom (m : Mempool) (fee : UInt64) : Prop :=
  m.pending.keys.card < maxMempoolTxs ∨
    ∃ key low, m.pending.lookup key = some low ∧ low.feeAtoms < fee

/-- The mempool takes a transaction that is valid with a given fee. -/
def Takes (m : Mempool) (tx : Transaction) (fee : UInt64) : Prop :=
  m.Admissible tx fee ∧ m.HasRoom fee

theorem foldl_cheaper_isSome {entries : List (String × MempoolEntry)}
    (best : Option (String × MempoolEntry)) (h : best.isSome ∨ entries ≠ []) :
    ∃ low, entries.foldl cheaper best = some low := by
  induction entries generalizing best with
  | nil => exact Option.isSome_iff_exists.mp (h.resolve_right (by simp))
  | cons e entries ih =>
    obtain ⟨low, hlow, _⟩ := cheaper_spec best e
    rw [List.foldl_cons, hlow]
    exact ih (some low) (Or.inl rfl)

theorem makeRoom_iff : (∃ m', m.makeRoom order fee = .ok m') ↔ m.HasRoom fee := by
  constructor
  · rintro ⟨m', h⟩
    rcases makeRoom_ok h with ⟨hspace, _⟩ | ⟨key, low, _, hlow, _, hless, _⟩
    · exact Or.inl hspace
    · exact Or.inr ⟨key, low, hlow, hless⟩
  · intro h
    unfold makeRoom
    by_cases hfull : m.pending.keys.card ≥ maxMempoolTxs
    · obtain ⟨key, cheap, hcheap, hless⟩ := h.resolve_left (not_lt.mpr hfull)
      have hmem := (order.mem_iff m.pending key cheap).mpr hcheap
      obtain ⟨low, hlow⟩ := foldl_cheaper_isSome none
        (Or.inr (List.ne_nil_of_mem hmem))
      rw [← lowestFee_eq_foldl] at hlow
      -- The victim pays no more than the entry that is known to pay less.
      have hle := (lowestFee_spec hlow).2 _ hmem
      rw [if_pos hfull, hlow]
      dsimp only
      rw [if_pos (UInt64.lt_of_le_of_lt hle hless)]
      exact ⟨_, rfl⟩
    · rw [if_neg hfull]
      exact ⟨_, rfl⟩

/-- A valid transaction is added exactly if the mempool takes it at its fee. -/
theorem add_iff (hvalid : validateTransaction P utxos tx tipHeight params = .ok fee) :
    (∃ m', m.add P order utxos params tx tipHeight = .ok m') ↔ m.Takes tx fee := by
  constructor
  · rintro ⟨m', h⟩
    obtain ⟨fee', hfee', hadmissible, htakes⟩ := add_cases h
    obtain rfl := Except.ok.inj (hvalid.symm.trans hfee')
    refine ⟨hadmissible, ?_⟩
    rcases htakes with ⟨hspace, _⟩ | ⟨_, key, low, hlow, _, hless, _⟩
    · exact Or.inl hspace
    · exact Or.inr ⟨key, low, hlow, hless⟩
  · rintro ⟨hadmissible, hroom⟩
    obtain ⟨m₁, hm₁⟩ := makeRoom_iff.mpr hroom
    have hcoinbase : ¬ tx.isCoinbase = true := by simp [hadmissible.notCoinbase]
    have hknown : ¬ (m.pending.lookup tx.id.toHex).isSome = true := by simp [hadmissible.unknown]
    have hconflict : ¬ m.conflictsWithPending tx = true := by
      intro hconflict
      obtain ⟨key, entry, hentry, op, hop, htx⟩ := conflictsWithPending_iff.mp hconflict
      exact hadmissible.apart key entry hentry hop htx
    have hlow : ¬ fee < minRelayFeeAtoms := UInt64.not_lt.mpr hadmissible.relayFee
    unfold add
    rw [if_neg hcoinbase, if_neg hknown, if_neg hconflict, hvalid]
    dsimp only
    rw [if_neg hlow, hm₁]
    exact ⟨_, rfl⟩

end Mempool

/-! ## The node -/

namespace Node

variable {P : Primitives} {params : ConsensusParams} {U : Set Block} {node : Node}
variable {tx : Transaction} {fee : UInt64}

/-- A chain that replays is what the state behind the handlers is synchronised to. -/
theorem synced_of_replay (hU : HashFaithful P U) (hs : Sound P params U node) {u : UtxoSet}
    (hu : replayUtxo P params node.canonicalChain = .ok u) :
    ∃ s, node.loadState.ensureUtxoSynced P params = (.ok (), s) ∧ s.db.utxo = u ∧
      s.height = node.loadState.height := by
  obtain ⟨L, hR, hL⟩ := hs.represents hU
  have hreplay : replayUtxo P params L.chain.reverse = .ok u := by
    rw [← hu]
    unfold canonicalChain
    rw [hR.canonicalBlocksIter_eq hL]
  obtain ⟨s, hsync, hR', _⟩ := hR.ensureUtxoSynced_ok hL hreplay
  have hset := replay_of_synced hU hs hsync
  rw [hR'.canonicalBlocksIter_eq hL, hreplay] at hset
  refine ⟨s, hsync, (Except.ok.inj hset).symm, ?_⟩
  unfold ChainState.height
  rw [hR'.heightCache, hR.heightCache]

/-- The fee of a valid transaction is determined. -/
theorem ValidNow.fee_unique {fee' : UInt64} (h : node.ValidNow P params tx fee)
    (h' : node.ValidNow P params tx fee') : fee = fee' := by
  obtain ⟨u, hu, hfee⟩ := h
  obtain ⟨u', hu', hfee'⟩ := h'
  obtain rfl := Except.ok.inj (hu.symm.trans hu')
  exact Except.ok.inj (hfee.symm.trans hfee')

/-- What a node has admitted is valid now, and its mempool has taken it. -/
theorem acceptPeerTx_ok (hU : HashFaithful P U) (hs : Sound P params U node)
    {order : PendingOrder} (h : (node.acceptPeerTx P params order tx).1 = .ok ()) :
    ∃ fee, node.ValidNow P params tx fee ∧ node.mempool.Takes tx fee := by
  obtain ⟨L, hR, hL⟩ := hs.represents hU
  unfold acceptPeerTx at h
  cases hsync : node.loadState.ensureUtxoSynced P params with
  | mk result s =>
    rw [hsync] at h
    cases result with
    | error e => cases h
    | ok _ =>
      dsimp only at h
      cases hadd : node.mempool.add P order (seedUtxosForTx s tx) params tx (s.height.getD 0) with
      | error e =>
        rw [hadd] at h
        cases h
      | ok m =>
        obtain ⟨fee, hfee, _⟩ := Mempool.add_cases hadd
        have htakes := (Mempool.add_iff hfee).mp ⟨m, hadd⟩
        rw [validateTransaction_seeded] at hfee
        have hR' := hR.ensureUtxoSynced hL
        have hset := replay_of_synced hU hs hsync
        rw [hsync] at hR'
        refine ⟨fee, ⟨s.db.utxo, ?_, ?_⟩, htakes⟩
        · unfold canonicalChain
          rw [hR.canonicalBlocksIter_eq hL, ← hR'.canonicalBlocksIter_eq hL]
          exact hset
        · have hheight : node.loadState.height = s.height := by
            unfold ChainState.height
            rw [hR'.heightCache, hR.heightCache]
          rw [hheight]
          exact hfee

/-- A node admits a transaction that is valid now exactly if its mempool takes it. -/
theorem acceptPeerTx_iff (hU : HashFaithful P U) (hs : Sound P params U node)
    (hvalid : node.ValidNow P params tx fee) (order : PendingOrder) :
    (node.acceptPeerTx P params order tx).1 = .ok () ↔ node.mempool.Takes tx fee := by
  constructor
  · intro h
    obtain ⟨fee', hvalid', htakes⟩ := acceptPeerTx_ok hU hs h
    rw [hvalid.fee_unique hvalid']
    exact htakes
  · intro htakes
    obtain ⟨u, hu, hfee⟩ := hvalid
    obtain ⟨s, hsync, hset, hheight⟩ := synced_of_replay hU hs hu
    have hseeded : validateTransaction P (seedUtxosForTx s tx) tx (s.height.getD 0) params
        = .ok fee := by
      rw [validateTransaction_seeded, hset, hheight]
      exact hfee
    obtain ⟨m, hm⟩ : ∃ m, node.mempool.add P order (seedUtxosForTx s tx) params tx
        (s.height.getD 0) = .ok m := (Mempool.add_iff hseeded).mpr htakes
    unfold acceptPeerTx
    rw [hsync]
    dsimp only
    rw [hm]

/-- `POST /sendrawtransaction` succeeds when `accept_peer_tx` does. -/
theorem sendRawTransaction_isOk (P : Primitives) (params : ConsensusParams) (node : Node)
    (order : PendingOrder) (tx : Transaction) :
    (∃ reply, (node.sendRawTransaction P params order tx).1 = .ok reply) ↔
      (node.acceptPeerTx P params order tx).1 = .ok () := by
  unfold sendRawTransaction
  cases node.acceptPeerTx P params order tx with
  | mk result node' =>
    cases result with
    | error e => simp
    | ok _ => simp

end Node

end Tensorium
