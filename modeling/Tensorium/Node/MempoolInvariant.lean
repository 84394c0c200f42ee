import Tensorium.Node.Runs
import Mathlib.Data.String.Basic

/-! # What a mempool always looks like

    `Mempool::add` as it is written, on `&mut self`: an entry is evicted before
    the new one is inserted, and the checks come before either. Whatever UTXO
    sets, parameters and tip heights the calls are given, and in whatever order
    they come with `remove_confirmed`, the pending transactions spend different
    outpoints, pay the relay fee, and stay within the size cap.
-/

namespace Tensorium

open BulkMap ExceptFold

namespace Mempool

variable {P : Primitives} {params : ConsensusParams} {order : PendingOrder} {m m' : Mempool}
variable {utxos : UtxoSet} {tx : Transaction} {tipHeight : Nat}

/-! ## `add` on `&mut self` -/

/-- The methods of `Mempool` that take `&mut self`. -/
abbrev MempoolM (α : Type) : Type := EStateM MempoolError Mempool α

/-- The size cap: when the mempool is full, its cheapest entry goes. -/
def evictLowest (order : PendingOrder) (fee : UInt64) : MempoolM Unit := do
  let self ← get
  if self.pending.keys.card ≥ maxMempoolTxs then
    match lowestFee (order.list self.pending) with
    | some (lowKey, low) =>
      if fee > low.feeAtoms then
        modify fun self => ⟨self.pending.erase lowKey⟩
      else throw (.mempoolFull fee maxMempoolTxs)
    | none => throw (.mempoolFull fee maxMempoolTxs)

/-- `Mempool::add`. -/
def addInPlace (P : Primitives) (order : PendingOrder) (utxos : UtxoSet)
    (params : ConsensusParams) (tx : Transaction) (tipHeight : Nat) : MempoolM Unit := do
  if tx.isCoinbase then throw .coinbaseNotAllowed
  let key := tx.id.toHex
  let self ← get
  if (self.pending.lookup key).isSome then throw .alreadyKnown
  if self.conflictsWithPending tx then throw .pendingConflict
  match validateTransaction P utxos tx tipHeight params with
  | .error e => throw (.invalidTransaction e)
  | .ok fee =>
    if fee < minRelayFeeAtoms then throw (.feeTooLow fee minRelayFeeAtoms)
    evictLowest order fee
    modify fun self => ⟨self.pending.insert key ⟨tx, fee⟩⟩

/-- The mempool a call leaves, with its result. -/
def leaving (m : Mempool) : Except MempoolError Mempool → EStateM.Result MempoolError Mempool Unit
  | .ok m' => .ok () m'
  | .error e => .error e m

theorem evictLowest_run (order : PendingOrder) (fee : UInt64) (m : Mempool) :
    evictLowest order fee m = m.leaving (m.makeRoom order fee) := by
  show (if m.pending.keys.card ≥ maxMempoolTxs then _ else _ : MempoolM Unit) m = _
  unfold makeRoom
  by_cases hfull : m.pending.keys.card ≥ maxMempoolTxs
  · rw [if_pos hfull, if_pos hfull]
    cases lowestFee (order.list m.pending) with
    | none => rfl
    | some low =>
      dsimp only
      by_cases hfee : fee > low.2.feeAtoms
      · rw [if_pos hfee, if_pos hfee]
        rfl
      · rw [if_neg hfee, if_neg hfee]
        rfl
  · rw [if_neg hfull, if_neg hfull]
    rfl

/-- Written in place or not, `add` computes the same; an error leaves the
    mempool as it was, since nothing is removed before the last check. -/
theorem addInPlace_run (P : Primitives) (order : PendingOrder) (utxos : UtxoSet)
    (params : ConsensusParams) (tx : Transaction) (tipHeight : Nat) (m : Mempool) :
    addInPlace P order utxos params tx tipHeight m
      = m.leaving (m.add P order utxos params tx tipHeight) := by
  unfold addInPlace add
  by_cases hcoinbase : tx.isCoinbase = true
  · rw [if_pos hcoinbase, if_pos hcoinbase]
    rfl
  rw [if_neg hcoinbase, if_neg hcoinbase]
  show (if (m.pending.lookup tx.id.toHex).isSome = true then _ else _ : MempoolM Unit) m = _
  by_cases hknown : (m.pending.lookup tx.id.toHex).isSome = true
  · rw [if_pos hknown, if_pos hknown]
    rfl
  rw [if_neg hknown, if_neg hknown]
  show (if m.conflictsWithPending tx = true then _ else _ : MempoolM Unit) m = _
  by_cases hconflict : m.conflictsWithPending tx = true
  · rw [if_pos hconflict, if_pos hconflict]
    rfl
  rw [if_neg hconflict, if_neg hconflict]
  show (match validateTransaction P utxos tx tipHeight params with
    | .error e => _
    | .ok fee => _ : MempoolM Unit) m = _
  cases validateTransaction P utxos tx tipHeight params with
  | error e => rfl
  | ok fee =>
    dsimp only
    by_cases hlow : fee < minRelayFeeAtoms
    · rw [if_pos hlow, if_pos hlow]
      rfl
    rw [if_neg hlow, if_neg hlow]
    -- Evicting is the only step that changes the mempool before an error.
    have hroom := evictLowest_run order fee m
    cases hmade : m.makeRoom order fee with
    | error e =>
      rw [hmade] at hroom
      exact bind_of_error hroom
    | ok m₁ =>
      rw [hmade] at hroom
      exact bind_of_ok hroom

/-! ## What `add` checks -/

/-- A pending transaction shares an outpoint with `tx`. -/
theorem conflictsWithPending_iff :
    m.conflictsWithPending tx = true ↔ ∃ key entry, m.pending.lookup key = some entry ∧
      ∃ op ∈ entry.tx.outpoints, op ∈ tx.outpoints := by
  unfold conflictsWithPending
  rw [any_iff]
  simp only [spendsAny, List.any_eq_true, decide_eq_true_eq, List.mem_toFinset,
    Transaction.outpoints, List.mem_map, exists_exists_and_eq_and]

/-- What a transaction has to be for a mempool to take it in at a fee. -/
structure Admissible (m : Mempool) (tx : Transaction) (fee : UInt64) : Prop where
  notCoinbase : tx.isCoinbase = false
  unknown : m.pending.lookup tx.id.toHex = none
  apart : ∀ key entry, m.pending.lookup key = some entry →
    List.Disjoint entry.tx.outpoints tx.outpoints
  nodup : tx.outpoints.Nodup
  relayFee : minRelayFeeAtoms ≤ fee

/-- `add` takes in an admissible transaction at the fee validation returns: a
    mempool with room left keeps what it has, a full one loses one of its
    cheapest entries, which pays less. -/
theorem add_cases (h : m.add P order utxos params tx tipHeight = .ok m') :
    ∃ fee, validateTransaction P utxos tx tipHeight params = .ok fee ∧ m.Admissible tx fee ∧
      ((m.pending.keys.card < maxMempoolTxs ∧
          m' = ⟨m.pending.insert tx.id.toHex ⟨tx, fee⟩⟩) ∨
        (maxMempoolTxs ≤ m.pending.keys.card ∧ ∃ lowKey low,
          m.pending.lookup lowKey = some low ∧
          (∀ key entry, m.pending.lookup key = some entry → low.feeAtoms ≤ entry.feeAtoms) ∧
          low.feeAtoms < fee ∧
          m' = ⟨(m.pending.erase lowKey).insert tx.id.toHex ⟨tx, fee⟩⟩)) := by
  obtain ⟨hunknown, fee, m₁, hfee, hroom, rfl⟩ := add_ok h
  refine ⟨fee, hfee, ?_, ?_⟩
  · unfold add at h
    split_ifs at h with hcoinbase hknown hconflict
    rw [hfee] at h
    dsimp only at h
    split_ifs at h with hlow
    obtain ⟨seen, hcheck⟩ := validateTransaction_ok.mp hfee
    obtain ⟨hnodup, _⟩ := checkTransaction_ok hcheck
    refine ⟨by simpa using hcoinbase, hunknown, ?_, hnodup, UInt64.not_lt.mp hlow⟩
    intro key entry hentry op hop htx
    exact hconflict (conflictsWithPending_iff.mpr ⟨key, entry, hentry, op, hop, htx⟩)
  · rcases makeRoom_ok hroom with ⟨hspace, rfl⟩ | ⟨lowKey, low, hfull, hlow, hleast, hless, rfl⟩
    · exact Or.inl ⟨hspace, rfl⟩
    · exact Or.inr ⟨hfull, lowKey, low, hlow, hleast, hless, rfl⟩

/-! ## The invariant -/

/-- The entry is filed under its own identifier and has passed the checks on a
    single transaction. -/
structure Sound (key : String) (entry : MempoolEntry) : Prop where
  key_eq : key = entry.tx.id.toHex
  nodup : entry.tx.outpoints.Nodup
  notCoinbase : entry.tx.isCoinbase = false
  relayFee : minRelayFeeAtoms ≤ entry.feeAtoms

/-- Every entry is sound, different entries spend different outpoints, and the
    size cap holds. -/
structure WellFormed (m : Mempool) : Prop where
  sound : ∀ key entry, m.pending.lookup key = some entry → Sound key entry
  apart : ∀ key entry key' entry', m.pending.lookup key = some entry →
    m.pending.lookup key' = some entry' → key ≠ key' →
    List.Disjoint entry.tx.outpoints entry'.tx.outpoints
  bounded : m.pending.keys.card ≤ maxMempoolTxs

theorem WellFormed.new : WellFormed new where
  sound key entry hentry := by simp [Mempool.new] at hentry
  apart key entry key' entry' hentry := by simp [Mempool.new] at hentry
  bounded := by simp [Mempool.new]

/-- Dropping entries, whichever they are, keeps the invariant. -/
theorem WellFormed.mono (h : m.WellFormed)
    (hsub : ∀ key entry, m'.pending.lookup key = some entry → m.pending.lookup key = some entry) :
    m'.WellFormed where
  sound key entry hentry := h.sound key entry (hsub key entry hentry)
  apart key entry key' entry' hentry hentry' hne :=
    h.apart key entry key' entry' (hsub key entry hentry) (hsub key' entry' hentry') hne
  bounded := by
    refine le_trans (Finset.card_le_card ?_) h.bounded
    intro key hkey
    obtain ⟨entry, hentry⟩ := mem_keys_iff.mp hkey
    exact mem_keys_iff.mpr ⟨entry, hsub key entry hentry⟩

/-- An admissible transaction can be inserted where there is room. -/
theorem WellFormed.insert {fee : UInt64} (h : m.WellFormed) (htx : m.Admissible tx fee)
    (hspace : m.pending.keys.card < maxMempoolTxs) :
    WellFormed ⟨m.pending.insert tx.id.toHex ⟨tx, fee⟩⟩ where
  sound key entry hentry := by
    dsimp only at hentry
    rw [lookup_insert_ite] at hentry
    split_ifs at hentry with hkey
    · obtain rfl := Option.some.inj hentry
      exact ⟨hkey.symm, htx.nodup, htx.notCoinbase, htx.relayFee⟩
    · exact h.sound key entry hentry
  apart key entry key' entry' hentry hentry' hne := by
    dsimp only at hentry hentry'
    rw [lookup_insert_ite] at hentry hentry'
    split_ifs at hentry hentry' with hkey hkey' hkey'
    · exact absurd (hkey.symm.trans hkey') hne
    · obtain rfl := Option.some.inj hentry
      exact (htx.apart key' entry' hentry').symm
    · obtain rfl := Option.some.inj hentry'
      exact htx.apart key entry hentry
    · exact h.apart key entry key' entry' hentry hentry' hne
  bounded := by
    show (m.pending.insert tx.id.toHex ⟨tx, fee⟩).keys.card ≤ maxMempoolTxs
    rw [keys_insert]
    have hcard := Finset.card_insert_le tx.id.toHex m.pending.keys
    omega

theorem lookup_of_erase {pending : Map String MempoolEntry} {lowKey key : String}
    {entry : MempoolEntry} (h : (pending.erase lowKey).lookup key = some entry) :
    pending.lookup key = some entry := by
  rw [lookup_erase_ite] at h
  split_ifs at h
  exact h

/-- A transaction that is admissible stays so when an entry goes. -/
theorem Admissible.erase {fee : UInt64} (htx : m.Admissible tx fee) (lowKey : String) :
    Admissible ⟨m.pending.erase lowKey⟩ tx fee where
  notCoinbase := htx.notCoinbase
  unknown := by
    show (m.pending.erase lowKey).lookup tx.id.toHex = none
    rw [lookup_erase_ite, htx.unknown]
    exact ite_self _
  apart key entry hentry := htx.apart key entry (lookup_of_erase hentry)
  nodup := htx.nodup
  relayFee := htx.relayFee

/-- `add` keeps the invariant. The eviction comes first, and makes the room that
    the insertion needs. -/
theorem WellFormed.add (h : m.WellFormed)
    (hadd : m.add P order utxos params tx tipHeight = .ok m') : m'.WellFormed := by
  obtain ⟨fee, _, htx, ⟨hspace, rfl⟩ | ⟨hfull, lowKey, low, hlow, _, _, rfl⟩⟩ := add_cases hadd
  · exact h.insert htx hspace
  · have hevicted : WellFormed ⟨m.pending.erase lowKey⟩ :=
      h.mono fun key entry hentry => lookup_of_erase hentry
    refine hevicted.insert (htx.erase lowKey) ?_
    show (m.pending.erase lowKey).keys.card < maxMempoolTxs
    rw [Finmap.keys_erase]
    have hmem : lowKey ∈ m.pending.keys := mem_keys_iff.mpr ⟨low, hlow⟩
    exact lt_of_lt_of_le (Finset.card_erase_lt_of_mem hmem) h.bounded

theorem WellFormed.removeConfirmed (h : m.WellFormed) (block : Block) :
    (m.removeConfirmed block).WellFormed := by
  refine h.mono fun key entry hentry => ?_
  unfold Mempool.removeConfirmed at hentry
  dsimp only at hentry
  rw [lookup_retain] at hentry
  exact (Option.filter_eq_some_iff.mp hentry).1

/-! ## Runs -/

/-- The mempools that calls of `add`, failed ones included, and of
    `remove_confirmed` lead to from an empty one. -/
inductive Reached (P : Primitives) : Mempool → Prop where
  | new : Reached P new
  | added {m m' : Mempool} (order : PendingOrder) (utxos : UtxoSet) (params : ConsensusParams)
      (tx : Transaction) (tipHeight : Nat) : Reached P m →
      addInPlace P order utxos params tx tipHeight m = .ok () m' → Reached P m'
  | refused {m m' : Mempool} (order : PendingOrder) (utxos : UtxoSet) (params : ConsensusParams)
      (tx : Transaction) (tipHeight : Nat) (e : MempoolError) : Reached P m →
      addInPlace P order utxos params tx tipHeight m = .error e m' → Reached P m'
  | removeConfirmed {m : Mempool} (block : Block) : Reached P m →
      Reached P (m.removeConfirmed block)

theorem addInPlace_ok (h : addInPlace P order utxos params tx tipHeight m = .ok () m') :
    m.add P order utxos params tx tipHeight = .ok m' := by
  rw [addInPlace_run] at h
  cases hadd : m.add P order utxos params tx tipHeight with
  | error e =>
    rw [hadd] at h
    cases h
  | ok m₁ =>
    rw [hadd] at h
    cases h
    rfl

theorem addInPlace_error {e : MempoolError}
    (h : addInPlace P order utxos params tx tipHeight m = .error e m') : m' = m := by
  rw [addInPlace_run] at h
  cases hadd : m.add P order utxos params tx tipHeight with
  | error e =>
    rw [hadd] at h
    cases h
    rfl
  | ok m₁ =>
    rw [hadd] at h
    cases h

theorem Reached.wellFormed (h : Reached P m) : m.WellFormed := by
  induction h with
  | new => exact .new
  | added order utxos params tx tipHeight _ hadd ih => exact ih.add (addInPlace_ok hadd)
  | refused order utxos params tx tipHeight e _ hadd ih =>
    rw [addInPlace_error hadd]
    exact ih
  | removeConfirmed block _ ih => exact ih.removeConfirmed block

/-- A mempool reached by any run is well formed; there a failed `add` changes
    nothing, and a successful one inserts its transaction, under an identifier
    that was not there, and removes nothing unless the mempool is full: then it
    removes one entry of minimal fee, lower than the new one. -/
theorem reached_mempool (h : Reached P m) :
    m.WellFormed ∧
    ∀ (order : PendingOrder) (utxos : UtxoSet) (params : ConsensusParams) (tx : Transaction)
      (tipHeight : Nat),
      (∀ e m', addInPlace P order utxos params tx tipHeight m = .error e m' → m' = m) ∧
      ∀ m', addInPlace P order utxos params tx tipHeight m = .ok () m' →
        m.pending.lookup tx.id.toHex = none ∧
        ∃ fee, validateTransaction P utxos tx tipHeight params = .ok fee ∧
          (m.pending.keys.card < maxMempoolTxs →
            m' = ⟨m.pending.insert tx.id.toHex ⟨tx, fee⟩⟩) ∧
          (m.pending.keys.card = maxMempoolTxs → ∃ lowKey low,
            m.pending.lookup lowKey = some low ∧
            (∀ key entry, m.pending.lookup key = some entry → low.feeAtoms ≤ entry.feeAtoms) ∧
            low.feeAtoms < fee ∧
            m' = ⟨(m.pending.erase lowKey).insert tx.id.toHex ⟨tx, fee⟩⟩) := by
  refine ⟨h.wellFormed, ?_⟩
  intro order utxos params tx tipHeight
  refine ⟨fun e m' herr => addInPlace_error herr, ?_⟩
  intro m' hok
  obtain ⟨fee, hfee, htx, hcases⟩ := add_cases (addInPlace_ok hok)
  refine ⟨htx.unknown, fee, hfee, ?_, ?_⟩
  · intro hspace
    rcases hcases with ⟨_, heq⟩ | ⟨hfull, _⟩
    · exact heq
    · exact absurd hfull (not_le.mpr hspace)
  · intro hfull
    rcases hcases with ⟨hspace, _⟩ | ⟨_, hevicted⟩
    · exact absurd hspace (not_lt.mpr hfull.ge)
    · exact hevicted

/-- A set with one output, and a transaction that spends it and leaves a fee. -/
def fundedUtxos : UtxoSet := (∅ : UtxoSet).insert ⟨.zero, 0⟩ ⟨⟨50000, [1, 1]⟩, 0, false⟩

def fundedTx : Transaction := ⟨.zero, [⟨⟨.zero, 0⟩, []⟩], [⟨20000, [1, 1]⟩], []⟩

theorem reached_mempool_funded :
    ∃ m : Mempool, Reached Primitives.sample m ∧ m.pending.keys.card = 1 ∧ m.WellFormed ∧
      ∀ e m', addInPlace Primitives.sample Iteration.sorted fundedUtxos testParams fundedTx 1 m
        = .error e m' → m' = m := by
  let m : Mempool := ⟨(∅ : Map String MempoolEntry).insert fundedTx.id.toHex ⟨fundedTx, 30000⟩⟩
  have hfee : validateTransaction Primitives.sample fundedUtxos fundedTx 1 testParams
      = .ok 30000 := by decide
  have hadd : new.add Primitives.sample Iteration.sorted fundedUtxos testParams fundedTx 1
      = .ok m := by
    unfold add
    rw [hfee]
    rfl
  have hreached : Reached Primitives.sample m := by
    refine .added Iteration.sorted fundedUtxos testParams fundedTx 1 .new ?_
    rw [addInPlace_run, hadd]
    rfl
  obtain ⟨hwellFormed, hcalls⟩ := reached_mempool hreached
  exact ⟨m, hreached, by decide, hwellFormed, (hcalls _ _ _ _ _).1⟩

end Mempool

end Tensorium
