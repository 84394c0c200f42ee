import Tensorium.Core.Utxo

/-! # What the loops of `apply_block` accept

    Inversion lemmas for the input loop, for one transaction, for phase 1 and
    for the whole of `apply_block`. Each says once what an accepted run of the
    loop has checked and computed, so that no later proof unfolds it.
-/

namespace Tensorium

open Saturating BulkMap ExceptFold

variable {P : Primitives} {params : ConsensusParams} {u : UtxoSet} {height : Nat}

/-- The outpoints a transaction's inputs name. -/
def Transaction.outpoints (tx : Transaction) : List OutPoint :=
  tx.inputs.map TxInput.previousOutput

/-- The value, in atoms, that a set holds at an outpoint. -/
def atomsAt (u : UtxoSet) (op : OutPoint) : Nat :=
  weightAt (fun e : UtxoEntry => e.output.valueAtoms.toNat) u op

/-- The exact value of a list of outputs. -/
def outputAtoms (outputs : List TxOutput) : Nat :=
  (outputs.map fun o => o.valueAtoms.toNat).sum

/-- The exact value a transaction's inputs hold in a set. -/
def Transaction.inputAtoms (u : UtxoSet) (tx : Transaction) : Nat :=
  (tx.outpoints.map (atomsAt u)).sum

/-! ## The input loop -/

/-- An input the loop accepts: its entry is there, mature, and its scripts
    execute to `true` under the spending transaction's signature hash. -/
def Spendable (P : Primitives) (params : ConsensusParams) (u : UtxoSet) (height : Nat)
    (tx : Transaction) (input : TxInput) (entry : UtxoEntry) : Prop :=
  u.lookup input.previousOutput = some entry ∧
  (entry.coinbase = true →
    satAdd 64 entry.createdHeight params.coinbaseMaturityBlocks ≤ height) ∧
  Script.execute P input.signatureScript entry.output.scriptPubkey
    ⟨tx.signatureHash P, height⟩ = .ok true

theorem checkInput_ok {tx : Transaction} {acc r : Finset OutPoint × UInt64} {input : TxInput}
    (h : checkInput P params u height tx acc input = .ok r) :
    input.previousOutput ∉ acc.1 ∧
    ∃ entry, Spendable P params u height tx input entry ∧
      r = (insert input.previousOutput acc.1, satAdd64 acc.2 entry.output.valueAtoms) := by
  -- Four exits with an error lie before the success.
  unfold checkInput at h
  split at h
  · cases h
  next hseen =>
  split at h
  · cases h
  next entry hlookup =>
  split at h
  · cases h
  next hmature =>
  split at h
  · cases h
  · cases h
  next hexec =>
  refine ⟨hseen, entry, ⟨hlookup, ?_, hexec⟩, (Except.ok.inj h).symm⟩
  intro hcb
  simpa [hcb] using hmature

/-- The whole input loop: the outpoints are fresh and distinct, every input is
    spendable, and the sum saturates at most once. -/
theorem checkInputs_ok {tx : Transaction} {inputs : List TxInput}
    {acc r : Finset OutPoint × UInt64}
    (h : inputs.foldlM (checkInput P params u height tx) acc = .ok r) :
    (inputs.map TxInput.previousOutput).Nodup ∧
    (∀ op ∈ inputs.map TxInput.previousOutput, op ∉ acc.1) ∧
    (∀ op, op ∈ r.1 ↔ op ∈ acc.1 ∨ op ∈ inputs.map TxInput.previousOutput) ∧
    (∀ input ∈ inputs, ∃ entry, Spendable P params u height tx input entry) ∧
    r.2.toNat = min (acc.2.toNat
      + ((inputs.map TxInput.previousOutput).map (atomsAt u)).sum) (2 ^ 64 - 1) := by
  -- Induction on the inputs; the accumulator of the rest has seen the first one.
  induction inputs generalizing acc with
  | nil =>
    obtain rfl := foldlM_nil_ok.mp h
    have hlt := acc.2.toNat_lt
    refine ⟨by simp, by simp, by simp, by simp, ?_⟩
    simp only [List.map_nil, List.sum_nil]
    omega
  | cons input inputs ih =>
    obtain ⟨acc', hstep, hrest⟩ := foldlM_cons_ok.mp h
    obtain ⟨hseen, entry, hspend, rfl⟩ := checkInput_ok hstep
    obtain ⟨hnd, hfresh, hmem, hall, hsum⟩ := ih hrest
    have hatoms : atomsAt u input.previousOutput = entry.output.valueAtoms.toNat := by
      simp [atomsAt, weightAt, hspend.1]
    refine ⟨?_, ?_, ?_, ?_, ?_⟩
    · -- A repetition would have been seen by the rest of the loop.
      refine List.nodup_cons.mpr ⟨fun hin => ?_, hnd⟩
      exact hfresh _ hin (Finset.mem_insert_self _ _)
    · intro op hop
      rcases List.mem_cons.mp hop with rfl | htail
      · exact hseen
      · exact fun hacc => hfresh op htail (Finset.mem_insert_of_mem hacc)
    · intro op
      rw [hmem, Finset.mem_insert, List.map_cons, List.mem_cons]
      tauto
    · intro i hi
      rcases List.mem_cons.mp hi with rfl | htail
      · exact ⟨entry, hspend⟩
      · exact hall i htail
    · rw [hsum, toNat_satAdd64, List.map_cons, List.map_cons, List.sum_cons, hatoms]
      omega

/-! ## One transaction -/

theorem toNat_totalOutputAtoms (tx : Transaction) :
    tx.totalOutputAtoms.toNat = min (outputAtoms tx.outputs) (2 ^ 64 - 1) := by
  unfold Transaction.totalOutputAtoms outputAtoms
  rw [toNat_foldl_satAdd64]
  simp

theorem checkTransaction_ok {seen : Finset OutPoint} {tx : Transaction}
    {r : Finset OutPoint × UInt64}
    (h : checkTransaction P params u height seen tx = .ok r) :
    tx.outpoints.Nodup ∧
    (∀ op ∈ tx.outpoints, op ∉ seen) ∧
    (∀ op, op ∈ r.1 ↔ op ∈ seen ∨ op ∈ tx.outpoints) ∧
    (∀ input ∈ tx.inputs, ∃ entry, Spendable P params u height tx input entry) ∧
    min (outputAtoms tx.outputs) (2 ^ 64 - 1) ≤ min (tx.inputAtoms u) (2 ^ 64 - 1) ∧
    r.2.toNat = min (tx.inputAtoms u) (2 ^ 64 - 1) - min (outputAtoms tx.outputs) (2 ^ 64 - 1) := by
  unfold checkTransaction at h
  obtain ⟨⟨seen', inputSum⟩, hinputs, hrest⟩ := bind_eq_ok.mp h
  obtain ⟨hnd, hfresh, hmem, hall, hsum⟩ := checkInputs_ok hinputs
  dsimp only at hrest hmem hsum
  split at hrest
  · cases hrest
  next hle =>
  obtain rfl := Except.ok.inj hrest
  have hsum' : inputSum.toNat = min (tx.inputAtoms u) (2 ^ 64 - 1) := by
    rw [hsum, UInt64.toNat_zero, Nat.zero_add]
    rfl
  -- The comparison is one of saturated sums.
  have hle' : tx.totalOutputAtoms.toNat ≤ inputSum.toNat :=
    UInt64.le_iff_toNat_le.mp (UInt64.not_lt.mp hle)
  rw [toNat_totalOutputAtoms, hsum'] at hle'
  refine ⟨hnd, hfresh, hmem, hall, hle', ?_⟩
  rw [toNat_satSub64, hsum', toNat_totalOutputAtoms]

/-! ## Phase 1 -/

/-- What phase 1 has checked when it succeeds, with the accumulator it started
    from: the outpoints of all transactions together are fresh and distinct, and
    every input is spendable in the unmodified set. -/
theorem totalFees_fold_ok {txs : List Transaction} {acc r : Finset OutPoint × UInt64}
    (h : txs.foldlM (fun acc tx => do
      let (seen, fee) ← checkTransaction P params u height acc.1 tx
      .ok (seen, satAdd64 acc.2 fee)) acc = .ok r) :
    (txs.flatMap Transaction.outpoints).Nodup ∧
    (∀ op ∈ txs.flatMap Transaction.outpoints, op ∉ acc.1) ∧
    (∀ tx ∈ txs, ∀ input ∈ tx.inputs, ∃ entry, Spendable P params u height tx input entry) := by
  induction txs generalizing acc with
  | nil => simp
  | cons tx txs ih =>
    obtain ⟨acc', hstep, hrest⟩ := foldlM_cons_ok.mp h
    obtain ⟨⟨seen, fee⟩, hcheck, hacc'⟩ := bind_eq_ok.mp hstep
    obtain rfl := Except.ok.inj hacc'
    obtain ⟨hnd, hfresh, hmem, hall, _, _⟩ := checkTransaction_ok hcheck
    obtain ⟨hndT, hfreshT, hallT⟩ := ih hrest
    rw [List.flatMap_cons]
    refine ⟨?_, ?_, ?_⟩
    · -- One set of seen outpoints serves the whole block.
      refine List.Nodup.append hnd hndT fun op hop hopT => ?_
      exact hfreshT op hopT ((hmem op).mpr (Or.inr hop))
    · intro op hop
      rcases List.mem_append.mp hop with hhere | hthere
      · exact hfresh op hhere
      · exact fun hacc => hfreshT op hthere ((hmem op).mpr (Or.inl hacc))
    · intro tx' htx' input hinput
      rcases List.mem_cons.mp htx' with rfl | htail
      · exact hall input hinput
      · exact hallT tx' htail input hinput

/-- The fees phase 1 sums, exact as long as the inputs of all transactions
    together stay below the largest `u64`. -/
theorem totalFees_fold_exact {txs : List Transaction} {acc r : Finset OutPoint × UInt64}
    (h : txs.foldlM (fun acc tx => do
      let (seen, fee) ← checkTransaction P params u height acc.1 tx
      .ok (seen, satAdd64 acc.2 fee)) acc = .ok r)
    (hbound : acc.2.toNat + (txs.map (Transaction.inputAtoms u)).sum < 2 ^ 64 - 1) :
    r.2.toNat + (txs.map fun tx => outputAtoms tx.outputs).sum
      = acc.2.toNat + (txs.map (Transaction.inputAtoms u)).sum := by
  induction txs generalizing acc with
  | nil =>
    obtain rfl := foldlM_nil_ok.mp h
    simp
  | cons tx txs ih =>
    obtain ⟨acc', hstep, hrest⟩ := foldlM_cons_ok.mp h
    obtain ⟨⟨seen, fee⟩, hcheck, hacc'⟩ := bind_eq_ok.mp hstep
    obtain rfl := Except.ok.inj hacc'
    obtain ⟨_, _, _, _, hle, hfee⟩ := checkTransaction_ok hcheck
    simp only [List.map_cons, List.sum_cons] at hbound ⊢
    -- Below the bound neither the input sum nor the fee sum saturates.
    have hsat : (satAdd64 acc.2 fee).toNat
        = acc.2.toNat + (tx.inputAtoms u - outputAtoms tx.outputs) := by
      rw [toNat_satAdd64]
      dsimp only at hfee
      omega
    have ih' := ih hrest (by dsimp only; omega)
    dsimp only at ih'
    omega

/-! ## The whole block -/

/-- Everything an accepted block has passed. -/
theorem applyBlock_ok {b : Block} {u' : UtxoSet} (h : applyBlock P params b u = .ok u') :
    ∃ coinbase txs seen fees,
      b.transactions = coinbase :: txs ∧
      totalFees P params u b.header.height txs = .ok (seen, fees) ∧
      coinbase.totalOutputAtoms ≤ maxCoinbaseAtoms params b.header.height fees ∧
      u' = applyDelta b u := by
  unfold applyBlock at h
  split at h
  · cases h
  next coinbase txs htxs =>
  obtain ⟨⟨seen, fees⟩, hfees, hrest⟩ := bind_eq_ok.mp h
  dsimp only at hrest
  split at hrest
  · cases hrest
  next hle =>
  exact ⟨coinbase, txs, seen, fees, htxs, hfees, UInt64.not_lt.mp hle,
    (Except.ok.inj hrest).symm⟩

/-- A block that passes it is accepted. -/
theorem applyBlock_of_fees {b : Block} {coinbase : Transaction} {txs : List Transaction}
    {seen : Finset OutPoint} {fees : UInt64} (htxs : b.transactions = coinbase :: txs)
    (hfees : totalFees P params u b.header.height txs = .ok (seen, fees))
    (hle : coinbase.totalOutputAtoms ≤ maxCoinbaseAtoms params b.header.height fees) :
    applyBlock P params b u = .ok (applyDelta b u) := by
  unfold applyBlock
  rw [htxs]
  refine bind_eq_ok.mpr ⟨_, hfees, ?_⟩
  exact if_neg (UInt64.not_lt.mpr hle)

theorem spends_eq_flatMap {b : Block} {coinbase : Transaction} {txs : List Transaction}
    (h : b.transactions = coinbase :: txs) :
    b.spends = txs.flatMap Transaction.outpoints := by
  simp only [Block.spends, h, List.drop_one, List.tail_cons]
  rfl

/-- An accepted block spends distinct outpoints, each of them authorised by the
    scripts of the entry it names. -/
theorem applyBlock_spends {b : Block} {u' : UtxoSet} (h : applyBlock P params b u = .ok u') :
    b.spends.Nodup ∧
    ∀ tx ∈ b.transactions.drop 1, ∀ input ∈ tx.inputs,
      ∃ entry, Spendable P params u b.header.height tx input entry := by
  obtain ⟨coinbase, txs, seen, fees, htxs, hfees, _, _⟩ := applyBlock_ok h
  obtain ⟨hnd, _, hall⟩ := totalFees_fold_ok hfees
  rw [spends_eq_flatMap htxs]
  refine ⟨hnd, ?_⟩
  simpa [htxs] using hall

/-! ## Chains -/

/-- Replaying a chain with one more block applies that block last. -/
theorem replayUtxo_concat (chain : List Block) (b : Block) :
    replayUtxo P params (chain ++ [b])
      = replayUtxo P params chain >>= fun u => applyBlock P params b u := by
  unfold replayUtxo
  rw [List.foldlM_append]
  refine bind_congr fun u => ?_
  simp

/-! ## Locality

    `apply_block` looks the set up only at the outpoints the block spends, so
    its verdict is the same on any two sets that agree there. -/

theorem checkTransaction_congr {v : UtxoSet} {tx : Transaction} {seen : Finset OutPoint}
    (h : ∀ op ∈ tx.outpoints, u.lookup op = v.lookup op) :
    checkTransaction P params u height seen tx = checkTransaction P params v height seen tx := by
  -- The set is read in the input loop only.
  have hinputs : ∀ acc, tx.inputs.foldlM (checkInput P params u height tx) acc
      = tx.inputs.foldlM (checkInput P params v height tx) acc := by
    intro acc
    refine foldlM_congr _ fun input hinput acc => ?_
    have hop : u.lookup input.previousOutput = v.lookup input.previousOutput :=
      h _ (List.mem_map.mpr ⟨input, hinput, rfl⟩)
    unfold checkInput
    rw [hop]
  unfold checkTransaction
  rw [hinputs]

theorem totalFees_congr {v : UtxoSet} {txs : List Transaction}
    (h : ∀ op ∈ txs.flatMap Transaction.outpoints, u.lookup op = v.lookup op) :
    totalFees P params u height txs = totalFees P params v height txs := by
  refine foldlM_congr _ fun tx htx acc => ?_
  have htx' : ∀ op ∈ tx.outpoints, u.lookup op = v.lookup op := by
    intro op hop
    exact h op (List.mem_flatMap.mpr ⟨tx, htx, hop⟩)
  rw [checkTransaction_congr htx']

/-- Sets that agree on what a block spends give it the same verdict. -/
theorem applyBlock_error_congr {v : UtxoSet} {b : Block} {e : UtxoError}
    (h : ∀ op ∈ b.spends, u.lookup op = v.lookup op) :
    applyBlock P params b u = .error e ↔ applyBlock P params b v = .error e := by
  unfold applyBlock
  split
  · rfl
  next coinbase txs htxs =>
  rw [spends_eq_flatMap htxs] at h
  rw [totalFees_congr h]
  cases totalFees P params v b.header.height txs with
  | error e' => rfl
  | ok acc =>
    show (if _ then _ else _) = _ ↔ (if _ then _ else _) = _
    split_ifs
    · rfl
    · simp

end Tensorium
