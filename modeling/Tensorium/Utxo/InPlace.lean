import Tensorium.Utxo.Height

/-! # The block rule

    `apply_block` as it is written: three phases on `&mut self`, the first of
    which repeats the loop of `validate_transaction` with one set of outpoints
    for the whole block. It accepts exactly the blocks that the rule below
    describes without any loop, and an error leaves the set as it was.
-/

namespace Tensorium

open Saturating BulkMap ExceptFold

variable {P : Primitives} {params : ConsensusParams} {u : UtxoSet} {b : Block}

/-! ## `apply_block` on `&mut self`

    A computation over the set that may fail at any point, and then leaves the
    set in the state it had reached. -/

namespace InPlace

/-- The methods of `UtxoSet` that take `&mut self`. -/
abbrev UtxoM (α : Type) : Type := EStateM UtxoError UtxoSet α

/-- The inner loop of phase 1. -/
def sumInput (P : Primitives) (params : ConsensusParams) (height : Nat) (tx : Transaction)
    (acc : Finset OutPoint × UInt64) (input : TxInput) : UtxoM (Finset OutPoint × UInt64) := do
  if input.previousOutput ∈ acc.1 then throw .duplicateInput
  let self ← get
  match self.lookup input.previousOutput with
  | none => throw .missingInput
  | some entry =>
    if entry.coinbase
        && decide (height < satAdd 64 entry.createdHeight params.coinbaseMaturityBlocks) then
      throw .immatureCoinbaseSpend
    match Script.execute P input.signatureScript entry.output.scriptPubkey
        ⟨tx.signatureHash P, height⟩ with
    | .error _ => throw .invalidSignature
    | .ok ok =>
      if !ok then throw .invalidSignature
      return (insert input.previousOutput acc.1, satAdd64 acc.2 entry.output.valueAtoms)

/-- The outer loop of phase 1; the accumulator is the set of outpoints seen in
    the block and the fees. -/
def sumFees (P : Primitives) (params : ConsensusParams) (height : Nat)
    (acc : Finset OutPoint × UInt64) (tx : Transaction) : UtxoM (Finset OutPoint × UInt64) := do
  let (seen, inputSum) ← tx.inputs.foldlM (sumInput P params height tx) (acc.1, 0)
  if tx.totalOutputAtoms > inputSum then throw .outputExceedsInput
  return (seen, satAdd64 acc.2 (satSub64 inputSum tx.totalOutputAtoms))

/-- The first loop of phase 3. -/
def spendInputs (b : Block) : UtxoM Unit :=
  (b.transactions.drop 1).forM fun tx =>
    tx.inputs.forM fun input => modify fun self => self.erase input.previousOutput

/-- The body of the second loop of phase 3. -/
def createOutput (tx : Transaction) (height : Nat) (o : TxOutput × Nat) : UtxoM Unit :=
  if o.1.scriptPubkey.head? = some Script.opReturnByte then pure ()
  else modify fun self =>
    self.insert ⟨tx.id, UInt32.ofNat o.2⟩ ⟨o.1, height, tx.isCoinbase⟩

/-- The second loop of phase 3. -/
def createOutputs (b : Block) : UtxoM Unit :=
  b.transactions.forM fun tx => tx.outputs.zipIdx.forM (createOutput tx b.header.height)

/-- `UtxoSet::apply_block`. -/
def applyBlock (P : Primitives) (params : ConsensusParams) (b : Block) : UtxoM Unit :=
  match b.transactions with
  | [] => throw .missingCoinbase
  | coinbase :: txs => do
    let (_, fees) ← txs.foldlM (sumFees P params b.header.height) (∅, 0)
    if coinbase.totalOutputAtoms > maxCoinbaseAtoms params b.header.height fees then
      throw .coinbaseOutputTooHigh
    spendInputs b
    createOutputs b

/-! ## The phases -/

theorem sumInput_keeping (params : ConsensusParams) (u : UtxoSet) (height : Nat)
    (tx : Transaction) (acc : Finset OutPoint × UInt64)
    (input : TxInput) :
    sumInput P params height tx acc input u
      = keeping u (checkInput P params u height tx acc input) := by
  unfold sumInput checkInput
  by_cases hseen : input.previousOutput ∈ acc.1
  · rw [if_pos hseen, if_pos hseen]
    rfl
  rw [if_neg hseen, if_neg hseen]
  show (match u.lookup input.previousOutput with
    | none => _
    | some entry => _ : UtxoM _) u = _
  cases hlookup : u.lookup input.previousOutput with
  | none => rfl
  | some entry =>
    dsimp only
    by_cases himmature : (entry.coinbase && decide (height < satAdd 64 entry.createdHeight
        params.coinbaseMaturityBlocks)) = true
    · rw [if_pos himmature, if_pos himmature]
      rfl
    rw [if_neg himmature, if_neg himmature]
    cases Script.execute P input.signatureScript entry.output.scriptPubkey
        ⟨tx.signatureHash P, height⟩ with
    | error e => rfl
    | ok ok => cases ok <;> rfl

theorem sumFees_keeping (params : ConsensusParams) (u : UtxoSet) (height : Nat)
    (acc : Finset OutPoint × UInt64) (tx : Transaction) :
    sumFees P params height acc tx u
      = keeping u (do
        let (seen, fee) ← checkTransaction P params u height acc.1 tx
        .ok (seen, satAdd64 acc.2 fee)) := by
  have hinputs := foldlM_keeping (sumInput_keeping (P := P) params u height tx)
    tx.inputs (acc.1, 0)
  unfold sumFees checkTransaction
  cases hrun : tx.inputs.foldlM (checkInput P params u height tx) (acc.1, 0) with
  | error e =>
    rw [hrun] at hinputs
    exact bind_of_error hinputs
  | ok r =>
    rw [hrun] at hinputs
    refine (bind_of_ok hinputs).trans ?_
    obtain ⟨seen, inputSum⟩ := r
    simp only [bind, Except.bind]
    split_ifs with hexceeds <;> rfl

/-- The first loop of phase 3 erases what the block spends. -/
theorem spendInputs_run (v : UtxoSet) :
    spendInputs b v = .ok () (eraseAll v b.spends) := by
  unfold spendInputs Block.spends
  generalize b.transactions.drop 1 = txs
  induction txs generalizing v with
  | nil => rfl
  | cons tx txs ih =>
    refine (bind_of_ok (forM_modify _ tx.inputs v)).trans ?_
    rw [List.flatMap_cons, eraseAll, List.foldl_append, List.foldl_map]
    exact ih _

theorem createOutput_run (tx : Transaction) (height : Nat) (o : TxOutput × Nat) (v : UtxoSet) :
    createOutput tx height o v
      = .ok () (insertAll v (tx.createdEntry height o.1 o.2).toList) := by
  unfold createOutput Transaction.createdEntry
  split_ifs <;> rfl

/-- The second loop of phase 3 inserts what each transaction creates. -/
theorem createOutputs_run (v : UtxoSet) :
    createOutputs b v = .ok () (insertAll v b.creates) := by
  -- The outputs of one transaction, then the transactions.
  have hone : ∀ (tx : Transaction) (outputs : List (TxOutput × Nat)) (v : UtxoSet),
      outputs.forM (createOutput tx b.header.height) v = .ok () (insertAll v
        (outputs.filterMap fun o => tx.createdEntry b.header.height o.1 o.2)) := by
    intro tx outputs
    induction outputs with
    | nil =>
      intro v
      rfl
    | cons o outputs ih =>
      intro v
      refine (bind_of_ok (createOutput_run tx _ o v)).trans ((ih _).trans ?_)
      rw [← insertAll_append]
      cases h : tx.createdEntry b.header.height o.1 o.2 <;> simp [h]
  unfold createOutputs Block.creates
  generalize b.transactions = txs
  induction txs generalizing v with
  | nil => rfl
  | cons tx txs ih =>
    refine (bind_of_ok (hone tx tx.outputs.zipIdx v)).trans ?_
    rw [List.flatMap_cons, insertAll_append]
    exact ih _

/-- **The three phases in place compute what `applyBlock` does**: either the
    new set, or an error and the set that was there before. -/
theorem applyBlock_run (P : Primitives) (params : ConsensusParams) (b : Block) (u : UtxoSet) :
    applyBlock P params b u
      = match Tensorium.applyBlock P params b u with
        | .ok u' => .ok () u'
        | .error e => .error e u := by
  unfold applyBlock Tensorium.applyBlock
  cases b.transactions with
  | nil => rfl
  | cons coinbase txs =>
    have hfees := foldlM_keeping
      (sumFees_keeping (P := P) params u b.header.height) txs (∅, 0)
    dsimp only
    cases hrun : totalFees P params u b.header.height txs with
    | error e =>
      rw [← totalFees, hrun] at hfees
      exact bind_of_error hfees
    | ok r =>
      rw [← totalFees, hrun] at hfees
      refine (bind_of_ok hfees).trans ?_
      obtain ⟨seen, fees⟩ := r
      simp only [bind, Except.bind]
      split_ifs with hcoinbase
      · rfl
      · exact (bind_of_ok (spendInputs_run u)).trans (createOutputs_run _)

end InPlace

/-! ## The rule -/

/-- What a block's first transaction may claim besides fees. -/
def coinbaseAllowance (params : ConsensusParams) (height : Nat) : Nat :=
  (rewardAtHeight params height).toNat
    + if height = 0 ∧ hasGenesisPremint params then (premintAtoms params).toNat else 0

/-- The blocks the rule accepts on top of a set: no outpoint is spent twice,
    each transaction behind the first is valid by itself against the set as it
    is, and the first one claims at most its allowance and their fees. -/
def Acceptable (P : Primitives) (params : ConsensusParams) (u : UtxoSet) (b : Block) : Prop :=
  ∃ coinbase txs fees,
    b.transactions = coinbase :: txs ∧
    (txs.flatMap Transaction.outpoints).Nodup ∧
    List.Forall₂ (fun tx fee => validateTransaction P u tx b.header.height params = .ok fee)
      txs fees ∧
    coinbase.totalOutputAtoms.toNat
      ≤ coinbaseAllowance params b.header.height + (fees.map UInt64.toNat).sum

/-- Phase 1 validates each transaction by itself and sums the fees. -/
theorem totalFees_each {height : Nat} {txs : List Transaction} {acc r : Finset OutPoint × UInt64}
    (h : txs.foldlM (fun acc tx => do
      let (seen, fee) ← checkTransaction P params u height acc.1 tx
      .ok (seen, satAdd64 acc.2 fee)) acc = .ok r) :
    ∃ fees, List.Forall₂ (fun tx fee => validateTransaction P u tx height params = .ok fee) txs fees ∧
      r.2 = fees.foldl satAdd64 acc.2 := by
  induction txs generalizing acc with
  | nil =>
    obtain rfl := foldlM_nil_ok.mp h
    exact ⟨[], .nil, rfl⟩
  | cons tx txs ih =>
    obtain ⟨acc', hstep, hrest⟩ := foldlM_cons_ok.mp h
    obtain ⟨⟨seen, fee⟩, hcheck, hacc'⟩ := bind_eq_ok.mp hstep
    obtain rfl := Except.ok.inj hacc'
    obtain ⟨fees, hfees, hsum⟩ := ih hrest
    -- What passes among other transactions passes by itself.
    obtain ⟨seen', halone⟩ := checkTransaction_later le_rfl ∅ hcheck (by simp)
    exact ⟨fee :: fees, .cons (validateTransaction_ok.mpr ⟨seen', halone⟩) hfees, hsum⟩

/-- The limit of phase 2 is the exact one, clamped to a `u64`. -/
theorem toNat_maxCoinbaseAtoms (height : Nat) (fees : List UInt64) :
    (maxCoinbaseAtoms params height (fees.foldl satAdd64 0)).toNat
      = min (coinbaseAllowance params height + (fees.map UInt64.toNat).sum) (2 ^ 64 - 1) := by
  have hsum : (fees.foldl satAdd64 0).toNat
      = min (fees.map UInt64.toNat).sum (2 ^ 64 - 1) := by
    simpa using toNat_foldl_satAdd64 id fees 0
  unfold maxCoinbaseAtoms coinbaseAllowance
  by_cases hpremint : height = 0 ∧ hasGenesisPremint params
  · rw [if_pos hpremint, if_pos hpremint, hpremint.1, toNat_satAdd64, toNat_satAdd64, hsum]
    omega
  · rw [if_neg hpremint, if_neg hpremint, toNat_satAdd64, hsum]
    omega

/-- A comparison of clamped sums is one of the exact limit. -/
theorem coinbase_le_iff (coinbase : Transaction) (height : Nat) (fees : List UInt64) :
    coinbase.totalOutputAtoms ≤ maxCoinbaseAtoms params height (fees.foldl satAdd64 0) ↔
      coinbase.totalOutputAtoms.toNat
        ≤ coinbaseAllowance params height + (fees.map UInt64.toNat).sum := by
  have hlt := coinbase.totalOutputAtoms.toNat_lt
  rw [UInt64.le_iff_toNat_le, toNat_maxCoinbaseAtoms]
  omega

theorem applyBlock_ok_iff {u' : UtxoSet} :
    Tensorium.applyBlock P params b u = .ok u' ↔ Acceptable P params u b ∧ u' = applyDelta b u := by
  constructor
  · intro h
    obtain ⟨coinbase, txs, seen, total, htxs, htotal, hle, rfl⟩ := applyBlock_ok h
    obtain ⟨hnd, _, _⟩ := totalFees_fold_ok htotal
    obtain ⟨fees, hfees, rfl⟩ := totalFees_each htotal
    exact ⟨⟨coinbase, txs, fees, htxs, hnd, hfees, (coinbase_le_iff _ _ _).mp hle⟩, rfl⟩
  · rintro ⟨⟨coinbase, txs, fees, htxs, hnd, hfees, hle⟩, rfl⟩
    have hdisjoint := (List.nodup_flatMap.mp hnd).2
    obtain ⟨seen, htotal⟩ := totalFees_of_each le_rfl hfees hdisjoint (∅, 0) (by simp)
    exact applyBlock_of_fees htxs htotal ((coinbase_le_iff _ _ _).mpr hle)

/-! ## The order of the transactions -/

/-- The rule does not depend on the order of the transactions behind the first. -/
theorem Acceptable.perm {b' : Block} {coinbase : Transaction} {txs txs' : List Transaction}
    (h : Acceptable P params u b) (hheader : b'.header = b.header)
    (htxs : b.transactions = coinbase :: txs) (htxs' : b'.transactions = coinbase :: txs')
    (hperm : txs.Perm txs') : Acceptable P params u b' := by
  obtain ⟨coinbase₀, txs₀, fees, htxs₀, hnd, hfees, hle⟩ := h
  obtain ⟨rfl, rfl⟩ := List.cons.inj (htxs₀.symm.trans htxs)
  -- The fees are permuted along with the transactions.
  obtain ⟨fees', hfees', hpermFees⟩ :=
    List.perm_comp_forall₂ hperm.symm hfees
  refine ⟨coinbase₀, txs', fees', htxs', ?_, ?_, ?_⟩
  · exact (hperm.flatMap_right _).nodup_iff.mp hnd
  · rw [hheader]
    exact hfees'
  · rw [hheader, (hpermFees.map UInt64.toNat).sum_eq]
    exact hle

/-- A transaction writes under its own identifier. -/
theorem txid_of_mem_creates {tx : Transaction} {height : Nat} {op : OutPoint}
    (h : op ∈ (tx.creates height).map Prod.fst) : op.txid = tx.id := by
  obtain ⟨⟨op, entry⟩, hmem, rfl⟩ := List.mem_map.mp h
  obtain ⟨o, _, ho⟩ := List.mem_filterMap.mp hmem
  unfold Transaction.createdEntry at ho
  split_ifs at ho
  obtain ⟨rfl, _⟩ := Prod.mk.inj (Option.some.inj ho)
  rfl

/-- What blocks with the same transactions in another order write, when these
    have different identifiers. -/
theorem lastBinding_creates_perm (b b' : Block) (hheader : b'.header = b.header)
    (hperm : b.transactions.Perm b'.transactions) (hids : (b.transactions.map Transaction.id).Nodup)
    (op : OutPoint) : lastBinding b.creates op = lastBinding b'.creates op := by
  have hdisjoint : ∀ txs : List Transaction, (txs.map Transaction.id).Nodup →
      txs.Pairwise fun t t' => List.Disjoint ((t.creates b.header.height).map Prod.fst)
        ((t'.creates b.header.height).map Prod.fst) := by
    intro txs hnd
    refine (List.pairwise_map.mp hnd).imp fun hne op hop hop' => ?_
    exact hne ((txid_of_mem_creates hop).symm.trans (txid_of_mem_creates hop'))
  refine Option.ext fun entry => ?_
  unfold Block.creates
  rw [hheader, lastBinding_flatMap (hdisjoint _ hids),
    lastBinding_flatMap (hdisjoint _ ((hperm.map Transaction.id).nodup_iff.mp hids))]
  simp [hperm.mem_iff]

/-- **`apply_block` is the rule.** It succeeds on exactly the acceptable blocks;
    the new set is the old one without the outpoints the block spends and with
    the outputs it creates, the last one where several share an outpoint; and an
    error leaves the set as it was. In a block whose transactions have different
    identifiers, the order of those behind the first matters neither for its
    acceptance nor for the resulting set. -/
theorem applyBlock_is_rule (P : Primitives) (params : ConsensusParams) (u : UtxoSet) (b : Block) :
    ((∃ u', InPlace.applyBlock P params b u = .ok () u') ↔ Acceptable P params u b) ∧
    (∀ u', InPlace.applyBlock P params b u = .ok () u' → ∀ op,
      u'.lookup op
        = (lastBinding b.creates op).or (if op ∈ b.spends then none else u.lookup op)) ∧
    (∀ e u', InPlace.applyBlock P params b u = .error e u' → u' = u) ∧
    ∀ coinbase txs txs', b.transactions = coinbase :: txs → txs.Perm txs' →
      (b.transactions.map Transaction.id).Nodup → ∀ u',
      (InPlace.applyBlock P params b u = .ok () u' ↔
        InPlace.applyBlock P params { b with transactions := coinbase :: txs' } u = .ok () u') := by
  have hok : ∀ (b : Block) (u' : UtxoSet), InPlace.applyBlock P params b u = .ok () u' ↔
      Acceptable P params u b ∧ u' = applyDelta b u := by
    intro b u'
    rw [← applyBlock_ok_iff, InPlace.applyBlock_run]
    cases Tensorium.applyBlock P params b u <;> simp
  refine ⟨?_, ?_, ?_, ?_⟩
  · simp [hok]
  · intro u' h op
    obtain ⟨_, rfl⟩ := (hok b u').mp h
    unfold applyDelta
    rw [lookup_insertAll, lookup_eraseAll]
  · intro e u' h
    rw [InPlace.applyBlock_run] at h
    cases hrun : Tensorium.applyBlock P params b u with
    | ok v => simp [hrun] at h
    | error e' =>
      rw [hrun] at h
      exact (EStateM.Result.error.inj h).2.symm
  · intro coinbase txs txs' htxs hperm hids u'
    have hall : b.transactions.Perm (coinbase :: txs') := by
      rw [htxs]
      exact hperm.cons coinbase
    -- The rule and the resulting set are the same for both orders.
    have hrule : Acceptable P params u b ↔
        Acceptable P params u { b with transactions := coinbase :: txs' } :=
      ⟨fun h => h.perm rfl htxs rfl hperm, fun h => h.perm rfl rfl htxs hperm.symm⟩
    have hdelta : applyDelta b u = applyDelta { b with transactions := coinbase :: txs' } u := by
      refine Finmap.ext_lookup fun op => ?_
      unfold applyDelta
      have hspends : op ∈ b.spends ↔
          op ∈ Block.spends { b with transactions := coinbase :: txs' } := by
        rw [spends_eq_flatMap htxs, spends_eq_flatMap rfl]
        exact (hperm.flatMap_right _).mem_iff
      rw [lookup_insertAll, lookup_insertAll, lookup_eraseAll, lookup_eraseAll,
        lastBinding_creates_perm b { b with transactions := coinbase :: txs' } rfl hall hids]
      simp only [hspends]
    rw [hok, hok, hrule, hdelta]

/-! ## A block in two orders -/

/-- Two outputs that anyone may spend. -/
def openOutputs : UtxoSet :=
  ((∅ : UtxoSet).insert ⟨Hash256.ofSuffix [1], 0⟩ ⟨⟨30, [0x51]⟩, 1, false⟩).insert
    ⟨Hash256.ofSuffix [2], 0⟩ ⟨⟨20, [0x51]⟩, 1, false⟩

/-- A spend of the output of transaction `n` that leaves a fee of 5. -/
def openSpend (n : UInt8) (atoms : UInt64) : Transaction where
  id := Hash256.ofSuffix [n, n]
  inputs := [⟨⟨Hash256.ofSuffix [n], 0⟩, []⟩]
  outputs := [⟨atoms, [0x51]⟩]
  payload := []

/-- A coinbase that claims the reward and two such fees. -/
def feeCoinbase : Transaction :=
  Transaction.coinbase Primitives.sample 2 (rewardAtHeight testParams 2 + 10) "a"

theorem applyBlock_either_order :
    ∃ u', InPlace.applyBlock Primitives.sample testParams
        (bareBlock 2 [feeCoinbase, openSpend 1 25, openSpend 2 15]) openOutputs = .ok () u' ∧
      InPlace.applyBlock Primitives.sample testParams
        (bareBlock 2 [feeCoinbase, openSpend 2 15, openSpend 1 25]) openOutputs = .ok () u' := by
  refine ⟨applyDelta (bareBlock 2 [feeCoinbase, openSpend 1 25, openSpend 2 15]) openOutputs,
    rfl, ?_⟩
  exact ((applyBlock_is_rule Primitives.sample testParams openOutputs
    (bareBlock 2 [feeCoinbase, openSpend 1 25, openSpend 2 15])).2.2.2 feeCoinbase
      [openSpend 1 25, openSpend 2 15] [openSpend 2 15, openSpend 1 25] rfl
      (List.Perm.swap _ _ []) (by decide) _).mp rfl

end Tensorium
