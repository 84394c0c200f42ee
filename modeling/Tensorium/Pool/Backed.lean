import Tensorium.Pool.LedgerFile
import Mathlib.Data.String.Basic

/-! # What stands behind a payout

    A payout is marked on the word of the node. Two of its errors count as a
    payment, and one of them says that the transaction conflicts with another
    one: then nothing is paid. The other one says that the transaction is known,
    which is a payment only if it has not been counted before, for the wallet
    builds the same transaction again from the same outputs. Without conflicts
    and repetitions, what is marked is paid.
-/

namespace Tensorium

open GuardedRun BulkMap

/-- The transactions in the mempool of a node. -/
def Node.pendingTxs (node : Node) : List Transaction :=
  (Iteration.sorted.list node.mempool.pending).map fun e => e.2.tx

theorem Node.mem_pendingTxs {node : Node} {tx : Transaction} :
    tx ∈ node.pendingTxs ↔
      ∃ key entry, node.mempool.pending.lookup key = some entry ∧ entry.tx = tx := by
  unfold pendingTxs
  rw [List.mem_map]
  constructor
  · rintro ⟨⟨key, entry⟩, hmem, rfl⟩
    exact ⟨key, entry, (Iteration.sorted.mem_iff _ _ _).mp hmem, rfl⟩
  · rintro ⟨key, entry, hlookup, rfl⟩
    exact ⟨(key, entry), (Iteration.sorted.mem_iff _ _ _).mpr hlookup, rfl⟩

/-- What a transaction pays to the address of a miner. -/
def atomsTo (P : Primitives) (miner : String) (tx : Transaction) : Nat :=
  match Script.p2pkhFromAddress P miner with
  | .error _ => 0
  | .ok script =>
    ((tx.outputs.filter fun output => output.scriptPubkey = script).map
      fun output => output.valueAtoms.toNat).sum

namespace Payouts

open PayoutLedger

variable {P : Primitives} {E : Ecdsa P} {params : ConsensusParams} {cfg : PayoutConfig}

/-! ## Answers that count as paid -/

/-- A broadcast is not answered with a conflict, and if the node says that it knows
    the transaction, it is this very one that is pending. -/
def FairBroadcast (P : Primitives) (params : ConsensusParams) (node : Node)
    (order : PendingOrder) : Cycle → Prop
  | .broadcast _ _ _ _ tx =>
    (node.sendRawTransaction P params order tx).1 ≠ .error (.mempool .pendingConflict) ∧
      ((node.sendRawTransaction P params order tx).1 = .error (.mempool .alreadyKnown) →
        tx ∈ node.pendingTxs)
  | _ => True

/-- The event sends no transaction, or one that is answered fairly. -/
def AnsweredFairly (P : Primitives) (params : ConsensusParams) (w : Payouts) : Event → Prop
  | .cycle .done _ order => FairBroadcast P params w.node order w.cycle
  | _ => True

instance (node : Node) (order : PendingOrder) :
    (cycle : Cycle) → Decidable (FairBroadcast P params node order cycle)
  | .broadcast _ _ _ _ _ => inferInstanceAs (Decidable (_ ∧ (_ → _)))
  | .idle | .due _ | .next _ _ | .send _ _ _ _ | .mark _ _ _ _ _ => .isTrue trivial

instance (w : Payouts) : (event : Event) → Decidable (AnsweredFairly P params w event)
  | .cycle .done _ order =>
    inferInstanceAs (Decidable (FairBroadcast P params w.node order w.cycle))
  | .cycle .failed _ _ | .cycle .replyLost _ _ | .node _ | .share _ | .credit _ _ _ | .load _
  | .save _ => .isTrue trivial

/-- The node answers with an error and leaves its mempool, or the transaction is
    in it. -/
theorem sendRawTransaction_cases (P : Primitives) (params : ConsensusParams) (node : Node)
    (order : PendingOrder) (tx : Transaction) :
    (∃ e, (node.sendRawTransaction P params order tx).1 = .error e ∧
      (node.sendRawTransaction P params order tx).2.mempool = node.mempool) ∨
    tx ∈ (node.sendRawTransaction P params order tx).2.pendingTxs := by
  unfold Node.sendRawTransaction Node.acceptPeerTx
  cases node.loadState.ensureUtxoSynced P params with
  | mk result s =>
    cases result with
    | error e => exact Or.inl ⟨_, rfl, rfl⟩
    | ok _ =>
      dsimp only
      cases hadd : node.mempool.add P order (Node.seedUtxosForTx s tx) params tx
          (s.height.getD 0) with
      | error e => exact Or.inl ⟨_, rfl, rfl⟩
      | ok m =>
        right
        obtain ⟨_, fee, m₁, _, _, rfl⟩ := Mempool.add_ok hadd
        exact Node.mem_pendingTxs.mpr ⟨tx.id.toHex, ⟨tx, fee⟩, Finmap.lookup_insert _, rfl⟩

/-- A transaction that a fair answer counts as paid is in the mempool. -/
theorem pending_of_counts {node : Node} {order : PendingOrder} {tx : Transaction}
    (hcounts : countsAsPaid (node.sendRawTransaction P params order tx).1 = true)
    (hconflict : (node.sendRawTransaction P params order tx).1
      ≠ .error (.mempool .pendingConflict))
    (hknown : (node.sendRawTransaction P params order tx).1 = .error (.mempool .alreadyKnown) →
      tx ∈ node.pendingTxs) :
    tx ∈ (node.sendRawTransaction P params order tx).2.pendingTxs := by
  rcases sendRawTransaction_cases P params node order tx with ⟨e, herror, hmempool⟩ | hpending
  · rw [herror] at hcounts
    rcases (countsAsPaid_error_iff e).mp hcounts with rfl | rfl
    · obtain ⟨key, entry, hlookup, htx⟩ := Node.mem_pendingTxs.mp (hknown herror)
      rw [← hmempool] at hlookup
      exact Node.mem_pendingTxs.mpr ⟨key, entry, hlookup, htx⟩
    · exact absurd herror hconflict
  · exact hpending

/-! ## What a cycle has in hand -/

/-- A transaction whose first output pays an amount to a miner. -/
def PaysFirst (P : Primitives) (miner : String) (atoms : UInt64) (tx : Transaction) : Prop :=
  ∃ script rest, Script.p2pkhFromAddress P miner = .ok script ∧
    tx.outputs = ⟨atoms, script⟩ :: rest

theorem PaysFirst.le_atomsTo {miner : String} {atoms : UInt64} {tx : Transaction}
    (h : PaysFirst P miner atoms tx) : atoms.toNat ≤ atomsTo P miner tx := by
  obtain ⟨script, rest, hscript, houtputs⟩ := h
  simp [atomsTo, hscript, houtputs]

/-- The amount in hand is a sum of first dues, the transaction pays it, and it has
    been in the mempool when it is about to be marked. -/
def InOrder (P : Primitives) (seen : List Transaction) (w : Payouts) : Prop :=
  match w.cycle with
  | .send _ _ miner payableAtoms => Fits w.ledger.entries miner payableAtoms
  | .broadcast _ _ miner payableAtoms tx =>
    Fits w.ledger.entries miner payableAtoms ∧ PaysFirst P miner payableAtoms tx
  | .mark _ _ miner payableAtoms tx =>
    Fits w.ledger.entries miner payableAtoms ∧ PaysFirst P miner payableAtoms tx ∧ tx ∈ seen
  | _ => True

/-- An event that only appends entries leaves in order what a cycle has in hand. -/
theorem InOrder.append {seen : List Transaction} {w w' : Payouts} (h : InOrder P seen w)
    (hcycle : w'.cycle = w.cycle) (more : List PayoutEntry)
    (hledger : w'.ledger.entries = w.ledger.entries ++ more) : InOrder P seen w' := by
  unfold InOrder at h ⊢
  rw [hcycle, hledger]
  cases hphase : w.cycle with
  | send miners spendableAtoms miner payableAtoms =>
    rw [hphase] at h
    exact h.append more
  | broadcast miners spendableAtoms miner payableAtoms tx =>
    rw [hphase] at h
    exact ⟨h.1.append more, h.2⟩
  | mark miners spendableAtoms miner payableAtoms tx =>
    rw [hphase] at h
    exact ⟨h.1.append more, h.2⟩
  | idle => trivial
  | due miners => trivial
  | next miners spendableAtoms => trivial

theorem InOrder.mono {seen more : List Transaction} {w : Payouts} (h : InOrder P seen w) :
    InOrder P (seen ++ more) w := by
  unfold InOrder at h ⊢
  cases hphase : w.cycle with
  | mark miners spendableAtoms miner payableAtoms tx =>
    rw [hphase] at h
    exact ⟨h.1, h.2.1, List.mem_append_left _ h.2.2⟩
  | _ =>
    rw [hphase] at h
    exact h

/-- `run_cycle` keeps in order what it has in hand. -/
theorem InOrder.runCycle {seen : List Transaction} {w : Payouts} (h : InOrder P seen w)
    (delivery : Delivery) (weights : WeightOrder) (order : PendingOrder)
    (hfair : w.AnsweredFairly P params (.cycle delivery weights order)) :
    InOrder P (seen ++ (w.runCycle E params cfg delivery weights order).node.pendingTxs)
      (w.runCycle E params cfg delivery weights order) := by
  unfold Payouts.runCycle
  cases hphase : w.cycle with
  | idle =>
    dsimp only
    split
    · unfold InOrder
      rw [hphase]
      trivial
    · trivial
  | due miners =>
    dsimp only
    split
    · trivial
    · trivial
    · trivial
  -- The amount is chosen here, below what is due and what can be spent.
  | next miners spendableAtoms =>
    cases miners with
    | nil => trivial
    | cons miner miners =>
      dsimp only
      split_ifs
      · trivial
      · trivial
      · apply fits_payableAtomsUpTo
        rw [Saturating.toNat_satSub64]
        have htop := spendableAtoms.toNat_lt
        have hfee : minRelayFeeAtoms.toNat = 10000 := rfl
        omega
  | send miners spendableAtoms miner payableAtoms =>
    have hfits : Fits w.ledger.entries miner payableAtoms := by
      unfold InOrder at h
      rw [hphase] at h
      exact h
    dsimp only
    split
    · trivial
    next tx hbuilt =>
      obtain ⟨utxos, _, hbuild⟩ := Option.map_eq_some_iff.mp hbuilt
      exact ⟨hfits, buildSignedPaymentViaRpc_pays hbuild⟩
    · trivial
  | broadcast miners spendableAtoms miner payableAtoms tx =>
    have hbuilt : Fits w.ledger.entries miner payableAtoms ∧ PaysFirst P miner payableAtoms tx := by
      unfold InOrder at h
      rw [hphase] at h
      exact h
    dsimp only
    split
    · trivial
    next hcounts =>
      unfold AnsweredFairly at hfair
      rw [hphase] at hfair
      -- The node says it took the payment, and answers fairly: it is pending.
      refine ⟨hbuilt.1, hbuilt.2, List.mem_append_right _ ?_⟩
      exact pending_of_counts hcounts hfair.1 hfair.2
    · trivial
  | mark miners spendableAtoms miner payableAtoms tx => trivial

theorem InOrder.step {seen : List Transaction} {w : Payouts} (h : InOrder P seen w)
    {event : Event} (hfair : w.AnsweredFairly P params event) :
    InOrder P (seen ++ (w.step E params cfg event).node.pendingTxs)
      (w.step E params cfg event) := by
  cases event with
  | cycle delivery weights order => exact h.runCycle delivery weights order hfair
  | node op => exact (h.append rfl [] (List.append_nil _).symm).mono
  | share share => exact (h.append rfl [] (List.append_nil _).symm).mono
  | load miner => exact (h.append rfl [] (List.append_nil _).symm).mono
  | credit blockHeight blockHash splits =>
    have happend : InOrder P seen (w.step E params cfg (.credit blockHeight blockHash splits)) :=
      h.append rfl _ (entries_pushAll _ _ _ _)
    exact happend.mono
  | save i =>
    unfold Payouts.step
    dsimp only
    split
    · exact h.mono
    · exact (h.append rfl [] (List.append_nil _).symm).mono

/-! ## Runs -/

/-- What an event marks: the miner, the amount and the transaction behind it. -/
def marks (w : Payouts) : Event → List (String × UInt64 × Transaction)
  | .cycle _ _ _ =>
    match w.cycle with
    | .mark _ _ miner payableAtoms tx => [(miner, payableAtoms, tx)]
    | _ => []
  | _ => []

/-- What is marked in a run. -/
def markedIn (E : Ecdsa P) (params : ConsensusParams) (cfg : PayoutConfig) (w : Payouts)
    (events : List Event) : List (String × UInt64 × Transaction) :=
  outputs (Payouts.step E params cfg) Payouts.marks w events

/-- The transactions the node has had in its mempool in a run, with repetitions. -/
def acceptedIn (E : Ecdsa P) (params : ConsensusParams) (cfg : PayoutConfig) (w : Payouts)
    (events : List Event) : List Transaction :=
  w.node.pendingTxs ++ outputs (Payouts.step E params cfg)
    (fun w event => (w.step E params cfg event).node.pendingTxs) w events

/-- The amounts of some marks that are for a miner. -/
def marksFor (miner : String) (marks : List (String × UInt64 × Transaction)) : Nat :=
  ((marks.filter fun mark => mark.1 == miner).map fun mark => mark.2.1.toNat).sum

theorem marksFor_append (miner : String) (a b : List (String × UInt64 × Transaction)) :
    marksFor miner (a ++ b) = marksFor miner a + marksFor miner b := by
  simp [marksFor]

/-- The ledger pays a miner what the event marks. -/
theorem step_paidAtoms {seen : List Transaction} {w : Payouts} (h : InOrder P seen w)
    (event : Event) (miner : String) :
    paidAtoms (w.step E params cfg event).ledger.entries miner
      = paidAtoms w.ledger.entries miner + marksFor miner (w.marks event) := by
  cases event with
  | node op => rfl
  | share share => rfl
  | load miner => rfl
  | credit blockHeight blockHash splits =>
    show paidAtoms (w.ledger.pushAll blockHeight blockHash splits).entries miner = _
    rw [entries_pushAll, paidAtoms_append, paidAtoms_unpaid (unpaid_new _ _ _)]
    rfl
  | save i =>
    unfold Payouts.step
    dsimp only
    split
    · rfl
    · rfl
  | cycle delivery weights order =>
    -- The last phase pays what fits; the others leave the books alone.
    rcases runCycle_books E params cfg w delivery weights order with
      ⟨miners, spendableAtoms, payee, payableAtoms, tx, hmark⟩ | ⟨hledger, _, _, hsaved⟩
    · unfold InOrder at h
      rw [hmark] at h
      simp only [Payouts.step, Payouts.runCycle, marks, hmark]
      rw [paidAtoms_markPaidUpTo h.1]
      by_cases hpayee : payee = miner
      · simp [marksFor, hpayee]
      · simp [marksFor, hpayee]
    · have hnone : w.marks (.cycle delivery weights order) = [] := by
        unfold saved at hsaved
        unfold marks
        cases hphase : w.cycle with
        | mark miners spendableAtoms payee payableAtoms tx =>
          rw [hphase] at hsaved
          cases hsaved
        | _ => rfl
      rw [hnone]
      show paidAtoms (w.runCycle E params cfg delivery weights order).ledger.entries miner = _
      rw [hledger]
      rfl

/-- What an event marks has been paid by a transaction that was in the mempool. -/
theorem marks_backed {seen : List Transaction} {w : Payouts} (h : InOrder P seen w)
    (event : Event) :
    ∀ mark ∈ w.marks event, PaysFirst P mark.1 mark.2.1 mark.2.2 ∧ mark.2.2 ∈ seen := by
  intro mark hmark
  unfold marks at hmark
  cases event with
  | cycle delivery weights order =>
    dsimp only at hmark
    cases hphase : w.cycle with
    | mark miners spendableAtoms miner payableAtoms tx =>
      rw [hphase] at hmark
      unfold InOrder at h
      rw [hphase] at h
      rw [List.mem_singleton.mp hmark]
      exact h.2
    | _ =>
      rw [hphase] at hmark
      cases hmark
  | _ => cases hmark

/-- A run pays what it marks, and every mark is backed. -/
theorem run_backed (events : List Event) (w : Payouts) (seen : List Transaction)
    (h : InOrder P seen w)
    (hfair : Along (Payouts.step E params cfg) (AnsweredFairly P params) w events) :
    (∀ mark ∈ w.markedIn E params cfg events, PaysFirst P mark.1 mark.2.1 mark.2.2 ∧
      mark.2.2 ∈ seen ++ outputs (Payouts.step E params cfg)
        (fun w event => (w.step E params cfg event).node.pendingTxs) w events) ∧
    ∀ miner, paidAtoms (events.foldl (Payouts.step E params cfg) w).ledger.entries miner
      = paidAtoms w.ledger.entries miner + marksFor miner (w.markedIn E params cfg events) := by
  induction events generalizing w seen with
  | nil =>
    refine ⟨?_, fun miner => rfl⟩
    intro mark hmark
    cases hmark
  | cons event events ih =>
    have hnext : InOrder P (seen ++ (w.step E params cfg event).node.pendingTxs)
        (w.step E params cfg event) := h.step hfair.1
    obtain ⟨hmarks, hpaid⟩ := ih _ _ hnext hfair.2
    refine ⟨?_, ?_⟩
    · intro mark hmark
      rcases List.mem_append.mp hmark with hnow | hlater
      · obtain ⟨hpays, hseen⟩ := marks_backed h event mark hnow
        exact ⟨hpays, List.mem_append_left _ hseen⟩
      · obtain ⟨hpays, hseen⟩ := hmarks mark hlater
        refine ⟨hpays, ?_⟩
        rwa [List.append_assoc] at hseen
    · intro miner
      show paidAtoms (events.foldl _ (w.step E params cfg event)).ledger.entries miner
        = _ + marksFor miner (w.marks event ++ (w.step E params cfg event).markedIn E params cfg
            events)
      rw [hpaid miner, step_paidAtoms h, marksFor_append, Nat.add_assoc]

/-- Distinct transactions behind marks pay at least what is marked. -/
theorem marksFor_le {marked : List (String × UInt64 × Transaction)} {accepted : List Transaction}
    (hpays : ∀ mark ∈ marked, PaysFirst P mark.1 mark.2.1 mark.2.2 ∧ mark.2.2 ∈ accepted)
    (hdistinct : (marked.map fun mark => mark.2.2).Nodup) (miner : String) :
    marksFor miner marked ≤ (accepted.dedup.map (atomsTo P miner)).sum := by
  have hsub : (marked.map fun mark => mark.2.2) ⊆ accepted.dedup := by
    intro tx htx
    obtain ⟨mark, hmark, rfl⟩ := List.mem_map.mp htx
    exact List.mem_dedup.mpr (hpays mark hmark).2
  calc marksFor miner marked
      ≤ ((marked.filter fun mark => mark.1 == miner).map
          fun mark => atomsTo P miner mark.2.2).sum := by
        apply List.sum_le_sum
        intro mark hmark
        obtain ⟨hmem, hminer⟩ := List.mem_filter.mp hmark
        rw [← beq_iff_eq.mp hminer]
        exact (hpays mark hmem).1.le_atomsTo
    _ ≤ (marked.map fun mark => atomsTo P miner mark.2.2).sum :=
        (List.filter_sublist.map _).sum_le_sum fun _ _ => Nat.zero_le _
    _ = ((marked.map fun mark => mark.2.2).map (atomsTo P miner)).sum := by
        rw [List.map_map]
        rfl
    _ ≤ (accepted.dedup.map (atomsTo P miner)).sum :=
        Apportion.sum_map_le_of_nodup _ hdistinct hsub

/-- **What is marked is paid.** In a run in which no payment is answered with a
    conflict, a transaction that the node says it knows is the one that is
    pending, and no transaction stands behind two marks, the entries that are
    marked for a miner are paid to the miner by distinct transactions that the
    node has accepted. -/
theorem marked_is_paid (E : Ecdsa P) (params : ConsensusParams) (cfg : PayoutConfig)
    (node : Node) (ledger : PayoutLedger) (events : List Event)
    (hfair : Along (Payouts.step E params cfg) (AnsweredFairly P params) (boot node ledger) events)
    (hdistinct : (((boot node ledger).markedIn E params cfg events).map
      fun mark => mark.2.2).Nodup) (miner : String) :
    paidAtoms (events.foldl (Payouts.step E params cfg) (boot node ledger)).ledger.entries miner
      ≤ paidAtoms ledger.entries miner
        + (((boot node ledger).acceptedIn E params cfg events).dedup.map (atomsTo P miner)).sum := by
  have hstart : InOrder P node.pendingTxs (boot node ledger) := trivial
  obtain ⟨hmarks, hpaid⟩ := run_backed events (boot node ledger) node.pendingTxs hstart hfair
  rw [hpaid miner]
  exact Nat.add_le_add_left (marksFor_le hmarks hdistinct miner) _

/-! ## A conflict that counts as paid -/

/-- The key of an address; the sample digest and the sample addresses agree on it. -/
def treasuryKey : Bytes := 0 :: List.replicate 15 0 ++ asBytes "txm1w" ++ List.replicate 12 0

/-- A treasury that pays out whatever is due. -/
def treasuryConfig : PayoutConfig :=
  ⟨⟨"txm1w", .fromSigningKey Ecdsa.sample ⟨treasuryKey, by decide⟩⟩, 1⟩

/-- A chain of `n` blocks above the genesis block that pay the treasury. -/
def treasuryRun : Nat → ChainState
  | 0 => ChainState.new.step Primitives.sample testParams (.initGenesis 1 0)
  | n + 1 => (treasuryRun n).step Primitives.sample testParams (.mineNextBlock (n + 2) "txm1w" 0)

/-- The treasury has one mature output. -/
def treasuryNode : Node := ⟨(treasuryRun 11).db, Mempool.new⟩

/-- Two miners are credited, and the payout thread takes `n` steps. -/
def payoutRun (n : Nat) : List Event :=
  .credit 1 "b1" [("txm1a", 100000), ("txm1b", 200000)]
    :: List.replicate n (.cycle .done Iteration.sorted Iteration.sorted)

/-- The second payment of the cycle spends what the first one spends. The node
    refuses it, and the entry of the second miner is marked paid. -/
theorem conflict_marked_paid :
    ¬ paidAtoms ((payoutRun 10).foldl (Payouts.step Ecdsa.sample testParams treasuryConfig)
        (boot treasuryNode PayoutLedger.new)).ledger.entries "txm1b"
      ≤ paidAtoms PayoutLedger.new.entries "txm1b"
        + (((boot treasuryNode PayoutLedger.new).acceptedIn Ecdsa.sample testParams treasuryConfig
            (payoutRun 10)).dedup.map (atomsTo Primitives.sample "txm1b")).sum := by
  decide +kernel

/-- The first payment of the cycle is accepted, and backs what is marked. -/
theorem first_payment_backed :
    paidAtoms ((payoutRun 6).foldl (Payouts.step Ecdsa.sample testParams treasuryConfig)
        (boot treasuryNode PayoutLedger.new)).ledger.entries "txm1a" = 95000 ∧
    paidAtoms ((payoutRun 6).foldl (Payouts.step Ecdsa.sample testParams treasuryConfig)
        (boot treasuryNode PayoutLedger.new)).ledger.entries "txm1a"
      ≤ paidAtoms PayoutLedger.new.entries "txm1a"
        + (((boot treasuryNode PayoutLedger.new).acceptedIn Ecdsa.sample testParams treasuryConfig
            (payoutRun 6)).dedup.map (atomsTo Primitives.sample "txm1a")).sum := by
  have heval : paidAtoms ((payoutRun 6).foldl (Payouts.step Ecdsa.sample testParams treasuryConfig)
        (boot treasuryNode PayoutLedger.new)).ledger.entries "txm1a" = 95000 ∧
      Along (Payouts.step Ecdsa.sample testParams treasuryConfig)
        (AnsweredFairly Primitives.sample testParams) (boot treasuryNode PayoutLedger.new)
        (payoutRun 6) ∧
      (((boot treasuryNode PayoutLedger.new).markedIn Ecdsa.sample testParams treasuryConfig
        (payoutRun 6)).map fun mark => mark.2.2).Nodup := by
    decide +kernel
  exact ⟨heval.1, marked_is_paid Ecdsa.sample testParams treasuryConfig treasuryNode
    PayoutLedger.new (payoutRun 6) heval.2.1 heval.2.2 "txm1a"⟩

end Payouts

end Tensorium
