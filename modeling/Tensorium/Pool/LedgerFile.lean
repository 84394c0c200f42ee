import Tensorium.Pool.Payout

/-! # Who writes the ledger file

    The server never reads the file again, and a `mark-paid` command saves what
    it has loaded. Whoever saves from a copy that misses what another process
    has written undoes it. An entry that is paid in the file stays there, stays
    paid and is not paid again exactly as long as no process does so.
-/

namespace Tensorium

open GuardedRun

/-! ## What a ledger says -/

namespace PayoutLedger

variable {old new entries : List PayoutEntry}

/-- The entries without the flag that says whether they are paid. -/
def records (entries : List PayoutEntry) : List PayoutEntry :=
  entries.map fun entry => { entry with paidOut := false }

/-- The entry at a position is there and is paid. -/
def PaidAt (entries : List PayoutEntry) (k : Nat) : Prop :=
  entries[k]?.map PayoutEntry.paidOut = some true

instance (entries : List PayoutEntry) (k : Nat) : Decidable (PaidAt entries k) :=
  inferInstanceAs (Decidable (_ = _))

/-- Every entry of `old` is in `new`, at its position, and paid if it was. -/
def Covers (new old : List PayoutEntry) : Prop :=
  records old <+: records new ∧ ∀ k, PaidAt old k → PaidAt new k

theorem Covers.refl (entries : List PayoutEntry) : Covers entries entries :=
  ⟨List.prefix_refl _, fun _ h => h⟩

theorem Covers.trans {a b c : List PayoutEntry} (hab : Covers b a) (hbc : Covers c b) :
    Covers c a :=
  ⟨hab.1.trans hbc.1, fun k h => hbc.2 k (hab.2 k h)⟩

@[simp] theorem length_records (entries : List PayoutEntry) :
    (records entries).length = entries.length := by
  simp [records]

@[simp] theorem records_append (entries more : List PayoutEntry) :
    records (entries ++ more) = records entries ++ records more := by
  simp [records]

@[simp] theorem records_markPaid (ledger : PayoutLedger) (minerAddress : String) :
    records (ledger.markPaid minerAddress).entries = records ledger.entries := by
  simp only [records, markPaid, List.map_map]
  apply List.map_congr_left
  intro entry _
  show ({ (if entry.minerAddress = minerAddress then { entry with paidOut := true } else entry)
    with paidOut := false } : PayoutEntry) = _
  split_ifs
  · rfl
  · rfl

theorem records_markLoop (minerAddress : String) (amountAtoms marked : UInt64)
    (entries : List PayoutEntry) :
    records (markLoop minerAddress amountAtoms marked entries) = records entries := by
  induction entries generalizing marked with
  | nil => rfl
  | cons entry entries ih =>
    unfold markLoop
    split_ifs
    · rfl
    · show _ :: records (markLoop _ _ _ entries) = _ :: records entries
      rw [ih]
    · show _ :: records (markLoop _ _ _ entries) = _ :: records entries
      rw [ih]

@[simp] theorem records_markPaidUpTo (ledger : PayoutLedger) (minerAddress : String)
    (amountAtoms : UInt64) :
    records (ledger.markPaidUpTo minerAddress amountAtoms).entries = records ledger.entries :=
  records_markLoop minerAddress amountAtoms 0 ledger.entries

/-- The entries of a block are appended, unpaid. -/
theorem entries_pushAll (ledger : PayoutLedger) (blockHeight : Nat) (blockHash : String)
    (splits : List (String × UInt64)) :
    (ledger.pushAll blockHeight blockHash splits).entries
      = ledger.entries ++ splits.map fun split =>
          PayoutEntry.new blockHeight blockHash split.1 split.2 := by
  induction splits generalizing ledger with
  | nil => simp [pushAll]
  | cons split splits ih =>
    show ((ledger.push _).pushAll blockHeight blockHash splits).entries = _
    rw [ih]
    simp [push]

theorem unpaid_new (blockHeight : Nat) (blockHash : String) (splits : List (String × UInt64)) :
    ∀ entry ∈ splits.map fun split => PayoutEntry.new blockHeight blockHash split.1 split.2,
      entry.paidOut = false := by
  intro entry hentry
  obtain ⟨split, _, rfl⟩ := List.mem_map.mp hentry
  rfl

/-- Appending unpaid entries pays nothing and takes nothing back. -/
theorem paidAt_append {more : List PayoutEntry} (h : ∀ entry ∈ more, entry.paidOut = false)
    (k : Nat) : PaidAt (entries ++ more) k ↔ PaidAt entries k := by
  unfold PaidAt
  by_cases hk : k < entries.length
  · rw [List.getElem?_append_left hk]
  · rw [List.getElem?_append_right (not_lt.mp hk), List.getElem?_eq_none (not_lt.mp hk)]
    constructor
    · intro hpaid
      obtain ⟨entry, hentry, htrue⟩ := Option.map_eq_some_iff.mp hpaid
      rw [h entry (List.mem_of_getElem? hentry)] at htrue
      cases htrue
    · intro hpaid
      cases hpaid

end PayoutLedger

namespace Payouts

open PayoutLedger

variable {P : Primitives} {E : Ecdsa P} {params : ConsensusParams} {cfg : PayoutConfig}

/-! ## What an event writes and pays -/

/-- The ledger an event writes to the file. -/
def saved (w : Payouts) : Event → Option PayoutLedger
  | .credit blockHeight blockHash splits =>
    some (w.ledger.pushAll blockHeight blockHash splits)
  | .cycle _ _ _ =>
    match w.cycle with
    | .mark _ _ miner payableAtoms _ => some (w.ledger.markPaidUpTo miner payableAtoms)
    | _ => none
  | .save i => w.marking[i]?.map fun command => command.2.markPaid command.1
  | .node _ | .share _ | .load _ => none

/-- An event of `run_cycle` pays an entry: the node takes the transaction for the
    entries that are about to be marked, or says what counts as that. -/
def Pays (P : Primitives) (params : ConsensusParams) (w : Payouts) (event : Event) (k : Nat) :
    Prop :=
  match event, w.cycle with
  | .cycle delivery _ order, .broadcast _ _ miner payableAtoms tx =>
    delivery ≠ .failed ∧ countsAsPaid (w.node.sendRawTransaction P params order tx).1 = true ∧
      ¬ PaidAt w.ledger.entries k ∧ PaidAt (w.ledger.markPaidUpTo miner payableAtoms).entries k
  | _, _ => False

/-- `run_cycle` leaves the books alone, except where it marks what it has paid. -/
theorem runCycle_books (E : Ecdsa P) (params : ConsensusParams) (cfg : PayoutConfig) (w : Payouts)
    (delivery : Delivery) (weights : WeightOrder) (order : PendingOrder) :
    (∃ miners spendableAtoms miner payableAtoms tx,
      w.cycle = .mark miners spendableAtoms miner payableAtoms tx) ∨
    ((w.runCycle E params cfg delivery weights order).ledger = w.ledger ∧
      (w.runCycle E params cfg delivery weights order).file = w.file ∧
      (w.runCycle E params cfg delivery weights order).marking = w.marking ∧
      w.saved (.cycle delivery weights order) = none) := by
  -- Each phase but the last one reads the books only.
  unfold runCycle saved
  cases w.cycle with
  | mark miners spendableAtoms miner payableAtoms tx => exact Or.inl ⟨_, _, _, _, _, rfl⟩
  | idle =>
    right
    dsimp only
    split
    · exact ⟨rfl, rfl, rfl, rfl⟩
    · exact ⟨rfl, rfl, rfl, rfl⟩
  | due miners =>
    right
    dsimp only
    split
    · exact ⟨rfl, rfl, rfl, rfl⟩
    · exact ⟨rfl, rfl, rfl, rfl⟩
    · exact ⟨rfl, rfl, rfl, rfl⟩
  | next miners spendableAtoms =>
    right
    cases miners with
    | nil => exact ⟨rfl, rfl, rfl, rfl⟩
    | cons miner miners =>
      dsimp only
      split_ifs
      · exact ⟨rfl, rfl, rfl, rfl⟩
      · exact ⟨rfl, rfl, rfl, rfl⟩
      · exact ⟨rfl, rfl, rfl, rfl⟩
  | send miners spendableAtoms miner payableAtoms =>
    right
    dsimp only
    split
    · exact ⟨rfl, rfl, rfl, rfl⟩
    · exact ⟨rfl, rfl, rfl, rfl⟩
    · exact ⟨rfl, rfl, rfl, rfl⟩
  | broadcast miners spendableAtoms miner payableAtoms tx =>
    right
    dsimp only
    split
    · exact ⟨rfl, rfl, rfl, rfl⟩
    · exact ⟨rfl, rfl, rfl, rfl⟩
    · exact ⟨rfl, rfl, rfl, rfl⟩

/-- The file after an event is what the event writes, or what it was. -/
theorem step_file (w : Payouts) (event : Event) :
    (w.step E params cfg event).file = (w.saved event).getD w.file := by
  cases event with
  | node op => rfl
  | share share => rfl
  | credit blockHeight blockHash splits => rfl
  | load miner => rfl
  | save i =>
    unfold step saved
    dsimp only
    cases w.marking[i]? with
    | none => rfl
    | some command => rfl
  | cycle delivery weights order =>
    rcases runCycle_books E params cfg w delivery weights order with
      ⟨_, _, _, _, _, hmark⟩ | ⟨_, hfile, _, hsaved⟩
    · simp only [step, runCycle, saved, hmark]
      rfl
    · rw [hsaved]
      exact hfile

/-- The file and the copies of the commands are earlier versions of the ledger, up
    to what is paid. -/
structure OneLog (w : Payouts) : Prop where
  file : records w.file.entries <+: records w.ledger.entries
  marking : ∀ command ∈ w.marking, records command.2.entries <+: records w.ledger.entries

/-- A ledger that only grows keeps its earlier versions. -/
theorem OneLog.grow {w w' : Payouts} (h : OneLog w)
    (hledger : records w.ledger.entries <+: records w'.ledger.entries)
    (hfile : w'.file = w.file ∨ w'.file = w'.ledger)
    (hmarking : w'.marking = w.marking) : OneLog w' := by
  constructor
  · rcases hfile with hfile | hfile
    · rw [hfile]
      exact h.file.trans hledger
    · rw [hfile]
  · rw [hmarking]
    intro command hcommand
    exact (h.marking command hcommand).trans hledger

theorem OneLog.step {w : Payouts} (h : OneLog w) (event : Event) :
    OneLog (w.step E params cfg event) := by
  cases event with
  | node op => exact ⟨h.file, h.marking⟩
  | share share => exact ⟨h.file, h.marking⟩
  | credit blockHeight blockHash splits =>
    have hledger : records w.ledger.entries
        <+: records (w.ledger.pushAll blockHeight blockHash splits).entries := by
      rw [entries_pushAll, records_append]
      exact List.prefix_append _ _
    exact h.grow hledger (Or.inr rfl) rfl
  | load miner =>
    refine ⟨h.file, ?_⟩
    intro command hcommand
    rcases List.mem_append.mp hcommand with hold | hnew
    · exact h.marking command hold
    · rw [List.mem_singleton.mp hnew]
      exact h.file
  | save i =>
    unfold Payouts.step
    dsimp only
    cases hcommand : w.marking[i]? with
    | none => exact h
    | some command =>
      refine ⟨?_, ?_⟩
      · -- The copy was a prefix of the log when it was loaded, and the log only grows.
        show records (command.2.markPaid command.1).entries <+: records w.ledger.entries
        rw [records_markPaid]
        exact h.marking command (List.mem_of_getElem? hcommand)
      · intro other hother
        exact h.marking other (List.mem_of_mem_eraseIdx hother)
  | cycle delivery weights order =>
    rcases runCycle_books E params cfg w delivery weights order with
      ⟨_, _, miner, payableAtoms, _, hmark⟩ | ⟨hledger, hfile, hmarking, _⟩
    · have hgrow : records w.ledger.entries
          <+: records (w.ledger.markPaidUpTo miner payableAtoms).entries := by
        rw [records_markPaidUpTo]
      simp only [Payouts.step, runCycle, hmark]
      exact h.grow hgrow (Or.inr rfl) rfl
    · have hgrow : records w.ledger.entries
          <+: records (w.runCycle E params cfg delivery weights order).ledger.entries := by
        rw [hledger]
      exact h.grow hgrow (Or.inl hfile) hmarking

/-! ## Stale copies -/

/-- The event does not write from a stale copy, and pays no entry that the file has
    paid. The copy of the server is stale if the file has paid an entry that it
    has not; the copy of a `mark-paid` command also if the file has an entry that
    it has not. Entries about to be marked are not counted. -/
def UpToDate (P : Primitives) (params : ConsensusParams) (w : Payouts) (event : Event) : Prop :=
  (match event with
    | .credit _ _ _ => ∀ k, PaidAt w.file.entries k → PaidAt w.ledger.entries k
    | .cycle _ _ _ =>
      match w.cycle with
      | .mark _ _ miner payableAtoms _ => ∀ k, PaidAt w.file.entries k →
          PaidAt (w.ledger.markPaidUpTo miner payableAtoms).entries k
      | _ => True
    | .save i => ∀ command ∈ w.marking[i]?,
        w.file.entries.length ≤ command.2.entries.length ∧
          ∀ k, PaidAt w.file.entries k → PaidAt (command.2.markPaid command.1).entries k
    | .node _ | .share _ | .load _ => True) ∧
  ∀ k, w.Pays P params event k → ¬ PaidAt w.file.entries k

/-- Up to date is what saves a file that covers the one before. -/
theorem upToDate_iff (E : Ecdsa P) (params : ConsensusParams) (cfg : PayoutConfig) {w : Payouts}
    (h : OneLog w) (event : Event) :
    w.UpToDate P params event ↔
      Covers (w.step E params cfg event).file.entries w.file.entries ∧
        ∀ k, w.Pays P params event k → ¬ PaidAt w.file.entries k := by
  unfold UpToDate
  apply and_congr_left
  intro _
  rw [step_file]
  cases event with
  | node op => exact iff_of_true trivial (Covers.refl _)
  | share share => exact iff_of_true trivial (Covers.refl _)
  | load miner => exact iff_of_true trivial (Covers.refl _)
  | credit blockHeight blockHash splits =>
    show _ ↔ Covers (w.ledger.pushAll blockHeight blockHash splits).entries w.file.entries
    rw [entries_pushAll]
    constructor
    · intro hpaid
      refine ⟨?_, ?_⟩
      · rw [records_append]
        exact h.file.trans (List.prefix_append _ _)
      · intro k hk
        exact (paidAt_append (unpaid_new _ _ _) k).mpr (hpaid k hk)
    · intro hcovers k hk
      exact (paidAt_append (unpaid_new _ _ _) k).mp (hcovers.2 k hk)
  | save i =>
    unfold saved
    dsimp only
    cases hcommand : w.marking[i]? with
    | none =>
      apply iff_of_true
      · intro command hmem
        cases hmem
      · exact Covers.refl _
    | some command =>
      show _ ↔ Covers (command.2.markPaid command.1).entries w.file.entries
      have hlog := h.marking command (List.mem_of_getElem? hcommand)
      constructor
      · intro hcopy
        obtain ⟨hlength, hpaid⟩ := hcopy command rfl
        refine ⟨?_, hpaid⟩
        rw [records_markPaid]
        -- Both are prefixes of the ledger, so the lengths decide.
        apply List.prefix_of_prefix_length_le h.file hlog
        rw [length_records, length_records]
        exact hlength
      · rintro ⟨hrecords, hpaid⟩ command' hmem
        obtain rfl := Option.some.inj hmem
        refine ⟨?_, hpaid⟩
        have hlength := hrecords.length_le
        rwa [records_markPaid, length_records, length_records] at hlength
  | cycle delivery weights order =>
    unfold saved
    dsimp only
    cases w.cycle with
    | mark miners spendableAtoms miner payableAtoms tx =>
      show _ ↔ Covers (w.ledger.markPaidUpTo miner payableAtoms).entries w.file.entries
      constructor
      · intro hpaid
        refine ⟨?_, hpaid⟩
        rw [records_markPaidUpTo]
        exact h.file
      · intro hcovers
        exact hcovers.2
    | idle => exact iff_of_true trivial (Covers.refl _)
    | due miners => exact iff_of_true trivial (Covers.refl _)
    | next miners spendableAtoms => exact iff_of_true trivial (Covers.refl _)
    | send miners spendableAtoms miner payableAtoms => exact iff_of_true trivial (Covers.refl _)
    | broadcast miners spendableAtoms miner payableAtoms tx =>
      exact iff_of_true trivial (Covers.refl _)

/-! ## Runs -/

/-- **Who saves a stale copy undoes a payment.** In a run of the server and any
    number of `mark-paid` commands, the file loses no entry and takes no paid flag
    back, and no entry that is paid in the file is paid again, if and only if no
    event writes from a stale copy or pays what the file has paid. -/
theorem paid_stays_paid_iff (E : Ecdsa P) (params : ConsensusParams) (cfg : PayoutConfig)
    (node : Node) (ledger : PayoutLedger) (events : List Event) :
    let run := fun events : List Event =>
      events.foldl (Payouts.step E params cfg) (boot node ledger)
    ((∀ a b c, events = a ++ b ++ c →
        Covers (run (a ++ b)).file.entries (run a).file.entries) ∧
      ∀ a b event c, events = a ++ b ++ event :: c →
        ∀ k, PaidAt (run a).file.entries k → ¬ (run (a ++ b)).Pays P params event k) ↔
    Along (Payouts.step E params cfg) (UpToDate P params) (boot node ledger) events := by
  intro run
  have hstart : OneLog (boot node ledger) :=
    ⟨List.prefix_refl _, fun command hcommand => absurd hcommand List.not_mem_nil⟩
  rw [along_congr OneLog hstart (fun w event h => h.step event)
    (fun w event h => upToDate_iff E params cfg h event)]
  constructor
  · rintro ⟨hfile, hpays⟩
    apply along_iff.mpr
    intro a event b hevents
    refine ⟨?_, ?_⟩
    · have hone := hfile a [event] b (by rw [hevents]; simp)
      dsimp only [run] at hone
      rwa [List.foldl_append, List.foldl_cons, List.foldl_nil] at hone
    · intro k hk hpaid
      have hnone := hpays a [] event b (by rw [hevents]; simp) k hpaid
      rw [List.append_nil] at hnone
      exact hnone hk
  · intro h
    have hcovers := (along_rel_iff (R := fun w w' : Payouts =>
      Covers w'.file.entries w.file.entries) (fun w => Covers.refl _)
      (fun _ _ _ hab hbc => hab.trans hbc)).mp (h.imp fun _ _ hcond => hcond.1)
    refine ⟨hcovers, ?_⟩
    intro a b event c hevents k hpaid hk
    -- The file still has the entry paid when the event comes.
    have hlater := (hcovers a b (event :: c) hevents).2 k hpaid
    exact (along_iff.mp h (a ++ b) event c hevents).2 k hk hlater

/-- A `mark-paid` command that marks an entry the server still owes is undone by the
    next block that is credited. -/
theorem markPaid_undone (E : Ecdsa P) (params : ConsensusParams) (cfg : PayoutConfig)
    (w : Payouts) (miner : String) {k : Nat}
    (hmarks : PaidAt (w.file.markPaid miner).entries k) (howed : ¬ PaidAt w.ledger.entries k)
    (blockHeight : Nat) (blockHash : String) (splits : List (String × UInt64)) :
    PaidAt ([.load miner, .save w.marking.length].foldl (Payouts.step E params cfg)
      w).file.entries k ∧
    ¬ PaidAt ([.load miner, .save w.marking.length, .credit blockHeight blockHash splits].foldl
      (Payouts.step E params cfg) w).file.entries k := by
  have hcommand : (w.marking ++ [(miner, w.file)])[w.marking.length]? = some (miner, w.file) := by
    simp
  constructor
  · simp only [List.foldl_cons, List.foldl_nil, step, hcommand]
    exact hmarks
  · simp only [List.foldl_cons, List.foldl_nil, step, hcommand]
    show ¬ PaidAt (w.ledger.pushAll blockHeight blockHash splits).entries k
    rw [entries_pushAll, paidAt_append (unpaid_new _ _ _)]
    exact howed

/-! ## A payment that is undone -/

/-- A server with a new ledger. -/
def freshPayouts : Payouts := boot ⟨Db.empty, Mempool.new⟩ PayoutLedger.new

/-- The treasury wallet of the runs below. -/
def sampleConfig : PayoutConfig := ⟨⟨"treasury", ⟨"", ""⟩⟩, 1⟩

/-- A block is credited, and the operator pays and marks its miner. -/
def markedByHand : List Event := [.credit 1 "b1" [("alice", 1000)], .load "alice", .save 0]

/-- The next block is credited, and what the operator has marked is unpaid again. -/
theorem mark_paid_lost :
    ∃ a b c, markedByHand ++ [.credit 2 "b2" [("bob", 1000)]] = a ++ b ++ c ∧
      PaidAt (a.foldl (Payouts.step Ecdsa.sample testParams sampleConfig)
        freshPayouts).file.entries 0 ∧
      ¬ Covers ((a ++ b).foldl (Payouts.step Ecdsa.sample testParams sampleConfig)
          freshPayouts).file.entries
        (a.foldl (Payouts.step Ecdsa.sample testParams sampleConfig)
          freshPayouts).file.entries := by
  obtain ⟨hmarked, hundone⟩ := markPaid_undone Ecdsa.sample testParams sampleConfig
    (freshPayouts.step Ecdsa.sample testParams sampleConfig (.credit 1 "b1" [("alice", 1000)]))
    "alice" (show PaidAt _ 0 by decide) (by decide) 2 "b2" [("bob", 1000)]
  refine ⟨markedByHand, [.credit 2 "b2" [("bob", 1000)]], [], rfl, hmarked, ?_⟩
  intro hcovers
  exact hundone (hcovers.2 0 hmarked)

end Payouts

end Tensorium
