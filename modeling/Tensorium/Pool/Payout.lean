import Tensorium.Node.Spendable
import Tensorium.Pool.Answer
import Tensorium.Pool.Dues

/-! # Payouts and the ledger file

    `tensorium-pool/src/payout.rs` and the ledger commands of `main.rs`. The
    server keeps the ledger in memory and writes the whole of it to the file;
    the payout thread calls the wallet program between its locks, and the
    `mark-paid` command of the operator reads and writes the same file. Server,
    threads and commands advance in any order, the node serves others in
    between, and a file is read and written as a whole.
-/

namespace Tensorium

open Saturating BulkMap Apportion

/-- `PayoutConfig`, less the paths and what only the waiting reads. -/
structure PayoutConfig where
  wallet : WalletFile
  thresholdAtoms : UInt64

/-- Where `run_cycle` stands between two of its locks and calls. -/
inductive Cycle where
  /-- Asleep. -/
  | idle
  /-- The miners that are due are known, the wallet is not asked yet. -/
  | due (miners : List String)
  /-- The head of the loop. -/
  | next (miners : List String) (spendableAtoms : UInt64)
  /-- `pay_miner` before `txmwallet send`. -/
  | send (miners : List String) (spendableAtoms : UInt64) (miner : String)
    (payableAtoms : UInt64)
  /-- `pay_miner` before `txmwallet broadcast`. -/
  | broadcast (miners : List String) (spendableAtoms : UInt64) (miner : String)
    (payableAtoms : UInt64) (tx : Transaction)
  /-- `pay_miner` with an answer that counts as paid, before the ledger is locked. -/
  | mark (miners : List String) (spendableAtoms : UInt64) (miner : String)
    (payableAtoms : UInt64) (tx : Transaction)

/-- What becomes of a call of the wallet program. -/
inductive Delivery where
  | done
  /-- The node is not reached. -/
  | failed
  /-- The node is reached, but its answer is lost. -/
  | replyLost
  deriving DecidableEq

/-- The server, its ledger file, the operator's commands and the node. -/
structure Payouts where
  node : Node
  /-- The ledger the threads of the server share. -/
  ledger : PayoutLedger
  file : PayoutLedger
  cycle : Cycle
  /-- The `mark-paid` commands that have loaded the file and not saved it yet. -/
  marking : List (String × PayoutLedger)

namespace Payouts

/-- The miners whose unpaid entries reach the threshold. -/
def dueMiners (thresholdAtoms : UInt64) (weights : WeightOrder) (ledger : PayoutLedger) :
    List String :=
  let pending := tally PayoutEntry.minerAddress PayoutEntry.netPayoutAtoms
    (ledger.entries.filter fun entry => !entry.paidOut)
  ((weights.list pending).filter fun e => decide (e.2 ≥ thresholdAtoms)).map Prod.fst

/-- `mature_wallet_atoms`, on what `GET /getutxos` has listed. -/
def matureWalletAtoms (utxos : List RpcUtxo) : UInt64 :=
  (utxos.filter RpcUtxo.mature).foldl (fun sum utxo => satAdd64 sum utxo.valueAtoms) 0

/-- `run_cycle` up to its next lock or call. -/
def runCycle {P : Primitives} (E : Ecdsa P) (params : ConsensusParams) (cfg : PayoutConfig)
    (w : Payouts) (delivery : Delivery) (weights : WeightOrder) (order : PendingOrder) :
    Payouts :=
  match w.cycle with
  | .idle =>
    match dueMiners cfg.thresholdAtoms weights w.ledger with
    | [] => w
    | miners => { w with cycle := .due miners }
  | .due miners =>
    let (reply, node) := w.node.getUtxos P params cfg.wallet.address
    match delivery, reply with
    | .failed, _ => { w with cycle := .idle }
    | .done, some utxos => { w with node := node, cycle := .next miners (matureWalletAtoms utxos) }
    | _, _ => { w with node := node, cycle := .idle }
  | .next [] _ => { w with cycle := .idle }
  | .next (miner :: miners) spendableAtoms =>
    if spendableAtoms ≤ minRelayFeeAtoms then { w with cycle := .idle }
    else
      let payableAtoms :=
        w.ledger.payableAtomsUpTo miner (satSub64 spendableAtoms minRelayFeeAtoms)
      if payableAtoms = 0 then { w with cycle := .next miners spendableAtoms }
      else { w with cycle := .send miners spendableAtoms miner payableAtoms }
  | .send miners spendableAtoms miner payableAtoms =>
    let (reply, node) := w.node.getUtxos P params cfg.wallet.address
    match delivery, reply.map fun utxos =>
        buildSignedPaymentViaRpc E cfg.wallet utxos miner payableAtoms minRelayFeeAtoms with
    | .failed, _ => { w with cycle := .next miners spendableAtoms }
    | .done, some (.ok tx) =>
      { w with node := node, cycle := .broadcast miners spendableAtoms miner payableAtoms tx }
    | _, _ => { w with node := node, cycle := .next miners spendableAtoms }
  | .broadcast miners spendableAtoms miner payableAtoms tx =>
    let (reply, node) := w.node.sendRawTransaction P params order tx
    match delivery, countsAsPaid reply with
    | .failed, _ => { w with cycle := .next miners spendableAtoms }
    | .done, true =>
      { w with node := node, cycle := .mark miners spendableAtoms miner payableAtoms tx }
    | _, _ => { w with node := node, cycle := .next miners spendableAtoms }
  | .mark miners spendableAtoms miner payableAtoms _ =>
    let ledger := w.ledger.markPaidUpTo miner payableAtoms
    { w with
      ledger := ledger
      file := ledger
      cycle := .next miners (satSub64 spendableAtoms (satAdd64 payableAtoms minRelayFeeAtoms)) }

/-- What can happen next. -/
inductive Event where
  /-- The node serves somebody else. -/
  | node (op : Node.Op)
  /-- A share is pushed. -/
  | share (share : ShareRecord)
  /-- A block is credited: its entries are pushed and the ledger is saved. -/
  | credit (blockHeight : Nat) (blockHash : String) (splits : List (String × UInt64))
  /-- The payout thread goes on. -/
  | cycle (delivery : Delivery) (weights : WeightOrder) (order : PendingOrder)
  /-- `mark-paid <miner>` loads the file. -/
  | load (miner : String)
  /-- The `mark-paid` command at a position marks and saves. -/
  | save (i : Nat)

/-- The state after an event. -/
def step {P : Primitives} (E : Ecdsa P) (params : ConsensusParams) (cfg : PayoutConfig)
    (w : Payouts) : Event → Payouts
  | .node op => { w with node := w.node.step P params op }
  | .share share => { w with ledger := w.ledger.pushShare share }
  | .credit blockHeight blockHash splits =>
    let ledger := w.ledger.pushAll blockHeight blockHash splits
    { w with ledger := ledger, file := ledger }
  | .cycle delivery weights order => w.runCycle E params cfg delivery weights order
  | .load miner => { w with marking := w.marking ++ [(miner, w.file)] }
  | .save i =>
    match w.marking[i]? with
    | none => w
    | some (miner, loaded) =>
      { w with file := loaded.markPaid miner, marking := w.marking.eraseIdx i }

/-- A server that has just loaded its ledger. -/
def boot (node : Node) (ledger : PayoutLedger) : Payouts := ⟨node, ledger, ledger, .idle, []⟩

end Payouts

end Tensorium
