import Tensorium.Indexer.Index

/-! # Scanning the node's chain

    `tensorium-indexer/src/sync.rs`, and `tick` of `main.rs`. A scan fetches the
    blocks above the last one it has applied, one by one and by height. Before
    that it asks for the hash at the last height: if it has changed, the indexer
    goes back to its checkpoint, or to the start.
-/

namespace Tensorium

open BulkMap Assets

/-- `CheckpointSnap`. -/
structure CheckpointSnap where
  state : AssetState
  outpoints : Map String String
  history : Map String (List HistoryEntry)
  lastHeight : Nat
  lastHash : String

/-- `Indexer` with the fields of the reorg handling. -/
structure SyncIndexer extends Indexer where
  lastHash : String
  checkpoint : Option (Nat × String × CheckpointSnap)

/-- What `getblock` answers: a block and its hash. -/
abbrev Served := Hash256 × Block

/-- The answers to the questions of one scan, by the place of the question and
    the height asked for. A scan asks in every place at most once, in order: in
    0 for the last height, in 1 for the checkpoint, from 2 on in its loop. -/
abbrev Fetch := Nat → Nat → Except String Served

namespace SyncIndexer

/-- `Indexer::default`. -/
def default : SyncIndexer := ⟨Indexer.default, "", none⟩

/-- `Indexer::snapshot`. -/
def snapshot (s : SyncIndexer) : CheckpointSnap :=
  ⟨s.state, s.outpoints, s.history, s.lastHeight, s.lastHash⟩

/-- `Indexer::restore`. -/
def restore (s : SyncIndexer) (snap : CheckpointSnap) : SyncIndexer :=
  { s with
    state := snap.state
    outpoints := snap.outpoints
    history := snap.history
    lastHeight := snap.lastHeight
    lastHash := snap.lastHash
    scannedAny := true }

/-- `needs_rebuild`. -/
def needsRebuild (s : SyncIndexer) (hashAtLastHeight : String) : Bool :=
  s.scannedAny && decide (s.lastHeight > 0) && decide (s.lastHash ≠ hashAtLastHeight)

/-- `CHECKPOINT_INTERVAL`. -/
def checkpointInterval : Nat := 20

/-- `CHECKPOINT_SAFETY`. -/
def checkpointSafety : Nat := 5

/-- `try_rollback`: the restored indexer, or `none` if it returns `false`. -/
def tryRollback (s : SyncIndexer) (fetch : Fetch) : Except String (Option SyncIndexer) :=
  match s.checkpoint with
  | none => .ok none
  | some (cpHeight, cpHash, snap) => do
    let (canon, _) ← fetch 1 cpHeight
    return if canon.toHex = cpHash then some (s.restore snap) else none

/-- The reorg check at the start of `scan`. -/
def reorgCheck (s : SyncIndexer) (fetch : Fetch) : Except String SyncIndexer :=
  if s.scannedAny ∧ s.lastHeight > 0 then do
    let (hash, _) ← fetch 0 s.lastHeight
    if s.needsRebuild hash.toHex then
      return (← s.tryRollback fetch).getD default
    else return s
  else return s

/-- One block applied by the loop of `scan`; `none` when `apply_block` panics. -/
def advance (encode : String → Bytes → String) (tip : Nat) (s : SyncIndexer) (height : Nat)
    (served : Served) : Option SyncIndexer :=
  (s.applyBlock encode served.2 height).map fun idx =>
    let s := { s with toIndexer := idx, lastHash := served.1.toHex }
    if height % checkpointInterval = 0 ∧ height + checkpointSafety ≤ tip then
      { s with checkpoint := some (height, s.lastHash, s.snapshot) }
    else s

/-- The loop of `scan`, over the given number of heights. -/
def scanLoop (encode : String → Bytes → String) (fetch : Fetch) (tip : Nat) :
    Nat → Nat → Nat → SyncIndexer → Option (SyncIndexer × Except String Nat)
  | 0, _, applied, s => some (s, .ok applied)
  | rounds + 1, height, applied, s =>
    match fetch (2 + applied) height with
    | .error e => some (s, .error e)
    | .ok served =>
      (s.advance encode tip height served).bind fun s =>
        scanLoop encode fetch tip rounds (height + 1) (applied + 1) s

/-- The height the loop of `scan` starts at. -/
def start (s : SyncIndexer) : Nat := if s.scannedAny then s.lastHeight + 1 else 0

/-- `scan`: the indexer it leaves, and what it returns; `none` when it panics. -/
def scan (encode : String → Bytes → String) (s : SyncIndexer) (tip : Nat) (fetch : Fetch) :
    Option (SyncIndexer × Except String Nat) :=
  match s.reorgCheck fetch with
  | .error e => some (s, .error e)
  | .ok s => scanLoop encode fetch tip (tip + 1 - s.start) s.start 0 s

/-- `tick`, given the answer to `getblockcount`, the answers to the scan and the
    outcome of `store::save`. -/
def tick (encode : String → Bytes → String) (s : SyncIndexer) (count : Except String (Option Nat))
    (fetch : Fetch) (saved : Except String Unit) : Option (SyncIndexer × Except String Unit) :=
  match count with
  | .error e => some (s, .error e)
  | .ok none => some (s, .ok ())
  | .ok (some tip) =>
    if s.scannedAny ∧ s.lastHeight ≥ tip then some (s, .ok ())
    else (s.scan encode tip fetch).map fun r =>
      match r.2 with
      | .error e => (r.1, .error e)
      | .ok applied => (r.1, if applied > 0 then saved else .ok ())

end SyncIndexer

end Tensorium
