import Tensorium.Node.Handlers
import Tensorium.Pool.Accounting

/-! # The Stratum server

    `tensorium-pool/src/stratum.rs`: jobs cut from the node's templates, the
    check of a submitted nonce, the sessions of the workers with their variable
    difficulty, and the publication of a new job. Replies to the miners and
    the fields that only the statistics show are left out. Machine integers
    wrap around, as in a release build.
-/

namespace Tensorium

open Saturating BulkMap ByteCodec

/-- `VARDIFF_WINDOW_SECS`. -/
def vardiffWindowSecs : Nat := 60

/-- `VARDIFF_TARGET_MIN`. -/
def vardiffTargetMin : Nat := 15

/-- `VARDIFF_TARGET_MAX`. -/
def vardiffTargetMax : Nat := 60

/-- `VARDIFF_MIN_BITS`. -/
def vardiffMinBits : UInt8 := 16

/-- `VARDIFF_MAX_BITS`. -/
def vardiffMaxBits : UInt8 := 40

/-! ## Jobs -/

structure StratumJob where
  jobId : String
  chainId : String
  height : Nat
  previousHash : Hash256
  merkleRoot : Hash256
  epochSeed : Hash256
  timestamp : Nat
  difficultyBits : UInt8
  version : UInt32
  deriving DecidableEq

/-- `parse_job_response`, on a template read at `millis` of a second. -/
def parseJobResponse (response : Node.BlockTemplate) (millis : Nat) : StratumJob :=
  let header := response.template.header
  { jobId := "h" ++ toString header.height ++ "-" ++ toString millis
    chainId := header.chainId
    height := header.height
    previousHash := header.previousHash
    merkleRoot := header.merkleRoot
    epochSeed := response.epochSeed
    timestamp := header.timestampSeconds
    difficultyBits := header.leadingZeroBits
    version := header.version }

/-- `job_header`. -/
def jobHeader (job : StratumJob) (nonce : UInt64) : BlockHeader where
  version := job.version
  chainId := job.chainId
  height := job.height
  previousHash := job.previousHash
  merkleRoot := job.merkleRoot
  timestampSeconds := job.timestamp
  leadingZeroBits := job.difficultyBits
  nonce := nonce

/-- The first output of the first transaction. -/
def firstOutput (block : Block) : Option TxOutput :=
  block.transactions.head?.bind fun tx => tx.outputs.head?

/-- The value of the first output of the first transaction, zero without one. -/
def firstOutputAtoms (block : Block) : UInt64 :=
  ((firstOutput block).map TxOutput.valueAtoms).getD 0

/-- `gross_from_template`. -/
def grossFromTemplate (response : Node.BlockTemplate) : UInt64 :=
  firstOutputAtoms response.template

/-- The block that `submit_block` sends to the node: the cached template with the
    nonce put in, or `build_fallback_body` without a template. -/
def submittedBlock (job : StratumJob) (nonce : UInt64) : Option Node.BlockTemplate → Block
  | some response => response.template.withNonce nonce
  | none => ⟨jobHeader job nonce, []⟩

/-! ## Nonces -/

/-- `trim_start_matches("0x")`. -/
def trimStart0x : Bytes → Bytes
  | 48 :: 120 :: rest => trimStart0x rest
  | bytes => bytes

/-- `str::is_char_boundary`. -/
def isCharBoundary (bytes : Bytes) (i : Nat) : Bool :=
  match bytes[i]? with
  | some b => i == 0 || decide (b < 128 ∨ 192 ≤ b)
  | none => i == bytes.length

/-- `u8::from_str_radix(_, 16)` of two bytes. A leading plus sign is allowed. -/
def fromStrRadix16 : Bytes → Option UInt8
  | [high, low] => do
    let l ← hexValue (Char.ofNat low.toNat)
    if high = 43 then return UInt8.ofNat l
    let h ← hexValue (Char.ofNat high.toNat)
    return UInt8.ofNat (h * 16 + l)
  | _ => none

/-- The loop of `le_hex_to_u64` from pair `i` on, with `k` pairs to go. A slice
    that cuts a character in two panics: the outer `none`. -/
def leHexLoop (bytes : Bytes) : Nat → Nat → Bytes → Option (Option Bytes)
  | 0, _, parsed => some (some parsed)
  | k + 1, i, parsed =>
    if isCharBoundary bytes (i * 2) && isCharBoundary bytes (i * 2 + 2) then
      match fromStrRadix16 ((bytes.drop (i * 2)).take 2) with
      | none => some none
      | some b => leHexLoop bytes k (i + 1) (parsed ++ [b])
    else none

/-- `le_hex_to_u64`. The outer `none` is a panic. -/
def leHexToU64 (s : String) : Option (Option UInt64) :=
  let bytes := trimStart0x (asBytes s)
  (leHexLoop bytes (min (bytes.length / 2) 8) 0 []).map fun parsed =>
    parsed.map fun bs => UInt64.ofNat (leNat bs)

/-! ## Share validation -/

/-- The loop of the pool's own `leading_zero_bits`, which counts in a byte. -/
def poolLeadingZeroBitsLoop : Bytes → UInt8 → UInt8
  | [], bits => bits
  | b :: bs, bits =>
    if b = 0 then poolLeadingZeroBitsLoop bs (bits + 8)
    else bits + UInt8.ofNat (Hash256.byteLeadingZeros b)

/-- The pool's own `leading_zero_bits`. -/
def poolLeadingZeroBits (hash : Hash256) : UInt8 := poolLeadingZeroBitsLoop hash.bytes 0

/-- `validate_share`: the zeros, whether they make a share and whether they make
    a block. The outer `none` is a panic. -/
def validateShare (P : Primitives) (job : StratumJob) (nonceHex : String)
    (workerDiffBits : UInt8) : Option (Option (UInt8 × Bool × Bool)) :=
  (leHexToU64 nonceHex).map fun parsed =>
    parsed.map fun nonce =>
      let zeros := poolLeadingZeroBits ((jobHeader job nonce).powHash P job.epochSeed)
      (zeros, decide (zeros ≥ workerDiffBits), decide (zeros ≥ job.difficultyBits))

/-! ## Workers -/

structure WorkerSession where
  workerName : String
  walletAddress : String
  acceptedShares : Nat
  rejectedShares : Nat
  shareDiffBits : UInt8
  vardiffWindowShares : Nat
  vardiffWindowStart : Nat
  deriving DecidableEq

/-- `diff_to_bits`: how often a difficulty can be halved down to one. -/
def diffToBits (diff : UInt64) : UInt8 := UInt8.ofNat diff.toNat.log2

/-- The difficulty after a window with `spm` shares a minute. -/
def vardiffBits (spm : Nat) (old : UInt8) : UInt8 :=
  if spm > vardiffTargetMax then min (old + 1) vardiffMaxBits
  else if spm < vardiffTargetMin then
    max (UInt8.ofNat (old.toNat - 1)) vardiffMinBits
  else old

/-- The update of a worker whose share was accepted. -/
def WorkerSession.accept (w : WorkerSession) (now : Nat) : WorkerSession :=
  let w := { w with
    acceptedShares := w.acceptedShares + 1
    vardiffWindowShares := w.vardiffWindowShares + 1 }
  let elapsed := max (now - w.vardiffWindowStart) 1
  if elapsed ≥ vardiffWindowSecs then
    { w with
      vardiffWindowShares := 0
      vardiffWindowStart := now
      shareDiffBits := vardiffBits (satMul 64 w.vardiffWindowShares 60 / elapsed) w.shareDiffBits }
  else w

/-! ## The shared state -/

structure StratumState where
  currentJob : Option StratumJob
  /-- The difficulty new workers start with. -/
  shareDiffBits : UInt8
  /-- By connection. -/
  workers : Map String WorkerSession
  sharesAccepted : Nat
  sharesRejected : Nat
  blocksFound : Nat
  /-- The templates of the last jobs, by `job_id`. -/
  jobTemplateCache : Map String Node.BlockTemplate

namespace StratumState

/-- `StratumState::new`. -/
def new (shareDiff : UInt64) : StratumState where
  currentJob := none
  shareDiffBits := diffToBits shareDiff
  workers := ∅
  sharesAccepted := 0
  sharesRejected := 0
  blocksFound := 0
  jobTemplateCache := ∅

/-- The difficulty of the worker of a connection. -/
def workerBits (s : StratumState) (connectionId : String) : UInt8 :=
  ((s.workers.lookup connectionId).map WorkerSession.shareDiffBits).getD s.shareDiffBits

/-- The name of the worker of a connection. -/
def workerName (s : StratumState) (connectionId : String) : String :=
  ((s.workers.lookup connectionId).map WorkerSession.workerName).getD "unknown"

/-- Update the worker of a connection, if there is one. -/
def updateWorker (s : StratumState) (connectionId : String)
    (f : WorkerSession → WorkerSession) : StratumState :=
  match s.workers.lookup connectionId with
  | some w => { s with workers := s.workers.insert connectionId (f w) }
  | none => s

section UpdateWorker

variable (s : StratumState) (connectionId : String) (f : WorkerSession → WorkerSession)

@[simp] theorem updateWorker_currentJob :
    (s.updateWorker connectionId f).currentJob = s.currentJob := by
  unfold updateWorker
  split
  · rfl
  · rfl

@[simp] theorem updateWorker_jobTemplateCache :
    (s.updateWorker connectionId f).jobTemplateCache = s.jobTemplateCache := by
  unfold updateWorker
  split
  · rfl
  · rfl

end UpdateWorker

/-- What `mining.authorize` stores; the name of the worker stands behind the
    first dot. -/
def authorize (s : StratumState) (connectionId walletAddr workerName : String) (now : Nat) :
    StratumState :=
  { s with
    workers := s.workers.insert connectionId
      { workerName := workerName
        walletAddress := walletAddr
        acceptedShares := 0
        rejectedShares := 0
        shareDiffBits := s.shareDiffBits
        vardiffWindowShares := 0
        vardiffWindowStart := now } }

/-- Count a share that is stale or not good enough. -/
def reject (s : StratumState) (connectionId : String) : StratumState :=
  { s with sharesRejected := s.sharesRejected + 1 }.updateWorker connectionId fun w =>
    { w with rejectedShares := w.rejectedShares + 1 }

/-- Count an accepted share and adjust the difficulty of the worker. -/
def accept (s : StratumState) (connectionId : String) (now : Nat) : StratumState :=
  { s with sharesAccepted := s.sharesAccepted + 1 }.updateWorker connectionId (·.accept now)

/-- The template for a block of `job` that was submitted under `jobId`. -/
def templateFor (s : StratumState) (job : StratumJob) (jobId : String) :
    Option Node.BlockTemplate :=
  (s.jobTemplateCache.lookup job.jobId).or (s.jobTemplateCache.lookup jobId)

/-- What `run_job_poller` does to the shared state when it has a new job. -/
def publish (s : StratumState) (job : StratumJob) (raw : Node.BlockTemplate) : StratumState :=
  let cache :=
    if s.jobTemplateCache.keys.card ≥ 2 then
      retain (fun jobId _ => decide (some jobId = s.currentJob.map StratumJob.jobId))
        s.jobTemplateCache
    else s.jobTemplateCache
  { s with
    jobTemplateCache := cache.insert job.jobId raw
    currentJob := some job }

end StratumState

end Tensorium
