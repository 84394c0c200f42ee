import Tensorium.Miner.Job
import Tensorium.Node.Handlers
import Tensorium.Pool.Notify

/-! # The solo miner

    `solo_client_run`, the worker threads of `gpu_worker.cu` and what they share
    in `common.h`. A step is what one thread does between two points where another
    can see it. A reply to `/getblocktemplate` is the template in it; how the text
    is taken apart is left out, but for the chain id, which is copied as it is
    written. The time and the fate of a request are the choice of the event.
-/

namespace Tensorium.Miner

open ByteCodec

/-- `SHARE_QUEUE_MAX`. -/
def shareQueueMax : Nat := 256

/-! ## Templates -/

/-- `snprintf(job->job_id, JOB_ID_LEN, "solo-%llu", job->height)`. -/
def soloJobId (height : UInt64) : Bytes :=
  (asBytes "solo-" ++ asBytes (toString height.toNat)).take (jobIdLen - 1)

/-- A reply to `/getblocktemplate` that has all fields; `cached` if the object of the
    template fits the buffer it is copied to. -/
structure Fetched where
  response : Node.BlockTemplate
  cached : Bool

/-- `fetch_template` when it succeeds: the job, and what is left in `s_template_json`. -/
def fetchTemplate (fetched : Fetched) : JobDesc × Option Block :=
  let header := fetched.response.template.header
  let height := UInt64.ofNat header.height
  ({ jobId := soloJobId height
     chainId := (((asBytes header.chainId).flatMap JsonValue.escapeByte).takeWhile
       fun c => c ≠ 0x22).take (chainIdLen - 1)
     height := height
     previousHash := header.previousHash
     merkleRoot := header.merkleRoot
     epochSeed := fetched.response.epochSeed
     timestamp := UInt64.ofNat header.timestampSeconds
     difficultyBits := header.leadingZeroBits
     shareBits := 0
     version := header.version.toUInt64
     valid := true },
    if fetched.cached then some fetched.response.template else none)

/-! ## State -/

/-- A share, and as history the job under which the worker found it. -/
structure Found where
  share : ShareResult
  job : JobDesc
  deriving DecidableEq

/-- Where the client thread is. -/
inductive ClientAt where
  /-- Before its first template. -/
  | starting
  /-- At `share_pop`. -/
  | popping
  /-- In `submit_block` with a share. -/
  | submitting (found : Found)
  /-- In the forced refresh, with so many tries left. -/
  | refreshing (tries : Nat)
  /-- At the check whether ten seconds have passed. -/
  | checking
  | stopped
  deriving DecidableEq

/-- A worker thread: in `job_wait`, back from it with a job, or in its loop. -/
inductive Worker where
  | waiting
  | holding (job : JobDesc)
  | mining (job : JobDesc) (lastGen : Nat)
  deriving DecidableEq

/-- The shared state, the client's own variables, the workers, and as history the
    blocks posted, each with the share it was made from. -/
structure Solo where
  currentJob : JobDesc
  jobGeneration : Nat
  shareQueue : List Found
  running : Bool
  client : ClientAt
  job : JobDesc
  lastHeight : UInt64
  template : Option Block
  workers : Nat → Worker
  posted : List (Block × Found)

namespace Solo

def boot : Solo where
  currentJob := .cleared
  jobGeneration := 0
  shareQueue := []
  running := true
  client := .starting
  job := .cleared
  lastHeight := 0
  template := none
  workers := fun _ => .waiting
  posted := []

inductive Event where
  /-- The first request for a template. -/
  | firstFetch (reply : Option Fetched)
  | pop
  /-- `submit_block`, which posts the block or fails before. -/
  | submit (sent : Bool)
  /-- A request of the forced refresh. -/
  | forcedFetch (reply : Option Fetched)
  /-- The request of the periodic refresh, ten seconds after the last. -/
  | periodicFetch (reply : Option Fetched)
  /-- The check of the clock before ten seconds are over. -/
  | noRefresh
  /-- `running` is cleared. -/
  | shutdown
  /-- A worker returns from `job_wait`. -/
  | takeJob (i : Nat)
  /-- It reads the generation, after the lock is released. -/
  | readGeneration (i : Nat)
  /-- It looks for a new job at the head of its loop. -/
  | pickUp (i : Nat)
  /-- The kernel reports a nonce. -/
  | find (i : Nat) (nonce : UInt64)

/-! ## Steps -/

/-- `while (state->running)`. -/
def again (s : Solo) : ClientAt := if s.running then .popping else .stopped

/-- Takes over a fetched template, with `share_bits = difficulty_bits`, and publishes
    its job. -/
def install (s : Solo) (fetched : Fetched) : Solo :=
  let (job, template) := fetchTemplate fetched
  let job := { job with shareBits := job.difficultyBits }
  { s with
    job := job
    lastHeight := job.height
    template := template
    currentJob := job
    jobGeneration := s.jobGeneration + 1 }

def setWorker (s : Solo) (i : Nat) (worker : Worker) : Solo :=
  { s with workers := fun j => if j = i then worker else s.workers j }

/-- `share_push`. -/
def sharePush (s : Solo) (found : Found) : Solo :=
  if s.shareQueue.length < shareQueueMax then
    { s with shareQueue := s.shareQueue ++ [found] }
  else s

/-- A step of the client thread at `share_pop`. It waits while the queue is empty. -/
def popShare (s : Solo) : Solo :=
  match s.shareQueue with
  | [] => if s.running then s else { s with client := .checking }
  | found :: queue =>
    if found.share.jobId ≠ s.job.jobId then
      { s with shareQueue := queue, client := s.again }
    else if found.share.isBlock then
      { s with shareQueue := queue, client := .submitting found }
    else
      { s with shareQueue := queue, client := .checking }

/-- `submit_block`: the cached template with the nonce replaced. -/
def submitBlock (s : Solo) (sent : Bool) (found : Found) : List (Block × Found) :=
  match s.template with
  | none => s.posted
  | some block =>
    if sent then s.posted ++ [(block.withNonce found.share.nonce, found)] else s.posted

/-- The periodic refresh. A template that is not published is put back. -/
def refresh (s : Solo) (reply : Option Fetched) : Solo :=
  let backup := s.template
  match reply with
  | none => { s with template := backup }
  | some fetched =>
    let (fresh, _) := fetchTemplate fetched
    if fresh.height ≠ s.lastHeight ∨ fresh.previousHash ≠ s.job.previousHash then
      s.install fetched
    else { s with template := backup }

/-- The client thread. -/
def clientStep (s : Solo) : Event → Solo
  | .firstFetch reply =>
    match s.client, reply with
    | .starting, none => if s.running then s else { s with client := .stopped }
    | .starting, some fetched =>
      if s.running then { s.install fetched with client := .popping }
      else { s with client := .stopped }
    | _, _ => s
  | .pop =>
    match s.client with
    | .popping => s.popShare
    | _ => s
  | .submit sent =>
    match s.client with
    | .submitting found =>
      { s with posted := s.submitBlock sent found, client := .refreshing 5 }
    | _ => s
  | .forcedFetch reply =>
    match s.client, reply with
    | .refreshing 0, _ => { s with client := .checking }
    | .refreshing (tries + 1), none =>
      if s.running then { s with client := .refreshing tries }
      else { s with client := .checking }
    | .refreshing (_ + 1), some fetched =>
      if s.running then { s.install fetched with client := .checking }
      else { s with client := .checking }
    | _, _ => s
  | .periodicFetch reply =>
    match s.client with
    | .checking => { s.refresh reply with client := s.again }
    | _ => s
  | .noRefresh =>
    match s.client with
    | .checking => { s with client := s.again }
    | _ => s
  | _ => s

/-- The worker threads. -/
def workerStep (hostHash : Bytes → UInt64 → Bytes → Bytes) (s : Solo) : Event → Solo
  | .takeJob i =>
    match s.workers i with
    | .waiting => if s.currentJob.valid then s.setWorker i (.holding s.currentJob) else s
    | _ => s
  | .readGeneration i =>
    match s.workers i with
    | .holding job => s.setWorker i (.mining job s.jobGeneration)
    | _ => s
  | .pickUp i =>
    match s.workers i with
    | .mining _ lastGen =>
      if s.jobGeneration ≠ lastGen then
        s.setWorker i (.mining s.currentJob s.jobGeneration)
      else s
    | _ => s
  | .find i nonce =>
    match s.workers i with
    | .mining job _ =>
      if (buildHeader job nonce).length ≤ 8 then s
      else
        match shareOf hostHash job nonce with
        | none => s
        | some share => s.sharePush ⟨share, job⟩
    | _ => s
  | _ => s

def step (hostHash : Bytes → UInt64 → Bytes → Bytes) (s : Solo) : Event → Solo
  | .shutdown => { s with running := false }
  | .takeJob i => s.workerStep hostHash (.takeJob i)
  | .readGeneration i => s.workerStep hostHash (.readGeneration i)
  | .pickUp i => s.workerStep hostHash (.pickUp i)
  | .find i nonce => s.workerStep hostHash (.find i nonce)
  | event => s.clientStep event

end Solo

end Tensorium.Miner
