import Tensorium.Lib.GuardedRun
import Tensorium.Lib.RingBuffer
import Tensorium.Miner.Notify
import Tensorium.Miner.Solo

/-! # The pool mode of the miner

    `stratum_client_run`, the worker threads of `gpu_worker.cu`, and the queue between
    them in `common.h`. A step is what one thread does between two points where another
    can see it; what the pool sends and whether a `send` goes through is the choice of
    the event. What is printed and counted for the operator is left out.
-/

namespace Tensorium.Miner

open ByteCodec Quoted RingBuffer

/-- `ADDR_LEN`. -/
def addrLen : Nat := 128

/-- `WORKER_LEN`. -/
def workerLen : Nat := 64

/-- `STRATUM_LINEBUF`. -/
def stratumLinebuf : Nat := 65536

/-- The fields of `MinerConfig` that the pool mode reads, each in its buffer. -/
structure MinerConfig where
  wallet : Bytes
  worker : Bytes
  shareDiff : UInt64
  wallet_length : wallet.length < addrLen
  worker_length : worker.length < workerLen

/-! ## Lines -/

/-- `auth`. -/
def MinerConfig.auth (cfg : MinerConfig) : Bytes :=
  (cfg.wallet ++ asBytes "." ++ cfg.worker).take (addrLen + workerLen + 1)

/-- The request for a share, in the buffer `req` of 512 bytes. -/
def submitRequest (cfg : MinerConfig) (msgId : Nat) (share : ShareResult) : Bytes :=
  (asBytes "\x7b\"id\":" ++ asBytes (toString msgId)
    ++ asBytes ",\"method\":\"mining.submit\",\"params\":\x7b\"job_id\":\"" ++ share.jobId
    ++ asBytes "\",\"worker\":\"" ++ cfg.auth
    ++ asBytes "\",\"nonce\":\"" ++ asBytes (nonceToHex share.nonce)
    ++ asBytes "\"\x7d\x7d").take 511

/-- What `stratum_sendline` puts into its buffer and sends. -/
def stratumSendline (json : Bytes) : Bytes := (json ++ [0x0a]).take (stratumLinebuf - 2)

/-- `stratum_readline`, where `arrived` is what `recv` yields before it fails. The line
    is the C string in the buffer. -/
def stratumReadline (arrived : Bytes) : Option Bytes :=
  let room := arrived.take (stratumLinebuf - 1)
  let line := room.takeWhile fun c => c ≠ 0x0a
  if line.length = arrived.length ∧ line.length < stratumLinebuf - 1 then none
  else if line = [] then none
  else some (line.takeWhile fun c => c ≠ 0)

/-- `jstr(buf, "method", method, sizeof(method))`. -/
def methodOf (line : Bytes) : Bytes := ((jstr line "method" 64).map Prod.snd).getD []

/-- The number of a `mining.set_difficulty` message. -/
def difficultyOf (line : Bytes) : Option UInt64 :=
  (findParams line).map fun p =>
    match p with
    | 0x5b :: p => strtoull (p.dropWhile fun c => c = 0x20)
    | p => strtoull p

/-! ## State -/

/-- Where the client thread is. -/
inductive StratumAt where
  /-- At the head of the outer loop. -/
  | connecting
  /-- Connected, before `mining.subscribe`. -/
  | subscribing
  /-- Before `mining.authorize`. -/
  | authorizing
  /-- At the head of the inner loop. -/
  | looping
  /-- At `while (state->share_count > 0 ..)`. -/
  | draining
  /-- At `stratum_readline`. -/
  | reading
  | stopped
  deriving DecidableEq

/-- The shared state, the client's own variables and the workers. The rest is history:
    the jobs published, each with its line, the shares that got into the queue and
    those that found it full, the shares popped, those sent, each with its bytes, and
    those whose `send` failed. -/
structure PoolMode where
  currentJob : JobDesc
  jobGeneration : Nat
  shareQueue : Buffer Found
  running : Bool
  client : StratumAt
  retryDelay : Nat
  msgId : Nat
  effectiveDiff : UInt64
  workers : Nat → Worker
  connections : Nat
  published : List (Bytes × JobDesc)
  pushed : List Found
  dropped : List Found
  popped : List Found
  sent : List (Bytes × Found)
  unsent : List Found

namespace PoolMode

/-- After `shared_state_init`; the zeroed slots of the queue are never read. -/
def boot : PoolMode where
  currentJob := .cleared
  jobGeneration := 0
  shareQueue := .empty fun _ => ⟨⟨[], 0, false⟩, .cleared⟩
  running := true
  client := .connecting
  retryDelay := 5
  msgId := 1
  effectiveDiff := 0
  workers := fun _ => .waiting
  connections := 0
  published := []
  pushed := []
  dropped := []
  popped := []
  sent := []
  unsent := []

inductive Event where
  /-- `stratum_connect`. -/
  | connect (ok : Bool)
  /-- `mining.subscribe` or `mining.authorize`. -/
  | greet (ok : Bool)
  /-- The head of the inner loop. -/
  | loop
  /-- A round of the loop that submits the pending shares. -/
  | submit (ok : Bool)
  /-- `stratum_readline`, and what is done with the line. -/
  | read (arrived : Bytes)
  /-- `running` is cleared. -/
  | shutdown
  /-- A worker returns from `job_wait`. -/
  | takeJob (i : Nat)
  /-- It reads the generation, after the lock is released. -/
  | readGeneration (i : Nat)
  /-- It looks for a new job at the head of its loop. -/
  | pickUp (i : Nat)
  /-- The kernel reports a nonce. -/
  | find (i : Nat) (nonce : UInt64)

/-! ## Steps -/

/-- `retry_delay = (retry_delay < 60) ? retry_delay * 2 : 60`. -/
def nextDelay (retryDelay : Nat) : Nat := if retryDelay < 60 then retryDelay * 2 else 60

/-- `reconnect`. -/
def reconnect (s : PoolMode) : PoolMode :=
  if s.running then { s with client := .connecting, retryDelay := nextDelay s.retryDelay }
  else { s with client := .connecting }

/-- `job_publish`. -/
def jobPublish (s : PoolMode) (line : Bytes) (job : JobDesc) : PoolMode :=
  { s with
    currentJob := job
    jobGeneration := s.jobGeneration + 1
    published := s.published ++ [(line, job)] }

/-- What the client does with a line. A pong is sent without a look at the result. -/
def receive (s : PoolMode) (line : Bytes) : PoolMode :=
  let method := methodOf line
  if method = asBytes "mining.notify" then
    match parseNotify line .cleared s.effectiveDiff with
    | none => s
    | some job => s.jobPublish line job
  else if method = asBytes "mining.set_difficulty" then
    match difficultyOf line with
    | none => s
    | some d => if d > 0 then { s with effectiveDiff := d } else s
  else s

/-- The next share is popped and its request sent. -/
def submitNext (cfg : MinerConfig) (s : PoolMode) (ok : Bool) : PoolMode :=
  match s.shareQueue.pop shareQueueMax with
  | none => { s with client := .reading }
  | some (found, queue) =>
    let s' := { s with shareQueue := queue, msgId := s.msgId + 1, popped := s.popped ++ [found] }
    if ok then
      { s' with
        sent := s.sent ++ [(stratumSendline (submitRequest cfg s.msgId found.share), found)] }
    else { s' with unsent := s.unsent ++ [found] }.reconnect

/-- The client thread. -/
def clientStep (cfg : MinerConfig) (s : PoolMode) : Event → PoolMode
  | .connect ok =>
    match s.client with
    | .connecting =>
      if !s.running then { s with client := .stopped }
      else if ok then
        { s with
          client := .subscribing
          retryDelay := 5
          msgId := 1
          connections := s.connections + 1 }
      else { s with retryDelay := nextDelay s.retryDelay }
    | _ => s
  | .greet ok =>
    match s.client with
    | .subscribing =>
      { s with msgId := s.msgId + 1, client := if ok then .authorizing else .connecting }
    | .authorizing =>
      if ok then
        { s with msgId := s.msgId + 1, client := .looping, effectiveDiff := cfg.shareDiff }
      else { s with msgId := s.msgId + 1, client := .connecting }
    | _ => s
  | .loop =>
    match s.client with
    | .looping => { s with client := if s.running then .draining else .stopped }
    | _ => s
  | .submit ok =>
    match s.client with
    | .draining => s.submitNext cfg ok
    | _ => s
  | .read arrived =>
    match s.client with
    | .reading =>
      match stratumReadline arrived with
      | none => s.reconnect
      | some line => { s.receive line with client := .looping }
    | _ => s
  | _ => s

def setWorker (s : PoolMode) (i : Nat) (worker : Worker) : PoolMode :=
  { s with workers := Function.update s.workers i worker }

/-- `share_push`. -/
def sharePush (s : PoolMode) (found : Found) : PoolMode :=
  if s.shareQueue.count < shareQueueMax then
    { s with
      shareQueue := s.shareQueue.push shareQueueMax found
      pushed := s.pushed ++ [found] }
  else { s with dropped := s.dropped ++ [found] }

/-- The worker threads. -/
def workerStep (hostHash : Bytes → UInt64 → Bytes → Bytes) (s : PoolMode) : Event → PoolMode
  | .takeJob i =>
    match s.workers i with
    | .waiting => if s.currentJob.valid then s.setWorker i (.holding s.currentJob) else s
    | _ => s
  | .readGeneration i =>
    match s.workers i with
    | .holding job => s.setWorker i (.mining job s.jobGeneration)
    | _ => s
  | .pickUp i =>
    match s.workers i with
    | .mining _ lastGen =>
      if s.jobGeneration ≠ lastGen then
        s.setWorker i (.mining s.currentJob s.jobGeneration)
      else s
    | _ => s
  | .find i nonce =>
    match s.workers i with
    | .mining job _ =>
      if (buildHeader job nonce).length ≤ 8 then s
      else
        match shareOf hostHash job nonce with
        | none => s
        | some share => s.sharePush ⟨share, job⟩
    | _ => s
  | _ => s

def step (hostHash : Bytes → UInt64 → Bytes → Bytes) (cfg : MinerConfig) (s : PoolMode) :
    Event → PoolMode
  | .shutdown => { s with running := false }
  | .takeJob i => s.workerStep hostHash (.takeJob i)
  | .readGeneration i => s.workerStep hostHash (.readGeneration i)
  | .pickUp i => s.workerStep hostHash (.pickUp i)
  | .find i nonce => s.workerStep hostHash (.find i nonce)
  | event => s.clientStep cfg event

end PoolMode

end Tensorium.Miner
