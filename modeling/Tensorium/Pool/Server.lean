import Tensorium.Node.Spendable
import Tensorium.Pool.Stratum

/-! # The pool and its node

    `tensorium-pool/src/main.rs` and the connection handler of `stratum.rs`: the
    pool's two servers work on one payout ledger, each request in a thread of
    its own. A thread that has let go of its locks is a task in flight, and the
    tasks advance in any order. The node answers as its own handlers do, and
    serves others in between. Files are read and written without failure.
-/

namespace Tensorium

open BulkMap

/-- What `handle_stratum_conn` keeps about its connection. -/
structure Connection where
  connectionId : String
  authorized : Bool
  walletAddr : String
  lastJobId : String
  /-- The jobs that were broadcast and not read yet. -/
  jobRx : List StratumJob
  deriving DecidableEq

/-- A nonce that makes a share, as `mining.submit` holds on to it. -/
structure Submit where
  connectionId : String
  walletAddr : String
  /-- The `job_id` of the message. -/
  jobId : String
  /-- The job the nonce was checked against. -/
  job : StratumJob
  nonce : UInt64
  workerDiffBits : UInt8
  deriving DecidableEq

/-- A handler between two of its locks. -/
inductive Task where
  /-- `POST /submitblock`: the node has accepted the block, which is not recorded
      yet. -/
  | record (block : Block)
  /-- `mining.submit`: a share that is no block, not counted yet. -/
  | share (submit : Submit)
  /-- `mining.submit`: a share that is a block, before its template is read. -/
  | found (submit : Submit)
  /-- `mining.submit`: the same, before the node is asked. -/
  | forward (submit : Submit) (template : Option Node.BlockTemplate) (workerName : String)
  /-- `mining.submit`: the same, with the answer of the node. -/
  | credit (submit : Submit) (template : Option Node.BlockTemplate) (workerName : String)
      (accepted : Bool)

/-- `PoolState`, `StratumState` and the threads of the pool. -/
structure Pool where
  treasury : String
  ledger : PayoutLedger
  lastMinerForHeight : Map Nat String
  stratum : StratumState
  /-- `last_height` of the pollers of the main and of the fallback listener. -/
  lastHeight : Bool → Nat
  connections : List Connection
  inFlight : List Task

/-- A pool and the node it talks to. -/
structure World where
  node : Node
  pool : Pool

/-! ## The HTTP server -/

namespace Pool

/-- `PoolState::miner_for_height`, or `unknown`. -/
def minerForHeight (pool : Pool) (height : Nat) : String :=
  (pool.lastMinerForHeight.lookup height).getD "unknown"

/-- `PoolState::register_miner_for_height`. -/
def registerMinerForHeight (pool : Pool) (height : Nat) (miner : String) : Pool :=
  { pool with lastMinerForHeight := pool.lastMinerForHeight.insert height miner }

/-- What `handle_submit_block` does with an accepted block. -/
def recordBlock (P : Primitives) (pool : Pool) (block : Block) : Pool :=
  { pool with
    ledger := pool.ledger.push (.new block.header.height (block.hash P).toHex
      (pool.minerForHeight block.header.height) (firstOutputAtoms block)) }

/-- Hand a task to its thread. -/
def spawn (pool : Pool) (task : Task) : Pool :=
  { pool with inFlight := pool.inFlight ++ [task] }

/-! ## The Stratum server -/

/-- A connection in place of the one with the same identifier. -/
def setConnection (pool : Pool) (c : Connection) : Pool :=
  { pool with
    connections := pool.connections.map fun d => if d.connectionId = c.connectionId then c else d }

/-- The jobs a connection reads before it reads a line. -/
def drain (c : Connection) : Connection :=
  { c with
    lastJobId := if c.authorized then (c.jobRx.getLast?.map StratumJob.jobId).getD c.lastJobId
      else c.lastJobId
    jobRx := [] }

/-- The wallet address and the worker name of `mining.authorize`. -/
def parseAuth (auth : String) : String × String :=
  let name := match auth.toList.dropWhile (· ≠ '.') with
    | [] => "default"
    | _ :: rest => String.ofList rest
  (String.ofList (auth.toList.takeWhile (· ≠ '.')), name)

/-- The lines that change something. -/
inductive Line where
  | authorize (auth : String)
  | submit (jobId nonceHex : String)
  /-- Any other line, or none within the time limit. -/
  | other

/-- `mining.submit` up to the point where the nonce is known to be good. -/
def receiveSubmit (P : Primitives) (pool : Pool) (c : Connection) (jobId nonceHex : String) :
    Pool :=
  if c.authorized then
    match pool.stratum.currentJob with
    | none => pool
    | some job =>
      if job.jobId ≠ jobId ∧ jobId ≠ c.lastJobId then
        { pool with stratum := pool.stratum.reject c.connectionId }
      else
        let bits := pool.stratum.workerBits c.connectionId
        match validateShare P job nonceHex bits with
        -- The thread panics, and nothing is cleaned up.
        | none =>
          { pool with
            connections := pool.connections.filter fun d => d.connectionId ≠ c.connectionId }
        | some (some (_, true, isBlock)) =>
          let nonce := ((leHexToU64 nonceHex).join).getD 0
          let submit := ⟨c.connectionId, c.walletAddr, jobId, job, nonce, bits⟩
          pool.spawn (if isBlock then .found submit else .share submit)
        | some _ => { pool with stratum := pool.stratum.reject c.connectionId }
  else pool

/-- One line on a connection. -/
def receive (P : Primitives) (pool : Pool) (c : Connection) (line : Line) (now : Nat) : Pool :=
  let c := drain c
  let pool := pool.setConnection c
  match line with
  | .other => pool
  | .authorize auth =>
    let (walletAddr, workerName) := parseAuth auth
    let job := pool.stratum.currentJob
    { pool.setConnection { c with
        authorized := true
        walletAddr := walletAddr
        lastJobId := (job.map StratumJob.jobId).getD c.lastJobId } with
      stratum := pool.stratum.authorize c.connectionId walletAddr workerName now }
  | .submit jobId nonceHex => pool.receiveSubmit P c jobId nonceHex

/-- The share of a submit. -/
def shareOf (submit : Submit) (workerName : String) (now : Nat) : ShareRecord :=
  ⟨submit.walletAddr, workerName, submit.workerDiffBits, now⟩

/-- The reward split of an accepted block: the winning share first, then one
    entry for each miner of the window. -/
def creditBlock (P : Primitives) (ledger : PayoutLedger) (order : WeightOrder) (submit : Submit)
    (template : Option Node.BlockTemplate) (workerName : String) (now : Nat) : PayoutLedger :=
  let gross := (template.map grossFromTemplate).getD 0
  let ledger := ledger.pushShare (shareOf submit workerName now)
  ledger.pushAll submit.job.height ((jobHeader submit.job submit.nonce).hash P).toHex
    (ledger.pplnsSplit order gross submit.walletAddr)

/-- `run_job_poller`, once it has a template. -/
def poll (pool : Pool) (alternate : Bool) (raw : Node.BlockTemplate) (millis : Nat) : Pool :=
  let job := parseJobResponse raw millis
  if job.height ≠ pool.lastHeight alternate then
    { pool with
      lastHeight := Function.update pool.lastHeight alternate job.height
      stratum := pool.stratum.publish job raw
      connections := pool.connections.map fun c => { c with jobRx := c.jobRx ++ [job] } }
  else pool

end Pool

/-! ## The two together -/

namespace Node

/-- `GET /getblocktemplate/<miner>` as the pool asks it. -/
def serveTemplate (P : Primitives) (params : ConsensusParams) (node : Node) (order : PendingOrder)
    (nowSeconds : Nat) (miner : String) : Option BlockTemplate × Node :=
  if miner = "" then (none, node)
  else
    match getBlockTemplate P params order node.loadState node.mempool nowSeconds miner with
    | (.ok response, s) => (some response, { node with db := s.db })
    | (.error _, s) => (none, { node with db := s.db })

/-- The `accepted` flag of a reply to `POST /submitblock`; an error has none. -/
def acceptedFlag : Except NodeError SubmitReply → Bool
  | .ok reply => reply.accepted
  | .error _ => false

end Node

/-- What can happen next. -/
inductive Event where
  /-- The node serves somebody else. -/
  | node (op : Node.Op)
  /-- `GET /getblocktemplate/<miner>` of the pool. -/
  | httpTemplate (miner : String) (order : PendingOrder) (nowSeconds : Nat)
  /-- `POST /submitblock` of the pool. -/
  | httpSubmit (block : Block) (order : PendingOrder) (nowSeconds : Nat)
  | connect (connectionId : String)
  | disconnect (connectionId : String)
  | line (connectionId : String) (line : Pool.Line) (now : Nat)
  | poll (alternate : Bool) (order : PendingOrder) (nowSeconds millis : Nat)
  /-- The task at a position goes on. -/
  | advance (i : Nat) (order : PendingOrder) (weights : WeightOrder) (nowSeconds : Nat)

namespace World

/-- A pool that starts with the ledger it has loaded. -/
def boot (node : Node) (treasury : String) (shareDiff : UInt64) (ledger : PayoutLedger) :
    World where
  node := node
  pool :=
    { treasury := treasury
      ledger := ledger
      lastMinerForHeight := ∅
      stratum := StratumState.new shareDiff
      lastHeight := fun _ => 0
      connections := []
      inFlight := [] }

/-- The next locks of a task. -/
def runTask (P : Primitives) (params : ConsensusParams) (w : World) (order : PendingOrder)
    (weights : WeightOrder) (nowSeconds : Nat) : Task → World
  | .record block => { w with pool := w.pool.recordBlock P block }
  | .share submit =>
    let workerName := w.pool.stratum.workerName submit.connectionId
    { w with pool :=
      { w.pool with
        stratum := w.pool.stratum.accept submit.connectionId nowSeconds
        ledger := w.pool.ledger.pushShare (Pool.shareOf submit workerName nowSeconds) } }
  | .found submit =>
    let template := w.pool.stratum.templateFor submit.job submit.jobId
    let workerName := w.pool.stratum.workerName submit.connectionId
    { w with pool := w.pool.spawn (.forward submit template workerName) }
  | .forward submit template workerName =>
    let (reply, node) := w.node.submitBlock P params order
      (submittedBlock submit.job submit.nonce template) nowSeconds
    ⟨node, w.pool.spawn (.credit submit template workerName (Node.acceptedFlag reply))⟩
  | .credit submit template workerName accepted =>
    let stratum := { w.pool.stratum with blocksFound := w.pool.stratum.blocksFound + 1 }
    { w with pool :=
      { w.pool with
        stratum := stratum.accept submit.connectionId nowSeconds
        ledger :=
          if accepted then
            Pool.creditBlock P w.pool.ledger weights submit template workerName nowSeconds
          else w.pool.ledger } }

/-- The world after an event. -/
def step (P : Primitives) (params : ConsensusParams) (w : World) : Event → World
  | .node op => { w with node := w.node.step P params op }
  | .httpTemplate miner order nowSeconds =>
    if miner = "" then w
    else
      match w.node.serveTemplate P params order nowSeconds w.pool.treasury with
      | (none, node) => { w with node := node }
      | (some response, node) =>
        ⟨node, w.pool.registerMinerForHeight response.template.header.height miner⟩
  | .httpSubmit block order nowSeconds =>
    let (reply, node) := w.node.submitBlock P params order block nowSeconds
    ⟨node, if Node.acceptedFlag reply then w.pool.spawn (.record block) else w.pool⟩
  | .connect connectionId =>
    { w with pool :=
      { w.pool with connections := w.pool.connections ++ [⟨connectionId, false, "", "", []⟩] } }
  | .disconnect connectionId =>
    { w with pool :=
      { w.pool with
        connections := w.pool.connections.filter fun c => c.connectionId ≠ connectionId
        stratum := { w.pool.stratum with workers := w.pool.stratum.workers.erase connectionId } } }
  | .line connectionId line now =>
    match w.pool.connections.find? fun c => c.connectionId = connectionId with
    | none => w
    | some c => { w with pool := w.pool.receive P c line now }
  | .poll alternate order nowSeconds millis =>
    match w.node.serveTemplate P params order nowSeconds w.pool.treasury with
    | (none, node) => { w with node := node }
    | (some response, node) => ⟨node, w.pool.poll alternate response millis⟩
  | .advance i order weights nowSeconds =>
    match w.pool.inFlight[i]? with
    | none => w
    | some task =>
      runTask P params { w with pool := { w.pool with inFlight := w.pool.inFlight.eraseIdx i } }
        order weights nowSeconds task

end World

/-! ## What an event does to the pool -/

namespace Pool

/-- The books, the state of the Stratum server and the threads are the same. -/
structure Quiet (pool pool' : Pool) : Prop where
  treasury : pool'.treasury = pool.treasury
  ledger : pool'.ledger = pool.ledger
  stratum : pool'.stratum = pool.stratum
  inFlight : pool'.inFlight = pool.inFlight

/-- A submission is ignored or rejected, brings its own thread down, or is handed
    to another one. -/
theorem receiveSubmit_cases (P : Primitives) (pool : Pool) (c : Connection)
    (jobId nonceHex : String) :
    pool.receiveSubmit P c jobId nonceHex = pool ∨
    pool.receiveSubmit P c jobId nonceHex
      = { pool with stratum := pool.stratum.reject c.connectionId } ∨
    pool.receiveSubmit P c jobId nonceHex
      = { pool with
          connections := pool.connections.filter fun d => d.connectionId ≠ c.connectionId } ∨
    ∃ (submit : Submit) (isBlock : Bool), pool.receiveSubmit P c jobId nonceHex
      = pool.spawn (if isBlock then .found submit else .share submit) := by
  unfold receiveSubmit
  by_cases hauth : c.authorized = true
  · rw [if_pos hauth]
    cases pool.stratum.currentJob with
    | none => exact Or.inl rfl
    | some job =>
      dsimp only
      by_cases hstale : job.jobId ≠ jobId ∧ jobId ≠ c.lastJobId
      · rw [if_pos hstale]
        exact Or.inr (Or.inl rfl)
      · rw [if_neg hstale]
        split
        · exact Or.inr (Or.inr (Or.inl rfl))
        · exact Or.inr (Or.inr (Or.inr ⟨_, _, rfl⟩))
        · exact Or.inr (Or.inl rfl)
  · rw [if_neg hauth]
    exact Or.inl rfl

end Pool

namespace World

/-- The pool after an event. A quiet event is of no thread and of no connection that
    is there. -/
inductive Does (P : Primitives) (params : ConsensusParams) (w : World) : Event → Pool → Prop where
  | quiet {event : Event} {pool : Pool} : w.pool.Quiet pool →
      (∀ i order weights nowSeconds, event = .advance i order weights nowSeconds →
        w.pool.inFlight[i]? = none) →
      (∀ connectionId line now, event = .line connectionId line now →
        (w.pool.connections.find? fun c => c.connectionId = connectionId) = none) →
      Does P params w event pool
  | record (block : Block) (order : PendingOrder) (nowSeconds : Nat) :
      Does P params w (.httpSubmit block order nowSeconds) (w.pool.spawn (.record block))
  | disconnect (connectionId : String) :
      Does P params w (.disconnect connectionId)
        { w.pool with
          connections := w.pool.connections.filter fun c => c.connectionId ≠ connectionId
          stratum := { w.pool.stratum with
            workers := w.pool.stratum.workers.erase connectionId } }
  | line {connectionId : String} {c : Connection} (line : Pool.Line) (now : Nat) :
      (w.pool.connections.find? fun c => c.connectionId = connectionId) = some c →
      Does P params w (.line connectionId line now) (w.pool.receive P c line now)
  | publish {order : PendingOrder} {nowSeconds : Nat} {response : Node.BlockTemplate}
      (alternate : Bool) (millis : Nat) :
      (w.node.serveTemplate P params order nowSeconds w.pool.treasury).1 = some response →
      Does P params w (.poll alternate order nowSeconds millis)
        { w.pool with
          lastHeight := Function.update w.pool.lastHeight alternate
            (parseJobResponse response millis).height
          stratum := w.pool.stratum.publish (parseJobResponse response millis) response
          connections := w.pool.connections.map fun c =>
            { c with jobRx := c.jobRx ++ [parseJobResponse response millis] } }
  | advance {i : Nat} {task : Task} (order : PendingOrder) (weights : WeightOrder)
      (nowSeconds : Nat) : w.pool.inFlight[i]? = some task →
      Does P params w (.advance i order weights nowSeconds)
        (runTask P params { w with pool := { w.pool with inFlight := w.pool.inFlight.eraseIdx i } }
          order weights nowSeconds task).pool

theorem step_does (P : Primitives) (params : ConsensusParams) (w : World) (event : Event) :
    Does P params w event (w.step P params event).pool := by
  -- One constructor per effect; the branches that do nothing are quiet.
  have hquiet : w.pool.Quiet w.pool := ⟨rfl, rfl, rfl, rfl⟩
  cases event with
  | node op => exact .quiet hquiet (by simp) (by simp)
  | connect connectionId => exact .quiet ⟨rfl, rfl, rfl, rfl⟩ (by simp) (by simp)
  | disconnect connectionId => exact .disconnect connectionId
  | httpTemplate miner order nowSeconds =>
    apply Does.quiet _ (by simp) (by simp)
    unfold step
    dsimp only
    split_ifs
    · exact hquiet
    · split
      · exact hquiet
      · exact ⟨rfl, rfl, rfl, rfl⟩
  | httpSubmit block order nowSeconds =>
    unfold step
    dsimp only
    split_ifs
    · exact .record block order nowSeconds
    · exact .quiet hquiet (by simp) (by simp)
  | line connectionId line now =>
    unfold step
    dsimp only
    split
    next hnone =>
      apply Does.quiet hquiet (by simp)
      rintro _ _ _ ⟨⟩
      exact hnone
    next c hc => exact .line line now hc
  | poll alternate order nowSeconds millis =>
    unfold step
    dsimp only
    split
    next => exact .quiet hquiet (by simp) (by simp)
    next response node hserve =>
      unfold Pool.poll
      dsimp only
      split_ifs
      · exact .publish alternate millis (congrArg Prod.fst hserve)
      · exact .quiet hquiet (by simp) (by simp)
  | advance i order weights nowSeconds =>
    unfold step
    dsimp only
    split
    next hnone =>
      apply Does.quiet hquiet _ (by simp)
      rintro _ _ _ _ ⟨⟩
      exact hnone
    next task htask => exact .advance order weights nowSeconds htask

end World

end Tensorium
