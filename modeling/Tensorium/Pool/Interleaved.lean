import Tensorium.Pool.Server

/-! # The Stratum server, lock by lock

    A connection handler drains its queue of jobs when it has a line, and takes
    the lock of the shared state afterwards; a poller may publish a job in
    between. Here reading a line and acting on it are two moments. What the
    pollers fetch and what the node answers is the choice of the moment.
-/

namespace Tensorium

open BulkMap

namespace Pool

/-! ## Acting on a line -/

/-- `mining.submit` with the job its nonce is checked against. -/
def judge (P : Primitives) (pool : Pool) (c : Connection) (job : StratumJob)
    (jobId nonceHex : String) : Pool :=
  let bits := pool.stratum.workerBits c.connectionId
  match validateShare P job nonceHex bits with
  | none =>
    { pool with
      connections := pool.connections.filter fun d => d.connectionId ≠ c.connectionId }
  | some (some (_, true, isBlock)) =>
    let nonce := ((leHexToU64 nonceHex).join).getD 0
    let submit := ⟨c.connectionId, c.walletAddr, jobId, job, nonce, bits⟩
    pool.spawn (if isBlock then .found submit else .share submit)
  | some _ => { pool with stratum := pool.stratum.reject c.connectionId }

/-- What the handler does with a line once it has drained its queue. -/
def act (P : Primitives) (pool : Pool) (c : Connection) (now : Nat) : Line → Pool
  | .other => pool
  | .authorize auth =>
    let (walletAddr, workerName) := parseAuth auth
    let job := pool.stratum.currentJob
    { pool.setConnection { c with
        authorized := true
        walletAddr := walletAddr
        lastJobId := (job.map StratumJob.jobId).getD c.lastJobId } with
      stratum := pool.stratum.authorize c.connectionId walletAddr workerName now }
  | .submit jobId nonceHex => pool.receiveSubmit P c jobId nonceHex

/-- The next locks of a task, with the answer of the node. -/
def runTask (P : Primitives) (pool : Pool) (weights : WeightOrder) (accepted : Bool)
    (nowSeconds : Nat) : Task → Pool
  | .record block => pool.recordBlock P block
  | .share submit =>
    let workerName := pool.stratum.workerName submit.connectionId
    { pool with
      stratum := pool.stratum.accept submit.connectionId nowSeconds
      ledger := pool.ledger.pushShare (shareOf submit workerName nowSeconds) }
  | .found submit =>
    let template := pool.stratum.templateFor submit.job submit.jobId
    let workerName := pool.stratum.workerName submit.connectionId
    pool.spawn (.forward submit template workerName)
  | .forward submit template workerName =>
    pool.spawn (.credit submit template workerName accepted)
  | .credit submit template workerName accepted =>
    let stratum := { pool.stratum with blocksFound := pool.stratum.blocksFound + 1 }
    { pool with
      stratum := stratum.accept submit.connectionId nowSeconds
      ledger :=
        if accepted then creditBlock P pool.ledger weights submit template workerName nowSeconds
        else pool.ledger }

/-- The job a submission names or was told about last, or none if it is ignored or
    stale. -/
def jobFor (pool : Pool) (c : Connection) (jobId : String) : Option StratumJob :=
  if c.authorized then
    pool.stratum.currentJob.filter fun job => job.jobId == jobId || jobId == c.lastJobId
  else none

/-- A submission that is not stale is judged on the current job. -/
theorem receiveSubmit_of_jobFor (P : Primitives) {pool : Pool} {c : Connection} {jobId : String}
    {job : StratumJob} (hjob : pool.jobFor c jobId = some job) (nonceHex : String) :
    pool.stratum.currentJob = some job ∧
      pool.receiveSubmit P c jobId nonceHex = pool.judge P c job jobId nonceHex := by
  unfold jobFor at hjob
  by_cases hauth : c.authorized = true
  · rw [if_pos hauth] at hjob
    obtain ⟨hcurrent, hfresh⟩ := Option.filter_eq_some_iff.mp hjob
    refine ⟨hcurrent, ?_⟩
    have hstale : ¬ (job.jobId ≠ jobId ∧ jobId ≠ c.lastJobId) := by
      rintro ⟨hjobId, hlast⟩
      simp [hjobId, hlast] at hfresh
    unfold receiveSubmit judge
    rw [if_pos hauth, hcurrent]
    exact (if_neg hstale).trans rfl
  · rw [if_neg hauth] at hjob
    cases hjob

theorem receive_eq (P : Primitives) (pool : Pool) (c : Connection) (line : Line) (now : Nat) :
    pool.receive P c line now = (pool.setConnection (drain c)).act P (drain c) now line := by
  cases line with
  | authorize auth => rfl
  | submit jobId nonceHex => rfl
  | other => rfl

end Pool

theorem World.runTask_pool (P : Primitives) (params : ConsensusParams) (w : World)
    (order : PendingOrder) (weights : WeightOrder) (nowSeconds : Nat) (task : Task) :
    ∃ accepted, (runTask P params w order weights nowSeconds task).pool
      = w.pool.runTask P weights accepted nowSeconds task := by
  cases task with
  | record block => exact ⟨true, rfl⟩
  | share submit => exact ⟨true, rfl⟩
  | found submit => exact ⟨true, rfl⟩
  | forward submit template workerName => exact ⟨_, rfl⟩
  | credit submit template workerName accepted => exact ⟨true, rfl⟩

/-! ## Moments -/

/-- The pool, and what its threads hold between two of their locks. -/
structure Threads where
  pool : Pool
  /-- By connection, the line its handler has read and not acted on yet. -/
  inHand : Map String Pool.Line
  /-- As history, the jobs that were published and their templates, oldest first. -/
  published : List (StratumJob × Node.BlockTemplate)
  /-- As history, the template that a poller has fetched last. -/
  fetched : Option Node.BlockTemplate

/-- What can happen between two locks. -/
inductive Moment where
  /-- An iteration of `run_job_poller` that has fetched a template. -/
  | poll (alternate : Bool) (raw : Node.BlockTemplate) (millis : Nat)
  /-- `GET /getblocktemplate/<miner>`, answered for a height. -/
  | registered (height : Nat) (miner : String)
  /-- `POST /submitblock`, with a block the node has accepted. -/
  | posted (block : Block)
  | connect (connectionId : String)
  | disconnect (connectionId : String)
  /-- A handler drains its queue and has a line. -/
  | read (connectionId : String) (line : Pool.Line)
  /-- It takes the lock. -/
  | act (connectionId : String) (now : Nat)
  /-- The task at a position goes on; if it asks the node, `accepted` is the answer. -/
  | advance (i : Nat) (weights : WeightOrder) (accepted : Bool) (nowSeconds : Nat)

namespace Threads

/-- A pool whose threads hold nothing. -/
def idle (pool : Pool) : Threads := ⟨pool, ∅, [], none⟩

/-- The handler of a connection. -/
def handler (s : Threads) (connectionId : String) : Option Connection :=
  s.pool.connections.find? fun c => c.connectionId = connectionId

/-- The threads after a moment. -/
def step (P : Primitives) (s : Threads) : Moment → Threads
  | .poll alternate raw millis =>
    let job := parseJobResponse raw millis
    { s with
      pool := s.pool.poll alternate raw millis
      published :=
        if job.height ≠ s.pool.lastHeight alternate then s.published ++ [(job, raw)]
        else s.published
      fetched := some raw }
  | .registered height miner => { s with pool := s.pool.registerMinerForHeight height miner }
  | .posted block => { s with pool := s.pool.spawn (.record block) }
  | .connect connectionId =>
    { s with pool :=
      { s.pool with connections := s.pool.connections ++ [⟨connectionId, false, "", "", []⟩] } }
  | .disconnect connectionId =>
    { s with
      pool :=
        { s.pool with
          connections := s.pool.connections.filter fun c => c.connectionId ≠ connectionId
          stratum := { s.pool.stratum with
            workers := s.pool.stratum.workers.erase connectionId } }
      inHand := s.inHand.erase connectionId }
  | .read connectionId line =>
    match s.handler connectionId, s.inHand.lookup connectionId with
    | some c, none =>
      { s with
        pool := s.pool.setConnection (Pool.drain c)
        inHand := s.inHand.insert connectionId line }
    | _, _ => s
  | .act connectionId now =>
    match s.handler connectionId, s.inHand.lookup connectionId with
    | some c, some line =>
      { s with
        pool := s.pool.act P c now line
        inHand := s.inHand.erase connectionId }
    | _, _ => s
  | .advance i weights accepted nowSeconds =>
    match s.pool.inFlight[i]? with
    | none => s
    | some task =>
      let pool := { s.pool with inFlight := s.pool.inFlight.eraseIdx i }
      { s with pool := pool.runTask P weights accepted nowSeconds task }

end Threads

/-! ## An event is a few moments -/

/-- A handler that has drained its queue is found again. -/
theorem Pool.find?_setConnection {pool : Pool} {connectionId : String} {c : Connection}
    (hc : (pool.connections.find? fun c => c.connectionId = connectionId) = some c) :
    ((pool.setConnection (drain c)).connections.find? fun d => d.connectionId = connectionId)
      = some (drain c) := by
  have hid : c.connectionId = connectionId := by simpa using List.find?_some hc
  have hsame : (fun d : Connection => decide
        ((if d.connectionId = (drain c).connectionId then drain c else d).connectionId
          = connectionId))
      = fun d => decide (d.connectionId = connectionId) := by
    funext d
    by_cases hd : d.connectionId = (drain c).connectionId
    · rw [if_pos hd, hd]
    · rw [if_neg hd]
  -- What replaces a connection has its id, so the search stops at the same place.
  show (pool.connections.map _).find? _ = _
  rw [List.find?_map]
  show Option.map _ (pool.connections.find? fun d => decide (_ = connectionId)) = _
  rw [hsame, hc]
  exact congrArg some (if_pos rfl)

/-- A line that is read and acted on with nothing in between. -/
theorem Threads.read_act (P : Primitives) {pool : Pool} (connectionId : String)
    (line : Pool.Line) (now : Nat) (published : List (StratumJob × Node.BlockTemplate))
    (fetched : Option Node.BlockTemplate) {c : Connection}
    (hc : (pool.connections.find? fun c => c.connectionId = connectionId) = some c) :
    let after := [Moment.read connectionId line, .act connectionId now].foldl (step P)
      ⟨pool, ∅, published, fetched⟩
    after.pool = (pool.setConnection (Pool.drain c)).act P (Pool.drain c) now line ∧
      after.inHand = ∅ := by
  intro after
  have hread : step P ⟨pool, ∅, published, fetched⟩ (.read connectionId line)
      = ⟨pool.setConnection (Pool.drain c), (∅ : Map String Pool.Line).insert connectionId line,
          published, fetched⟩ := by
    simp only [step, handler, hc, Finmap.lookup_empty]
  have hact : step P ⟨pool.setConnection (Pool.drain c),
        (∅ : Map String Pool.Line).insert connectionId line, published, fetched⟩
        (.act connectionId now)
      = ⟨(pool.setConnection (Pool.drain c)).act P (Pool.drain c) now line,
          ((∅ : Map String Pool.Line).insert connectionId line).erase connectionId,
          published, fetched⟩ := by
    simp only [step, handler, Pool.find?_setConnection hc, Finmap.lookup_insert]
  have hafter : after = step P (step P ⟨pool, ∅, published, fetched⟩ (.read connectionId line))
      (.act connectionId now) := rfl
  rw [hafter, hread, hact]
  refine ⟨rfl, ?_⟩
  -- What was in hand is put away again.
  apply Finmap.ext_lookup
  intro other
  rw [lookup_erase_ite, lookup_insert_ite, Finmap.lookup_empty]
  by_cases hother : other = connectionId
  · rw [if_pos hother]
  · rw [if_neg hother, if_neg (Ne.symm hother)]

/-- What a pool does together with its node it does in moments, one after another. -/
theorem World.step_moments (P : Primitives) (params : ConsensusParams) (w : World)
    (event : Event) (published : List (StratumJob × Node.BlockTemplate))
    (fetched : Option Node.BlockTemplate) :
    ∃ moments : List Moment,
      (moments.foldl (Threads.step P) ⟨w.pool, ∅, published, fetched⟩).pool
          = (w.step P params event).pool ∧
        (moments.foldl (Threads.step P) ⟨w.pool, ∅, published, fetched⟩).inHand = ∅ := by
  -- A line is two moments, all other events are one or none.
  cases event with
  | node op => exact ⟨[], rfl, rfl⟩
  | connect connectionId => exact ⟨[.connect connectionId], rfl, rfl⟩
  | disconnect connectionId =>
    refine ⟨[.disconnect connectionId], rfl, ?_⟩
    show (∅ : Map String Pool.Line).erase connectionId = ∅
    apply Finmap.ext_lookup
    intro other
    rw [lookup_erase_ite, Finmap.lookup_empty, ite_self]
  | httpTemplate miner order nowSeconds =>
    unfold step
    dsimp only
    split_ifs
    · exact ⟨[], rfl, rfl⟩
    · split
      · exact ⟨[], rfl, rfl⟩
      next response node _ => exact ⟨[.registered response.template.header.height miner], rfl, rfl⟩
  | httpSubmit block order nowSeconds =>
    unfold step
    dsimp only
    split_ifs
    · exact ⟨[.posted block], rfl, rfl⟩
    · exact ⟨[], rfl, rfl⟩
  | poll alternate order nowSeconds millis =>
    unfold step
    dsimp only
    split
    · exact ⟨[], rfl, rfl⟩
    next response node _ => exact ⟨[.poll alternate response millis], rfl, rfl⟩
  | advance i order weights nowSeconds =>
    unfold step
    dsimp only
    split
    next => exact ⟨[], rfl, rfl⟩
    next task htask =>
      obtain ⟨accepted, hrun⟩ := runTask_pool P params
        { w with pool := { w.pool with inFlight := w.pool.inFlight.eraseIdx i } } order weights
        nowSeconds task
      refine ⟨[.advance i weights accepted nowSeconds], ?_, ?_⟩
      · simp only [List.foldl_cons, List.foldl_nil, Threads.step, htask]
        exact hrun.symm
      · simp only [List.foldl_cons, List.foldl_nil, Threads.step, htask]
  | line connectionId line now =>
    unfold step
    dsimp only
    split
    next => exact ⟨[], rfl, rfl⟩
    next c hc =>
      obtain ⟨hpool, hinHand⟩ := Threads.read_act P connectionId line now published
        fetched hc
      refine ⟨[.read connectionId line, .act connectionId now], ?_, hinHand⟩
      rw [hpool, Pool.receive_eq]

end Tensorium
