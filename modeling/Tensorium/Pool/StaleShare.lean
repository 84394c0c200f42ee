import Tensorium.Pool.Tip

/-! # Shares for the previous job

    `mining.submit` takes a share for the current job or for the job its
    connection was told last, but the nonce is checked against the current one.
    The two are the same unless a job is published between the moment the handler
    drains its queue and the moment it takes the lock. The template of a block is
    read at a third moment, when its job may have left the cache.
-/

namespace Tensorium

open BulkMap GuardedRun

/-- What a nonce for a job is checked against: the header, less the nonce, and the
    seed of the epoch. -/
def StratumJob.work (job : StratumJob) : BlockHeader × Hash256 := (jobHeader job 0, job.epochSeed)

deriving instance DecidableEq for Pool.Line

namespace Threads

variable {P : Primitives} {s : Threads}

/-! ## What a submission is promised -/

/-- The claim on a moment: a submission in hand that is not stale is judged by the
    work of any job published under the id it names, a share that is good enough is
    credited, and a block goes to the node with the template of the job it was
    judged by. -/
def JudgedAsNamed (P : Primitives) (s : Threads) : Moment → Prop
  | .act connectionId now => ∀ c jobId nonceHex, s.handler connectionId = some c →
      s.inHand.lookup connectionId = some (.submit jobId nonceHex) →
      (s.pool.jobFor c jobId).isSome = true →
      ∀ job raw, (job, raw) ∈ s.published → job.jobId = jobId → ∃ judged : StratumJob,
        judged.work = job.work ∧
          (s.step P (.act connectionId now)).pool = s.pool.judge P c judged jobId nonceHex
  | .advance i weights accepted nowSeconds =>
    let next := s.step P (.advance i weights accepted nowSeconds)
    (∀ submit, s.pool.inFlight[i]? = some (.share submit) →
      next.pool.ledger = s.pool.ledger.pushShare (Pool.shareOf submit
        (s.pool.stratum.workerName submit.connectionId) nowSeconds)) ∧
    ∀ submit, s.pool.inFlight[i]? = some (.found submit) →
      ∃ raw, (submit.job, raw) ∈ s.published ∧
        next.pool.inFlight = s.pool.inFlight.eraseIdx i ++ [.forward submit (some raw)
          (s.pool.stratum.workerName submit.connectionId)]
  | _ => True

/-- A job was published last, or just before another with a different id. -/
def JustPublished (published : List (StratumJob × Node.BlockTemplate)) (job : StratumJob) : Prop :=
  ∃ before raw, published = before ++ [(job, raw)] ∨
    ∃ next, published = before ++ [(job, raw), next] ∧ next.1.jobId ≠ job.jobId

/-- A submission in hand that is not stale names no job with another work than the
    current one, and the job of a block was published just now when its template is
    read. -/
def NamesCurrent (s : Threads) : Moment → Prop
  | .act connectionId _ => ∀ c jobId nonceHex, s.handler connectionId = some c →
      s.inHand.lookup connectionId = some (.submit jobId nonceHex) →
      (s.pool.jobFor c jobId).isSome = true →
      ∀ job raw, (job, raw) ∈ s.published → job.jobId = jobId →
        s.pool.stratum.currentJob.map StratumJob.work = some job.work
  | .advance i _ _ _ => ∀ submit, s.pool.inFlight[i]? = some (.found submit) →
      JustPublished s.published submit.job
  | _ => True

/-- The verdict on a nonce depends on the work only. -/
theorem validateShare_work {a b : StratumJob} (h : a.work = b.work) (nonceHex : String)
    (bits : UInt8) : validateShare P a nonceHex bits = validateShare P b nonceHex bits := by
  obtain ⟨hheader, hseed⟩ := Prod.mk.inj h
  have hnonce : ∀ nonce, jobHeader a nonce = jobHeader b nonce := by
    intro nonce
    show { jobHeader a 0 with nonce } = { jobHeader b 0 with nonce }
    rw [hheader]
  have hbits : a.difficultyBits = b.difficultyBits := congrArg BlockHeader.leadingZeroBits hheader
  unfold validateShare
  simp only [hnonce, hseed, hbits]

/-- A nonce that is good enough for the work of a job starts a thread. -/
theorem inFlight_judge {pool : Pool} {c : Connection} {job : StratumJob} {nonceHex : String}
    {zeros : UInt8} {isBlock : Bool}
    (hvalid : validateShare P job nonceHex (pool.stratum.workerBits c.connectionId)
      = some (some (zeros, true, isBlock))) (jobId : String) :
    ∃ task, (pool.judge P c job jobId nonceHex).inFlight = pool.inFlight ++ [task] := by
  unfold Pool.judge
  dsimp only
  rw [hvalid]
  exact ⟨_, rfl⟩

/-! ## The templates in the cache -/

/-- The template of the job before is kept, under another id. -/
theorem lookup_publish_previous {stratum : StratumState} {previous job : StratumJob}
    {raw : Node.BlockTemplate} (hcurrent : stratum.currentJob = some previous)
    (hlookup : stratum.jobTemplateCache.lookup previous.jobId = some raw)
    (hid : job.jobId ≠ previous.jobId) (next : Node.BlockTemplate) :
    (stratum.publish job next).jobTemplateCache.lookup previous.jobId = some raw := by
  unfold StratumState.publish
  dsimp only
  rw [lookup_insert_ite, if_neg hid]
  split_ifs
  · rw [lookup_retain, hlookup, hcurrent]
    simp
  · exact hlookup

/-- The current job is the one published last, and its template is in the cache;
    so is the one of the job before it. -/
structure Cached (s : Threads) : Prop where
  current : s.pool.stratum.currentJob = s.published.getLast?.map Prod.fst
  last : ∀ before job raw, s.published = before ++ [(job, raw)] →
    s.pool.stratum.jobTemplateCache.lookup job.jobId = some raw
  previous : ∀ before job raw next, s.published = before ++ [(job, raw), next] →
    next.1.jobId ≠ job.jobId → s.pool.stratum.jobTemplateCache.lookup job.jobId = some raw

theorem cached_idle {pool : Pool} (h : pool.stratum.currentJob = none) : (idle pool).Cached where
  current := h
  last before job raw hpublished := by simp [idle] at hpublished
  previous before job raw next hpublished := by simp [idle] at hpublished

/-- A moment that leaves the jobs alone. -/
theorem Cached.of_same (h : s.Cached) {s' : Threads} (hsame : s.pool.SameJobs s'.pool)
    (hpublished : s'.published = s.published) : s'.Cached where
  current := by
    rw [hsame.current, hpublished]
    exact h.current
  last := by
    rw [hsame.cached, hpublished]
    exact h.last
  previous := by
    rw [hsame.cached, hpublished]
    exact h.previous

theorem Cached.step (h : s.Cached) (moment : Moment) : (s.step P moment).Cached := by
  rcases step_jobs P s moment with ⟨alternate, raw, millis, rfl⟩ | ⟨hsame, hpublished, _⟩
  · by_cases hnew : raw.template.header.height ≠ s.pool.lastHeight alternate
    · have hstratum : (s.step P (.poll alternate raw millis)).pool.stratum
          = s.pool.stratum.publish (parseJobResponse raw millis) raw := stratum_poll_new millis hnew
      have hpublished : (s.step P (.poll alternate raw millis)).published
          = s.published ++ [(parseJobResponse raw millis, raw)] := if_pos hnew
      constructor
      · rw [hstratum, hpublished, List.getLast?_concat]
        rfl
      · -- The last job is the one just published.
        intro before job other hsplit
        rw [hpublished] at hsplit
        obtain ⟨_, hlast⟩ := List.append_inj' hsplit rfl
        obtain ⟨rfl, rfl⟩ := Prod.mk.inj (List.singleton_inj.mp hlast)
        rw [hstratum]
        exact lookup_publish_self _ _ _
      · -- The last but one was the current job, which a new one does not push out.
        intro before job other next hsplit hid
        rw [hpublished, show [(job, other), next] = [(job, other)] ++ [next] from rfl,
          ← List.append_assoc] at hsplit
        obtain ⟨hbefore, hnext⟩ := List.append_inj' hsplit rfl
        rw [← List.singleton_inj.mp hnext] at hid
        have hcurrent : s.pool.stratum.currentJob = some job := by
          rw [h.current, hbefore, List.getLast?_concat]
          rfl
        rw [hstratum]
        exact lookup_publish_previous hcurrent (h.last before job other hbefore) hid raw
    · exact h.of_same (by rw [poll_same millis hnew]; exact ⟨rfl, rfl, rfl⟩) (if_neg hnew)
  · exact h.of_same hsame hpublished

/-- The template of a job that was published just now is found. -/
theorem Cached.templateFor (h : s.Cached) {job : StratumJob} (hjob : JustPublished s.published job)
    (jobId : String) :
    ∃ raw, (job, raw) ∈ s.published ∧ s.pool.stratum.templateFor job jobId = some raw := by
  obtain ⟨before, raw, hlast | ⟨next, hprevious, hid⟩⟩ := hjob
  · refine ⟨raw, by rw [hlast]; simp, ?_⟩
    unfold StratumState.templateFor
    rw [h.last before job raw hlast]
    rfl
  · refine ⟨raw, by rw [hprevious]; simp, ?_⟩
    unfold StratumState.templateFor
    rw [h.previous before job raw next hprevious hid]
    rfl

/-! ## The judgement -/

theorem Cached.judgedAsNamed (h : s.Cached) {moment : Moment} (hnames : s.NamesCurrent moment) :
    s.JudgedAsNamed P moment := by
  cases moment with
  | act connectionId now =>
    intro c jobId nonceHex hc hline hfresh job raw hpublished hid
    have hwork := hnames c jobId nonceHex hc hline hfresh job raw hpublished hid
    obtain ⟨judged, hjudged⟩ := Option.isSome_iff_exists.mp hfresh
    obtain ⟨hcurrent, hjudge⟩ := Pool.receiveSubmit_of_jobFor P hjudged nonceHex
    rw [hcurrent] at hwork
    refine ⟨judged, Option.some.inj hwork, ?_⟩
    -- What is not stale is judged by the current job, whatever id it names.
    rw [← hjudge]
    simp only [Threads.step, hc, hline]
    rfl
  | advance i weights accepted nowSeconds =>
    constructor
    · intro submit htask
      simp only [Threads.step, htask]
      rfl
    · intro submit htask
      obtain ⟨raw, hpublished, htemplate⟩ :=
        h.templateFor (hnames submit htask) submit.jobId
      refine ⟨raw, hpublished, ?_⟩
      rw [← htemplate]
      simp only [Threads.step, htask]
      rfl
  | _ => trivial

/-! ## A drained queue -/

/-- What a connection knows of the current job: it comes last in its queue, or the
    queue is empty and the connection was told of it. -/
structure Informed (current : Option StratumJob) (c : Connection) : Prop where
  queued : ∀ last, c.jobRx.getLast? = some last → current = some last
  told : c.authorized = true → c.jobRx = [] → ∀ job, current = some job → c.lastJobId = job.jobId

theorem Informed.drain {current : Option StratumJob} {c : Connection} (h : Informed current c) :
    Informed current (Pool.drain c) where
  queued last hlast := by cases hlast
  told hauth _ job hjob := by
    have hauth' : c.authorized = true := hauth
    show (if c.authorized = true then (c.jobRx.getLast?.map StratumJob.jobId).getD c.lastJobId
      else c.lastJobId) = job.jobId
    rw [if_pos hauth']
    -- An empty queue leaves the id as it was; any other ends in the current job.
    cases hqueue : c.jobRx.getLast? with
    | none => exact h.told hauth' (List.getLast?_eq_none_iff.mp hqueue) job hjob
    | some last =>
      have hlast := h.queued last hqueue
      rw [hjob] at hlast
      exact congrArg StratumJob.jobId (Option.some.inj hlast).symm

/-- Every connection is informed. -/
def AllInformed (pool : Pool) : Prop := ∀ c ∈ pool.connections, Informed pool.stratum.currentJob c

theorem AllInformed.setConnection {pool : Pool} {c : Connection} (h : AllInformed pool)
    (hc : Informed pool.stratum.currentJob c) : AllInformed (pool.setConnection c) := by
  intro d hd
  obtain ⟨old, hold, rfl⟩ := List.mem_map.mp hd
  show Informed pool.stratum.currentJob _
  by_cases hsame : old.connectionId = c.connectionId
  · rw [if_pos hsame]
    exact hc
  · rw [if_neg hsame]
    exact h old hold

theorem AllInformed.act {pool : Pool} {c : Connection} (h : AllInformed pool)
    (hc : Informed pool.stratum.currentJob c) (now : Nat) (line : Pool.Line) :
    AllInformed (pool.act P c now line) := by
  cases line with
  | other => exact h
  -- The current job is sent with the reply, and remembered.
  | authorize auth =>
    apply h.setConnection (c := { c with
      authorized := true
      walletAddr := (Pool.parseAuth auth).1
      lastJobId := (pool.stratum.currentJob.map StratumJob.jobId).getD c.lastJobId })
    constructor
    · exact hc.queued
    · intro _ _ job hjob
      show (pool.stratum.currentJob.map StratumJob.jobId).getD c.lastJobId = job.jobId
      rw [hjob]
      rfl
  | submit jobId nonceHex =>
    show AllInformed (pool.receiveSubmit P c jobId nonceHex)
    rcases Pool.receiveSubmit_cases P pool c jobId nonceHex with hpool | hpool | hpool |
      ⟨submit, isBlock, hpool⟩
    · rw [hpool]
      exact h
    · rw [hpool]
      intro d hd
      show Informed (pool.stratum.reject c.connectionId).currentJob d
      rw [show (pool.stratum.reject c.connectionId).currentJob = pool.stratum.currentJob by
        simp [StratumState.reject]]
      exact h d hd
    · rw [hpool]
      intro d hd
      exact h d (List.mem_of_mem_filter hd)
    · rw [hpool]
      exact h

/-- A task has no connection. -/
theorem connections_runTask (pool : Pool) (weights : WeightOrder) (accepted : Bool)
    (nowSeconds : Nat) (task : Task) :
    (pool.runTask P weights accepted nowSeconds task).connections = pool.connections := by
  cases task with
  | _ => rfl

/-- A job that becomes current is sent to every connection. -/
theorem AllInformed.poll (h : AllInformed s.pool) (alternate : Bool) (raw : Node.BlockTemplate)
    (millis : Nat) : AllInformed (s.step P (.poll alternate raw millis)).pool := by
  by_cases hnew : raw.template.header.height ≠ s.pool.lastHeight alternate
  · intro d hd
    have hconnections : (s.step P (.poll alternate raw millis)).pool.connections
        = s.pool.connections.map fun c =>
            { c with jobRx := c.jobRx ++ [parseJobResponse raw millis] } := by
      show (s.pool.poll alternate raw millis).connections = _
      unfold Pool.poll
      exact congrArg Pool.connections (if_pos hnew)
    rw [hconnections] at hd
    obtain ⟨c, _, rfl⟩ := List.mem_map.mp hd
    rw [stratum_poll_new millis hnew]
    constructor
    · intro last hlast
      rw [List.getLast?_concat] at hlast
      exact hlast
    · -- Its queue is not empty.
      intro _ hempty
      simp at hempty
  · rw [poll_same millis hnew]
    exact h

theorem AllInformed.step (h : AllInformed s.pool) (moment : Moment) :
    AllInformed (s.step P moment).pool := by
  cases moment with
  | registered height miner => exact h
  | posted block => exact h
  | poll alternate raw millis => exact h.poll alternate raw millis
  -- A new connection has no queue and is not authorized.
  | connect connectionId =>
    intro d hd
    rcases List.mem_append.mp hd with hold | hnew
    · exact h d hold
    · obtain rfl := List.mem_singleton.mp hnew
      constructor
      · intro last hlast
        cases hlast
      · intro hauth
        cases hauth
  | disconnect connectionId =>
    intro d hd
    exact h d (List.mem_of_mem_filter hd)
  | read connectionId line =>
    unfold Threads.step
    dsimp only
    split
    next c hc _ => exact h.setConnection (h c (List.mem_of_find?_eq_some hc)).drain
    next => exact h
  | act connectionId now =>
    unfold Threads.step
    dsimp only
    split
    next c line hc _ => exact h.act (h c (List.mem_of_find?_eq_some hc)) now line
    next => exact h
  | advance i weights accepted nowSeconds =>
    unfold Threads.step
    dsimp only
    split
    next => exact h
    next task _ =>
      intro d hd
      rw [connections_runTask] at hd
      rw [(Pool.runTask_sameJobs (P := P) _ weights accepted nowSeconds task).current]
      exact h d hd

/-- A handler whose queue is still empty when it takes the lock tolerates nothing but
    the current job. -/
theorem AllInformed.names_current (h : AllInformed s.pool) {connectionId : String}
    {c : Connection} (hc : s.handler connectionId = some c) (hempty : c.jobRx = [])
    {jobId : String} {job : StratumJob} (hjob : s.pool.jobFor c jobId = some job) :
    job.jobId = jobId := by
  have hinformed := h c (List.mem_of_find?_eq_some hc)
  unfold Pool.jobFor at hjob
  split_ifs at hjob with hauth
  obtain ⟨hcurrent, hfresh⟩ := Option.filter_eq_some_iff.mp hjob
  -- The id that is tolerated is that of the current job itself.
  have htold := hinformed.told hauth hempty job hcurrent
  rw [htold] at hfresh
  rcases Bool.or_eq_true_iff.mp hfresh with hnamed | htolerated
  · exact beq_iff_eq.mp hnamed
  · exact (beq_iff_eq.mp htolerated).symm

/-- In every state that the threads reach, only a job that was published since the
    queue was drained can set a tolerated share against another one. -/
theorem drained_names_current (node : Node) (treasury : String) (shareDiff : UInt64)
    (ledger : PayoutLedger) (moments : List Moment) {connectionId : String} {c : Connection} :
    let s := moments.foldl (Threads.step P)
      (Threads.idle (World.boot node treasury shareDiff ledger).pool)
    s.handler connectionId = some c → c.jobRx = [] →
    ∀ jobId job, s.pool.jobFor c jobId = some job → job.jobId = jobId := by
  intro s hc hempty jobId job hjob
  have hinformed : AllInformed s.pool := by
    apply foldl_invariant (fun s : Threads => AllInformed s.pool)
    · intro d hd
      cases hd
    · exact fun s moment h => h.step moment
  exact hinformed.names_current hc hempty hjob

end Threads

/-- **A share for the previous job is judged by the current one.** In every run of
    the pool's threads in which each submission that is not stale names no work but
    the current one when the lock is taken, and at most one other job has been
    published when the template of a block is read, every submission is judged by
    the work of the job it names and goes out with a template for it. -/
theorem submissions_judged_as_named (P : Primitives) (node : Node) (treasury : String)
    (shareDiff : UInt64) (ledger : PayoutLedger) (moments : List Moment)
    (h : Along (Threads.step P) Threads.NamesCurrent
      (Threads.idle (World.boot node treasury shareDiff ledger).pool) moments) :
    Along (Threads.step P) (Threads.JudgedAsNamed P)
      (Threads.idle (World.boot node treasury shareDiff ledger).pool) moments := by
  apply h.imp_keeping Threads.Cached
  · exact Threads.cached_idle rfl
  · exact fun s moment hs _ => hs.step moment
  · exact fun s moment hs hnames => hs.judgedAsNamed hnames

/-! ## A job published in between -/

/-- A template of a height. -/
def templateAt (height : Nat) : Node.BlockTemplate where
  epochSeed := Hash256.zero
  template := ⟨⟨1, "c", height, Hash256.zero, Hash256.zero, 0, 20, 0⟩, []⟩

/-- Primitives for which the digest of a header on chain `c` begins with the low byte
    of its height. -/
def digestOfHeight : Primitives :=
  { Primitives.sample with
    blake2b256 := fun bytes =>
      ⟨bytes.getD 5 0 :: List.replicate 31 0, by rw [List.length_cons, List.length_replicate]⟩ }

/-- A pool whose workers start at seven bits, as many as a digest at height 1 has. -/
def sevenBitPool : Threads :=
  Threads.idle (World.boot ⟨Db.empty, Mempool.new⟩ "a" 128 PayoutLedger.new).pool

/-- A miner gets the job of height 1, and its handler reads a share for it. -/
def shareRead : List Moment :=
  [.poll false (templateAt 1) 0, .connect "c", .read "c" (.authorize "alice.rig"), .act "c" 0,
    .read "c" (.submit "h1-0" "00")]

/-- The job of height 2 comes in between. -/
def shareOvertaken : List Moment := shareRead ++ [.poll false (templateAt 2) 0, .act "c" 0]

/-- The share is good for the job it names, which is tolerated, and is rejected. -/
theorem share_judged_by_next_job :
    validateShare digestOfHeight (parseJobResponse (templateAt 1) 0) "00" 7
        = some (some (7, true, false)) ∧
      ¬ Along (Threads.step digestOfHeight) (Threads.JudgedAsNamed digestOfHeight) sevenBitPool
        shareOvertaken := by
  have hvalid : validateShare digestOfHeight (parseJobResponse (templateAt 1) 0) "00" 7
      = some (some (7, true, false)) := by
    decide +kernel
  refine ⟨hvalid, ?_⟩
  intro halong
  let s := (shareRead ++ [Moment.poll false (templateAt 2) 0]).foldl (Threads.step digestOfHeight)
    sevenBitPool
  have hjudged : s.JudgedAsNamed digestOfHeight (.act "c" 0) :=
    along_iff.mp halong (shareRead ++ [Moment.poll false (templateAt 2) 0]) (.act "c" 0) [] rfl
  have heval : ∃ c ∈ s.handler "c", s.inHand.lookup "c" = some (.submit "h1-0" "00") ∧
      (s.pool.jobFor c "h1-0").isSome = true ∧
      (parseJobResponse (templateAt 1) 0, templateAt 1) ∈ s.published ∧
      (parseJobResponse (templateAt 1) 0).jobId = "h1-0" ∧
      s.pool.stratum.workerBits c.connectionId = 7 ∧
      (s.step digestOfHeight (.act "c" 0)).pool.inFlight.length = 0 := by
    decide +kernel
  obtain ⟨c, hc, hline, hfresh, hpublished, hid, hbits, hnone⟩ := heval
  obtain ⟨judged, hwork, hjudge⟩ :=
    hjudged c "h1-0" "00" hc hline hfresh _ _ hpublished hid
  -- The claim asks for the verdict on the named job, which starts a thread.
  rw [← hbits, ← Threads.validateShare_work hwork] at hvalid
  obtain ⟨task, htask⟩ := Threads.inFlight_judge hvalid "h1-0"
  rw [hjudge, htask, List.length_append] at hnone
  simp at hnone

/-- Acted on at once, the share is judged by the job it names. -/
theorem submissions_judged_as_named_atOnce :
    Along (Threads.step digestOfHeight) (Threads.JudgedAsNamed digestOfHeight) sevenBitPool
      (shareRead ++ [.act "c" 0]) := by
  let named := shareRead.foldl (Threads.step digestOfHeight) sevenBitPool
  have hauth : ((shareRead.take 3).foldl (Threads.step digestOfHeight) sevenBitPool).inHand.lookup
      "c" = some (.authorize "alice.rig") := by
    decide +kernel
  have heval : named.published = [(parseJobResponse (templateAt 1) 0, templateAt 1)] ∧
      named.pool.stratum.currentJob = some (parseJobResponse (templateAt 1) 0) := by
    decide +kernel
  apply submissions_judged_as_named digestOfHeight ⟨Db.empty, Mempool.new⟩ "a" 128 PayoutLedger.new
  refine ⟨trivial, trivial, trivial, ?_, trivial, ?_, trivial⟩
  · intro c jobId nonceHex _ hline
    have hother := hauth.symm.trans hline
    simp at hother
  · intro c jobId nonceHex _ _ _ job raw hpublished _
    have hmem : (job, raw) ∈ named.published := hpublished
    rw [heval.1, List.mem_singleton] at hmem
    show named.pool.stratum.currentJob.map _ = _
    rw [heval.2, (Prod.mk.inj hmem).1]
    rfl

end Tensorium
