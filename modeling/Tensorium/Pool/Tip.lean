import Tensorium.Lib.GuardedRun
import Tensorium.Pool.Interleaved

/-! # The tip the pool mines on

    `run_job_poller` publishes a template if its height is not the one it has
    seen last, and looks at nothing else. A tip that is exchanged for another of
    the same height goes unnoticed until the next block.
-/

namespace Tensorium

open BulkMap GuardedRun

/-! ## What touches the jobs -/

/-- The current job, the templates and the heights of the pollers are the same. -/
structure Pool.SameJobs (pool pool' : Pool) : Prop where
  current : pool'.stratum.currentJob = pool.stratum.currentJob
  cached : pool'.stratum.jobTemplateCache = pool.stratum.jobTemplateCache
  heights : pool'.lastHeight = pool.lastHeight

namespace Pool

variable {P : Primitives}

theorem act_sameJobs (pool : Pool) (c : Connection) (now : Nat) (line : Line) :
    SameJobs pool (pool.act P c now line) := by
  cases line with
  | other => exact ⟨rfl, rfl, rfl⟩
  | authorize auth => exact ⟨rfl, rfl, rfl⟩
  | submit jobId nonceHex =>
    show SameJobs pool (pool.receiveSubmit P c jobId nonceHex)
    rcases receiveSubmit_cases P pool c jobId nonceHex with hpool | hpool | hpool |
      ⟨submit, isBlock, hpool⟩
    · rw [hpool]
      exact ⟨rfl, rfl, rfl⟩
    · rw [hpool]
      exact ⟨by simp [StratumState.reject], by simp [StratumState.reject], rfl⟩
    · rw [hpool]
      exact ⟨rfl, rfl, rfl⟩
    · rw [hpool]
      exact ⟨rfl, rfl, rfl⟩

theorem runTask_sameJobs (pool : Pool) (weights : WeightOrder) (accepted : Bool)
    (nowSeconds : Nat) (task : Task) :
    SameJobs pool (pool.runTask P weights accepted nowSeconds task) := by
  cases task with
  | record block => exact ⟨rfl, rfl, rfl⟩
  | found submit => exact ⟨rfl, rfl, rfl⟩
  | forward submit template workerName => exact ⟨rfl, rfl, rfl⟩
  | share submit =>
    exact ⟨by simp [runTask, StratumState.accept], by simp [runTask, StratumState.accept], rfl⟩
  | credit submit template workerName accepted =>
    exact ⟨by simp [runTask, StratumState.accept], by simp [runTask, StratumState.accept], rfl⟩

end Pool

namespace Threads

variable {P : Primitives} {s : Threads}

/-- Only a poll touches the jobs. -/
theorem step_jobs (P : Primitives) (s : Threads) (moment : Moment) :
    (∃ alternate raw millis, moment = .poll alternate raw millis) ∨
    s.pool.SameJobs (s.step P moment).pool ∧ (s.step P moment).published = s.published ∧
      (s.step P moment).fetched = s.fetched := by
  have hsame : s.pool.SameJobs s.pool ∧ s.published = s.published ∧ s.fetched = s.fetched :=
    ⟨⟨rfl, rfl, rfl⟩, rfl, rfl⟩
  cases moment with
  | poll alternate raw millis => exact Or.inl ⟨alternate, raw, millis, rfl⟩
  | registered height miner => exact Or.inr ⟨⟨rfl, rfl, rfl⟩, rfl, rfl⟩
  | posted block => exact Or.inr ⟨⟨rfl, rfl, rfl⟩, rfl, rfl⟩
  | connect connectionId => exact Or.inr ⟨⟨rfl, rfl, rfl⟩, rfl, rfl⟩
  | disconnect connectionId => exact Or.inr ⟨⟨rfl, rfl, rfl⟩, rfl, rfl⟩
  | read connectionId line =>
    right
    unfold step
    dsimp only
    split
    · exact ⟨⟨rfl, rfl, rfl⟩, rfl, rfl⟩
    · exact hsame
  | act connectionId now =>
    right
    unfold step
    dsimp only
    split
    next c line _ _ => exact ⟨Pool.act_sameJobs s.pool c now line, rfl, rfl⟩
    next => exact hsame
  | advance i weights accepted nowSeconds =>
    right
    unfold step
    dsimp only
    split
    next => exact hsame
    next task _ =>
      -- A task keeps the jobs of the pool it runs in, from which it was taken out.
      have hrun := Pool.runTask_sameJobs (P := P)
        { s.pool with inFlight := s.pool.inFlight.eraseIdx i } weights accepted nowSeconds task
      exact ⟨⟨hrun.current, hrun.cached, hrun.heights⟩, rfl, rfl⟩

end Threads

/-! ## The tip of a template -/

/-- Two headers extend the same tip at the same difficulty. -/
structure SameTip (a b : BlockHeader) : Prop where
  previousHash : a.previousHash = b.previousHash
  height : a.height = b.height
  difficulty : a.leadingZeroBits = b.leadingZeroBits

theorem SameTip.symm {a b : BlockHeader} (h : SameTip a b) : SameTip b a :=
  ⟨h.previousHash.symm, h.height.symm, h.difficulty.symm⟩

theorem SameTip.trans {a b c : BlockHeader} (h : SameTip a b) (h' : SameTip b c) : SameTip a c :=
  ⟨h.previousHash.trans h'.previousHash, h.height.trans h'.height,
    h.difficulty.trans h'.difficulty⟩

/-- The pool has a job for the tip of a template, and keeps a template with the
    header of that job under its id. -/
def Pool.MinesOn (pool : Pool) (raw : Node.BlockTemplate) : Prop :=
  ∃ job kept, pool.stratum.currentJob = some job ∧
    SameTip (jobHeader job 0) raw.template.header ∧
    pool.stratum.jobTemplateCache.lookup job.jobId = some kept ∧
    jobHeader job kept.template.header.nonce = kept.template.header

namespace Threads

variable {P : Primitives} {s : Threads}

/-- The claim on an iteration of a poller: it leaves the pool on the tip. -/
def LeavesOnTip (P : Primitives) (s : Threads) : Moment → Prop
  | .poll alternate raw millis => (s.step P (.poll alternate raw millis)).pool.MinesOn raw
  | _ => True

/-- A template of the height its poller saw last is for the tip that was fetched
    last. -/
def TipMovesUp (s : Threads) : Moment → Prop
  | .poll alternate raw _ => raw.template.header.height ≠ s.pool.lastHeight alternate ∨
      ∃ last, s.fetched = some last ∧ SameTip last.template.header raw.template.header
  | _ => True

/-- The pool is on the tip that was fetched last, if any was. -/
structure OnTip (s : Threads) : Prop where
  mines : ∀ last, s.fetched = some last → s.pool.MinesOn last
  idle : s.fetched = none → s.pool.stratum.currentJob = none

/-- A template of a new height is published. -/
theorem stratum_poll_new {alternate : Bool} {raw : Node.BlockTemplate} (millis : Nat)
    (hnew : raw.template.header.height ≠ s.pool.lastHeight alternate) :
    (s.step P (.poll alternate raw millis)).pool.stratum
      = s.pool.stratum.publish (parseJobResponse raw millis) raw := by
  show (s.pool.poll alternate raw millis).stratum = _
  unfold Pool.poll
  exact congrArg Pool.stratum (if_pos hnew)

/-- The template of a job is in the cache once it is published. -/
theorem lookup_publish_self (stratum : StratumState) (job : StratumJob)
    (raw : Node.BlockTemplate) :
    (stratum.publish job raw).jobTemplateCache.lookup job.jobId = some raw :=
  Finmap.lookup_insert _

/-- A job that is published is for its template. -/
theorem minesOn_publish {alternate : Bool} {raw : Node.BlockTemplate} (millis : Nat)
    (hnew : raw.template.header.height ≠ s.pool.lastHeight alternate) :
    (s.step P (.poll alternate raw millis)).pool.MinesOn raw := by
  refine ⟨parseJobResponse raw millis, raw, ?_, ⟨rfl, rfl, rfl⟩, ?_, rfl⟩
  · rw [stratum_poll_new millis hnew]
    rfl
  · rw [stratum_poll_new millis hnew]
    exact lookup_publish_self _ _ _

/-- A template of the height its poller saw last changes nothing. -/
theorem poll_same {alternate : Bool} {raw : Node.BlockTemplate} (millis : Nat)
    (hold : ¬ raw.template.header.height ≠ s.pool.lastHeight alternate) :
    (s.step P (.poll alternate raw millis)).pool = s.pool := by
  show s.pool.poll alternate raw millis = _
  unfold Pool.poll
  dsimp only
  exact if_neg hold

theorem OnTip.minesOn_iff (h : s.OnTip) (raw : Node.BlockTemplate) :
    s.pool.MinesOn raw ↔
      ∃ last, s.fetched = some last ∧ SameTip last.template.header raw.template.header := by
  constructor
  · rintro ⟨job, kept, hcurrent, htip, _⟩
    -- A pool with a job has fetched a template, and the job is on its tip.
    cases hfetched : s.fetched with
    | none =>
      have hnone := h.idle hfetched
      rw [hcurrent] at hnone
      cases hnone
    | some last =>
      obtain ⟨other, _, hother, hlast, _⟩ := h.mines last hfetched
      obtain rfl : job = other := Option.some.inj (hcurrent.symm.trans hother)
      exact ⟨last, rfl, hlast.symm.trans htip⟩
  · rintro ⟨last, hfetched, hsame⟩
    obtain ⟨job, kept, hcurrent, htip, hkept, hheader⟩ := h.mines last hfetched
    exact ⟨job, kept, hcurrent, htip.trans hsame, hkept, hheader⟩

theorem OnTip.leavesOnTip_iff (h : s.OnTip) (moment : Moment) :
    s.LeavesOnTip P moment ↔ s.TipMovesUp moment := by
  cases moment with
  | poll alternate raw millis =>
    show (s.step P (.poll alternate raw millis)).pool.MinesOn raw ↔
      raw.template.header.height ≠ s.pool.lastHeight alternate ∨ _
    -- Only a height the poller has not seen last makes it publish.
    by_cases hnew : raw.template.header.height ≠ s.pool.lastHeight alternate
    · exact iff_of_true (minesOn_publish millis hnew) (Or.inl hnew)
    · rw [poll_same millis hnew, h.minesOn_iff raw, or_iff_right hnew]
  | _ => exact Iff.rfl

theorem OnTip.step (h : s.OnTip) {moment : Moment} (htip : s.LeavesOnTip P moment) :
    (s.step P moment).OnTip := by
  rcases step_jobs P s moment with ⟨alternate, raw, millis, rfl⟩ | ⟨hsame, _, hfetched⟩
  · constructor
    · intro last hlast
      obtain rfl : raw = last := Option.some.inj hlast
      exact htip
    · intro hnone
      cases hnone
  · constructor
    · intro last hlast
      rw [hfetched] at hlast
      unfold Pool.MinesOn
      rw [hsame.current, hsame.cached]
      exact h.mines last hlast
    · intro hnone
      rw [hfetched] at hnone
      rw [hsame.current]
      exact h.idle hnone

end Threads

/-- **The pool follows the height, not the tip.** Over every run of the pool's
    threads, each iteration of a poller leaves the pool mining on the template it
    has fetched, with a template of that header in the cache, if and only if every
    template of the height its poller saw last is for the tip of the template that
    was fetched just before. -/
theorem pool_mines_on_tip_iff (P : Primitives) (node : Node) (treasury : String)
    (shareDiff : UInt64) (ledger : PayoutLedger) (moments : List Moment) :
    let start := Threads.idle (World.boot node treasury shareDiff ledger).pool
    Along (Threads.step P) (Threads.LeavesOnTip P) start moments ↔
      Along (Threads.step P) Threads.TipMovesUp start moments := by
  intro start
  apply along_congr_keeping Threads.OnTip
  · constructor
    · intro last hlast
      cases hlast
    · intro _
      rfl
  · exact fun s moment h htip => h.step htip
  · exact fun s moment h => h.leavesOnTip_iff moment

/-! ## A tip of the same height -/

/-- A template of height 7 on a block. -/
def templateOn (previousHash : Hash256) : Node.BlockTemplate where
  epochSeed := Hash256.zero
  template := ⟨⟨1, "c", 7, previousHash, Hash256.zero, 0, 20, 0⟩, []⟩

/-- The node goes over to another branch of the same height, and the pool stays on
    the block that was left. -/
theorem pool_stays_on_orphan :
    let left := Hash256.ofSuffix [1]
    let tip := Hash256.ofSuffix [2]
    let start := Threads.idle (World.boot ⟨Db.empty, Mempool.new⟩ "a" 1 PayoutLedger.new).pool
    let moments := [Moment.poll false (templateOn left) 0, .poll false (templateOn tip) 500]
    ¬ Along (Threads.step Primitives.sample) (Threads.LeavesOnTip Primitives.sample) start
        moments := by
  intro left tip start moments
  rintro ⟨_, ⟨job, _, hcurrent, htip, _⟩, _⟩
  have hleft : parseJobResponse (templateOn left) 0 = job := Option.some.inj hcurrent
  rw [← hleft] at htip
  exact absurd htip.previousHash (by decide)

end Tensorium
