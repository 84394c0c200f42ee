import Tensorium.Pool.Credit

/-! # How often a share is counted

    `mining.submit` keeps no record of the nonces it has seen. Each submission
    that passes the checks is counted once: it is in flight, or the node has
    refused its block, or the share window has got one record for it. So a nonce
    is counted twice exactly if it is submitted twice.
-/

namespace Tensorium

open BulkMap GuardedRun

/-- The header a submission has hashed. -/
def Submit.header (submit : Submit) : BlockHeader := jobHeader submit.job submit.nonce

/-- The header of the submission a task is about. -/
def Task.headers : Task → List BlockHeader
  | .record _ => []
  | .share submit | .found submit | .forward submit _ _ | .credit submit _ _ _ => [submit.header]

namespace Pool

variable {P : Primitives} {pool : Pool}

/-- The headers of the submissions in flight. -/
def inHand (pool : Pool) : List BlockHeader := pool.inFlight.flatMap Task.headers

/-- A submission that passes the checks of `mining.submit`, and whether it makes
    a block. -/
def passes (P : Primitives) (pool : Pool) (c : Connection) (jobId nonceHex : String) :
    Option (Submit × Bool) :=
  if c.authorized then
    match pool.stratum.currentJob with
    | none => none
    | some job =>
      if job.jobId ≠ jobId ∧ jobId ≠ c.lastJobId then none
      else
        let bits := pool.stratum.workerBits c.connectionId
        match validateShare P job nonceHex bits with
        | some (some (_, true, isBlock)) =>
          some (⟨c.connectionId, c.walletAddr, jobId, job, ((leHexToU64 nonceHex).join).getD 0,
            bits⟩, isBlock)
        | _ => none
  else none

/-- A submission that passes is handed to a thread; any other leaves none. -/
theorem receiveSubmit_inFlight (P : Primitives) (pool : Pool) (c : Connection)
    (jobId nonceHex : String) :
    (pool.receiveSubmit P c jobId nonceHex).inFlight
      = pool.inFlight ++ ((pool.passes P c jobId nonceHex).map fun passed =>
          if passed.2 then Task.found passed.1 else Task.share passed.1).toList := by
  unfold receiveSubmit passes
  by_cases hauth : c.authorized = true
  · rw [if_pos hauth, if_pos hauth]
    cases pool.stratum.currentJob with
    | none => simp
    | some job =>
      dsimp only
      by_cases hstale : job.jobId ≠ jobId ∧ jobId ≠ c.lastJobId
      · rw [if_pos hstale, if_pos hstale]
        simp
      · rw [if_neg hstale, if_neg hstale]
        cases validateShare P job nonceHex (pool.stratum.workerBits c.connectionId) with
        | none => simp
        | some checked =>
          cases checked with
          | none => simp
          | some verdict =>
            obtain ⟨zeros, isShare, isBlock⟩ := verdict
            cases isShare with
            | true => simp [spawn]
            | false => simp
  · rw [if_neg hauth, if_neg hauth]
    simp

/-- A pool that takes over a connection has the same threads. -/
@[simp] theorem setConnection_inFlight (pool : Pool) (c : Connection) :
    (pool.setConnection c).inFlight = pool.inFlight :=
  rfl

@[simp] theorem spawn_inHand (pool : Pool) (task : Task) :
    (pool.spawn task).inHand = pool.inHand ++ task.headers := by
  simp [inHand, spawn]

end Pool

namespace World

variable {P : Primitives} {params : ConsensusParams}

/-! ## What an event does to the share window -/

/-- The headers of the submissions that pass in an event. -/
def passed (P : Primitives) (w : World) : Event → List BlockHeader
  | .line connectionId (.submit jobId nonceHex) _ =>
    match w.pool.connections.find? fun c => c.connectionId = connectionId with
    | none => []
    | some c =>
      (((w.pool.setConnection (Pool.drain c)).passes P (Pool.drain c) jobId nonceHex).map
        fun passed => passed.1.header).toList
  | _ => []

/-- The submissions that come to an end in an event, with the record the share
    window gets; the block of one without has been refused. -/
def ended (w : World) : Event → List (BlockHeader × Option ShareRecord)
  | .advance i _ _ nowSeconds =>
    match w.pool.inFlight[i]? with
    | some (.share submit) =>
      [(submit.header, some (Pool.shareOf submit
        (w.pool.stratum.workerName submit.connectionId) nowSeconds))]
    | some (.credit submit _ workerName accepted) =>
      [(submit.header,
        if accepted then some (Pool.shareOf submit workerName nowSeconds) else none)]
    | _ => []
  | _ => []

/-- What a submission that has come to an end leaves in the share window. -/
def pushEnded (window : ShareWindow) (done : BlockHeader × Option ShareRecord) : ShareWindow :=
  done.2.elim window window.push

/-- The entries of a block do not touch the shares. -/
theorem shareWindow_pushAll (ledger : PayoutLedger) (blockHeight : Nat) (blockHash : String)
    (splits : List (String × UInt64)) :
    (ledger.pushAll blockHeight blockHash splits).shareWindow = ledger.shareWindow := by
  induction splits generalizing ledger with
  | nil => rfl
  | cons split splits ih => exact ih _

theorem ended_of_quiet {w : World} {event : Event}
    (h : ∀ i order weights nowSeconds, event = .advance i order weights nowSeconds →
      w.pool.inFlight[i]? = none) : w.ended event = [] := by
  cases event with
  | advance i order weights nowSeconds =>
    unfold ended
    dsimp only
    rw [h i order weights nowSeconds rfl]
  | _ => rfl

theorem passed_of_quiet {w : World} {event : Event}
    (h : ∀ connectionId line now, event = .line connectionId line now →
      (w.pool.connections.find? fun c => c.connectionId = connectionId) = none) :
    w.passed P event = [] := by
  cases event with
  | line connectionId line now =>
    cases line with
    | submit jobId nonceHex =>
      unfold passed
      dsimp only
      rw [h connectionId _ now rfl]
    | authorize auth => rfl
    | other => rfl
  | _ => rfl

/-- The share window changes by what comes to an end, and by nothing else. -/
theorem step_shareWindow (w : World) (event : Event) :
    (w.step P params event).pool.ledger.shareWindow
      = (w.ended event).foldl pushEnded w.pool.ledger.shareWindow := by
  have hdoes := step_does P params w event
  generalize (w.step P params event).pool = pool at hdoes ⊢
  cases hdoes with
  | quiet hquiet hadvance _ =>
    rw [hquiet.ledger, ended_of_quiet hadvance]
    rfl
  | record block order nowSeconds => rfl
  | disconnect connectionId => rfl
  | publish alternate millis _ => rfl
  | @line connectionId c line now _ =>
    show (w.pool.receive P c line now).ledger.shareWindow = w.pool.ledger.shareWindow
    rw [(Pool.receive_sameBooks P w.pool c line now).ledger]
  | @advance i task order weights nowSeconds htask =>
    unfold ended
    dsimp only
    rw [htask]
    cases task with
    | record block | share submit | found submit | forward submit template workerName => rfl
    | credit submit template workerName accepted =>
      cases accepted with
      | false => rfl
      | true =>
        show (Pool.creditBlock P w.pool.ledger weights submit template workerName
          nowSeconds).shareWindow = _
        exact shareWindow_pushAll _ _ _ _

/-! ## Nothing is lost or made up -/

/-- A thread that goes on puts its submission down or keeps it in hand. -/
theorem advance_conserves (w : World) {i : Nat} {task : Task} (order : PendingOrder)
    (weights : WeightOrder) (nowSeconds : Nat) (htask : w.pool.inFlight[i]? = some task) :
    ((w.ended (.advance i order weights nowSeconds)).map Prod.fst
        ++ (runTask P params
          { w with pool := { w.pool with inFlight := w.pool.inFlight.eraseIdx i } }
          order weights nowSeconds task).pool.inHand).Perm
      w.pool.inHand := by
  unfold ended
  dsimp only
  rw [htask]
  obtain ⟨hi, hget⟩ := List.getElem?_eq_some_iff.mp htask
  -- The task that goes on comes first, the others keep their order.
  have hsplit : (task.headers ++ (w.pool.inFlight.eraseIdx i).flatMap Task.headers).Perm
      w.pool.inHand := by
    have hperm := (List.getElem_cons_eraseIdx_perm hi).flatMap_right Task.headers
    rwa [hget, List.flatMap_cons] at hperm
  cases task with
  | record block => exact hsplit
  | share submit => exact hsplit
  | credit submit template workerName accepted => exact hsplit
  | found submit =>
    apply List.Perm.trans _ hsplit
    show ((Pool.spawn _ _).inHand).Perm _
    rw [Pool.spawn_inHand]
    exact List.perm_append_comm
  | forward submit template workerName =>
    apply List.Perm.trans _ hsplit
    show ((Pool.spawn _ _).inHand).Perm _
    rw [Pool.spawn_inHand]
    exact List.perm_append_comm

/-- A line puts the submission it carries in hand if it passes. -/
theorem receive_conserves (w : World) {connectionId : String} {c : Connection}
    (hfind : (w.pool.connections.find? fun c => c.connectionId = connectionId) = some c)
    (line : Pool.Line) (now : Nat) :
    ((w.pool.receive P c line now).inHand).Perm
      (w.passed P (.line connectionId line now) ++ w.pool.inHand) := by
  cases line with
  | authorize auth => exact List.Perm.refl _
  | other => exact List.Perm.refl _
  | submit jobId nonceHex =>
    simp only [passed, hfind]
    show (((w.pool.setConnection (Pool.drain c)).receiveSubmit P (Pool.drain c) jobId
      nonceHex).inHand).Perm _
    unfold Pool.inHand
    rw [Pool.receiveSubmit_inFlight, Pool.setConnection_inFlight, List.flatMap_append]
    apply List.Perm.trans List.perm_append_comm
    apply List.Perm.append_right
    cases (w.pool.setConnection (Pool.drain c)).passes P (Pool.drain c) jobId nonceHex with
    | none => exact List.Perm.refl _
    | some found =>
      obtain ⟨submit, isBlock⟩ := found
      cases isBlock with
      | true => exact List.Perm.refl _
      | false => exact List.Perm.refl _

/-- What passes is in hand, and what was in hand comes to an end or stays. -/
theorem step_conserves (w : World) (event : Event) :
    ((w.ended event).map Prod.fst ++ (w.step P params event).pool.inHand).Perm
      (w.passed P event ++ w.pool.inHand) := by
  have hdoes := step_does P params w event
  generalize (w.step P params event).pool = pool at hdoes ⊢
  cases hdoes with
  | quiet hquiet hadvance hline =>
    rw [ended_of_quiet hadvance, passed_of_quiet hline, Pool.inHand, hquiet.inFlight]
    exact List.Perm.refl _
  | record block order nowSeconds =>
    rw [Pool.spawn_inHand]
    simp [Task.headers, passed, ended]
  | disconnect connectionId => exact List.Perm.refl _
  | publish alternate millis _ => exact List.Perm.refl _
  | line line now hfind => exact receive_conserves w hfind line now
  | advance order weights nowSeconds htask => exact advance_conserves w order weights nowSeconds htask

/-! ## Runs -/

/-- The headers of the submissions that pass in a run. -/
def passedIn (P : Primitives) (params : ConsensusParams) (w : World) (events : List Event) :
    List BlockHeader :=
  outputs (World.step P params) (World.passed P) w events

/-- The submissions that come to an end in a run. -/
def endedIn (P : Primitives) (params : ConsensusParams) (w : World) (events : List Event) :
    List (BlockHeader × Option ShareRecord) :=
  outputs (World.step P params) World.ended w events

/-- The records the share window gets in a run, with the headers they are for. -/
def receivedIn (P : Primitives) (params : ConsensusParams) (w : World) (events : List Event) :
    List (BlockHeader × ShareRecord) :=
  (w.endedIn P params events).filterMap fun done => done.2.map fun share => (done.1, share)

theorem outputs_map_fst (w : World) (events : List Event) :
    (w.endedIn P params events).map Prod.fst
      = outputs (World.step P params) (fun w event => (w.ended event).map Prod.fst) w events := by
  unfold endedIn
  induction events generalizing w with
  | nil => rfl
  | cons event events ih =>
    show ((w.ended event ++ outputs (World.step P params) World.ended (w.step P params event)
      events).map Prod.fst) = _
    rw [List.map_append, ih]
    rfl

/-- What has passed in a run has come to an end or is in hand. -/
theorem run_conserves (w : World) (events : List Event) :
    ((w.endedIn P params events).map Prod.fst
        ++ (events.foldl (World.step P params) w).pool.inHand).Perm
      (w.passedIn P params events ++ w.pool.inHand) := by
  rw [outputs_map_fst]
  exact perm_outputs (fun w => w.pool.inHand) step_conserves w events

/-- The share window after a run has got the records of the run, in order. -/
theorem run_shareWindow (w : World) (events : List Event) :
    (events.foldl (World.step P params) w).pool.ledger.shareWindow
      = ((w.receivedIn P params events).map Prod.snd).foldl ShareWindow.push
          w.pool.ledger.shareWindow := by
  have hstep : ∀ (w : World) event, (w.step P params event).pool.ledger.shareWindow
      = (w.ended event).foldl pushEnded w.pool.ledger.shareWindow := step_shareWindow
  have hrun := foldl_outputs (fun w : World => w.pool.ledger.shareWindow) pushEnded hstep w events
  rw [hrun]
  unfold receivedIn endedIn
  generalize outputs (World.step P params) World.ended w events = ended
  generalize w.pool.ledger.shareWindow = window
  induction ended generalizing window with
  | nil => rfl
  | cons done ended ih =>
    obtain ⟨header, share⟩ := done
    cases share with
    | none => exact ih window
    | some share => exact ih (window.push share)

/-- The records of a run are for submissions that have come to an end. -/
theorem receivedIn_sublist (w : World) (events : List Event) :
    ((w.receivedIn P params events).map Prod.fst).Sublist
      ((w.endedIn P params events).map Prod.fst) := by
  unfold receivedIn
  induction w.endedIn P params events with
  | nil => exact List.Sublist.refl _
  | cons done ended ih =>
    obtain ⟨header, share⟩ := done
    cases share with
    | none => exact ih.cons _
    | some share => exact ih.cons_cons _

/-- A header whose blocks the node takes gets a record for each submission that
    comes to an end. -/
theorem count_receivedIn (w : World) (events : List Event) {header : BlockHeader}
    (htaken : (header, none) ∉ w.endedIn P params events) :
    ((w.receivedIn P params events).map Prod.fst).count header
      = ((w.endedIn P params events).map Prod.fst).count header := by
  unfold receivedIn
  generalize w.endedIn P params events = ended at htaken ⊢
  induction ended with
  | nil => rfl
  | cons done ended ih =>
    have htail := ih fun hmem => htaken (List.mem_cons_of_mem _ hmem)
    obtain ⟨other, share⟩ := done
    cases share with
    | none =>
      have hne : other ≠ header := by
        intro heq
        exact htaken (by simp [heq])
      show (List.map Prod.fst (List.filterMap _ ended)).count header = _
      rw [htail, List.map_cons, List.count_cons_of_ne hne]
    | some share =>
      show (other :: List.map Prod.fst (List.filterMap _ ended)).count header = _
      rw [List.map_cons, List.count_cons, List.count_cons, htail]

/-- **A nonce is counted as often as it is submitted.** The share window of a
    pool gets the records of the submissions that pass the checks. If no header
    passes twice in a run, none is recorded twice; and a header with nothing in
    hand, and no block refused, has exactly as many records as it has passed. -/
theorem shares_counted_once (P : Primitives) (params : ConsensusParams) (node : Node)
    (treasury : String) (shareDiff : UInt64) (ledger : PayoutLedger) (events : List Event) :
    let start := boot node treasury shareDiff ledger
    let final := events.foldl (World.step P params) start
    final.pool.ledger.shareWindow
      = ((start.receivedIn P params events).map Prod.snd).foldl ShareWindow.push
          ledger.shareWindow ∧
    ((start.passedIn P params events).Nodup →
      ((start.receivedIn P params events).map Prod.fst).Nodup) ∧
    ∀ header, (header, none) ∉ start.endedIn P params events → header ∉ final.pool.inHand →
      ((start.receivedIn P params events).map Prod.fst).count header
        = (start.passedIn P params events).count header := by
  intro start final
  have hconserves : ((start.endedIn P params events).map Prod.fst ++ final.pool.inHand).Perm
      (start.passedIn P params events) := by
    have hrun : ((start.endedIn P params events).map Prod.fst ++ final.pool.inHand).Perm
        (start.passedIn P params events ++ start.pool.inHand) := run_conserves start events
    rwa [show start.pool.inHand = [] from rfl, List.append_nil] at hrun
  refine ⟨run_shareWindow start events, ?_, ?_⟩
  · intro hfresh
    have hended : ((start.endedIn P params events).map Prod.fst).Nodup :=
      (List.nodup_append.mp (hconserves.nodup_iff.mpr hfresh)).1
    exact hended.sublist (receivedIn_sublist start events)
  · intro header htaken hhand
    rw [count_receivedIn start events htaken, ← hconserves.count_eq, List.count_append,
      List.count_eq_zero_of_not_mem hhand, Nat.add_zero]

/-! ## A replayed share -/

/-- Primitives for which an odd nonce has four leading zeros. -/
def fourZeros : Primitives :=
  .byNonce ⟨8 :: List.replicate 31 0, by decide⟩

/-- A pool that lets a worker start at difficulty one. -/
def easyPool : World :=
  boot ⟨(ChainState.clockRun fourZeros testParams 0).db, Mempool.new⟩ "a" 1 PayoutLedger.new

/-- A worker submits a nonce twice, spelled differently. -/
def replayRun : List Event :=
  [.connect "c", .poll false Iteration.sorted 2 0, .line "c" (.authorize "alice.rig") 2,
    .line "c" (.submit "h1-0" "01") 2, .advance 0 Iteration.sorted Iteration.sorted 2,
    .line "c" (.submit "h1-0" "0x01") 2, .advance 0 Iteration.sorted Iteration.sorted 2]

/-- Both spellings are accepted, and the window holds two records for one proof
    of work. -/
theorem replayed_share_counted_twice :
    ¬ ((easyPool.receivedIn fourZeros testParams replayRun).map Prod.fst).Nodup ∧
    (replayRun.foldl (World.step fourZeros testParams) easyPool).pool.ledger.shareWindow.shares
      = [⟨"alice", "rig", 0, 2⟩, ⟨"alice", "rig", 0, 2⟩] := by
  decide +kernel

end World

end Tensorium
