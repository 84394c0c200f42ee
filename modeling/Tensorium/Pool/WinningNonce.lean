import Tensorium.Pool.ShareOnce

/-! # What becomes of a winning nonce

    `mining.submit` looks at the difficulty of the worker first and at the
    difficulty of the job only for a share. A nonce that wins the job reaches
    the node exactly if it is also a share, and the difficulty of a worker may
    be above the one of the job: it starts where the operator puts it and moves
    up to 40 bits, while the difficulty of the network moves on its own.
-/

namespace Tensorium

open BulkMap GuardedRun

/-! ## The two ways to count zeros -/

/-- The count in a byte is the count of the node, modulo 256. -/
theorem toNat_poolLeadingZeroBitsLoop (bytes : Bytes) (bits : UInt8) (count : Nat)
    (h : bits.toNat = count % 256) :
    (poolLeadingZeroBitsLoop bytes bits).toNat
      = Hash256.leadingZeroBitsLoop bytes count % 256 := by
  induction bytes generalizing bits count with
  | nil => exact h
  | cons b bytes ih =>
    unfold poolLeadingZeroBitsLoop Hash256.leadingZeroBitsLoop
    by_cases hzero : b = 0
    · rw [if_pos hzero, if_pos hzero]
      apply ih
      rw [UInt8.toNat_add, h]
      show (count % 256 + 8) % 256 = (count + 8) % 256
      omega
    · rw [if_neg hzero, if_neg hzero, UInt8.toNat_add, h, UInt8.toNat_ofNat']
      omega

theorem toNat_poolLeadingZeroBits (hash : Hash256) :
    (poolLeadingZeroBits hash).toNat = hash.leadingZeroBits % 256 :=
  toNat_poolLeadingZeroBitsLoop hash.bytes 0 0 rfl

/-! ## The difficulty of a worker -/

/-- No worker, and no new one either, has more than `top` bits. -/
def StratumState.BitsAtMost (top : Nat) (s : StratumState) : Prop :=
  s.shareDiffBits.toNat ≤ top ∧ ∀ connectionId w, s.workers.lookup connectionId = some w →
    w.shareDiffBits.toNat ≤ top

namespace StratumState

variable {top : Nat} {s : StratumState}

theorem BitsAtMost.workerBits_le (h : s.BitsAtMost top) (connectionId : String) :
    (s.workerBits connectionId).toNat ≤ top := by
  unfold workerBits
  cases hw : s.workers.lookup connectionId with
  | none => exact h.1
  | some w => exact h.2 connectionId w hw

/-- The update of a worker keeps the bound if it keeps it for the worker. -/
theorem BitsAtMost.updateWorker (h : s.BitsAtMost top) (connectionId : String)
    (f : WorkerSession → WorkerSession)
    (hf : ∀ w, w.shareDiffBits.toNat ≤ top → (f w).shareDiffBits.toNat ≤ top) :
    (s.updateWorker connectionId f).BitsAtMost top := by
  unfold StratumState.updateWorker
  cases hw : s.workers.lookup connectionId with
  | none => exact h
  | some w =>
    refine ⟨h.1, ?_⟩
    intro other w' hw'
    rw [lookup_insert_ite] at hw'
    split_ifs at hw' with hsame
    · obtain rfl := Option.some.inj hw'
      exact hf w (h.2 connectionId w hw)
    · exact h.2 other w' hw'

theorem BitsAtMost.reject (h : s.BitsAtMost top) (connectionId : String) :
    (s.reject connectionId).BitsAtMost top := by
  unfold StratumState.reject
  apply BitsAtMost.updateWorker
  · exact h
  · intro w hw
    exact hw

theorem vardiffBits_le (spm : Nat) {old : UInt8} (htop : vardiffMaxBits.toNat ≤ top)
    (hold : old.toNat ≤ top) : (vardiffBits spm old).toNat ≤ top := by
  unfold vardiffBits
  split_ifs
  · show (if old + 1 ≤ vardiffMaxBits then old + 1 else vardiffMaxBits).toNat ≤ top
    split_ifs with hbelow
    · exact le_trans (UInt8.le_iff_toNat_le.mp hbelow) htop
    · exact htop
  · show (if UInt8.ofNat (old.toNat - 1) ≤ vardiffMinBits then vardiffMinBits
      else UInt8.ofNat (old.toNat - 1)).toNat ≤ top
    split_ifs
    · exact le_trans (by decide) htop
    · rw [UInt8.toNat_ofNat']
      have hlt := old.toNat_lt
      omega
  · exact hold

theorem BitsAtMost.accept (h : s.BitsAtMost top) (htop : vardiffMaxBits.toNat ≤ top)
    (connectionId : String) (now : Nat) : (s.accept connectionId now).BitsAtMost top := by
  unfold StratumState.accept
  apply BitsAtMost.updateWorker
  · exact h
  · intro w hw
    unfold WorkerSession.accept
    dsimp only
    split_ifs
    · exact vardiffBits_le _ htop hw
    · exact hw

theorem BitsAtMost.authorize (h : s.BitsAtMost top) (connectionId walletAddr workerName : String)
    (now : Nat) : (s.authorize connectionId walletAddr workerName now).BitsAtMost top := by
  refine ⟨h.1, ?_⟩
  intro other w hw
  unfold StratumState.authorize at hw
  dsimp only at hw
  rw [lookup_insert_ite] at hw
  split_ifs at hw with hsame
  · obtain rfl := Option.some.inj hw
    exact h.1
  · exact h.2 other w hw

end StratumState

namespace World

variable {P : Primitives} {params : ConsensusParams}

theorem receive_bitsAtMost {top : Nat} {pool : Pool} (h : pool.stratum.BitsAtMost top)
    (c : Connection) (line : Pool.Line) (now : Nat) :
    (pool.receive P c line now).stratum.BitsAtMost top := by
  cases line with
  | other => exact h
  | authorize auth => exact h.authorize _ _ _ _
  | submit jobId nonceHex =>
    show (((pool.setConnection (Pool.drain c)).receiveSubmit P (Pool.drain c) jobId
      nonceHex).stratum).BitsAtMost top
    rcases Pool.receiveSubmit_cases P (pool.setConnection (Pool.drain c)) (Pool.drain c) jobId
      nonceHex with hpool | hpool | hpool | ⟨submit, isBlock, hpool⟩
    · rw [hpool]
      exact h
    · rw [hpool]
      exact h.reject _
    · rw [hpool]
      exact h
    · rw [hpool]
      exact h

/-- The workers of a pool stay below a bound that is at least 40 bits. -/
theorem step_bitsAtMost {top : Nat} (htop : vardiffMaxBits.toNat ≤ top) {w : World}
    (h : w.pool.stratum.BitsAtMost top) (event : Event) :
    (w.step P params event).pool.stratum.BitsAtMost top := by
  have hdoes := step_does P params w event
  generalize (w.step P params event).pool = pool at hdoes ⊢
  cases hdoes with
  | quiet hquiet _ _ =>
    rw [hquiet.stratum]
    exact h
  | record block order nowSeconds => exact h
  | publish alternate millis _ => exact h
  | line line now _ => exact receive_bitsAtMost h _ line now
  | disconnect connectionId =>
    refine ⟨h.1, ?_⟩
    intro other session hsession
    show session.shareDiffBits.toNat ≤ top
    apply h.2 other session
    have herase : (w.pool.stratum.workers.erase connectionId).lookup other = some session :=
      hsession
    rw [lookup_erase_ite] at herase
    split_ifs at herase
    exact herase
  | @advance i task order weights nowSeconds _ =>
    cases task with
    | record block => exact h
    | found submit => exact h
    | forward submit template workerName => exact h
    | share submit => exact h.accept htop _ _
    | credit submit template workerName accepted =>
      apply StratumState.BitsAtMost.accept _ htop
      exact h

/-- However the vardiff history goes, a worker never has more bits than the
    larger of what the operator has set and 40. -/
theorem workerBits_le (node : Node) (treasury : String) (shareDiff : UInt64)
    (ledger : PayoutLedger) (events : List Event) (connectionId : String) :
    ((events.foldl (World.step P params)
      (boot node treasury shareDiff ledger)).pool.stratum.workerBits connectionId).toNat
      ≤ max (diffToBits shareDiff).toNat vardiffMaxBits.toNat := by
  apply StratumState.BitsAtMost.workerBits_le
  have hstart : (boot node treasury shareDiff ledger).pool.stratum.BitsAtMost
      (max (diffToBits shareDiff).toNat vardiffMaxBits.toNat) := by
    refine ⟨le_max_left _ _, ?_⟩
    intro other session hsession
    cases hsession
  exact foldl_invariant (fun w : World => w.pool.stratum.BitsAtMost _) hstart
    fun w event h => step_bitsAtMost (le_max_right _ _) h event

/-! ## Winning nonces -/

/-- When the thread of a found block goes on, it reads the template, and then it
    calls `submit_block`. -/
def ThreadAsks (P : Primitives) (params : ConsensusParams) (submit : Submit) : Prop :=
  (∀ (w : World) (i : Nat) (order : PendingOrder) (weights : WeightOrder) (nowSeconds : Nat),
    w.pool.inFlight[i]? = some (.found submit) → ∃ template workerName,
      (w.step P params (.advance i order weights nowSeconds)).pool.inFlight
        = w.pool.inFlight.eraseIdx i ++ [.forward submit template workerName]) ∧
  ∀ (w : World) (i : Nat) (order : PendingOrder) (weights : WeightOrder) (nowSeconds : Nat)
      (template : Option Node.BlockTemplate) (workerName : String),
    w.pool.inFlight[i]? = some (.forward submit template workerName) →
      (w.step P params (.advance i order weights nowSeconds)).node
        = (w.node.submitBlock P params order (submittedBlock submit.job submit.nonce template)
            nowSeconds).2

theorem threadAsks (P : Primitives) (params : ConsensusParams) (submit : Submit) :
    ThreadAsks P params submit := by
  constructor
  · intro w i order weights nowSeconds htask
    refine ⟨w.pool.stratum.templateFor submit.job submit.jobId,
      w.pool.stratum.workerName submit.connectionId, ?_⟩
    simp only [step, htask]
    rfl
  · intro w i order weights nowSeconds template workerName htask
    simp only [step, htask]
    rfl

/-- Between two worlds a thread has been started that calls `submit_block` with a
    nonce for a job. -/
def CallsSubmitBlock (P : Primitives) (params : ConsensusParams) (w w' : World)
    (job : StratumJob) (nonce : UInt64) : Prop :=
  ∃ submit : Submit, submit.job = job ∧ submit.nonce = nonce ∧
    w'.pool.inFlight = w.pool.inFlight ++ [.found submit] ∧ ThreadAsks P params submit

/-- The verdict on a nonce that parses. -/
theorem validateShare_of_parsed {job : StratumJob} {nonceHex : String} {nonce : UInt64}
    (hnonce : leHexToU64 nonceHex = some (some nonce)) (bits : UInt8) :
    validateShare P job nonceHex bits
      = some (some (poolLeadingZeroBits ((jobHeader job nonce).powHash P job.epochSeed),
          decide (poolLeadingZeroBits ((jobHeader job nonce).powHash P job.epochSeed) ≥ bits),
          decide (poolLeadingZeroBits ((jobHeader job nonce).powHash P job.epochSeed)
            ≥ job.difficultyBits))) := by
  unfold validateShare
  rw [hnonce]
  rfl

/-- A submission for the current job is forwarded exactly if its zeros, counted in
    a byte, reach both the difficulty of the worker and the one of the job. -/
theorem line_calls_iff (w : World) {connectionId nonceHex : String} {c : Connection}
    {job : StratumJob} {nonce : UInt64} (now : Nat)
    (hconnection : (w.pool.connections.find? fun c => c.connectionId = connectionId) = some c)
    (hauth : c.authorized = true) (hjob : w.pool.stratum.currentJob = some job)
    (hnonce : leHexToU64 nonceHex = some (some nonce)) :
    CallsSubmitBlock P params w
        (w.step P params (.line connectionId (.submit job.jobId nonceHex) now)) job nonce ↔
      w.pool.stratum.workerBits c.connectionId
          ≤ poolLeadingZeroBits ((jobHeader job nonce).powHash P job.epochSeed) ∧
        job.difficultyBits
          ≤ poolLeadingZeroBits ((jobHeader job nonce).powHash P job.epochSeed) := by
  -- The line leaves at most one task, if the share passes both checks.
  have hinFlight : (w.step P params (.line connectionId (.submit job.jobId nonceHex)
      now)).pool.inFlight
      = w.pool.inFlight ++ (((w.pool.setConnection (Pool.drain c)).passes P (Pool.drain c)
          job.jobId nonceHex).map fun passed =>
            if passed.2 then Task.found passed.1 else Task.share passed.1).toList := by
    simp only [step, hconnection]
    exact Pool.receiveSubmit_inFlight P _ _ _ _
  have hbits : (w.pool.setConnection (Pool.drain c)).stratum.workerBits
      (Pool.drain c).connectionId = w.pool.stratum.workerBits c.connectionId := rfl
  have hpasses : (w.pool.setConnection (Pool.drain c)).passes P (Pool.drain c) job.jobId nonceHex
      = if w.pool.stratum.workerBits c.connectionId
            ≤ poolLeadingZeroBits ((jobHeader job nonce).powHash P job.epochSeed) then
          some (⟨c.connectionId, c.walletAddr, job.jobId, job, nonce,
            w.pool.stratum.workerBits c.connectionId⟩,
            decide (job.difficultyBits
              ≤ poolLeadingZeroBits ((jobHeader job nonce).powHash P job.epochSeed)))
        else none := by
    unfold Pool.passes
    rw [if_pos (show (Pool.drain c).authorized = true from hauth),
      show (w.pool.setConnection (Pool.drain c)).stratum.currentJob = some job from hjob]
    dsimp only
    rw [if_neg (fun h => h.1 rfl), hbits, validateShare_of_parsed hnonce, hnonce]
    by_cases hshare : w.pool.stratum.workerBits c.connectionId
        ≤ poolLeadingZeroBits ((jobHeader job nonce).powHash P job.epochSeed)
    · rw [if_pos hshare, decide_eq_true hshare]
      rfl
    · rw [if_neg hshare, decide_eq_false hshare]
  unfold CallsSubmitBlock
  rw [hinFlight, hpasses]
  constructor
  · rintro ⟨submit, _, _, hspawned, _⟩
    have htask := List.append_cancel_left hspawned
    split_ifs at htask with hshare
    · refine ⟨hshare, ?_⟩
      by_contra hblock
      rw [decide_eq_false hblock] at htask
      cases htask
    · cases htask
  · rintro ⟨hshare, hblock⟩
    refine ⟨⟨c.connectionId, c.walletAddr, job.jobId, job, nonce,
      w.pool.stratum.workerBits c.connectionId⟩, rfl, rfl, ?_, threadAsks P params _⟩
    rw [if_pos hshare, decide_eq_true hblock]
    rfl

/-- **A winning nonce must also be a share.** In every state a pool can reach, a
    worker's submission for the current job that wins it goes to the node if and
    only if its zeros, counted in a byte, reach the difficulty of the worker and
    the one of the job. A job that asks for at least what the operator has set,
    and for at least 40 bits, is above every worker. -/
theorem winning_nonce_submitted_iff (P : Primitives) (params : ConsensusParams) (node : Node)
    (treasury : String) (shareDiff : UInt64) (ledger : PayoutLedger) (events : List Event)
    (connectionId nonceHex : String) (c : Connection) (job : StratumJob) (nonce : UInt64)
    (now : Nat) :
    let w := events.foldl (World.step P params) (boot node treasury shareDiff ledger)
    let zeros := ((jobHeader job nonce).powHash P job.epochSeed).leadingZeroBits
    (w.pool.connections.find? fun c => c.connectionId = connectionId) = some c →
    c.authorized = true → w.pool.stratum.currentJob = some job →
    leHexToU64 nonceHex = some (some nonce) → job.difficultyBits.toNat ≤ zeros →
    (CallsSubmitBlock P params w
        (w.step P params (.line connectionId (.submit job.jobId nonceHex) now)) job nonce ↔
      (w.pool.stratum.workerBits c.connectionId).toNat ≤ zeros % 256 ∧
        job.difficultyBits.toNat ≤ zeros % 256) ∧
    (max (diffToBits shareDiff).toNat vardiffMaxBits.toNat ≤ job.difficultyBits.toNat →
      zeros < 256 →
      CallsSubmitBlock P params w
        (w.step P params (.line connectionId (.submit job.jobId nonceHex) now)) job nonce) := by
  intro w zeros hconnection hauth hjob hnonce hwins
  have hiff : CallsSubmitBlock P params w
        (w.step P params (.line connectionId (.submit job.jobId nonceHex) now)) job nonce ↔
      (w.pool.stratum.workerBits c.connectionId).toNat ≤ zeros % 256 ∧
        job.difficultyBits.toNat ≤ zeros % 256 := by
    rw [line_calls_iff w now hconnection hauth hjob hnonce, UInt8.le_iff_toNat_le,
      UInt8.le_iff_toNat_le, toNat_poolLeadingZeroBits]
  refine ⟨hiff, ?_⟩
  intro habove hzeros
  -- No worker is asked for more than the operator has set, or 40 bits.
  have hworker : (w.pool.stratum.workerBits c.connectionId).toNat
      ≤ max (diffToBits shareDiff).toNat vardiffMaxBits.toNat :=
    workerBits_le node treasury shareDiff ledger events c.connectionId
  rw [hiff, Nat.mod_eq_of_lt hzeros]
  exact ⟨hworker.trans (habove.trans hwins), hwins⟩

/-! ## A nonce that wins and is discarded -/

/-- Primitives for which a nonce that 256 does not divide has 39 leading zeros. -/
def zeros39 : Primitives :=
  .byNonce ⟨0 :: 0 :: 0 :: 0 :: 1 :: List.replicate 27 0, by decide⟩

/-- A main network that has mined `n` blocks, one an hour. -/
def slowRun : Nat → ChainState
  | 0 => ChainState.new.step zeros39 mainnet (.initGenesis 1 0)
  | n + 1 => (slowRun n).step zeros39 mainnet (.mineNextBlock (3600 * (n + 1) + 1) "m" 0)

/-- A pool on it whose workers start at 40 bits. -/
def steepPool : World :=
  boot ⟨(slowRun 5).db, Mempool.new⟩ "a" 0x10000000000 PayoutLedger.new

/-- A worker gets a job. -/
def steepRun : List Event :=
  [.connect "c", .poll false Iteration.sorted 20000 0, .line "c" (.authorize "alice.rig") 20000]

/-- The job asks for 39 zeros and the nonce has as many, but the worker is at
    40 bits: the nonce is rejected and the node does not hear of it. -/
theorem winning_nonce_discarded :
    ∃ job, (steepRun.foldl (World.step zeros39 mainnet) steepPool).pool.stratum.currentJob
        = some job ∧
      leHexToU64 "01" = some (some 1) ∧
      mainnet.minLeadingZeroBits ≤ job.difficultyBits ∧ job.difficultyBits = 39 ∧
      ((jobHeader job 1).powHash zeros39 job.epochSeed).leadingZeroBits = 39 ∧
      ¬ CallsSubmitBlock zeros39 mainnet (steepRun.foldl (World.step zeros39 mainnet) steepPool)
        ((steepRun.foldl (World.step zeros39 mainnet) steepPool).step zeros39 mainnet
          (.line "c" (.submit job.jobId "01") 20000)) job 1 := by
  have heval : ∃ job ∈ (steepRun.foldl (World.step zeros39 mainnet)
        steepPool).pool.stratum.currentJob,
      leHexToU64 "01" = some (some 1) ∧
      mainnet.minLeadingZeroBits ≤ job.difficultyBits ∧ job.difficultyBits = 39 ∧
      ((jobHeader job 1).powHash zeros39 job.epochSeed).leadingZeroBits = 39 ∧
      ((steepRun.foldl (World.step zeros39 mainnet) steepPool).step zeros39 mainnet
        (.line "c" (.submit job.jobId "01") 20000)).pool.inFlight.length = 0 := by
    decide +kernel
  obtain ⟨job, hjob, hnonce, hmin, hbits, hzeros, hnone⟩ := heval
  refine ⟨job, hjob, hnonce, hmin, hbits, hzeros, ?_⟩
  rintro ⟨submit, _, _, hspawned, _⟩
  rw [hspawned, List.length_append] at hnone
  simp at hnone

/-- On the easy network the worker of `stratumRun` is below the job, and its nonce
    goes to the node. -/
theorem winning_nonce_submitted_easy :
    ∃ job, CallsSubmitBlock poolPrimitives testParams
      ((stratumRun.take 3).foldl (World.step poolPrimitives testParams) pooled)
      (((stratumRun.take 3).foldl (World.step poolPrimitives testParams) pooled).step
        poolPrimitives testParams (.line "c" (.submit job.jobId "00") 2)) job 0 := by
  have heval : ∃ job ∈ ((stratumRun.take 3).foldl (World.step poolPrimitives testParams)
        pooled).pool.stratum.currentJob,
      ∃ c ∈ ((stratumRun.take 3).foldl (World.step poolPrimitives testParams)
        pooled).pool.connections.find? (fun c => c.connectionId = "c"),
      c.authorized = true ∧ leHexToU64 "00" = some (some 0) ∧
      job.difficultyBits.toNat
        ≤ ((jobHeader job 0).powHash poolPrimitives job.epochSeed).leadingZeroBits ∧
      (((stratumRun.take 3).foldl (World.step poolPrimitives testParams)
          pooled).pool.stratum.workerBits c.connectionId).toNat
        ≤ ((jobHeader job 0).powHash poolPrimitives job.epochSeed).leadingZeroBits % 256 ∧
      job.difficultyBits.toNat
        ≤ ((jobHeader job 0).powHash poolPrimitives job.epochSeed).leadingZeroBits % 256 := by
    decide +kernel
  obtain ⟨job, hjob, c, hc, hauth, hnonce, hwins, hworker, hbits⟩ := heval
  unfold pooled at hjob hc hworker ⊢
  have hiff := winning_nonce_submitted_iff poolPrimitives testParams
    ⟨(ChainState.clockRun poolPrimitives testParams 0).db, Mempool.new⟩ "a" 1 PayoutLedger.new
    (stratumRun.take 3) "c" "00" c job 0 2 hc hauth hjob hnonce hwins
  exact ⟨job, hiff.1.mpr ⟨hworker, hbits⟩⟩

end World

end Tensorium
