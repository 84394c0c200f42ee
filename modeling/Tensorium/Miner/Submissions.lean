import Tensorium.Miner.PoolMode
import Tensorium.Miner.SameHeader

/-! # The shares the pool mode submits

    What the workers find goes through the queue in order and leaves it once. Every
    request names the job the share was found under, and that job was read from a line
    of the pool. A share is lost only to a full queue or to a `send` that failed, and
    of the latter there is at most one on a connection.
-/

namespace Tensorium.Miner

open ByteCodec Quoted RingBuffer

namespace PoolMode

variable {hostHash : Bytes → UInt64 → Bytes → Bytes} {cfg : MinerConfig} {heard : Bytes → Prop}
  {s s' : PoolMode}

/-! ## From the queue to the pool -/

/-- Between `mining.subscribe` and the end of the connection. -/
def Online (s : PoolMode) : Prop := s.client ≠ .connecting ∧ s.client ≠ .stopped

instance (s : PoolMode) : Decidable s.Online := inferInstanceAs (Decidable (_ ∧ _))

/-- The next request of a connection, if no share was submitted on it yet. -/
def firstId : StratumAt → Nat
  | .subscribing => 1
  | .authorizing => 2
  | _ => 3

/-- What was pushed was popped or is in the queue, and what was popped was sent or is
    the last of its connection. -/
structure Delivers (cfg : MinerConfig) (s : PoolMode) : Prop where
  queue : s.shareQueue.Wf shareQueueMax
  fifo : s.pushed = s.popped ++ s.shareQueue.contents shareQueueMax
  order : (s.sent.map Prod.snd).Sublist s.popped
  all : s.popped.Perm (s.sent.map Prod.snd ++ s.unsent)
  lost : s.unsent.length + (if s.Online then 1 else 0) ≤ s.connections
  numbered : s.Online →
    firstId s.client ≤ s.msgId ∧ s.msgId ≤ firstId s.client + s.popped.length
  requests : ∀ bytes found, (bytes, found) ∈ s.sent → ∃ msgId, 3 ≤ msgId ∧
    msgId ≤ 2 + s.popped.length ∧ bytes = stratumSendline (submitRequest cfg msgId found.share)

theorem boot_delivers (cfg : MinerConfig) : boot.Delivers cfg where
  queue := Buffer.wf_empty (by decide) _
  fifo := by simp [boot, Buffer.empty, Buffer.contents]
  order := List.Sublist.slnil
  all := List.Perm.nil
  lost := by decide
  numbered := by simp [Online, boot]
  requests := by simp [boot]

/-- A step that leaves the shares where they are. -/
structure SameShares (s s' : PoolMode) : Prop where
  shareQueue : s'.shareQueue = s.shareQueue
  pushed : s'.pushed = s.pushed
  popped : s'.popped = s.popped
  sent : s'.sent = s.sent
  unsent : s'.unsent = s.unsent

theorem Delivers.of_same (h : s.Delivers cfg) (hsame : SameShares s s')
    (hlost : s.connections + (if s'.Online then 1 else 0)
      ≤ s'.connections + (if s.Online then 1 else 0))
    (hnumbered : s'.Online →
      firstId s'.client ≤ s'.msgId ∧ s'.msgId ≤ firstId s'.client + s.popped.length) :
    s'.Delivers cfg where
  queue := hsame.shareQueue ▸ h.queue
  fifo := by rw [hsame.pushed, hsame.popped, hsame.shareQueue, h.fifo]
  order := by rw [hsame.sent, hsame.popped]; exact h.order
  all := by rw [hsame.sent, hsame.popped, hsame.unsent]; exact h.all
  lost := by
    have hbound := h.lost
    rw [hsame.unsent]
    omega
  numbered := by rw [hsame.popped]; exact hnumbered
  requests := by rw [hsame.sent, hsame.popped]; exact h.requests

theorem Delivers.sharePush (h : s.Delivers cfg) (found : Found) :
    (s.sharePush found).Delivers cfg := by
  unfold PoolMode.sharePush
  split_ifs with hroom
  · refine ⟨h.queue.push found, ?_, h.order, h.all, h.lost, h.numbered, h.requests⟩
    show s.pushed ++ [found]
      = s.popped ++ (s.shareQueue.push shareQueueMax found).contents shareQueueMax
    rw [h.queue.contents_push, if_pos (by simpa using hroom), h.fifo, List.append_assoc]
  · exact ⟨h.queue, h.fifo, h.order, h.all, h.lost, h.numbered, h.requests⟩

/-- A share that is popped is sent, or it is the one the connection loses. -/
theorem Delivers.submitNext (h : s.Delivers cfg) (hclient : s.client = .draining) (ok : Bool) :
    (s.submitNext cfg ok).Delivers cfg := by
  have honline : s.Online := by simp [Online, hclient]
  have hlost := h.lost
  rw [if_pos honline] at hlost
  have hnumbered := h.numbered honline
  rw [hclient] at hnumbered
  have hlength : ∀ found : Found, (s.popped ++ [found]).length = s.popped.length + 1 := by simp
  unfold PoolMode.submitNext
  cases hpop : s.shareQueue.pop shareQueueMax with
  | none =>
    refine h.of_same ⟨rfl, rfl, rfl, rfl, rfl⟩ ?_ fun _ => hnumbered
    rw [if_pos honline, if_pos (by simp [Online])]
  | some popped =>
    obtain ⟨found, queue⟩ := popped
    have hcontents := Buffer.contents_pop h.queue hpop
    have hfifo : s.pushed = (s.popped ++ [found]) ++ queue.contents shareQueueMax := by
      rw [h.fifo, hcontents]
      simp
    have hrequests : ∀ bytes other, (bytes, other) ∈ s.sent → ∃ msgId, 3 ≤ msgId ∧
        msgId ≤ 2 + (s.popped ++ [found]).length ∧
        bytes = stratumSendline (submitRequest cfg msgId other.share) := by
      intro bytes other hmem
      obtain ⟨msgId, hleast, hmost, hbytes⟩ := h.requests bytes other hmem
      exact ⟨msgId, hleast, by rw [hlength]; omega, hbytes⟩
    cases ok with
    | true =>
      refine ⟨h.queue.pop hpop, hfifo, ?_, ?_, h.lost, ?_, ?_⟩
      · show ((s.sent ++ [(_, found)]).map Prod.snd).Sublist (s.popped ++ [found])
        rw [List.map_append]
        exact h.order.append (List.Sublist.refl _)
      · show (s.popped ++ [found]).Perm ((s.sent ++ [(_, found)]).map Prod.snd ++ s.unsent)
        rw [List.map_append, List.append_assoc]
        calc (s.popped ++ [found]).Perm ((s.sent.map Prod.snd ++ s.unsent) ++ [found]) :=
              h.all.append_right _
          List.Perm _ (s.sent.map Prod.snd ++ ([found] ++ s.unsent)) := by
              rw [List.append_assoc]
              exact List.perm_append_comm.append_left _
      · intro _
        show firstId s.client ≤ s.msgId + 1 ∧
          s.msgId + 1 ≤ firstId s.client + (s.popped ++ [found]).length
        rw [hlength, hclient]
        omega
      · intro bytes other hmem
        rcases List.mem_append.mp hmem with hold | hnew
        · exact hrequests bytes other hold
        · rw [List.mem_singleton] at hnew
          obtain ⟨rfl, rfl⟩ := Prod.mk.inj hnew
          refine ⟨s.msgId, hnumbered.1, ?_, rfl⟩
          have hmost : s.msgId ≤ 3 + s.popped.length := hnumbered.2
          show s.msgId ≤ 2 + (s.popped ++ [other]).length
          rw [hlength]
          omega
    | false =>
      have hall : (s.popped ++ [found]).Perm (s.sent.map Prod.snd ++ (s.unsent ++ [found])) := by
        rw [← List.append_assoc]
        exact h.all.append_right _
      have horder : (s.sent.map Prod.snd).Sublist (s.popped ++ [found]) :=
        h.order.trans (List.sublist_append_left _ _)
      unfold reconnect
      simp only [Bool.false_eq_true, if_false]
      split_ifs
      · refine ⟨h.queue.pop hpop, hfifo, horder, hall, ?_, by simp [Online], hrequests⟩
        simpa [Online] using hlost
      · refine ⟨h.queue.pop hpop, hfifo, horder, hall, ?_, by simp [Online], hrequests⟩
        simpa [Online] using hlost

/-- Only what a worker pushed is sent. -/
theorem Delivers.sent_pushed (h : s.Delivers cfg) {bytes : Bytes} {found : Found}
    (hsent : (bytes, found) ∈ s.sent) : found ∈ s.pushed := by
  rw [h.fifo]
  apply List.mem_append_left
  exact h.order.subset (List.mem_map_of_mem hsent)

/-- A line is a new job, a new difficulty, or of no effect. -/
theorem receive_cases (s : PoolMode) (line : Bytes) :
    s.receive line = s ∨ (∃ d, s.receive line = { s with effectiveDiff := d }) ∨
      (methodOf line = asBytes "mining.notify" ∧
        ∃ job, parseNotify line .cleared s.effectiveDiff = some job ∧
          s.receive line = s.jobPublish line job) := by
  unfold receive
  dsimp only
  split_ifs with hnotify hdifficulty
  · cases hparse : parseNotify line .cleared s.effectiveDiff with
    | none => exact Or.inl rfl
    | some job => exact Or.inr (Or.inr ⟨hnotify, job, rfl, rfl⟩)
  · cases difficultyOf line with
    | none => exact Or.inl rfl
    | some d =>
      dsimp only
      split_ifs
      · exact Or.inr (Or.inl ⟨d, rfl⟩)
      · exact Or.inl rfl
  · exact Or.inl rfl

theorem sameShares_receive (s : PoolMode) (line : Bytes) :
    SameShares s (s.receive line) ∧ (s.receive line).connections = s.connections ∧
      (s.receive line).msgId = s.msgId := by
  obtain hsame | ⟨d, hsame⟩ | ⟨_, job, _, hsame⟩ := s.receive_cases line
  · rw [hsame]
    exact ⟨⟨rfl, rfl, rfl, rfl, rfl⟩, rfl, rfl⟩
  · rw [hsame]
    exact ⟨⟨rfl, rfl, rfl, rfl, rfl⟩, rfl, rfl⟩
  · rw [hsame]
    exact ⟨⟨rfl, rfl, rfl, rfl, rfl⟩, rfl, rfl⟩

theorem Delivers.reconnect (h : s.Delivers cfg) : s.reconnect.Delivers cfg := by
  unfold PoolMode.reconnect
  split_ifs
  · refine h.of_same ⟨rfl, rfl, rfl, rfl, rfl⟩ ?_ (by simp [Online])
    simp [Online]
  · refine h.of_same ⟨rfl, rfl, rfl, rfl, rfl⟩ ?_ (by simp [Online])
    simp [Online]

/-- A step of the client that moves it along or off the line. -/
theorem Delivers.move (h : s.Delivers cfg) (hsame : SameShares s s')
    (hconnections : s'.connections = s.connections)
    (honline : s'.Online → s.Online ∧
      ((firstId s.client ≤ s.msgId ∧ s.msgId ≤ firstId s.client + s.popped.length) →
        firstId s'.client ≤ s'.msgId ∧ s'.msgId ≤ firstId s'.client + s.popped.length)) :
    s'.Delivers cfg := by
  refine h.of_same hsame ?_ fun hon => (honline hon).2 (h.numbered (honline hon).1)
  rw [hconnections]
  by_cases hon : s'.Online
  · rw [if_pos hon, if_pos (honline hon).1]
  · rw [if_neg hon]
    omega

theorem Delivers.clientStep (h : s.Delivers cfg) (event : Event) :
    (s.clientStep cfg event).Delivers cfg := by
  unfold PoolMode.clientStep
  split
  · split
    · split_ifs
      · refine h.move ⟨rfl, rfl, rfl, rfl, rfl⟩ rfl ?_
        simp [Online]
      -- A new connection makes room for one more loss.
      · refine h.of_same ⟨rfl, rfl, rfl, rfl, rfl⟩ ?_ (by simp [firstId])
        show s.connections + _ ≤ (s.connections + 1) + _
        split_ifs <;> omega
      · exact h.move ⟨rfl, rfl, rfl, rfl, rfl⟩ rfl fun hon => ⟨hon, id⟩
    · exact h
  · split
    · rename_i hclient
      refine h.move ⟨rfl, rfl, rfl, rfl, rfl⟩ rfl ?_
      split_ifs
      · simp [Online, hclient, firstId]
        omega
      · simp [Online]
    · rename_i hclient
      split_ifs
      · refine h.move ⟨rfl, rfl, rfl, rfl, rfl⟩ rfl ?_
        simp [Online, hclient, firstId]
        omega
      · refine h.move ⟨rfl, rfl, rfl, rfl, rfl⟩ rfl ?_
        simp [Online]
    · exact h
  · split
    · rename_i hclient
      refine h.move ⟨rfl, rfl, rfl, rfl, rfl⟩ rfl ?_
      split_ifs
      · simp [Online, hclient, firstId]
      · simp [Online]
    · exact h
  · split
    · rename_i hclient
      exact h.submitNext hclient _
    · exact h
  · split
    · rename_i hclient
      split
      · exact h.reconnect
      · rename_i line _
        obtain ⟨hsame, hconnections, hmsgId⟩ := s.sameShares_receive line
        refine h.move ?_ hconnections ?_
        · exact ⟨hsame.shareQueue, hsame.pushed, hsame.popped, hsame.sent, hsame.unsent⟩
        · simp [Online, hclient, firstId, hmsgId]
    · exact h
  · exact h

theorem Delivers.step (h : s.Delivers cfg) (event : Event) :
    (s.step hostHash cfg event).Delivers cfg := by
  have hworker : ∀ i worker, (s.setWorker i worker).Delivers cfg := fun _ _ =>
    h.move ⟨rfl, rfl, rfl, rfl, rfl⟩ rfl fun hon => ⟨hon, id⟩
  cases event with
  | shutdown => exact h.move ⟨rfl, rfl, rfl, rfl, rfl⟩ rfl fun hon => ⟨hon, id⟩
  | takeJob i =>
    simp only [PoolMode.step, workerStep]
    split
    · split_ifs
      · exact hworker i _
      · exact h
    · exact h
  | readGeneration i =>
    simp only [PoolMode.step, workerStep]
    split
    · exact hworker i _
    · exact h
  | pickUp i =>
    simp only [PoolMode.step, workerStep]
    split
    · split_ifs
      · exact hworker i _
      · exact h
    · exact h
  | find i nonce =>
    simp only [PoolMode.step, workerStep]
    split
    · split_ifs
      · exact h
      · split
        · exact h
        · exact h.sharePush _
    · exact h
  | connect ok => exact h.clientStep (.connect ok)
  | greet ok => exact h.clientStep (.greet ok)
  | loop => exact h.clientStep .loop
  | submit ok => exact h.clientStep (.submit ok)
  | read arrived => exact h.clientStep (.read arrived)

/-- A share gets lost before the queue only when the queue is full. -/
theorem dropped_step (h : s.Delivers cfg) (event : Event)
    (hdropped : (s.step hostHash cfg event).dropped ≠ s.dropped) :
    (s.shareQueue.contents shareQueueMax).length = shareQueueMax := by
  have hpush : ∀ found, (s.sharePush found).dropped ≠ s.dropped →
      s.shareQueue.count = shareQueueMax := by
    intro found
    unfold sharePush
    split_ifs with hroom
    · simp
    · intro _
      have hcount := h.queue.count_le
      omega
  rw [Buffer.length_contents]
  revert hdropped
  cases event with
  | shutdown => simp [PoolMode.step]
  | takeJob i =>
    simp only [PoolMode.step, workerStep]
    split
    · split_ifs <;> simp [setWorker]
    · simp
  | readGeneration i =>
    simp only [PoolMode.step, workerStep]
    split <;> simp [setWorker]
  | pickUp i =>
    simp only [PoolMode.step, workerStep]
    split
    · split_ifs <;> simp [setWorker]
    · simp
  | find i nonce =>
    simp only [PoolMode.step, workerStep]
    split
    · split_ifs
      · simp
      · split
        · simp
        · exact hpush _
    · simp
  | connect ok =>
    simp only [PoolMode.step, clientStep]
    split
    · split_ifs <;> simp
    · simp
  | greet ok =>
    simp only [PoolMode.step, clientStep]
    split
    · simp
    · split_ifs <;> simp
    · simp
  | loop =>
    simp only [PoolMode.step, clientStep]
    split <;> simp
  | submit ok =>
    simp only [PoolMode.step, clientStep]
    split
    · unfold submitNext
      split
      · simp
      · dsimp only
        split_ifs
        · simp
        · unfold reconnect
          split_ifs <;> simp
    · simp
  | read arrived =>
    simp only [PoolMode.step, clientStep]
    split
    · split
      · unfold reconnect
        split_ifs <;> simp
      · rename_i line _
        obtain hsame | ⟨d, hsame⟩ | ⟨_, job, _, hsame⟩ := s.receive_cases line
        · simp [hsame]
        · simp [hsame]
        · simp [hsame, jobPublish]
    · simp

/-! ## From the pool to the workers -/

/-- The job came in a line of the pool. -/
def Published (s : PoolMode) (job : JobDesc) : Prop := ∃ line, (line, job) ∈ s.published

/-- The job a worker has. -/
def jobOf : Worker → Option JobDesc
  | .waiting => none
  | .holding job => some job
  | .mining job _ => some job

/-- What `heard` says of the lines that were read is so for every job in use, and every
    share was confirmed under the job it is kept with. -/
structure Informed (hostHash : Bytes → UInt64 → Bytes → Bytes) (heard : Bytes → Prop)
    (s : PoolMode) : Prop where
  published : ∀ line job, (line, job) ∈ s.published →
    heard line ∧ methodOf line = asBytes "mining.notify" ∧
      ∃ diff, parseNotify line .cleared diff = some job
  current : (s.currentJob = .cleared ∧ s.published = []) ∨ s.Published s.currentJob
  workers : ∀ i job, jobOf (s.workers i) = some job → s.Published job
  found : ∀ found ∈ s.pushed, s.Published found.job ∧
    shareOf hostHash found.job found.share.nonce = some found.share

theorem boot_informed (hostHash : Bytes → UInt64 → Bytes → Bytes) (heard : Bytes → Prop) :
    boot.Informed hostHash heard where
  published := by simp [boot]
  current := Or.inl ⟨rfl, rfl⟩
  workers := by simp [boot, jobOf]
  found := by simp [boot]

/-- A step that leaves the jobs where they are. -/
structure SameJobs (s s' : PoolMode) : Prop where
  currentJob : s'.currentJob = s.currentJob
  published : s'.published = s.published
  workers : s'.workers = s.workers
  pushed : s'.pushed = s.pushed

theorem Informed.of_same (h : s.Informed hostHash heard) (hsame : SameJobs s s') :
    s'.Informed hostHash heard where
  published := by rw [hsame.published]; exact h.published
  current := by
    unfold Published
    rw [hsame.currentJob, hsame.published]
    exact h.current
  workers := by
    unfold Published
    rw [hsame.workers, hsame.published]
    exact h.workers
  found := by
    unfold Published
    rw [hsame.pushed, hsame.published]
    exact h.found

theorem Published.append {job : JobDesc} (h : s.Published job) (line : Bytes) (next : JobDesc) :
    (s.jobPublish line next).Published job := by
  obtain ⟨earlier, hmem⟩ := h
  exact ⟨earlier, List.mem_append_left _ hmem⟩

theorem Informed.jobPublish (h : s.Informed hostHash heard) {line : Bytes} {job : JobDesc}
    (hheard : heard line) (hmethod : methodOf line = asBytes "mining.notify") {diff : UInt64}
    (hparse : parseNotify line .cleared diff = some job) :
    (s.jobPublish line job).Informed hostHash heard where
  published := by
    intro line' job' hmem
    rcases List.mem_append.mp hmem with hold | hnew
    · exact h.published line' job' hold
    · rw [List.mem_singleton] at hnew
      obtain ⟨rfl, rfl⟩ := Prod.mk.inj hnew
      exact ⟨hheard, hmethod, diff, hparse⟩
  current := Or.inr ⟨line, List.mem_append_right _ (List.mem_singleton_self _)⟩
  workers := fun i job' hjob => (h.workers i job' hjob).append line job
  found := fun found hfound =>
    ⟨(h.found found hfound).1.append line job, (h.found found hfound).2⟩

theorem Informed.setWorker (h : s.Informed hostHash heard) (i : Nat) {worker : Worker}
    (hworker : ∀ job, jobOf worker = some job → s.Published job) :
    (s.setWorker i worker).Informed hostHash heard where
  published := h.published
  current := h.current
  workers := by
    intro k job hjob
    have hjob : jobOf (Function.update s.workers i worker k) = some job := hjob
    by_cases hk : k = i
    · rw [hk, Function.update_self] at hjob
      exact hworker job hjob
    · rw [Function.update_of_ne hk] at hjob
      exact h.workers k job hjob
  found := h.found

/-- A share is confirmed before it is pushed. -/
theorem Informed.find (h : s.Informed hostHash heard) {i lastGen : Nat} {job : JobDesc}
    (hworker : s.workers i = .mining job lastGen) {nonce : UInt64} {share : ShareResult}
    (hshare : shareOf hostHash job nonce = some share) :
    (s.sharePush ⟨share, job⟩).Informed hostHash heard := by
  have hpublished : s.Published job := h.workers i job (by rw [hworker]; rfl)
  unfold sharePush
  split_ifs
  · refine ⟨h.published, h.current, h.workers, ?_⟩
    intro found hmem
    rcases List.mem_append.mp hmem with hold | hnew
    · exact h.found found hold
    · rw [List.mem_singleton] at hnew
      rw [hnew]
      refine ⟨hpublished, ?_⟩
      rw [(shareOf_spec hshare).2]
      exact hshare
  · exact ⟨h.published, h.current, h.workers, h.found⟩

theorem Informed.clientStep (h : s.Informed hostHash heard) (cfg : MinerConfig) (event : Event)
    (hheard : ∀ arrived line, event = .read arrived → stratumReadline arrived = some line →
      heard line) : (s.clientStep cfg event).Informed hostHash heard := by
  have hreconnect : ∀ s' : PoolMode, SameJobs s s' → s'.reconnect.Informed hostHash heard := by
    intro s' hsame
    unfold reconnect
    split_ifs
    · exact h.of_same ⟨hsame.currentJob, hsame.published, hsame.workers, hsame.pushed⟩
    · exact h.of_same ⟨hsame.currentJob, hsame.published, hsame.workers, hsame.pushed⟩
  unfold PoolMode.clientStep
  split
  · split
    · split_ifs <;> exact h.of_same ⟨rfl, rfl, rfl, rfl⟩
    · exact h
  · split
    · exact h.of_same ⟨rfl, rfl, rfl, rfl⟩
    · split_ifs <;> exact h.of_same ⟨rfl, rfl, rfl, rfl⟩
    · exact h
  · split
    · exact h.of_same ⟨rfl, rfl, rfl, rfl⟩
    · exact h
  · split
    · unfold submitNext
      split
      · exact h.of_same ⟨rfl, rfl, rfl, rfl⟩
      · dsimp only
        split_ifs
        · exact h.of_same ⟨rfl, rfl, rfl, rfl⟩
        · exact hreconnect _ ⟨rfl, rfl, rfl, rfl⟩
    · exact h
  · split
    · split
      · exact hreconnect s ⟨rfl, rfl, rfl, rfl⟩
      · rename_i line hline
        obtain hsame | ⟨d, hsame⟩ | ⟨hmethod, job, hparse, hsame⟩ := s.receive_cases line
        · rw [hsame]
          exact h.of_same ⟨rfl, rfl, rfl, rfl⟩
        · rw [hsame]
          exact h.of_same ⟨rfl, rfl, rfl, rfl⟩
        · rw [hsame]
          have hnext := h.jobPublish (hheard _ line rfl hline) hmethod hparse
          exact hnext.of_same ⟨rfl, rfl, rfl, rfl⟩
    · exact h
  · exact h

theorem Informed.step (h : s.Informed hostHash heard) (event : Event)
    (hheard : ∀ arrived line, event = .read arrived → stratumReadline arrived = some line →
      heard line) : (s.step hostHash cfg event).Informed hostHash heard := by
  cases event with
  | shutdown => exact h.of_same ⟨rfl, rfl, rfl, rfl⟩
  | takeJob i =>
    simp only [PoolMode.step, workerStep]
    split
    · split_ifs with hvalid
      · apply h.setWorker i
        intro job hjob
        obtain ⟨hcleared, _⟩ | hpublished := h.current
        · rw [hcleared] at hvalid
          simp [JobDesc.cleared] at hvalid
        · rwa [← Option.some.inj hjob]
      · exact h
    · exact h
  | readGeneration i =>
    simp only [PoolMode.step, workerStep]
    split
    · rename_i job hworker
      apply h.setWorker i
      intro job' hjob
      exact h.workers i job' (by rw [hworker]; exact hjob)
    · exact h
  | pickUp i =>
    simp only [PoolMode.step, workerStep]
    split
    · rename_i job lastGen hworker
      split_ifs
      · apply h.setWorker i
        intro job' hjob
        -- The worker has a job, so one was published.
        obtain ⟨line, hmem⟩ := h.workers i job (by rw [hworker]; rfl)
        obtain ⟨_, hnone⟩ | hpublished := h.current
        · simp [hnone] at hmem
        · rwa [← Option.some.inj hjob]
      · exact h
    · exact h
  | find i nonce =>
    simp only [PoolMode.step, workerStep]
    split
    · rename_i job lastGen hworker
      split_ifs
      · exact h
      · split
        · exact h
        · rename_i share hshare
          exact h.find hworker hshare
    · exact h
  | connect ok => exact h.clientStep cfg (.connect ok) hheard
  | greet ok => exact h.clientStep cfg (.greet ok) hheard
  | loop => exact h.clientStep cfg .loop hheard
  | submit ok => exact h.clientStep cfg (.submit ok) hheard
  | read arrived => exact h.clientStep cfg (.read arrived) hheard

/-! ## Whole runs -/

/-- The lines the client reads in a run. -/
def Received (events : List Event) (line : Bytes) : Prop :=
  ∃ arrived, Event.read arrived ∈ events ∧ stratumReadline arrived = some line

theorem run_delivers (hostHash : Bytes → UInt64 → Bytes → Bytes) (cfg : MinerConfig)
    (events : List Event) : (events.foldl (step hostHash cfg) boot).Delivers cfg :=
  GuardedRun.foldl_invariant (fun s : PoolMode => s.Delivers cfg) (boot_delivers cfg)
    fun _ event h => h.step event

theorem run_informed (hostHash : Bytes → UInt64 → Bytes → Bytes) (cfg : MinerConfig)
    (events : List Event) :
    (events.foldl (step hostHash cfg) boot).Informed hostHash (Received events) := by
  have halong : GuardedRun.Along (step hostHash cfg) (fun _ event => event ∈ events) boot events :=
    GuardedRun.along_iff.mpr fun a event b hsplit => by simp [hsplit]
  refine halong.invariant (fun s => s.Informed hostHash (Received events))
    (boot_informed hostHash _) ?_
  intro s event h hmem
  apply h.step
  intro arrived line hread hline
  exact ⟨arrived, hread ▸ hmem, hline⟩

/-- **Shares reach the pool in order and once.** However the workers, the client, the
    pool and the network interleave, what the workers pushed is what the client popped
    followed by what is in the ring; a popped share was sent, or it is the one share of
    its connection whose `send` failed; what was sent is the request for a share that
    the host confirmed under the job it names, and that job was read from a
    `mining.notify` line of the pool. A worker finds no room only with 256 shares
    waiting. -/
theorem shares_delivered (hostHash : Bytes → UInt64 → Bytes → Bytes) (cfg : MinerConfig)
    (events : List Event) :
    let s := events.foldl (step hostHash cfg) boot
    (s.shareQueue.head < shareQueueMax ∧ s.shareQueue.tail < shareQueueMax ∧
        s.shareQueue.count ≤ shareQueueMax) ∧
      s.pushed = s.popped ++ s.shareQueue.contents shareQueueMax ∧
      (s.sent.map Prod.snd).Sublist s.popped ∧
      s.popped.Perm (s.sent.map Prod.snd ++ s.unsent) ∧
      s.unsent.length ≤ s.connections ∧
      (∀ bytes found, (bytes, found) ∈ s.sent →
        (∃ msgId, 3 ≤ msgId ∧ msgId ≤ 2 + s.popped.length ∧
            bytes = stratumSendline (submitRequest cfg msgId found.share)) ∧
          found.share.jobId = found.job.jobId.take (jobIdLen - 1) ∧
          shareOf hostHash found.job found.share.nonce = some found.share ∧
          ∃ line, Received events line ∧ methodOf line = asBytes "mining.notify" ∧
            ∃ diff, parseNotify line .cleared diff = some found.job) ∧
      ∀ event, (s.step hostHash cfg event).dropped ≠ s.dropped →
        (s.shareQueue.contents shareQueueMax).length = shareQueueMax := by
  intro s
  have hdelivers : s.Delivers cfg := run_delivers hostHash cfg events
  have hinformed : s.Informed hostHash (Received events) := run_informed hostHash cfg events
  refine ⟨⟨hdelivers.queue.head_lt, hdelivers.queue.tail_lt, hdelivers.queue.count_le⟩,
    hdelivers.fifo, hdelivers.order, hdelivers.all, ?_, ?_,
    fun event => dropped_step hdelivers event⟩
  · have hlost := hdelivers.lost
    omega
  · intro bytes found hsent
    have hpushed := hdelivers.sent_pushed hsent
    obtain ⟨⟨line, hline⟩, hconfirmed⟩ := hinformed.found found hpushed
    exact ⟨hdelivers.requests bytes found hsent, (shareOf_spec hconfirmed).1, hconfirmed,
      line, hinformed.published line found.job hline⟩

end PoolMode

end Tensorium.Miner
