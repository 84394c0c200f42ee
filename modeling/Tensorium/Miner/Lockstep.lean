import Tensorium.Lib.GuardedRun
import Tensorium.Miner.Fields
import Tensorium.Miner.PowHash
import Tensorium.Miner.Solo

/-! # Job, template and shares in lockstep

    The client tells stale shares from fresh ones by the job id, which is the
    height. As long as no template is published that has the height of a job still
    in use and another header, every block the miner posts has the header its nonce
    was found on; a second template of the same height can make it post another.
-/

namespace Tensorium.Miner

open ByteCodec GuardedRun

/-- Two jobs with the same header under every nonce. -/
def SameHeader (j k : JobDesc) : Prop := ∀ nonce, buildHeader j nonce = buildHeader k nonce

/-- The id of a job of the solo miner tells its height. -/
theorem soloJobId_injective : Function.Injective soloJobId := by
  have hwhole : ∀ height : UInt64, soloJobId height
      = asBytes "solo-" ++ asBytes (toString height.toNat) := by
    intro height
    have hlen := length_toString_le height.toNat_lt
    have htag : (asBytes "solo-").length = 5 := by decide
    apply List.take_of_length_le
    rw [List.length_append, htag, jobIdLen]
    omega
  intro a b h
  rw [hwhole, hwhole] at h
  have hdigits := List.append_cancel_left h
  have hvalue := congrArg decimalValue hdigits
  rw [decimalValue_toString, decimalValue_toString] at hvalue
  exact UInt64.toNat_inj.mp hvalue

/-- What the miner can copy of a header: words that are words, and a chain id that
    is written as it is and fits its buffer. -/
structure Copyable (header : BlockHeader) : Prop where
  height : header.height < 2 ^ 64
  timestamp : header.timestampSeconds < 2 ^ 64
  chainId : ∀ b ∈ asBytes header.chainId, JsonValue.escapeByte b = [b]
  chainId_length : (asBytes header.chainId).length ≤ 63

theorem copiedChainId {header : BlockHeader} (h : Copyable header) :
    (((asBytes header.chainId).flatMap JsonValue.escapeByte).takeWhile
      fun c => c ≠ 0x22).take (chainIdLen - 1) = asBytes header.chainId := by
  have hquote : ∀ b ∈ asBytes header.chainId, b ≠ 0x22 := by
    intro b hb heq
    have hescape := h.chainId b hb
    rw [heq] at hescape
    revert hescape
    decide
  have htake : (asBytes header.chainId).takeWhile (fun c => c ≠ 0x22) = asBytes header.chainId := by
    rw [List.takeWhile_eq_self_iff]
    intro b hb
    simpa using hquote b hb
  rw [List.flatMap_congr h.chainId, List.flatMap_singleton', htake]
  exact List.take_of_length_le h.chainId_length

theorem le32Bytes_eq (n : Nat) (v : UInt32) : le32Bytes n v = leBytes n v.toNat := by
  induction n generalizing v with
  | zero => rfl
  | succ n ih =>
    have hshift : (v >>> 8).toNat = v.toNat / 256 := by
      rw [UInt32.toNat_shiftRight]
      exact Nat.shiftRight_eq_div_pow _ 8
    rw [le32Bytes, leBytes, ih, hshift]
    rfl

/-- The header built for the job of a template is the template's own, with the nonce
    put in, unless it is not built at all. -/
theorem buildHeader_fetchTemplate {fetched : Fetched}
    (h : Copyable fetched.response.template.header) (shareBits : UInt8) (nonce : UInt64)
    (hbuilt : buildHeader { (fetchTemplate fetched).1 with shareBits } nonce ≠ []) :
    buildHeader { (fetchTemplate fetched).1 with shareBits } nonce
      = (fetched.response.template.withNonce nonce).header.preimage := by
  have hheight := UInt64.toNat_ofNat_of_lt' h.height
  have htimestamp := UInt64.toNat_ofNat_of_lt' h.timestamp
  have hversion : fetched.response.template.header.version.toUInt64.toUInt32
      = fetched.response.template.header.version := by
    simp
  unfold buildHeader fetchTemplate at hbuilt ⊢
  dsimp only at hbuilt ⊢
  rw [copiedChainId h] at hbuilt ⊢
  split_ifs at hbuilt ⊢
  · exact absurd rfl hbuilt
  · exact absurd rfl hbuilt
  · rw [le64Bytes_eq, le64Bytes_eq, le64Bytes_eq, le32Bytes_eq, hheight, htimestamp, hversion]
    rfl

/-! ## Jobs in use -/

/-- The job a worker has. -/
def Worker.job? : Worker → Option JobDesc
  | .waiting => none
  | .holding job => some job
  | .mining job _ => some job

namespace Solo

variable {hostHash : Bytes → UInt64 → Bytes → Bytes} {s : Solo}

/-- A job from which a share is in the queue, or on which a worker may find one. -/
def InUse (s : Solo) (job : JobDesc) : Prop :=
  (∃ found ∈ s.shareQueue, found.job = job) ∨ ∃ i, (s.workers i).job? = some job

/-- A share as a worker pushes it: with the id of its job, on a header that was built. -/
def Confirmed (found : Found) : Prop :=
  found.share.jobId = found.job.jobId ∧ buildHeader found.job found.share.nonce ≠ []

/-- The header posted is the header of the job under which the nonce was found. -/
def PostedOnOwnHeader (s : Solo) : Prop :=
  ∀ block found, (block, found) ∈ s.posted →
    block.header.preimage = buildHeader found.job found.share.nonce

/-- A step that publishes a job meets the condition if the miner can copy the header of
    its template, and no job in use has its height and another header. -/
def PublishesSafely (hostHash : Bytes → UInt64 → Bytes → Bytes) (s : Solo) (event : Event) :
    Prop :=
  (s.step hostHash event).jobGeneration ≠ s.jobGeneration →
    (∀ block ∈ (s.step hostHash event).template, Copyable block.header) ∧
    ∀ job, s.InUse job → job.height = (s.step hostHash event).job.height →
      SameHeader job (s.step hostHash event).job

/-- What keeps a nonce with the template it was found on. -/
structure Lockstep (s : Solo) : Prop where
  template : ∀ block ∈ s.template, ∀ nonce, buildHeader s.job nonce ≠ [] →
    buildHeader s.job nonce = (block.withNonce nonce).header.preimage
  current : s.currentJob.valid = true → s.currentJob = s.job
  titled : s.currentJob.valid = true → s.job.jobId = soloJobId s.job.height
  inUse : ∀ job, s.InUse job → s.currentJob.valid = true ∧ job.jobId = soloJobId job.height ∧
    (job.height = s.job.height → SameHeader job s.job)
  queued : ∀ found ∈ s.shareQueue, Confirmed found
  submitting : ∀ found, s.client = .submitting found →
    Confirmed found ∧ SameHeader found.job s.job
  posted : s.PostedOnOwnHeader

/-- The client thread moves on without touching anything else. -/
theorem Lockstep.moveClient (h : Lockstep s) (client : ClientAt)
    (hclient : ∀ found, client ≠ .submitting found) : Lockstep { s with client } where
  template := h.template
  current := h.current
  titled := h.titled
  inUse := h.inUse
  queued := h.queued
  submitting := fun found heq => absurd heq (hclient found)
  posted := h.posted

theorem again_ne_submitting (s : Solo) (found : Found) : s.again ≠ .submitting found := by
  unfold again
  split_ifs <;> simp

/-! ## The client thread -/

/-- A safe publication puts job and template in step again. -/
theorem Lockstep.install (h : Lockstep s) {fetched : Fetched}
    (hcopy : ∀ block ∈ (s.install fetched).template, Copyable block.header)
    (hinUse : ∀ job, s.InUse job → job.height = (s.install fetched).job.height →
      SameHeader job (s.install fetched).job)
    (client : ClientAt) (hclient : ∀ found, client ≠ .submitting found) :
    Lockstep { s.install fetched with client } where
  template := by
    intro block hblock nonce hbuilt
    have hblock : block ∈ (if fetched.cached then some fetched.response.template else none) :=
      hblock
    split_ifs at hblock with hcached
    · have hheader : Copyable fetched.response.template.header := by
        apply hcopy
        show fetched.response.template
          ∈ (if fetched.cached then some fetched.response.template else none)
        rw [if_pos hcached]
        exact rfl
      rw [← Option.some.inj hblock]
      exact buildHeader_fetchTemplate hheader _ nonce hbuilt
    · cases hblock
  current := fun _ => rfl
  titled := fun _ => rfl
  inUse := fun job hjob => ⟨rfl, (h.inUse job hjob).2.1, hinUse job hjob⟩
  queued := h.queued
  submitting := fun found heq => absurd heq (hclient found)
  posted := h.posted

/-- A share leaves the queue for the client only with the job it was found on. -/
theorem Lockstep.popShare (h : Lockstep s) : Lockstep s.popShare := by
  unfold Solo.popShare
  split
  · split_ifs
    · exact h
    · exact h.moveClient .checking (by simp)
  · rename_i found queue hqueue
    have hmem : found ∈ s.shareQueue := hqueue ▸ List.mem_cons_self
    have hrest : ∀ other ∈ queue, other ∈ s.shareQueue := fun other hother =>
      hqueue ▸ List.mem_cons_of_mem found hother
    have hpopped : ∀ client, (∀ other, client = .submitting other →
        Confirmed other ∧ SameHeader other.job s.job) →
        Lockstep { s with shareQueue := queue, client } := by
      intro client hclient
      refine ⟨h.template, h.current, h.titled, ?_, fun other hother => h.queued other
        (hrest other hother), hclient, h.posted⟩
      rintro job (⟨other, hother, rfl⟩ | hworker)
      · exact h.inUse _ (Or.inl ⟨other, hrest other hother, rfl⟩)
      · exact h.inUse _ (Or.inr hworker)
    split_ifs with hstale hblock
    · exact hpopped _ fun other heq => absurd heq (again_ne_submitting s other)
    · apply hpopped
      intro other heq
      obtain rfl := ClientAt.submitting.inj heq
      have hconfirmed := h.queued found hmem
      have hused := h.inUse _ (Or.inl ⟨found, hmem, rfl⟩)
      -- The same id, so the same height, so the same header.
      have hid : found.job.jobId = s.job.jobId :=
        hconfirmed.1.symm.trans (not_not.mp hstale)
      rw [hused.2.1, h.titled hused.1] at hid
      exact ⟨hconfirmed, hused.2.2 (soloJobId_injective hid)⟩
    · exact hpopped _ fun other heq => by cases heq

theorem Lockstep.submit (h : Lockstep s) (sent : Bool) {found : Found}
    (hclient : s.client = .submitting found) (tries : Nat) :
    Lockstep { s with posted := s.submitBlock sent found, client := .refreshing tries } where
  template := h.template
  current := h.current
  titled := h.titled
  inUse := h.inUse
  queued := h.queued
  submitting := fun other heq => by cases heq
  posted := by
    obtain ⟨hconfirmed, hsame⟩ := h.submitting found hclient
    intro block other hmem
    have hmem : (block, other) ∈ s.submitBlock sent found := hmem
    unfold submitBlock at hmem
    split at hmem
    · exact h.posted block other hmem
    · rename_i cached htemplate
      split_ifs at hmem
      · rcases List.mem_append.mp hmem with hold | hnew
        · exact h.posted block other hold
        · rw [List.mem_singleton] at hnew
          obtain ⟨rfl, rfl⟩ := Prod.mk.inj hnew
          have hbuilt := hconfirmed.2
          rw [hsame] at hbuilt ⊢
          exact (h.template cached htemplate _ hbuilt).symm
      · exact h.posted block other hmem

/-! ## The workers -/

theorem Lockstep.setWorker (h : Lockstep s) (i : Nat) (worker : Worker)
    (hworker : ∀ job, worker.job? = some job → s.currentJob.valid = true ∧
      job.jobId = soloJobId job.height ∧ (job.height = s.job.height → SameHeader job s.job)) :
    Lockstep (s.setWorker i worker) where
  template := h.template
  current := h.current
  titled := h.titled
  inUse := by
    rintro job (hqueue | ⟨k, hk⟩)
    · exact h.inUse job (Or.inl hqueue)
    · have hk : (if k = i then worker else s.workers k).job? = some job := hk
      split_ifs at hk
      · exact hworker job hk
      · exact h.inUse job (Or.inr ⟨k, hk⟩)
  queued := h.queued
  submitting := h.submitting
  posted := h.posted

/-- The current job is fit to be mined. -/
theorem Lockstep.currentJob (h : Lockstep s) (hvalid : s.currentJob.valid = true) :
    s.currentJob.jobId = soloJobId s.currentJob.height ∧
      (s.currentJob.height = s.job.height → SameHeader s.currentJob s.job) := by
  rw [h.current hvalid]
  exact ⟨h.titled hvalid, fun _ _ => rfl⟩

theorem Lockstep.sharePush (h : Lockstep s) {i : Nat} {job : JobDesc}
    (hworker : (s.workers i).job? = some job) {nonce : UInt64} {share : ShareResult}
    (hbuilt : buildHeader job nonce ≠ []) (hshare : shareOf hostHash job nonce = some share) :
    Lockstep (s.sharePush ⟨share, job⟩) := by
  have hused := h.inUse job (Or.inr ⟨i, hworker⟩)
  have hspec := shareOf_spec hshare
  have hshort : job.jobId.take (jobIdLen - 1) = job.jobId := by
    rw [hused.2.1]
    exact List.take_of_length_le (List.length_take_le _ _)
  unfold Solo.sharePush
  split_ifs
  · refine ⟨h.template, h.current, h.titled, ?_, ?_, h.submitting, h.posted⟩
    · rintro other (⟨found, hfound, rfl⟩ | hother)
      · rcases List.mem_append.mp hfound with hold | hnew
        · exact h.inUse _ (Or.inl ⟨found, hold, rfl⟩)
        · rw [List.mem_singleton] at hnew
          rw [hnew]
          exact hused
      · exact h.inUse other (Or.inr hother)
    · intro found hfound
      rcases List.mem_append.mp hfound with hold | hnew
      · exact h.queued found hold
      · rw [List.mem_singleton] at hnew
        rw [hnew]
        exact ⟨hspec.1.trans hshort, by rwa [hspec.2]⟩
  · exact h

/-! ## Every step -/

attribute [local simp] Solo.step Solo.clientStep Solo.workerStep

theorem Lockstep.publish (h : Lockstep s) {event : Event}
    (hsafe : PublishesSafely hostHash s event) (fetched : Fetched) (client : ClientAt)
    (hstep : s.step hostHash event = { s.install fetched with client })
    (hclient : ∀ found, client ≠ .submitting found) : Lockstep (s.step hostHash event) := by
  unfold PublishesSafely at hsafe
  rw [hstep] at hsafe ⊢
  have hchanged : s.jobGeneration + 1 ≠ s.jobGeneration := by omega
  have hpublished := hsafe hchanged
  exact h.install hpublished.1 hpublished.2 client hclient

theorem Lockstep.firstFetch (h : Lockstep s) {reply : Option Fetched}
    (hsafe : PublishesSafely hostHash s (.firstFetch reply)) :
    Lockstep (s.step hostHash (.firstFetch reply)) := by
  cases hclient : s.client with
  | starting =>
    by_cases hrunning : s.running = true
    · cases reply with
      | none =>
        simp only [Solo.step, clientStep, hclient]
        rw [if_pos hrunning]
        exact h
      | some fetched =>
        apply h.publish hsafe fetched .popping
        · simp only [Solo.step, clientStep, hclient]
          rw [if_pos hrunning]
        · simp
    · have hstop := h.moveClient .stopped (by simp)
      cases reply with
      | none =>
        simp only [Solo.step, clientStep, hclient]
        rwa [if_neg hrunning]
      | some fetched =>
        simp only [Solo.step, clientStep, hclient]
        rwa [if_neg hrunning]
  | popping => simpa only [Solo.step, clientStep, hclient] using h
  | submitting found => simpa only [Solo.step, clientStep, hclient] using h
  | refreshing tries => simpa only [Solo.step, clientStep, hclient] using h
  | checking => simpa only [Solo.step, clientStep, hclient] using h
  | stopped => simpa only [Solo.step, clientStep, hclient] using h

theorem Lockstep.forcedFetch (h : Lockstep s) {reply : Option Fetched}
    (hsafe : PublishesSafely hostHash s (.forcedFetch reply)) :
    Lockstep (s.step hostHash (.forcedFetch reply)) := by
  cases hclient : s.client with
  | refreshing tries =>
    cases tries with
    | zero =>
      simp only [Solo.step, clientStep, hclient]
      exact h.moveClient .checking (by simp)
    | succ tries =>
      by_cases hrunning : s.running = true
      · cases reply with
        | none =>
          simp only [Solo.step, clientStep, hclient]
          rw [if_pos hrunning]
          exact h.moveClient (.refreshing tries) (by simp)
        | some fetched =>
          -- The only branch that publishes a job.
          apply h.publish hsafe fetched .checking
          · simp only [Solo.step, clientStep, hclient]
            rw [if_pos hrunning]
          · simp
      · have hchecking := h.moveClient .checking (by simp)
        cases reply with
        | none =>
          simp only [Solo.step, clientStep, hclient]
          rwa [if_neg hrunning]
        | some fetched =>
          simp only [Solo.step, clientStep, hclient]
          rwa [if_neg hrunning]
  | starting => simpa only [Solo.step, clientStep, hclient] using h
  | popping => simpa only [Solo.step, clientStep, hclient] using h
  | submitting found => simpa only [Solo.step, clientStep, hclient] using h
  | checking => simpa only [Solo.step, clientStep, hclient] using h
  | stopped => simpa only [Solo.step, clientStep, hclient] using h

theorem Lockstep.periodicFetch (h : Lockstep s) {reply : Option Fetched}
    (hsafe : PublishesSafely hostHash s (.periodicFetch reply)) :
    Lockstep (s.step hostHash (.periodicFetch reply)) := by
  have hagain := again_ne_submitting s
  cases hclient : s.client with
  | checking =>
    cases reply with
    | none =>
      simp only [Solo.step, clientStep, hclient]
      exact h.moveClient s.again hagain
    | some fetched =>
      by_cases hmoved : (fetchTemplate fetched).1.height ≠ s.lastHeight ∨
          (fetchTemplate fetched).1.previousHash ≠ s.job.previousHash
      · apply h.publish hsafe fetched s.again
        · simp only [Solo.step, clientStep, hclient, refresh]
          rw [if_pos hmoved]
        · exact hagain
      · -- Same height and parent: the old template is put back.
        simp only [Solo.step, clientStep, hclient, refresh]
        rw [if_neg hmoved]
        exact h.moveClient s.again hagain
  | starting => simpa only [Solo.step, clientStep, hclient] using h
  | popping => simpa only [Solo.step, clientStep, hclient] using h
  | submitting found => simpa only [Solo.step, clientStep, hclient] using h
  | refreshing tries => simpa only [Solo.step, clientStep, hclient] using h
  | stopped => simpa only [Solo.step, clientStep, hclient] using h

/-- A worker that takes the current job may do so. -/
theorem Lockstep.fit_currentJob (h : Lockstep s) (hvalid : s.currentJob.valid = true) :
    ∀ job, some s.currentJob = some job → s.currentJob.valid = true ∧
      job.jobId = soloJobId job.height ∧ (job.height = s.job.height → SameHeader job s.job) := by
  intro job hjob
  obtain rfl := Option.some.inj hjob
  exact ⟨hvalid, h.currentJob hvalid⟩

theorem Lockstep.workerStep (h : Lockstep s) (hostHash : Bytes → UInt64 → Bytes → Bytes)
    (event : Event) :
    Lockstep (s.workerStep hostHash event) := by
  cases event with
  | takeJob i =>
    simp only [Solo.workerStep]
    split
    · split_ifs with hvalid
      · exact h.setWorker i _ (h.fit_currentJob hvalid)
      · exact h
    · exact h
  | readGeneration i =>
    simp only [Solo.workerStep]
    split
    · rename_i job hworker
      apply h.setWorker
      intro other hother
      obtain rfl := Option.some.inj hother
      exact h.inUse _ (Or.inr ⟨i, by rw [hworker]; rfl⟩)
    · exact h
  | pickUp i =>
    simp only [Solo.workerStep]
    split
    · rename_i job lastGen hworker
      split_ifs
      · have hused := h.inUse job (Or.inr ⟨i, by rw [hworker]; rfl⟩)
        exact h.setWorker i _ (h.fit_currentJob hused.1)
      · exact h
    · exact h
  | find i nonce =>
    simp only [Solo.workerStep]
    split
    · rename_i job lastGen hworker
      have hjob : (s.workers i).job? = some job := by
        rw [hworker]
        rfl
      split_ifs with hshort
      · exact h
      · -- A header that was hashed is one that could be built.
        have hbuilt : buildHeader job nonce ≠ [] := by
          intro hnil
          rw [hnil] at hshort
          simp at hshort
        split
        · exact h
        · rename_i share hshare
          exact h.sharePush hjob hbuilt hshare
    · exact h
  | _ => exact h

/-- Every step that publishes safely keeps nonce and template together. -/
theorem Lockstep.step (h : Lockstep s) {event : Event}
    (hsafe : PublishesSafely hostHash s event) : Lockstep (s.step hostHash event) := by
  cases event with
  | firstFetch reply => exact h.firstFetch hsafe
  | pop =>
    simp only [Solo.step, clientStep]
    split
    · exact h.popShare
    · exact h
  | submit sent =>
    simp only [Solo.step, clientStep]
    split
    · rename_i found hclient
      exact h.submit sent hclient 5
    · exact h
  | forcedFetch reply => exact h.forcedFetch hsafe
  | periodicFetch reply => exact h.periodicFetch hsafe
  | noRefresh =>
    simp only [Solo.step, clientStep]
    split
    · exact h.moveClient s.again (again_ne_submitting s)
    · exact h
  | shutdown =>
    exact ⟨h.template, h.current, h.titled, h.inUse, h.queued, h.submitting, h.posted⟩
  | takeJob i => exact h.workerStep hostHash (.takeJob i)
  | readGeneration i => exact h.workerStep hostHash (.readGeneration i)
  | pickUp i => exact h.workerStep hostHash (.pickUp i)
  | find i nonce => exact h.workerStep hostHash (.find i nonce)

/-- Whatever is at the head of the queue, the client can get past it without posting. -/
theorem drain (hostHash : Bytes → UInt64 → Bytes → Bytes) (hrunning : s.running = true)
    (hclient : s.client = .popping) {found : Found} {queue : List Found}
    (hqueue : s.shareQueue = found :: queue) :
    ∃ events : List Event, events.foldl (step hostHash) s
      = { s with shareQueue := queue, client := .popping } := by
  have hagain : s.again = .popping := by
    unfold again
    rw [if_pos hrunning]
  have hunposted : ∀ found, s.submitBlock false found = s.posted := by
    intro found
    unfold submitBlock
    split <;> rfl
  by_cases hstale : found.share.jobId ≠ s.job.jobId
  · refine ⟨[.pop], ?_⟩
    simp only [List.foldl_cons, List.foldl_nil, Solo.step, clientStep, hclient, Solo.popShare,
      hqueue]
    rw [if_pos hstale, hagain]
  · by_cases hblock : found.share.isBlock = true
    · -- The request fails, and so do the tries of the forced refresh.
      refine ⟨[.pop, .submit false] ++ List.replicate 6 (.forcedFetch none) ++ [.noRefresh], ?_⟩
      have hpop : s.step hostHash .pop
          = { s with shareQueue := queue, client := .submitting found } := by
        simp only [Solo.step, clientStep, hclient, Solo.popShare, hqueue]
        rw [if_neg hstale, if_pos hblock]
      have hsubmit : ({ s with shareQueue := queue, client := .submitting found } : Solo).step
          hostHash (.submit false)
          = { s with shareQueue := queue, client := .refreshing 5 } := by
        have hposted := hunposted found
        simp only [Solo.step, clientStep, submitBlock] at hposted ⊢
        rw [hposted]
      rw [List.append_assoc, List.foldl_append, List.foldl_cons, List.foldl_cons, List.foldl_nil,
        hpop, hsubmit]
      simp only [List.replicate, List.cons_append, List.nil_append, List.foldl_cons,
        List.foldl_nil, Solo.step, clientStep, hrunning, if_true, again]
    · refine ⟨[.pop, .noRefresh], ?_⟩
      simp only [List.foldl_cons, List.foldl_nil, Solo.step, clientStep, hclient, Solo.popShare,
        hqueue]
      rw [if_neg hstale, if_neg hblock]
      simp only [again, hrunning, if_true]

/-- Once a share is queued under the id of a job with another header, the miner can go
    on to post it with the wrong template. -/
theorem can_post_on_other_header (hrunning : s.running = true) (hclient : s.client = .popping)
    {found : Found} (hmem : found ∈ s.shareQueue) (hid : found.share.jobId = s.job.jobId)
    (hblock : found.share.isBlock = true) {block : Block} (htemplate : s.template = some block)
    (hother : (block.withNonce found.share.nonce).header.preimage
      ≠ buildHeader found.job found.share.nonce) :
    ∃ events : List Event, ¬ (events.foldl (step hostHash) s).PostedOnOwnHeader := by
  obtain ⟨queue, hqueue⟩ : ∃ queue, s.shareQueue = queue := ⟨_, rfl⟩
  rw [hqueue] at hmem
  induction queue generalizing s with
  | nil => cases hmem
  | cons head queue ih =>
    rcases List.mem_cons.mp hmem with rfl | hrest
    · refine ⟨[.pop, .submit true], ?_⟩
      intro hposted
      apply hother
      apply hposted
      simp only [List.foldl_cons, List.foldl_nil, Solo.step, clientStep, hclient, Solo.popShare,
        hqueue]
      rw [if_neg (not_not.mpr hid), if_pos hblock]
      simp only [submitBlock, htemplate, if_true]
      exact List.mem_append_right _ List.mem_cons_self
    · obtain ⟨passed, hpassed⟩ := drain hostHash hrunning hclient hqueue
      have hlater := @ih { s with shareQueue := queue, client := .popping } hrunning rfl hid
        htemplate hrest rfl
      obtain ⟨events, hevents⟩ := hlater
      refine ⟨passed ++ events, ?_⟩
      rwa [List.foldl_append, hpassed]

/-! ## Two templates of one height -/

end Solo

end Tensorium.Miner
