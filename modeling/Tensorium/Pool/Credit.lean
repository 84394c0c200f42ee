import Tensorium.Pool.Server
import Mathlib.Data.String.Basic

/-! # What the pool credits

    An accepted submission is credited on the word of the node, which says
    `accepted` also for a block it has known before. The pool then credits the
    block once more, or credits the first output of a body that the node has
    never looked at. In a run in which every credit is for a block that has no
    entry yet, whose body is the one the node keeps and pays the treasury first,
    no hash is ever credited with more than its block pays to the treasury.
-/

namespace Tensorium

open BulkMap ParentLinked GuardedRun

/-- The first output of a block goes to an address. -/
def FirstPays (P : Primitives) (addr : String) (block : Block) : Prop :=
  ∀ output ∈ firstOutput block, output.scriptPubkey = Transaction.payTo P addr

instance (P : Primitives) (addr : String) (block : Block) : Decidable (FirstPays P addr block) :=
  inferInstanceAs (Decidable (∀ output ∈ firstOutput block, _))

/-- What the coinbase of a block pays to an address. -/
def coinbaseAtomsTo (P : Primitives) (addr : String) (block : Block) : Nat :=
  match block.transactions with
  | [] => 0
  | coinbase :: _ =>
    ((coinbase.outputs.filter fun output => output.scriptPubkey = Transaction.payTo P addr).map
      fun output => output.valueAtoms.toNat).sum

/-- What goes to the address first is part of what goes to it. -/
theorem FirstPays.atoms_le {P : Primitives} {addr : String} {block : Block}
    (h : FirstPays P addr block) :
    (firstOutputAtoms block).toNat ≤ coinbaseAtomsTo P addr block := by
  unfold FirstPays firstOutput at h
  unfold firstOutputAtoms firstOutput coinbaseAtomsTo
  cases htxs : block.transactions with
  | nil => simp
  | cons coinbase txs =>
    rw [htxs] at h
    cases houts : coinbase.outputs with
    | nil => simp [houts]
    | cons output outputs =>
      have hpays : output.scriptPubkey = Transaction.payTo P addr := by
        apply h output
        simp [houts]
      simp [houts, hpays]

/-! ## What the node keeps -/

/-- A block that `submit_block` has not known, and does not refuse, is stored under
    its hash. -/
theorem ChainState.submitBlock_new_kept {P : Primitives} {params : ConsensusParams}
    {s : ChainState} {block : Block} {nowSeconds : Nat}
    (hnew : s.blockKnown (block.hash P) = false)
    (h : ∀ e, (s.submitBlock P params block nowSeconds).1 = .error e → e = .alreadyKnown) :
    (s.submitBlock P params block nowSeconds).2.getBlockByHash (block.hash P) = some block := by
  have hknown : ¬ s.blockKnown (block.hash P) = true := by simp [hnew]
  unfold submitBlock at h ⊢
  rw [if_neg hknown] at h ⊢
  split
  next e s₁ hsync =>
    exfalso
    rw [hsync] at h
    obtain rfl := h e rfl
    -- Synchronising fails with an error of its own.
    unfold ensureUtxoSynced at hsync
    split at hsync
    · cases hsync
    · split_ifs at hsync
      · cases hsync
      · split at hsync
        · cases hsync
        · cases hsync
  next s₁ hsync =>
    rw [hsync] at h
    dsimp only at h
    split
    next hparent =>
      rw [hparent] at h
      cases h _ rfl
    next parent hparent =>
      rw [hparent] at h
      dsimp only at h
      split
      next e hval =>
        rw [hval] at h
        cases h _ rfl
      next hval =>
        unfold getBlockByHash
        rw [storeAndChoose_blocks, Finmap.lookup_insert]

namespace Node

variable {P : Primitives} {params : ConsensusParams}

theorem getBlockByHash_loadState (node : Node) :
    node.loadState.getBlockByHash = node.db.blocks.lookup := by
  funext hash
  unfold ChainState.getBlockByHash
  rw [loadState_db]

/-- A node never gives up a block it has stored. -/
theorem step_keeps (node : Node) (op : Op) :
    Extends node.loadState.getBlockByHash (node.step P params op).loadState.getBlockByHash := by
  cases op with
  | request request =>
    show Extends _ (node.serve P params request).loadState.getBlockByHash
    -- Only a block that is taken writes to the column of blocks.
    rcases serve_cases P params node request with ⟨tx, _, hserve⟩ | ⟨block, now, _, hserve⟩
    · have hblocks := (ChainState.ensureUtxoSynced_syncStep P params node.loadState).blocks
      rw [hserve, getBlockByHash_loadState, getBlockByHash_loadState,
        (acceptPeerTx_cases P params node request.order tx).1, hblocks, loadState_db]
      exact fun _ _ hk => hk
    · have hgrow : Extends node.loadState.getBlockByHash
          (node.loadState.submitBlock P params block now).2.getBlockByHash :=
        ChainState.submitBlock_extends node.loadState block now
      rw [hserve, getBlockByHash_loadState (node.takeBlock P params request.order block now).2,
        takeBlock_db]
      exact hgrow
  | syncFromPeer order now remote fetch fuel =>
    show Extends _ (((node.syncFromPeer P params order now remote fetch fuel).map
      Prod.snd).getD node).loadState.getBlockByHash
    cases hsync : node.syncFromPeer P params order now remote fetch fuel with
    | none => exact fun _ _ hk => hk
    | some outcome =>
      obtain ⟨result, node'⟩ := outcome
      show Extends _ node'.loadState.getBlockByHash
      rcases syncFromPeer_cases hsync with rfl | ⟨_, s, hblocks, _, hdb, _⟩
      · exact fun _ _ hk => hk
      · rw [getBlockByHash_loadState node', hdb]
        exact (syncLoop_submits hblocks).grows

theorem submitBlock_keeps (node : Node) (order : PendingOrder) (block : Block)
    (nowSeconds : Nat) :
    Extends node.loadState.getBlockByHash
      (node.submitBlock P params order block nowSeconds).2.loadState.getBlockByHash :=
  step_keeps node (.request (.submitBlock order block nowSeconds))

/-- A block that was new to the node and is answered with `accepted` is the block
    it keeps under the hash. -/
theorem accepted_new_kept {node : Node} {order : PendingOrder} {block : Block} {nowSeconds : Nat}
    (hnew : node.loadState.blockKnown (block.hash P) = false)
    (haccepted : acceptedFlag (node.submitBlock P params order block nowSeconds).1 = true) :
    (node.submitBlock P params order block nowSeconds).2.loadState.getBlockByHash
      (block.hash P) = some block := by
  have hserve : (node.submitBlock P params order block nowSeconds).2
      = (node.takeBlock P params order block nowSeconds).2 := by
    unfold submitBlock
    split
    next hrun => rw [hrun]
    next hrun => rw [hrun]
    next hrun => rw [hrun]
  rw [hserve, getBlockByHash_loadState, takeBlock_db]
  refine ChainState.submitBlock_new_kept hnew ?_
  intro e herror
  by_contra hne
  -- Any other error is answered without the flag.
  unfold submitBlock takeBlock at haccepted
  generalize node.loadState.submitBlock P params block nowSeconds = run at haccepted herror
  obtain ⟨result, s⟩ := run
  dsimp only at herror
  subst herror
  cases e with
  | alreadyKnown => exact hne rfl
  | _ => cases haccepted

/-- The handler synchronises the set of unspent outputs and answers with a
    candidate on top of the tip. -/
theorem getBlockTemplate_cases (order : PendingOrder) (s : ChainState) (m : Mempool)
    (nowSeconds : Nat) (miner : String) :
    (getBlockTemplate P params order s m nowSeconds miner).2 = (s.ensureUtxoSynced P params).2 ∧
    ∀ response, (getBlockTemplate P params order s m nowSeconds miner).1 = .ok response →
      ∃ parent extraTxs totalFees bits, response.template
        = (candidateBlock P params (some parent) nowSeconds miner extraTxs totalFees).withBits
            bits := by
  unfold getBlockTemplate
  cases s.ensureUtxoSynced P params with
  | mk result s₁ =>
    cases result with
    | error e =>
      refine ⟨rfl, ?_⟩
      intro response h
      cases h
    | ok _ =>
      dsimp only
      unfold ChainState.candidateBlockWithMempool
      cases s₁.tip with
      | none =>
        refine ⟨rfl, ?_⟩
        intro response h
        cases h
      | some parent =>
        refine ⟨rfl, ?_⟩
        intro response h
        obtain rfl := Except.ok.inj h
        exact ⟨parent, _, _, _, rfl⟩

theorem serveTemplate_keeps (node : Node) (order : PendingOrder) (nowSeconds : Nat)
    (miner : String) :
    Extends node.loadState.getBlockByHash
      (node.serveTemplate P params order nowSeconds miner).2.loadState.getBlockByHash := by
  have hblocks := (ChainState.ensureUtxoSynced_syncStep P params node.loadState).blocks
  rw [← (getBlockTemplate_cases order node.loadState node.mempool nowSeconds miner).1,
    loadState_db] at hblocks
  rw [getBlockByHash_loadState, getBlockByHash_loadState, ← hblocks]
  unfold serveTemplate
  by_cases hminer : miner = ""
  · rw [if_pos hminer, hblocks]
    exact fun _ _ hk => hk
  · rw [if_neg hminer]
    cases getBlockTemplate P params order node.loadState node.mempool nowSeconds miner with
    | mk result s =>
      cases result with
      | error e => exact fun _ _ hk => hk
      | ok response => exact fun _ _ hk => hk

/-- The first output of a template goes to the one who has asked for it. -/
theorem serveTemplate_pays {node : Node} {order : PendingOrder} {nowSeconds : Nat}
    {miner : String} {response : BlockTemplate}
    (h : (node.serveTemplate P params order nowSeconds miner).1 = some response) :
    FirstPays P miner response.template := by
  have hok : (getBlockTemplate P params order node.loadState node.mempool nowSeconds miner).1
      = .ok response := by
    unfold serveTemplate at h
    split_ifs at h
    generalize getBlockTemplate P params order node.loadState node.mempool nowSeconds miner
      = reply at h
    obtain ⟨result, s⟩ := reply
    cases result with
    | error e => cases h
    | ok response' => exact congrArg Except.ok (Option.some.inj h)
  obtain ⟨parent, extraTxs, totalFees, bits, htemplate⟩ :=
    (getBlockTemplate_cases order node.loadState node.mempool nowSeconds miner).2 response hok
  rw [htemplate]
  -- The candidate has a parent, so its coinbase is not the one of the genesis block.
  intro output houtput
  have hheight : ¬ (parent.header.height + 1 = 0 ∧ hasGenesisPremint params) := by
    intro hzero
    exact Nat.succ_ne_zero _ hzero.1
  unfold firstOutput candidateBlock Block.withBits at houtput
  dsimp only [Option.elim] at houtput
  rw [if_neg hheight, List.head?_cons, Option.bind_some] at houtput
  unfold Transaction.coinbase Transaction.withoutInputs at houtput
  dsimp only at houtput
  split_ifs at houtput
  · cases houtput
  · obtain rfl := Option.some.inj houtput
    rfl

end Node

/-! ## Credits

    A credit is fair if its hash has no entry yet and the block it is for is the
    one that the node keeps under the hash. -/

/-- The template a task holds. -/
def Task.template? : Task → Option Node.BlockTemplate
  | .forward _ template _ | .credit _ template _ _ => template
  | .record _ | .share _ | .found _ => none

namespace World

variable {P : Primitives} {params : ConsensusParams} {w w' : World}

/-- What the block with a hash pays to the treasury. -/
def earnedAtoms (P : Primitives) (w : World) (hash : Hash256) : Nat :=
  ((w.node.loadState.getBlockByHash hash).map (coinbaseAtomsTo P w.pool.treasury)).getD 0

/-- No hash is credited with more than its block pays to the treasury. -/
def CreditsEarned (P : Primitives) (w : World) : Prop :=
  ∀ hash : Hash256, w.pool.ledger.credited hash.toHex ≤ w.earnedAtoms P hash

/-- The hash has no entry yet, and the node keeps the block under it. -/
def FairCredit (w : World) (hash : Hash256) (block : Block) : Prop :=
  (∀ entry ∈ w.pool.ledger.entries, entry.blockHash ≠ hash.toHex) ∧
    w.node.loadState.getBlockByHash hash = some block

instance (w : World) (hash : Hash256) (block : Block) : Decidable (FairCredit w hash block) :=
  inferInstanceAs (Decidable (_ ∧ _))

/-- What a task credits, if anything, is fair: a block from `POST /submitblock`
    pays the treasury first, and the weights behind the split of a Stratum
    reward add up below `2 ^ 64`. -/
def FairTask (P : Primitives) (w : World) (nowSeconds : Nat) : Task → Prop
  | .record block =>
    firstOutputAtoms block = 0 ∨
      (w.FairCredit (block.hash P) block ∧ FirstPays P w.pool.treasury block)
  | .credit submit (some response) workerName true =>
    grossFromTemplate response = 0 ∨
      (w.FairCredit ((jobHeader submit.job submit.nonce).hash P)
          (submittedBlock submit.job submit.nonce (some response)) ∧
        (w.pool.ledger.shareWindow.push
          (Pool.shareOf submit workerName nowSeconds)).exactWeight < 2 ^ 64)
  | _ => True

instance (w : World) (nowSeconds : Nat) : (task : Task) → Decidable (FairTask P w nowSeconds task)
  | .record block => inferInstanceAs (Decidable (firstOutputAtoms block = 0 ∨ _ ∧ _))
  | .credit _ (some response) _ true =>
    inferInstanceAs (Decidable (grossFromTemplate response = 0 ∨ _ ∧ _ < _))
  | .credit _ (some _) _ false | .credit _ none _ _ => .isTrue trivial
  | .share _ | .found _ | .forward _ _ _ => .isTrue trivial

/-- The event credits nothing, or credits fairly. -/
def CreditsFairly (P : Primitives) (w : World) : Event → Prop
  | .advance i _ _ nowSeconds => ∀ task ∈ w.pool.inFlight[i]?, w.FairTask P nowSeconds task
  | _ => True

instance (w : World) : (event : Event) → Decidable (CreditsFairly P w event)
  | .advance i _ _ nowSeconds =>
    inferInstanceAs (Decidable (∀ task ∈ w.pool.inFlight[i]?, w.FairTask P nowSeconds task))
  | .node _ | .httpTemplate _ _ _ | .httpSubmit _ _ _ | .connect _ | .disconnect _
  | .line _ _ _ | .poll _ _ _ _ => .isTrue trivial

end World

/-! ## What a line changes -/

namespace Pool

variable {P : Primitives} {pool pool' : Pool}

/-- The books and the cache are the same; new tasks hold no template. -/
structure SameBooks (pool pool' : Pool) : Prop where
  ledger : pool'.ledger = pool.ledger
  treasury : pool'.treasury = pool.treasury
  cached : pool'.stratum.jobTemplateCache = pool.stratum.jobTemplateCache
  tasks : ∀ task ∈ pool'.inFlight, task ∈ pool.inFlight ∨ task.template? = none

theorem receiveSubmit_sameBooks (P : Primitives) (pool : Pool) (c : Connection)
    (jobId nonceHex : String) : SameBooks pool (pool.receiveSubmit P c jobId nonceHex) := by
  rcases receiveSubmit_cases P pool c jobId nonceHex with hpool | hpool | hpool |
    ⟨submit, isBlock, hpool⟩
  · rw [hpool]
    exact ⟨rfl, rfl, rfl, fun _ h => Or.inl h⟩
  · rw [hpool]
    refine ⟨rfl, rfl, ?_, fun _ h => Or.inl h⟩
    simp [StratumState.reject]
  · rw [hpool]
    exact ⟨rfl, rfl, rfl, fun _ h => Or.inl h⟩
  · rw [hpool]
    refine ⟨rfl, rfl, rfl, ?_⟩
    intro task htask
    rcases List.mem_append.mp htask with hold | hnew
    · exact Or.inl hold
    · right
      rw [List.mem_singleton.mp hnew]
      split_ifs
      · rfl
      · rfl

theorem receive_sameBooks (P : Primitives) (pool : Pool) (c : Connection) (line : Line)
    (now : Nat) : SameBooks pool (pool.receive P c line now) := by
  cases line with
  | other => exact ⟨rfl, rfl, rfl, fun _ h => Or.inl h⟩
  | authorize auth => exact ⟨rfl, rfl, rfl, fun _ h => Or.inl h⟩
  | submit jobId nonceHex =>
    have hsubmit := receiveSubmit_sameBooks P (pool.setConnection (drain c)) (drain c) jobId nonceHex
    exact ⟨hsubmit.ledger, hsubmit.treasury, hsubmit.cached, hsubmit.tasks⟩

end Pool

/-! ## What an event changes -/

namespace World

variable {P : Primitives} {params : ConsensusParams} {w w' : World}

/-- What every event leaves: the blocks of the node, the treasury, and templates
    that were there before or were just served for the treasury. -/
structure Carries (P : Primitives) (w w' : World) : Prop where
  keeps : Extends w.node.loadState.getBlockByHash w'.node.loadState.getBlockByHash
  treasury : w'.pool.treasury = w.pool.treasury
  cached : ∀ jobId response, w'.pool.stratum.jobTemplateCache.lookup jobId = some response →
    w.pool.stratum.jobTemplateCache.lookup jobId = some response ∨
      FirstPays P w.pool.treasury response.template
  tasks : ∀ task ∈ w'.pool.inFlight, ∀ response, task.template? = some response →
    (∃ old ∈ w.pool.inFlight, old.template? = some response) ∨
      ∃ jobId, w.pool.stratum.jobTemplateCache.lookup jobId = some response

/-- An event that touches neither the cache nor the tasks. -/
theorem Carries.of_same
    (hkeeps : Extends w.node.loadState.getBlockByHash w'.node.loadState.getBlockByHash)
    (htreasury : w'.pool.treasury = w.pool.treasury)
    (hcached : w'.pool.stratum.jobTemplateCache = w.pool.stratum.jobTemplateCache)
    (htasks : ∀ task ∈ w'.pool.inFlight, task ∈ w.pool.inFlight ∨ task.template? = none) :
    Carries P w w' where
  keeps := hkeeps
  treasury := htreasury
  cached jobId response h := by
    rw [hcached] at h
    exact Or.inl h
  tasks task htask response h := by
    rcases htasks task htask with hold | hnone
    · exact Or.inl ⟨task, hold, h⟩
    · rw [hnone] at h
      cases h

/-- A published job leaves old templates and its own one. -/
theorem lookup_publish {s : StratumState} {job : StratumJob} {raw response : Node.BlockTemplate}
    {jobId : String}
    (h : (s.publish job raw).jobTemplateCache.lookup jobId = some response) :
    s.jobTemplateCache.lookup jobId = some response ∨ response = raw := by
  unfold StratumState.publish at h
  dsimp only at h
  rw [lookup_insert_ite] at h
  split_ifs at h with hown hfull
  · exact Or.inr (Option.some.inj h).symm
  · rw [lookup_retain] at h
    exact Or.inl (Option.filter_eq_some_iff.mp h).1
  · exact Or.inl h

theorem step_keeps (w : World) (event : Event) :
    Extends w.node.loadState.getBlockByHash
      (w.step P params event).node.loadState.getBlockByHash := by
  have hserved : ∀ order nowSeconds response node,
      w.node.serveTemplate P params order nowSeconds w.pool.treasury = (response, node) →
        Extends w.node.loadState.getBlockByHash node.loadState.getBlockByHash := by
    intro order nowSeconds response node hserve
    have hkeeps : Extends _ (w.node.serveTemplate P params order nowSeconds
        w.pool.treasury).2.loadState.getBlockByHash :=
      Node.serveTemplate_keeps w.node order nowSeconds w.pool.treasury
    rwa [hserve] at hkeeps
  cases event with
  | node op => exact Node.step_keeps w.node op
  | httpSubmit block order nowSeconds => exact Node.submitBlock_keeps w.node order block nowSeconds
  | httpTemplate miner order nowSeconds =>
    unfold step
    dsimp only
    split_ifs
    · exact fun _ _ hk => hk
    · split
      next hserve => exact hserved _ _ _ _ hserve
      next hserve => exact hserved _ _ _ _ hserve
  | poll alternate order nowSeconds millis =>
    unfold step
    dsimp only
    split
    next hserve => exact hserved _ _ _ _ hserve
    next hserve => exact hserved _ _ _ _ hserve
  | connect connectionId => exact fun _ _ hk => hk
  | disconnect connectionId => exact fun _ _ hk => hk
  | line connectionId line now =>
    unfold step
    dsimp only
    split <;> exact fun _ _ hk => hk
  | advance i order weights nowSeconds =>
    unfold step
    dsimp only
    cases w.pool.inFlight[i]? with
    | none => exact fun _ _ hk => hk
    | some task =>
      cases task with
      | forward submit template workerName =>
        exact Node.submitBlock_keeps w.node order _ nowSeconds
      | record block | share submit | found submit | credit submit template workerName accepted =>
        exact fun _ _ hk => hk

theorem step_carries (w : World) (event : Event) : Carries P w (w.step P params event) := by
  have hkeeps : Extends _ (w.step P params event).node.loadState.getBlockByHash :=
    step_keeps w event
  have hdoes := step_does P params w event
  generalize w.step P params event = w' at hkeeps hdoes ⊢
  obtain ⟨node, pool⟩ := w'
  dsimp only at hkeeps hdoes
  cases hdoes with
  | quiet hquiet _ _ =>
    apply Carries.of_same hkeeps hquiet.treasury
    · rw [hquiet.stratum]
    · intro task h
      left
      rwa [← hquiet.inFlight]
  | record block order nowSeconds =>
    refine .of_same hkeeps rfl rfl ?_
    intro task h
    rcases List.mem_append.mp h with hold | hnew
    · exact Or.inl hold
    · right
      rw [List.mem_singleton.mp hnew]
      rfl
  | disconnect connectionId => exact .of_same hkeeps rfl rfl fun _ h => Or.inl h
  | @line connectionId c line now _ =>
    have hbooks := Pool.receive_sameBooks P w.pool c line now
    exact .of_same hkeeps hbooks.treasury hbooks.cached hbooks.tasks
  | publish alternate millis hserve =>
    refine ⟨hkeeps, rfl, ?_, fun task htask _ h => Or.inl ⟨task, htask, h⟩⟩
    intro jobId cached hcached
    rcases lookup_publish hcached with hold | rfl
    · exact Or.inl hold
    · exact Or.inr (Node.serveTemplate_pays hserve)
  | @advance i task order weights nowSeconds htask =>
    -- The other tasks stay, and what follows this one holds its template or one of
    -- the cache.
    have hrest : ∀ task ∈ w.pool.inFlight.eraseIdx i, task ∈ w.pool.inFlight :=
      fun task htask => List.mem_of_mem_eraseIdx htask
    cases task with
    | record block => exact .of_same hkeeps rfl rfl fun task h => Or.inl (hrest task h)
    | share submit | credit submit template workerName accepted =>
      refine .of_same hkeeps rfl ?_ fun task h => Or.inl (hrest task h)
      simp [runTask, StratumState.accept]
    | found submit =>
      refine ⟨hkeeps, rfl, fun _ _ h => Or.inl h, ?_⟩
      intro task h response hresponse
      rcases List.mem_append.mp h with hold | hnew
      · exact Or.inl ⟨task, hrest task hold, hresponse⟩
      · rw [List.mem_singleton.mp hnew] at hresponse
        right
        rcases Option.or_eq_some_iff.mp hresponse with hjob | ⟨_, hmessage⟩
        · exact ⟨_, hjob⟩
        · exact ⟨_, hmessage⟩
    | forward submit template workerName =>
      refine ⟨hkeeps, rfl, fun _ _ h => Or.inl h, ?_⟩
      intro task h response hresponse
      rcases List.mem_append.mp h with hold | hnew
      · exact Or.inl ⟨task, hrest task hold, hresponse⟩
      · rw [List.mem_singleton.mp hnew] at hresponse
        exact Or.inl ⟨_, List.mem_of_getElem? htask, hresponse⟩

/-- What an event adds to the ledger. -/
theorem step_ledger (w : World) (event : Event) :
    (∀ blockHash, (w.step P params event).pool.ledger.credited blockHash
      = w.pool.ledger.credited blockHash) ∨
    ∃ i order weights nowSeconds task, event = .advance i order weights nowSeconds ∧
      w.pool.inFlight[i]? = some task ∧
      ((∃ block, task = .record block ∧
        (w.step P params event).pool.ledger = (w.pool.recordBlock P block).ledger) ∨
      ∃ submit template workerName, task = .credit submit template workerName true ∧
        (w.step P params event).pool.ledger
          = Pool.creditBlock P w.pool.ledger weights submit template workerName nowSeconds) := by
  have hdoes := step_does P params w event
  generalize (w.step P params event).pool = pool at hdoes ⊢
  cases hdoes with
  | quiet hquiet _ _ =>
    left
    rw [hquiet.ledger]
    exact fun _ => rfl
  | record block order nowSeconds => exact Or.inl fun _ => rfl
  | disconnect connectionId => exact Or.inl fun _ => rfl
  | publish alternate millis _ => exact Or.inl fun _ => rfl
  | @line connectionId c line now _ =>
    left
    rw [(Pool.receive_sameBooks P w.pool c line now).ledger]
    exact fun _ => rfl
  | @advance i task order weights nowSeconds htask =>
    cases task with
    | record block =>
      right
      exact ⟨i, order, weights, nowSeconds, _, rfl, htask, Or.inl ⟨block, rfl, rfl⟩⟩
    | credit submit template workerName accepted =>
      cases accepted with
      | true =>
        right
        exact ⟨i, order, weights, nowSeconds, _, rfl, htask,
          Or.inr ⟨submit, template, workerName, rfl, rfl⟩⟩
      | false => exact Or.inl fun _ => rfl
    -- These tasks talk to the node, or start another task.
    | share submit | found submit | forward submit template workerName =>
      exact Or.inl fun _ => rfl

/-! ## Runs -/

/-- A block that is kept earns later what it earns now. -/
theorem Carries.earnedAtoms_le (h : Carries P w w') (hash : Hash256) :
    w.earnedAtoms P hash ≤ w'.earnedAtoms P hash := by
  unfold earnedAtoms
  rw [h.treasury]
  cases hget : w.node.loadState.getBlockByHash hash with
  | none => exact Nat.zero_le _
  | some block => rw [h.keeps hash block hget]

/-- The credits are earned, and every template the pool holds pays the treasury
    first. -/
structure Accounted (P : Primitives) (w : World) : Prop where
  earned : w.CreditsEarned P
  cached : ∀ jobId response, w.pool.stratum.jobTemplateCache.lookup jobId = some response →
    FirstPays P w.pool.treasury response.template
  tasks : ∀ task ∈ w.pool.inFlight, ∀ response, task.template? = some response →
    FirstPays P w.pool.treasury response.template

/-- A ledger that gets at most the value of the first output of a block, under a
    hash without entries and for a block that pays the treasury first. -/
theorem Accounted.credit (h : Accounted P w) (hstep : Carries P w w') (hash : Hash256)
    (block : Block) (atoms : Nat)
    (hledger : ∀ other : Hash256, w'.pool.ledger.credited other.toHex
      = w.pool.ledger.credited other.toHex + if hash.toHex = other.toHex then atoms else 0)
    (hfair : atoms = 0 ∨ (w.FairCredit hash block ∧ FirstPays P w.pool.treasury block ∧
      atoms ≤ (firstOutputAtoms block).toNat)) :
    w'.CreditsEarned P := by
  intro other
  rw [hledger other]
  refine le_trans ?_ (hstep.earnedAtoms_le other)
  rcases hfair with hzero | ⟨⟨hunpaid, hkept⟩, hpays, hatoms⟩
  · rw [hzero, ite_self, Nat.add_zero]
    exact h.earned other
  · by_cases hsame : hash.toHex = other.toHex
    · obtain rfl := Hash256.toHex_injective hsame
      rw [if_pos rfl, PayoutLedger.credited_eq_zero hunpaid, Nat.zero_add]
      unfold earnedAtoms
      rw [hkept]
      exact hatoms.trans hpays.atoms_le
    · rw [if_neg hsame, Nat.add_zero]
      exact h.earned other

/-- One event that credits fairly keeps the books in order. -/
theorem Accounted.step (h : Accounted P w) {event : Event} (hfair : w.CreditsFairly P event) :
    Accounted P (w.step P params event) := by
  have hcarries : Carries P w (w.step P params event) := step_carries w event
  refine ⟨?_, ?_, ?_⟩
  · rcases step_ledger (P := P) w event with hquiet |
      ⟨i, order, weights, nowSeconds, task, rfl, htask, hcredit⟩
    · intro hash
      rw [hquiet]
      exact (h.earned hash).trans (hcarries.earnedAtoms_le hash)
    · have hfairTask := hfair task htask
      have hmem : task ∈ w.pool.inFlight := List.mem_of_getElem? htask
      -- A block that came by HTTP goes to one miner, that of a share is split.
      rcases hcredit with ⟨block, rfl, hledger⟩ | ⟨submit, template, workerName, rfl, hledger⟩
      · apply h.credit hcarries (block.hash P) block (firstOutputAtoms block).toNat
        · intro other
          rw [hledger]
          exact PayoutLedger.credited_push _ _ _
        · rcases hfairTask with hzero | ⟨hcredit, hpays⟩
          · left
            rw [hzero]
            rfl
          · exact Or.inr ⟨hcredit, hpays, le_rfl⟩
      · apply h.credit hcarries _ (submittedBlock submit.job submit.nonce template) _
          (fun other => by
            rw [hledger]
            exact PayoutLedger.credited_pushAll _ _ _ _ _)
        cases template with
        | none => exact Or.inl (PayoutLedger.sum_pplnsSplit_zero _ _ _)
        | some response =>
          rcases hfairTask with hzero | ⟨hcredit, hexact⟩
          · left
            dsimp only [Option.map_some, Option.getD_some]
            rw [hzero]
            exact PayoutLedger.sum_pplnsSplit_zero _ _ _
          · refine Or.inr ⟨hcredit, ?_, PayoutLedger.sum_pplnsSplit_le _ _ _ _ hexact⟩
            exact h.tasks _ hmem response rfl
  · intro jobId response hcached
    rw [hcarries.treasury]
    rcases hcarries.cached jobId response hcached with hold | hpays
    · exact h.cached jobId response hold
    · exact hpays
  · intro task htask response htemplate
    rw [hcarries.treasury]
    -- A task is an old one, or was made from a template of the cache.
    rcases hcarries.tasks task htask response htemplate with ⟨old, hold, hresponse⟩ | ⟨jobId, hold⟩
    · exact h.tasks old hold response hresponse
    · exact h.cached jobId response hold

/-- **Fair credits are earned.** However the requests to the two servers, the job
    poller and the other clients of the node interleave: as long as every credit
    is fair, no hash is credited with more than its block pays to the treasury. -/
theorem credits_earned (P : Primitives) (params : ConsensusParams) (node : Node)
    (treasury : String) (shareDiff : UInt64) (ledger : PayoutLedger)
    (hledger : (boot node treasury shareDiff ledger).CreditsEarned P) (events : List Event)
    (hrun : Along (World.step P params) (World.CreditsFairly P)
      (boot node treasury shareDiff ledger) events) :
    (events.foldl (World.step P params) (boot node treasury shareDiff ledger)).CreditsEarned P := by
  have hstart : Accounted P (boot node treasury shareDiff ledger) := by
    refine ⟨hledger, ?_, ?_⟩
    · intro jobId response hcached
      cases hcached
    · intro task htask
      cases htask
  have hend := hrun.invariant (Accounted P) hstart fun w event h hfair => h.step hfair
  exact hend.earned

/-! ## A block credited on both servers -/

/-- The computable primitives with a proof-of-work digest of 255 leading zeros;
    the pool counts the zeros of an empty digest in a byte, and gets none. -/
def poolPrimitives : Primitives :=
  { Primitives.sample with blake2b256 := fun _ => ⟨List.leftpad 32 0 [1], by decide⟩ }

/-- A pool on a node with a genesis block. -/
def pooled : World :=
  boot ⟨(ChainState.clockRun poolPrimitives testParams 0).db, Mempool.new⟩ "a" 1 PayoutLedger.new

/-- A miner connects, gets a job and finds a block, and the pool credits it. -/
def stratumRun : List Event :=
  [.connect "c", .poll false Iteration.sorted 2 0, .line "c" (.authorize "alice.rig") 2,
    .line "c" (.submit "h1-0" "00") 2, .advance 0 Iteration.sorted Iteration.sorted 2,
    .advance 0 Iteration.sorted Iteration.sorted 2, .advance 0 Iteration.sorted Iteration.sorted 2]

/-- The block it has found. -/
def stratumBlock : Block :=
  candidateBlock poolPrimitives testParams
    (some (clockChain poolPrimitives testParams 0)) 2 "a" [] 0

/-- The same block, submitted again over HTTP. -/
def resubmission : List Event :=
  [.httpSubmit stratumBlock Iteration.sorted 2, .advance 0 Iteration.sorted Iteration.sorted 2]

/-- Nothing is credited at the start. -/
theorem creditsEarned_of_no_entries (h : w.pool.ledger.entries = []) : w.CreditsEarned P := by
  intro hash
  unfold PayoutLedger.credited
  rw [h]
  exact Nat.zero_le _

/-- The node has the block already, says `accepted`, and the pool credits the
    reward a second time. -/
theorem resubmission_credited_twice :
    let after := (stratumRun ++ resubmission).foldl (World.step poolPrimitives testParams) pooled
    pooled.CreditsEarned poolPrimitives ∧
    after.node.loadState.getBlockByHash (stratumBlock.hash poolPrimitives) = some stratumBlock ∧
    after.pool.ledger.credited (stratumBlock.hash poolPrimitives).toHex
      = 2 * after.earnedAtoms poolPrimitives (stratumBlock.hash poolPrimitives) ∧
    ¬ after.CreditsEarned poolPrimitives := by
  intro after
  have heval : after.node.loadState.getBlockByHash (stratumBlock.hash poolPrimitives)
        = some stratumBlock ∧
      after.earnedAtoms poolPrimitives (stratumBlock.hash poolPrimitives)
        = (rewardAtHeight testParams 1).toNat ∧
      after.pool.ledger.credited (stratumBlock.hash poolPrimitives).toHex
        = 2 * (rewardAtHeight testParams 1).toNat ∧
      0 < (rewardAtHeight testParams 1).toNat := by
    decide +kernel
  obtain ⟨hkept, hearned, hcredited, hpos⟩ := heval
  refine ⟨creditsEarned_of_no_entries rfl, hkept, ?_, ?_⟩
  · rw [hearned, hcredited]
  · intro hbound
    have hboth := hbound (stratumBlock.hash poolPrimitives)
    rw [hearned, hcredited] at hboth
    omega

/-- The first credit was fair. -/
theorem credits_earned_stratumRun :
    (stratumRun.foldl (World.step poolPrimitives testParams) pooled).CreditsEarned
      poolPrimitives := by
  have hfair : Along (World.step poolPrimitives testParams) (World.CreditsFairly poolPrimitives)
      pooled stratumRun := by
    decide +kernel
  exact credits_earned poolPrimitives testParams _ "a" 1 PayoutLedger.new
    (creditsEarned_of_no_entries rfl) stratumRun hfair

end World

end Tensorium
