import Tensorium.Node.Sync
import Tensorium.State.Submissions
import Tensorium.Utxo.Height

/-! # Runs of a node

    The requests a node serves, one at a time, each on the database and the
    mempool the one before has left. What a request does to the chain is what
    `submit_block` does; what it does to the mempool goes through
    `remove_confirmed` and `Mempool::add`.
-/

namespace Tensorium

open BulkMap ParentLinked

/-! ## What `Mempool::add` changes -/

namespace Mempool

variable {P : Primitives} {params : ConsensusParams} {order : PendingOrder} {m m' : Mempool}
variable {utxos : UtxoSet} {tx : Transaction} {tipHeight : Nat}

/-- One step of `min_by_key`: the cheaper entry, on a tie the earlier one. -/
def cheaper (best : Option (String × MempoolEntry)) (e : String × MempoolEntry) :
    Option (String × MempoolEntry) :=
  match best with
  | none => some e
  | some b => if e.2.feeAtoms < b.2.feeAtoms then some e else some b

theorem lowestFee_eq_foldl (entries : List (String × MempoolEntry)) :
    lowestFee entries = entries.foldl cheaper none := rfl

theorem cheaper_spec (best : Option (String × MempoolEntry)) (e : String × MempoolEntry) :
    ∃ low, cheaper best e = some low ∧ (low = e ∨ best = some low) ∧
      low.2.feeAtoms ≤ e.2.feeAtoms ∧ ∀ b, best = some b → low.2.feeAtoms ≤ b.2.feeAtoms := by
  cases best with
  | none => exact ⟨e, rfl, Or.inl rfl, UInt64.le_refl _, fun b hb => nomatch hb⟩
  | some b =>
    show ∃ low, (if e.2.feeAtoms < b.2.feeAtoms then some e else some b) = some low ∧ _
    by_cases hless : e.2.feeAtoms < b.2.feeAtoms
    · rw [if_pos hless]
      refine ⟨e, rfl, Or.inl rfl, UInt64.le_refl _, ?_⟩
      intro b' hb'
      obtain rfl := Option.some.inj hb'
      exact UInt64.le_of_lt hless
    · rw [if_neg hless]
      refine ⟨b, rfl, Or.inr rfl, UInt64.not_lt.mp hless, ?_⟩
      intro b' hb'
      obtain rfl := Option.some.inj hb'
      exact UInt64.le_refl _

/-- The fold ends with an entry of the list or with what it has started from, and
    neither has a cheaper one. -/
theorem foldl_cheaper {entries : List (String × MempoolEntry)}
    {best : Option (String × MempoolEntry)} {low : String × MempoolEntry}
    (h : entries.foldl cheaper best = some low) :
    (low ∈ entries ∨ best = some low) ∧ (∀ e ∈ entries, low.2.feeAtoms ≤ e.2.feeAtoms) ∧
      ∀ b, best = some b → low.2.feeAtoms ≤ b.2.feeAtoms := by
  induction entries generalizing best with
  | nil =>
    refine ⟨Or.inr h, by simp, ?_⟩
    intro b hb
    obtain rfl := Option.some.inj (hb.symm.trans h)
    exact UInt64.le_refl _
  | cons e entries ih =>
    obtain ⟨first, hfirst, horigin, hle, hbest⟩ := cheaper_spec best e
    rw [List.foldl_cons, hfirst] at h
    obtain ⟨hmem, hall, hlow⟩ := ih h
    have hlowFirst := hlow first rfl
    refine ⟨?_, ?_, fun b hb => UInt64.le_trans hlowFirst (hbest b hb)⟩
    · rcases hmem with hin | heq
      · exact Or.inl (List.mem_cons_of_mem _ hin)
      · obtain rfl := Option.some.inj heq
        exact horigin.imp_left fun he => List.mem_cons.mpr (Or.inl he)
    · intro e' he'
      rcases List.mem_cons.mp he' with rfl | hin
      · exact UInt64.le_trans hlowFirst hle
      · exact hall e' hin

/-- The lowest fee is the fee of an entry, and no entry has a lower one. -/
theorem lowestFee_spec {entries : List (String × MempoolEntry)} {low : String × MempoolEntry}
    (h : lowestFee entries = some low) :
    low ∈ entries ∧ ∀ e ∈ entries, low.2.feeAtoms ≤ e.2.feeAtoms := by
  rw [lowestFee_eq_foldl] at h
  obtain ⟨hmem, hall, _⟩ := foldl_cheaper h
  exact ⟨hmem.resolve_right (fun hnone => nomatch hnone), hall⟩

/-- Room is there, or is made by dropping an entry that pays less, and least of
    all. -/
theorem makeRoom_ok {fee : UInt64} (h : m.makeRoom order fee = .ok m') :
    (m.pending.keys.card < maxMempoolTxs ∧ m' = m) ∨
    ∃ key low, maxMempoolTxs ≤ m.pending.keys.card ∧ m.pending.lookup key = some low ∧
      (∀ key' entry, m.pending.lookup key' = some entry → low.feeAtoms ≤ entry.feeAtoms) ∧
      low.feeAtoms < fee ∧ m' = ⟨m.pending.erase key⟩ := by
  unfold makeRoom at h
  split_ifs at h with hfull
  · split at h
    next key low hlow =>
      split_ifs at h with hfee
      obtain ⟨hmem, hall⟩ := lowestFee_spec hlow
      refine Or.inr ⟨key, low, hfull, (order.mem_iff m.pending key low).mp hmem, ?_, hfee,
        (Except.ok.inj h).symm⟩
      intro key' entry hentry
      exact hall (key', entry) ((order.mem_iff m.pending key' entry).mpr hentry)
    next => cases h
  · exact Or.inl ⟨not_le.mp hfull, (Except.ok.inj h).symm⟩

/-- What `add` has checked when it succeeds, and what it leaves. -/
theorem add_ok (h : m.add P order utxos params tx tipHeight = .ok m') :
    m.pending.lookup tx.id.toHex = none ∧
    ∃ fee m₁, validateTransaction P utxos tx tipHeight params = .ok fee ∧
      m.makeRoom order fee = .ok m₁ ∧ m' = ⟨m₁.pending.insert tx.id.toHex ⟨tx, fee⟩⟩ := by
  unfold add at h
  split_ifs at h with hcb hknown hconflict
  split at h
  next => cases h
  next fee hfee =>
    split_ifs at h with hlow
    split at h
    next => cases h
    next m₁ hroom =>
      exact ⟨by simpa using hknown, fee, m₁, hfee, hroom, (Except.ok.inj h).symm⟩

/-- An entry of the new mempool was there before or is the added one, whose fee
    is the one validation has returned. -/
theorem lookup_add (h : m.add P order utxos params tx tipHeight = .ok m') {key : String}
    {entry : MempoolEntry} (hentry : m'.pending.lookup key = some entry) :
    m.pending.lookup key = some entry ∨
      (entry.tx = tx ∧ validateTransaction P utxos tx tipHeight params = .ok entry.feeAtoms) := by
  obtain ⟨_, fee, m₁, hfee, hroom, rfl⟩ := add_ok h
  dsimp only at hentry
  rw [lookup_insert_ite] at hentry
  split_ifs at hentry with hkey
  · obtain rfl := Option.some.inj hentry
    exact Or.inr ⟨rfl, hfee⟩
  · rcases makeRoom_ok hroom with ⟨_, rfl⟩ | ⟨low, _, _, _, _, _, rfl⟩
    · exact Or.inl hentry
    · dsimp only at hentry
      rw [lookup_erase_ite] at hentry
      split_ifs at hentry
      exact Or.inl hentry

/-- An entry that `add` removes was the victim of a full mempool: the added
    transaction pays a higher fee. Every other entry stays as it is. -/
theorem add_keeps (h : m.add P order utxos params tx tipHeight = .ok m') {key : String}
    {entry : MempoolEntry} (hentry : m.pending.lookup key = some entry) :
    m'.pending.lookup key = some entry ∨
      (m'.pending.lookup key = none ∧ maxMempoolTxs ≤ m.pending.keys.card ∧
        ∃ fee, validateTransaction P utxos tx tipHeight params = .ok fee ∧
          entry.feeAtoms < fee) := by
  obtain ⟨hfresh, fee, m₁, hfee, hroom, rfl⟩ := add_ok h
  have hne : tx.id.toHex ≠ key := by
    rintro rfl
    rw [hfresh] at hentry
    cases hentry
  dsimp only
  rw [lookup_insert_ite, if_neg hne]
  rcases makeRoom_ok hroom with ⟨_, rfl⟩ | ⟨low, lowEntry, hfull, hlow, _, hless, rfl⟩
  · exact Or.inl hentry
  · dsimp only
    rw [lookup_erase_ite]
    by_cases hkey : key = low
    · subst hkey
      rw [if_pos rfl]
      obtain rfl := Option.some.inj (hlow.symm.trans hentry)
      exact Or.inr ⟨rfl, hfull, fee, hfee, hless⟩
    · rw [if_neg hkey]
      exact Or.inl hentry

end Mempool

/-! ## Requests -/

namespace Node

variable {P : Primitives} {params : ConsensusParams} {U : Set Block} {node : Node}

/-- The requests that change a node, with the order in which each of them finds
    the pending transactions. -/
inductive Request where
  | acceptPeerTx (order : PendingOrder) (tx : Transaction)
  | sendRawTransaction (order : PendingOrder) (tx : Transaction)
  | acceptPeerBlock (order : PendingOrder) (block : Block) (nowSeconds : Nat)
  | submitBlock (order : PendingOrder) (block : Block) (nowSeconds : Nat)

/-- The node after a request, successful or not. -/
def serve (P : Primitives) (params : ConsensusParams) (node : Node) : Request → Node
  | .acceptPeerTx order tx => (node.acceptPeerTx P params order tx).2
  | .sendRawTransaction order tx => (node.sendRawTransaction P params order tx).2
  | .acceptPeerBlock order block nowSeconds =>
    (node.acceptPeerBlock P params order block nowSeconds).2
  | .submitBlock order block nowSeconds => (node.submitBlock P params order block nowSeconds).2

/-- The block a request carries, with the time it is submitted at. -/
def Request.block? : Request → Option (Block × Nat)
  | .acceptPeerTx _ _ | .sendRawTransaction _ _ => none
  | .acceptPeerBlock _ block nowSeconds | .submitBlock _ block nowSeconds => some (block, nowSeconds)

/-- The order of iteration of a request. -/
def Request.order : Request → PendingOrder
  | .acceptPeerTx order _ | .sendRawTransaction order _ => order
  | .acceptPeerBlock order _ _ | .submitBlock order _ _ => order

/-- A request admits a transaction or takes a block; the two ways to ask for
    either differ in the reply only. -/
theorem serve_cases (P : Primitives) (params : ConsensusParams) (node : Node)
    (request : Request) :
    (∃ tx, request.block? = none ∧
      node.serve P params request = (node.acceptPeerTx P params request.order tx).2) ∨
    ∃ block nowSeconds, request.block? = some (block, nowSeconds) ∧
      node.serve P params request
        = (node.takeBlock P params request.order block nowSeconds).2 := by
  -- The handlers wrap the two functions and look at the result for the reply.
  cases request with
  | acceptPeerTx order tx => exact Or.inl ⟨tx, rfl, rfl⟩
  | sendRawTransaction order tx =>
    refine Or.inl ⟨tx, rfl, ?_⟩
    show (node.sendRawTransaction P params order tx).2 = (node.acceptPeerTx P params order tx).2
    unfold sendRawTransaction
    cases node.acceptPeerTx P params order tx with
    | mk result node' =>
      cases result with
      | error e => rfl
      | ok _ => rfl
  | acceptPeerBlock order block nowSeconds =>
    refine Or.inr ⟨block, nowSeconds, rfl, ?_⟩
    show (node.acceptPeerBlock P params order block nowSeconds).2
      = (node.takeBlock P params order block nowSeconds).2
    unfold acceptPeerBlock
    cases node.takeBlock P params order block nowSeconds with
    | mk result node' =>
      cases result with
      | error e => rfl
      | ok _ => rfl
  | submitBlock order block nowSeconds =>
    refine Or.inr ⟨block, nowSeconds, rfl, ?_⟩
    show (node.submitBlock P params order block nowSeconds).2
      = (node.takeBlock P params order block nowSeconds).2
    unfold submitBlock
    cases node.takeBlock P params order block nowSeconds with
    | mk result node' =>
      cases result with
      | error e => rfl
      | ok submission =>
        cases submission with
        | alreadyKnown => rfl
        | accepted canonical => rfl

/-! ## Requeueing -/

section requeue

variable {order : PendingOrder} {s : ChainState} {tipHeight : Nat}

/-- The mempools before and after each call of `Mempool::add` in the loop of
    `requeue_reorged_transactions`. -/
def requeueCalls (P : Primitives) (params : ConsensusParams) (order : PendingOrder)
    (s : ChainState) (tipHeight : Nat) : Mempool → List Transaction → List (Mempool × Mempool)
  | _, [] => []
  | m, tx :: txs =>
    let m' := (requeueOne P params order s tipHeight (m, 0) tx).1
    (m, m') :: requeueCalls P params order s tipHeight m' txs

/-- Some call of `Mempool::add` has removed the entry, which it does only to make
    room for a transaction with a higher fee (`Mempool.add_keeps`). -/
def EvictedIn (calls : List (Mempool × Mempool)) (key : String) : Prop :=
  ∃ call ∈ calls, (call.1.pending.lookup key).isSome ∧ call.2.pending.lookup key = none

/-- The set seeded for a transaction gives it the verdict of the whole one. -/
theorem validateTransaction_seeded (s : ChainState) (tx : Transaction) (height : Nat) :
    validateTransaction P (seedUtxosForTx s tx) tx height params
      = validateTransaction P s.db.utxo tx height params := by
  refine validateTransaction_congr ?_
  intro op hop
  unfold Transaction.outpoints at hop
  unfold seedUtxosForTx
  rw [ChainState.Represents.lookup_foldl_seedInput, if_pos hop, Finmap.lookup_empty,
    Option.or_none]

/-- How many were requeued before does not matter for the mempool. -/
theorem requeueOne_fst (acc : Mempool × Nat) (tx : Transaction) :
    (requeueOne P params order s tipHeight acc tx).1
      = (requeueOne P params order s tipHeight (acc.1, 0) tx).1 := by
  unfold requeueOne
  cases acc.1.add P order (seedUtxosForTx s tx) params tx tipHeight with
  | error e => rfl
  | ok m => rfl

/-- The loop keeps an entry unless one of its calls evicts it. -/
theorem requeue_keeps {key : String} {entry : MempoolEntry} (txs : List Transaction)
    (acc : Mempool × Nat) (hentry : acc.1.pending.lookup key = some entry)
    (hevict : ¬ EvictedIn (requeueCalls P params order s tipHeight acc.1 txs) key) :
    (txs.foldl (requeueOne P params order s tipHeight) acc).1.pending.lookup key = some entry := by
  induction txs generalizing acc with
  | nil => exact hentry
  | cons tx txs ih =>
    have hhead : (requeueOne P params order s tipHeight (acc.1, 0) tx).1.pending.lookup key
        = some entry := by
      by_contra hlost
      refine hevict ⟨_, List.mem_cons_self, by rw [hentry]; rfl, ?_⟩
      show (requeueOne P params order s tipHeight (acc.1, 0) tx).1.pending.lookup key = none
      unfold requeueOne at hlost ⊢
      cases hadd : acc.1.add P order (seedUtxosForTx s tx) params tx tipHeight with
      | error e =>
        rw [hadd] at hlost
        exact absurd hentry hlost
      | ok m =>
        rw [hadd] at hlost
        rcases Mempool.add_keeps hadd hentry with hkept | ⟨hgone, _⟩
        · exact absurd hkept hlost
        · exact hgone
    rw [← requeueOne_fst] at hhead
    refine ih _ hhead ?_
    rintro ⟨call, hcall, hevicted⟩
    rw [requeueOne_fst] at hcall
    exact hevict ⟨call, List.mem_cons_of_mem _ hcall, hevicted⟩

/-- An entry behind the loop was there before, or is valid against the set of the
    state with the fee it carries. -/
theorem lookup_requeue {key : String} {entry : MempoolEntry} (txs : List Transaction)
    (acc : Mempool × Nat)
    (hentry : (txs.foldl (requeueOne P params order s tipHeight) acc).1.pending.lookup key
      = some entry) :
    acc.1.pending.lookup key = some entry ∨
      (txs ≠ [] ∧ validateTransaction P s.db.utxo entry.tx tipHeight params
        = .ok entry.feeAtoms) := by
  induction txs generalizing acc with
  | nil => exact Or.inl hentry
  | cons tx txs ih =>
    rcases ih _ hentry with hhead | ⟨_, hvalid⟩
    · unfold requeueOne at hhead
      cases hadd : acc.1.add P order (seedUtxosForTx s tx) params tx tipHeight with
      | error e =>
        rw [hadd] at hhead
        exact Or.inl hhead
      | ok m =>
        rw [hadd] at hhead
        rcases Mempool.lookup_add hadd hhead with hold | ⟨rfl, hvalid⟩
        · exact Or.inl hold
        · rw [validateTransaction_seeded] at hvalid
          exact Or.inr ⟨List.cons_ne_nil _ _, hvalid⟩
    · exact Or.inr ⟨List.cons_ne_nil _ _, hvalid⟩

end requeue

/-! ## The chain behind a node -/

/-- A node whose database is that of a reachable chain state. -/
def Sound (P : Primitives) (params : ConsensusParams) (U : Set Block) (node : Node) : Prop :=
  ChainState.Reachable P params U node.loadState

/-- The canonical chain of a node, genesis first. -/
def canonicalChain (node : Node) : List Block := node.loadState.canonicalBlocksIter

/-- A transaction is valid against the canonical set of unspent outputs at the
    height of the tip, with the given fee. -/
def ValidNow (P : Primitives) (params : ConsensusParams) (node : Node) (tx : Transaction)
    (fee : UInt64) : Prop :=
  ∃ u, replayUtxo P params node.canonicalChain = .ok u ∧
    validateTransaction P u tx (node.loadState.height.getD 0) params = .ok fee

@[simp] theorem loadState_db (node : Node) : node.loadState.db = node.db :=
  ChainState.openDb_db node.db

/-- A database stored by a reachable state makes a sound node. -/
theorem Sound.of_reachable {s : ChainState} (hs : ChainState.Reachable P params U s)
    (hU : HashFaithful P U) (hdb : node.db = s.db) : Sound P params U node := by
  obtain ⟨L, hR, hL⟩ := hs.represents hU
  have hstep : node.loadState = s.step P params .reopen := by
    unfold loadState
    rw [hdb]
    rfl
  unfold Sound
  rw [hstep]
  exact .step _ hs ((hR.openDb hL).storesOnly hL)

/-- A node whose database is that of a state that stores a ledger. -/
theorem represents_of_db {s : ChainState} {L : Ledger}
    (hR : ChainState.Represents P params s L) (hL : L.WellFormed P U) (hdb : node.db = s.db) :
    ChainState.Represents P params node.loadState L := by
  unfold loadState
  rw [hdb]
  exact hR.openDb hL

/-- Admitting a transaction synchronises the set of unspent outputs; the mempool
    stays or is what `Mempool::add` makes of it. -/
theorem acceptPeerTx_cases (P : Primitives) (params : ConsensusParams) (node : Node)
    (order : PendingOrder) (tx : Transaction) :
    (node.acceptPeerTx P params order tx).2.db
      = (node.loadState.ensureUtxoSynced P params).2.db ∧
    ((node.acceptPeerTx P params order tx).2.mempool = node.mempool ∨
      ∃ s, node.loadState.ensureUtxoSynced P params = (.ok (), s) ∧
        node.mempool.add P order (seedUtxosForTx s tx) params tx (s.height.getD 0)
          = .ok (node.acceptPeerTx P params order tx).2.mempool) := by
  unfold acceptPeerTx
  cases node.loadState.ensureUtxoSynced P params with
  | mk result s =>
    cases result with
    | error e => exact ⟨rfl, Or.inl rfl⟩
    | ok _ =>
      dsimp only
      cases hadd : node.mempool.add P order (seedUtxosForTx s tx) params tx (s.height.getD 0) with
      | error e => exact ⟨rfl, Or.inl rfl⟩
      | ok m => exact ⟨rfl, Or.inr ⟨s, rfl, hadd⟩⟩

theorem takeBlock_db (P : Primitives) (params : ConsensusParams) (node : Node)
    (order : PendingOrder) (block : Block) (nowSeconds : Nat) :
    (node.takeBlock P params order block nowSeconds).2.db
      = (node.loadState.submitBlock P params block nowSeconds).2.db := by
  unfold takeBlock
  cases node.loadState.submitBlock P params block nowSeconds with
  | mk result s =>
    cases result with
    | ok accepted =>
      dsimp only
      unfold requeueReorgedTransactions
      dsimp only [ChainState.takeReorgRequeueCandidates]
      split_ifs
      · rfl
      · rfl
    | error e =>
      cases e with
      | alreadyKnown => rfl
      | _ => rfl

/-- A submission that fails leaves the mempool alone. -/
theorem takeBlock_mempool_error {order : PendingOrder} {block : Block} {nowSeconds : Nat}
    {e : StateError}
    (h : (node.loadState.submitBlock P params block nowSeconds).1 = .error e) :
    (node.takeBlock P params order block nowSeconds).2.mempool = node.mempool := by
  unfold takeBlock
  cases hsub : node.loadState.submitBlock P params block nowSeconds with
  | mk result s =>
    rw [hsub] at h
    dsimp only at h
    subst h
    cases e with
    | alreadyKnown => rfl
    | _ => rfl

/-- The calls of `Mempool::add` that follow a submission. -/
def requeueCallsOf (P : Primitives) (params : ConsensusParams) (order : PendingOrder) (node : Node)
    (block : Block) (nowSeconds : Nat) : List (Mempool × Mempool) :=
  match node.loadState.submitBlock P params block nowSeconds with
  | (.error _, _) => []
  | (.ok accepted, s) =>
    let (candidates, s) := s.takeReorgRequeueCandidates
    requeueCalls P params order s (s.height.getD 0) (node.mempool.removeConfirmed accepted)
      candidates

/-- A submission that succeeds removes what the block confirms, then requeues. -/
theorem takeBlock_mempool_ok {order : PendingOrder} {block accepted : Block} {nowSeconds : Nat}
    {s : ChainState}
    (h : node.loadState.submitBlock P params block nowSeconds = (.ok accepted, s)) :
    (node.takeBlock P params order block nowSeconds).2.mempool
      = (s.takeReorgRequeueCandidates.1.foldl
          (requeueOne P params order s.takeReorgRequeueCandidates.2 (s.height.getD 0))
          (node.mempool.removeConfirmed accepted, 0)).1 := by
  unfold takeBlock
  rw [h]
  dsimp only
  unfold requeueReorgedTransactions
  dsimp only
  split_ifs with hempty
  · rw [List.isEmpty_iff.mp hempty]
    rfl
  · rfl

/-! ## Sync

    Whatever the peer sends, sync changes the chain state by submissions only. -/

section sync

theorem applyBatch_submits (P : Primitives) (params : ConsensusParams) (now : Block → Nat)
    (fetchFrom : Nat) (blocks : List Block) (applied : Nat) (s : ChainState) :
    ChainState.Submits P params s (applyBatch P params now fetchFrom blocks applied s).2 := by
  induction blocks generalizing applied s with
  | nil => exact .refl
  | cons block blocks ih =>
    have hone : ChainState.Submits P params s
        (s.submitBlock P params block (now block)).2 := .submit block _ .refl
    unfold applyBatch
    cases hsub : s.submitBlock P params block (now block) with
    | mk result s₁ =>
      rw [hsub] at hone
      cases result with
      | ok _ => exact hone.trans (ih (applied + 1) s₁)
      | error e =>
        cases e with
        | alreadyKnown => exact hone.trans (ih (applied + 1) s₁)
        | unknownParent =>
          dsimp only
          split_ifs
          · exact hone
          · exact hone
        | _ => exact hone

theorem syncRound_submits (P : Primitives) (params : ConsensusParams) (now : Block → Nat)
    (remoteHeight : Nat) (fetch : Nat → Except String (List Block)) (st : SyncLoop) :
    match syncRound P params now remoteHeight fetch st with
    | .done _ s' => ChainState.Submits P params st.state s'
    | .again st' => ChainState.Submits P params st.state st'.state := by
  unfold syncRound
  cases fetch st.fetchFrom with
  | error reason => exact .refl
  | ok blocks =>
    cases blocks with
    | nil => exact .refl
    | cons block blocks =>
      have hbatch :=
        applyBatch_submits P params now st.fetchFrom (block :: blocks) 0 st.state
      dsimp only
      -- What is left of the round submits nothing.
      cases hrun : applyBatch P params now st.fetchFrom (block :: blocks) 0 st.state with
      | mk batchEnd s₁ =>
        rw [hrun] at hbatch
        cases batchEnd with
        | failed e => exact hbatch
        | forkedAt height =>
          dsimp only
          split_ifs
          · exact hbatch
          · exact hbatch
        | applied count =>
          dsimp only
          split_ifs
          · exact hbatch
          · exact hbatch

theorem syncLoop_submits {now : Block → Nat} {remoteHeight : Nat}
    {fetch : Nat → Except String (List Block)} {fuel : Nat} {st : SyncLoop}
    {result : Except SyncError Nat} {s' : ChainState}
    (h : syncLoop P params now remoteHeight fetch fuel st = some (result, s')) :
    ChainState.Submits P params st.state s' := by
  induction fuel generalizing st with
  | zero => cases h
  | succ fuel ih =>
    have hround := syncRound_submits P params now remoteHeight fetch st
    unfold syncLoop at h
    cases hrun : syncRound P params now remoteHeight fetch st with
    | done r s₁ =>
      rw [hrun] at h hround
      obtain ⟨rfl, rfl⟩ := Prod.mk.inj (Option.some.inj h)
      exact hround
    | again st₁ =>
      rw [hrun] at h hround
      exact hround.trans (ih h)

/-- The mempool behind `requeue_reorged_transactions`. -/
theorem requeueReorgedTransactions_mempool (P : Primitives) (params : ConsensusParams)
    (order : PendingOrder) (s : ChainState) (m : Mempool) :
    (requeueReorgedTransactions P params order s m).2.1
      = (s.takeReorgRequeueCandidates.1.foldl
          (requeueOne P params order s.takeReorgRequeueCandidates.2 (s.height.getD 0)) (m, 0)).1 := by
  unfold requeueReorgedTransactions
  dsimp only
  split_ifs with hempty
  · rw [List.isEmpty_iff.mp hempty]
    rfl
  · rfl

/-- Requeueing changes no stored data. -/
theorem requeueReorgedTransactions_db (P : Primitives) (params : ConsensusParams)
    (order : PendingOrder) (s : ChainState) (m : Mempool) :
    (requeueReorgedTransactions P params order s m).1.db = s.db := by
  unfold requeueReorgedTransactions
  dsimp only
  split_ifs
  · rfl
  · rfl

/-- How a completed `sync_from_peer` ends: nothing was asked for, or
    `sync_blocks` has run, and on success the disconnected transactions are
    offered. -/
theorem syncFromPeer_cases {node' : Node} {order : PendingOrder} {now : Block → Nat} {remote : P2pHello}
    {fetch : Nat → Except String (List Block)} {fuel : Nat} {result : Except SyncError Unit}
    (h : node.syncFromPeer P params order now remote fetch fuel = some (result, node')) :
    node' = node ∨
    ∃ outcome s,
      syncBlocks P params now remote.height fetch fuel node.loadState = some (outcome, s) ∧
      result = outcome.map (fun _ => ()) ∧ node'.db = s.db ∧
      (node'.mempool = node.mempool ∨
        node'.mempool = (requeueReorgedTransactions P params order s node.mempool).2.1) := by
  unfold syncFromPeer at h
  split at h
  · exact Or.inl (Prod.mk.inj (Option.some.inj h)).2.symm
  · by_cases hgate : remote.height ≤ node.loadState.height.getD 0
    · rw [if_pos hgate] at h
      exact Or.inl (Prod.mk.inj (Option.some.inj h)).2.symm
    · rw [if_neg hgate] at h
      right
      split at h
      · cases h
      next e s hsync =>
        obtain ⟨rfl, rfl⟩ := Prod.mk.inj (Option.some.inj h)
        exact ⟨_, s, hsync, rfl, rfl, Or.inl rfl⟩
      next count s hsync =>
        have hdb := requeueReorgedTransactions_db P params order s node.mempool
        refine ⟨_, s, hsync, ?_⟩
        generalize requeueReorgedTransactions P params order s node.mempool = requeue at h hdb ⊢
        obtain ⟨rfl, rfl⟩ := Prod.mk.inj (Option.some.inj h)
        refine ⟨rfl, hdb, ?_⟩
        -- The mempool is written only if something was requeued.
        by_cases hany : requeue.2.2 > 0
        · right
          exact if_pos hany
        · left
          exact if_neg hany

/-- A successful `sync_blocks` makes a successful `sync_from_peer`. -/
theorem syncFromPeer_ok (order : PendingOrder) {now : Block → Nat} {remote : P2pHello}
    {fetch : Nat → Except String (List Block)} {fuel synced : Nat} {s : ChainState}
    (hhello : validateHello remote params = .ok ())
    (hgate : node.loadState.height.getD 0 < remote.height)
    (hsync : syncBlocks P params now remote.height fetch fuel node.loadState
      = some (.ok synced, s)) :
    ∃ node', node.syncFromPeer P params order now remote fetch fuel = some (.ok (), node') ∧
      node'.db = s.db := by
  unfold syncFromPeer
  rw [hhello]
  dsimp only
  rw [if_neg (not_le.mpr hgate), hsync]
  exact ⟨_, rfl, requeueReorgedTransactions_db P params order s node.mempool⟩

/-- And the other way round. -/
theorem syncFromPeer_ok_inv {order : PendingOrder} {now : Block → Nat} {remote : P2pHello}
    {fetch : Nat → Except String (List Block)} {fuel : Nat} {node' : Node}
    (hhello : validateHello remote params = .ok ())
    (hgate : node.loadState.height.getD 0 < remote.height)
    (h : node.syncFromPeer P params order now remote fetch fuel = some (.ok (), node')) :
    ∃ synced s, syncBlocks P params now remote.height fetch fuel node.loadState
      = some (.ok synced, s) ∧ node'.db = s.db := by
  unfold syncFromPeer at h
  rw [hhello] at h
  dsimp only at h
  rw [if_neg (not_le.mpr hgate)] at h
  split at h
  · cases h
  · cases h
  next synced s hsync =>
    refine ⟨synced, s, hsync, ?_⟩
    have hdb := requeueReorgedTransactions_db P params order s node.mempool
    generalize requeueReorgedTransactions P params order s node.mempool = requeue at h hdb
    obtain ⟨_, rfl⟩ := Prod.mk.inj (Option.some.inj h)
    exact hdb

/-- A `sync_blocks` that does not end keeps `sync_from_peer` from ending. -/
theorem syncFromPeer_none {order : PendingOrder} {now : Block → Nat} {remote : P2pHello}
    {fetch : Nat → Except String (List Block)} {fuel : Nat}
    (hhello : validateHello remote params = .ok ())
    (hgate : node.loadState.height.getD 0 < remote.height)
    (hsync : syncBlocks P params now remote.height fetch fuel node.loadState = none) :
    node.syncFromPeer P params order now remote fetch fuel = none := by
  unfold syncFromPeer
  rw [hhello]
  dsimp only
  rw [if_neg (not_le.mpr hgate), hsync]

/-- A peer that is no taller is not asked. -/
theorem syncFromPeer_gate {order : PendingOrder} {now : Block → Nat} {remote : P2pHello}
    {fetch : Nat → Except String (List Block)} {fuel : Nat}
    (hhello : validateHello remote params = .ok ())
    (hgate : remote.height ≤ node.loadState.height.getD 0) :
    node.syncFromPeer P params order now remote fetch fuel = some (.ok (), node) := by
  unfold syncFromPeer
  rw [hhello]
  dsimp only
  rw [if_pos hgate]

end sync

end Node

end Tensorium
