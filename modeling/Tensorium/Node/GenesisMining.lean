import Tensorium.Core.Assets
import Tensorium.Lib.ParallelSearch
import Tensorium.State.Mining

/-! # Mining the genesis block

    `mine-genesis`: `mine_genesis_multithreaded` starts a thread for each residue of
    the nonces, which try one nonce after the other until one of them meets the work.
    They share the flag `done` and the cell `winner`, in which `u64::MAX` stands for no
    nonce. A step is what a thread does between two accesses to these. The counter of
    hashes and what is printed are left out.
-/

namespace Tensorium.GenesisMining

open GuardedRun Assets

/-- `MAINNET_GENESIS_TIMESTAMP`. -/
def mainnetGenesisTimestamp : Nat := 1781144892

/-- `genesis_header_template`. -/
def genesisHeaderTemplate (P : Primitives) (timestampSeconds : Nat) : BlockHeader :=
  let params := mainnet
  let reward := rewardAtHeight params 0
  let coinbase := Transaction.genesisCoinbase P reward "genesis" params.founderAllocationAtoms
    params.founderAddress params.genesisAllocations
  let realMerkle := merkleRoot P [coinbase]
  { version := 1
    chainId := params.chainId
    height := 0
    previousHash := .zero
    merkleRoot := realMerkle
    timestampSeconds := timestampSeconds
    leadingZeroBits := params.initialLeadingZeroBits
    nonce := 0 }

/-- `init_mainnet_state`, on the state that `open_db` returns. -/
def initMainnetState (P : Primitives) (state : ChainState) (nonce : UInt64) : Outcome Block :=
  state.initGenesisNonce P mainnet mainnetGenesisTimestamp nonce

/-- `verify-genesis`, less what it prints. -/
def verifyGenesis (P : Primitives) (timestamp : Nat) (nonce : UInt64) : Except String Unit :=
  let header := { genesisHeaderTemplate P timestamp with nonce := nonce }
  if headerMeetsWork P header .zero then .ok ()
  else .error s!"genesis nonce {nonce} does not satisfy {header.leadingZeroBits} leading zero bits"

/-! ## The threads -/

/-- A thread between two accesses to what it shares. -/
inductive Thread where
  /-- At the head of its loop, with the nonce it tries next. -/
  | searching (nonce : UInt64)
  /-- At `done.store(true)`, with a nonce that meets the work. -/
  | storingDone (nonce : UInt64)
  /-- At `winner.store(nonce)`. -/
  | storingWinner (nonce : UInt64)
  | returned
  deriving DecidableEq

structure Mining (threads : UInt64) where
  done : Bool
  winner : UInt64
  thread : Fin threads.toNat → Thread

inductive Event (threads : UInt64) where
  /-- It loads `done`, which gives the value of before a store unless `fresh`, and tries
      its nonce if that is `false`. -/
  | check (t : Fin threads.toNat) (fresh : Bool)
  | storeDone (t : Fin threads.toNat)
  | storeWinner (t : Fin threads.toNat)

variable {P : Primitives} {threads : UInt64} {s : Mining threads}

/-- The threads as they are spawned. -/
def spawn (threads : UInt64) : Mining threads where
  done := false
  winner := 18446744073709551615
  thread := fun t => .searching (UInt64.ofNat t)

def setThread (s : Mining threads) (t : Fin threads.toNat) (thread : Thread) : Mining threads :=
  { s with thread := Function.update s.thread t thread }

/-- The header of the template with a nonce meets the work. -/
def Meets (P : Primitives) (nonce : UInt64) : Prop :=
  headerMeetsWork P { genesisHeaderTemplate P mainnetGenesisTimestamp with nonce := nonce }
    .zero = true

instance (P : Primitives) (nonce : UInt64) : Decidable (Meets P nonce) :=
  inferInstanceAs (Decidable (_ = true))

/-- The rest of the loop of a thread that has not seen `done`. -/
def tryNonce (P : Primitives) (stride nonce : UInt64) : Thread :=
  if Meets P nonce then .storingDone nonce
  else
    match checkedAdd nonce stride with
    | some n => .searching n
    | none => .returned

@[simp] theorem setThread_self (t : Fin threads.toNat) (thread : Thread) :
    (setThread s t thread).thread t = thread := by
  simp [setThread]

@[simp] theorem setThread_ne {t t' : Fin threads.toNat} (thread : Thread) (h : t' ≠ t) :
    (setThread s t thread).thread t' = s.thread t' := by
  simp [setThread, h]

def step (P : Primitives) (s : Mining threads) : Event threads → Mining threads
  | .check t fresh =>
    match s.thread t with
    | .searching nonce =>
      if fresh && s.done then setThread s t .returned
      else setThread s t (tryNonce P threads nonce)
    | _ => s
  | .storeDone t =>
    match s.thread t with
    | .storingDone nonce => { setThread s t (.storingWinner nonce) with done := true }
    | _ => s
  | .storeWinner t =>
    match s.thread t with
    | .storingWinner nonce => { setThread s t .returned with winner := nonce }
    | _ => s

/-- The event is the next of its thread. -/
def IsNext (s : Mining threads) : Event threads → Prop
  | .check t _ => ∃ nonce, s.thread t = .searching nonce
  | .storeDone t => ∃ nonce, s.thread t = .storingDone nonce
  | .storeWinner t => ∃ nonce, s.thread t = .storingWinner nonce

instance (s : Mining threads) : DecidablePred (IsNext s)
  | .check t _ => match h : s.thread t with
    | .searching nonce => .isTrue ⟨nonce, h⟩
    | .storingDone _ | .storingWinner _ | .returned => .isFalse (by simp [IsNext, h])
  | .storeDone t => match h : s.thread t with
    | .storingDone nonce => .isTrue ⟨nonce, h⟩
    | .searching _ | .storingWinner _ | .returned => .isFalse (by simp [IsNext, h])
  | .storeWinner t => match h : s.thread t with
    | .storingWinner nonce => .isTrue ⟨nonce, h⟩
    | .searching _ | .storingDone _ | .returned => .isFalse (by simp [IsNext, h])

/-- All threads can be joined. -/
def Joined (s : Mining threads) : Prop := ∀ t, s.thread t = .returned

/-- What `mine_genesis_multithreaded` returns once the threads are joined. -/
def result (s : Mining threads) : Except String UInt64 :=
  if s.winner = 18446744073709551615 then
    .error "nonce space exhausted without finding genesis — impossible at diff < 64"
  else .ok s.winner

/-! ## As a search by several workers -/

/-- The search the threads carry out. -/
def search (P : Primitives) (threads : UInt64) :
    ParallelSearch.Search (Fin threads.toNat) UInt64 UInt64 where
  start := fun t => some (UInt64.ofNat t)
  next := fun _ nonce => checkedAdd nonce threads
  Yields := fun _ nonce hit => hit = nonce ∧ Meets P nonce
  exclusive := false

open ParallelSearch (Phase)

def phaseOf : Thread → Phase UInt64 UInt64
  | .searching nonce => .looking nonce
  | .storingDone nonce => .raising nonce
  | .storingWinner nonce => .writing nonce
  | .returned => .left

/-- A state of the threads as one of the search. In the cell, a missing winner is
    `u64::MAX`. -/
structure Abstracts (s : Mining threads)
    (a : ParallelSearch.State (Fin threads.toNat) UInt64 UInt64) : Prop where
  raised : a.raised = s.done
  winner : s.winner = a.winner.getD 18446744073709551615
  phase : ∀ t, a.phase t = phaseOf (s.thread t)

theorem abstracts_spawn : Abstracts (spawn threads) (search P threads).init where
  raised := rfl
  winner := rfl
  phase := fun _ => rfl

theorem Abstracts.setThread {a : ParallelSearch.State (Fin threads.toNat) UInt64 UInt64}
    (h : Abstracts s a) (t : Fin threads.toNat) (thread : Thread) :
    Abstracts (setThread s t thread) (ParallelSearch.Search.setPhase a t (phaseOf thread)) where
  raised := h.raised
  winner := h.winner
  phase := by
    intro t'
    by_cases ht : t' = t
    · subst ht
      simp
    · simp [ht, h.phase t']

/-- Every step of a thread is one of the search. -/
theorem Abstracts.step {a : ParallelSearch.State (Fin threads.toNat) UInt64 UInt64}
    {e : Event threads} (h : Abstracts s a) (he : IsNext s e) :
    ∃ e', (search P threads).Enabled a e' ∧
      Abstracts (step P s e) ((search P threads).step a e') := by
  cases e with
  | check t fresh =>
    obtain ⟨nonce, hnonce⟩ := he
    have hphase := h.phase t
    rw [hnonce] at hphase
    simp only [GenesisMining.step, hnonce]
    split_ifs with hdone
    · have hraised : a.raised = true := h.raised.trans (Bool.and_eq_true_iff.mp hdone).2
      exact ⟨.see t, ⟨hraised, nonce, hphase⟩, h.setThread t .returned⟩
    · by_cases hmeets : Meets P nonce
      · refine ⟨.hit t nonce, ⟨nonce, hphase, rfl, hmeets⟩, ?_⟩
        rw [tryNonce, if_pos hmeets]
        exact h.setThread t (.storingDone nonce)
      · refine ⟨.miss t, ⟨nonce, hphase, fun b hb => hmeets hb.2⟩, ?_⟩
        rw [tryNonce, if_neg hmeets]
        rw [ParallelSearch.Search.step_miss hphase]
        show Abstracts _ (ParallelSearch.Search.setPhase a t
          (ParallelSearch.Search.toward (checkedAdd nonce threads)))
        cases checkedAdd nonce threads with
        | none => exact h.setThread t .returned
        | some n => exact h.setThread t (.searching n)
  | storeDone t =>
    obtain ⟨nonce, hnonce⟩ := he
    have hphase := h.phase t
    rw [hnonce] at hphase
    refine ⟨.raise t, ⟨nonce, hphase⟩, ?_⟩
    have hset := h.setThread t (.storingWinner nonce)
    rw [ParallelSearch.Search.step_raise hphase (by simp [search])]
    simp only [GenesisMining.step, hnonce]
    exact ⟨rfl, hset.winner, hset.phase⟩
  | storeWinner t =>
    obtain ⟨nonce, hnonce⟩ := he
    have hphase := h.phase t
    rw [hnonce] at hphase
    refine ⟨.write t, ⟨nonce, hphase⟩, ?_⟩
    have hset := h.setThread t .returned
    rw [ParallelSearch.Search.step_write hphase]
    simp only [GenesisMining.step, hnonce]
    exact ⟨hset.raised, rfl, hset.phase⟩

/-- Every nonce is a candidate of the thread of its residue. -/
theorem exists_candidate (hthreads : threads ≠ 0) (nonce : UInt64) :
    ∃ t, (search P threads).Candidate t nonce := by
  have hpos : 0 < threads.toNat := Nat.pos_of_ne_zero fun h => hthreads (UInt64.toNat_inj.mp h)
  let t : Fin threads.toNat := ⟨nonce.toNat % threads.toNat, Nat.mod_lt _ hpos⟩
  have hlater : ∀ (k : Nat) (n : UInt64), n.toNat = t + k * threads.toNat →
      (search P threads).Candidate t n := by
    intro k
    induction k with
    | zero =>
      intro n hn
      have hstart : UInt64.ofNat t = n := by
        rw [← UInt64.ofNat_toNat (x := n), hn, Nat.zero_mul, Nat.add_zero]
      exact .start (congrArg some hstart)
    | succ k ih =>
      intro n hn
      rw [Nat.succ_mul, ← Nat.add_assoc] at hn
      have hlt : t + k * threads.toNat < 2 ^ 64 := by
        have hn64 := n.toNat_lt
        omega
      have hprev := UInt64.toNat_ofNat_of_lt' hlt
      exact .next (ih _ hprev) (checkedAdd_eq_some.mpr (by rw [hprev]; exact hn))
  refine ⟨t, hlater (nonce.toNat / threads.toNat) nonce ?_⟩
  rw [Nat.mul_comm]
  exact (Nat.mod_add_div _ _).symm

theorem meets_of_hit {nonce : UInt64} (h : (search P threads).Hit nonce) : Meets P nonce := by
  obtain ⟨t, n, _, rfl, hmeets⟩ := h
  exact hmeets

theorem hit_of_meets (hthreads : threads ≠ 0) {nonce : UInt64} (h : Meets P nonce) :
    (search P threads).Hit nonce := by
  obtain ⟨t, ht⟩ : ∃ t, (search P threads).Candidate t nonce := exists_candidate hthreads nonce
  exact ⟨t, nonce, ht, rfl, h⟩

/-- The nonces above the one a thread is at. -/
def rank (nonce : UInt64) : Nat := 2 ^ 64 - nonce.toNat

theorem rank_next (t : Fin threads.toNat) {n n' : UInt64}
    (h : (search P threads).next t n = some n') : rank n' < rank n := by
  have hsum := checkedAdd_eq_some.mp h
  have hpos : 0 < threads.toNat := Nat.lt_of_le_of_lt (Nat.zero_le _) t.isLt
  have hlt := n'.toNat_lt
  unfold rank
  omega

theorem remaining_init_le (P : Primitives) (threads : UInt64) :
    ParallelSearch.Search.remaining (fun _ => rank) (search P threads).init
      ≤ threads.toNat * (2 ^ 64 + 3) := by
  have heach : ∀ t ∈ Finset.univ, ParallelSearch.Search.phaseRank (fun _ => rank) t
      ((search P threads).init.phase t) ≤ 2 ^ 64 + 3 := by
    intro t _
    show rank _ + 3 ≤ 2 ^ 64 + 3
    unfold rank
    omega
  have hsum := Finset.sum_le_card_nsmul _ _ _ heach
  rwa [Finset.card_univ, Fintype.card_fin, smul_eq_mul] at hsum

/-! ## The block -/

/-- A network without pre-mint has the same first coinbase either way. -/
theorem genesisCoinbase_eq (reward : UInt64) (miner : String) :
    Transaction.genesisCoinbase P reward miner 0 "" [] = Transaction.coinbase P 0 reward miner := by
  have houtputs : (if reward > 0 then [(⟨reward, Transaction.payTo P miner⟩ : TxOutput)] else [])
      = if reward = 0 then [] else [⟨reward, Transaction.payTo P miner⟩] := by
    by_cases hzero : reward = 0
    · rw [if_pos hzero, hzero, if_neg (by decide)]
    · rw [if_neg hzero, if_pos (UInt64.pos_iff_ne_zero.mpr hzero)]
  unfold Transaction.genesisCoinbase Transaction.coinbase
  rw [houtputs]
  simp [Transaction.premintOutputs]

/-- The template is the header that `init_genesis_nonce` checks. -/
theorem candidate_header (c : ChainState) (timestamp : Nat) (nonce : UInt64) :
    (((candidateBlock P mainnet none timestamp "genesis" [] 0).withBits
      (c.expectedLeadingZeroBitsFor mainnet none)).withNonce nonce).header
      = { genesisHeaderTemplate P timestamp with nonce := nonce } := by
  have hbits : c.expectedLeadingZeroBitsFor mainnet none = mainnet.initialLeadingZeroBits := rfl
  have hreward : Saturating.satAdd64 (rewardAtHeight mainnet 0) 0 = rewardAtHeight mainnet 0 := by
    decide
  have hpremint : hasGenesisPremint mainnet = false := by decide
  have hcoinbase := genesisCoinbase_eq (P := P) (rewardAtHeight mainnet 0) "genesis"
  unfold candidateBlock genesisHeaderTemplate Block.withBits Block.withNonce
  simp only [Option.elim_none, Option.map_none, Option.getD_none, hbits, hreward, hpremint,
    Bool.false_eq_true, and_false, if_false]
  rw [← hcoinbase]
  rfl

/-- The node makes its genesis block with exactly the nonces that meet the work. -/
theorem initMainnetState_of_meets {c : ChainState} (hempty : c.heightCache = none) {nonce : UInt64}
    (hmeets : Meets P nonce) :
    ∃ block c', initMainnetState P c nonce = (.ok block, c') ∧ c'.tipCache = some block ∧
      block.header = { genesisHeaderTemplate P mainnetGenesisTimestamp with nonce := nonce } := by
  have hheader := candidate_header (P := P) c mainnetGenesisTimestamp nonce
  have hwork : headerMeetsWork P (((candidateBlock P mainnet none mainnetGenesisTimestamp "genesis"
      [] 0).withBits (c.expectedLeadingZeroBitsFor mainnet none)).withNonce nonce).header
      (c.epochSeedForHeight P 0) = true := by
    rw [hheader]
    exact hmeets
  refine ⟨_, c.installTip P _, ?_, rfl, hheader⟩
  unfold initMainnetState ChainState.initGenesisNonce
  rw [hempty]
  dsimp only
  rw [if_neg (by simp), hwork, if_neg (by simp)]
  unfold ChainState.validateAndInstall
  rw [validateBlock_ok.mpr (candidateBlock_validated hwork)]

/-- **The threads find the genesis nonce.** However the threads interleave, and however
    late they see that one of them is done, no run is longer than the nonces allow, and
    as long as a thread is running it can go on. What they agree on in the end passes
    `verify-genesis`, and a fresh node makes its genesis block with it. They come out
    without a nonce only if there is no thread, or no nonce, or if `u64::MAX` is one,
    which stands for none. -/
theorem genesis_mined (P : Primitives) (threads : UInt64) (events : List (Event threads))
    (hrun : Along (step P) IsNext (spawn threads) events) :
    events.length ≤ threads.toNat * (2 ^ 64 + 3) ∧
    ∀ s, events.foldl (step P) (spawn threads) = s →
      (¬ Joined s → ∃ e, IsNext s e) ∧
      (Joined s →
        (∀ nonce, result s = .ok nonce →
          verifyGenesis P mainnetGenesisTimestamp nonce = .ok () ∧
          ∀ c : ChainState, c.heightCache = none →
            ∃ block c', initMainnetState P c nonce = (.ok block, c') ∧ c'.tipCache = some block ∧
              block.header = { genesisHeaderTemplate P mainnetGenesisTimestamp with
                nonce := nonce }) ∧
        ∀ e, result s = .error e →
          threads = 0 ∨ Meets P 18446744073709551615 ∨ ∀ nonce, ¬ Meets P nonce) := by
  obtain ⟨events', hlength, hrun', habstracts⟩ :=
    hrun.simulate Abstracts (fun _ _ _ h he => h.step he) (abstracts_spawn (P := P))
  refine ⟨?_, ?_⟩
  · have hbound := (search P threads).inv_init.length_le (fun t _ _ _ => rank_next t) hrun'
    have hinit := remaining_init_le P threads
    omega
  · rintro s rfl
    refine ⟨?_, fun hjoined => ?_⟩
    · intro h
      obtain ⟨t, ht⟩ := not_forall.mp h
      cases hthread : (events.foldl (step P) (spawn threads)).thread t with
      | searching nonce => exact ⟨.check t true, nonce, hthread⟩
      | storingDone nonce => exact ⟨.storeDone t, nonce, hthread⟩
      | storingWinner nonce => exact ⟨.storeWinner t, nonce, hthread⟩
      | returned => exact absurd hthread ht
    · have hinv := ParallelSearch.Search.Inv.run hrun'
      have hover : ParallelSearch.Search.Over
          (events'.foldl (search P threads).step (search P threads).init) := by
        intro t
        rw [habstracts.phase t, hjoined t, phaseOf]
      obtain ⟨hfound, hnone⟩ := hinv.over hover
      have hwinner := habstracts.winner
      unfold result
      rw [hwinner]
      cases ha : (events'.foldl (search P threads).step (search P threads).init).winner with
      | none =>
        refine ⟨fun nonce hok => by simp at hok, fun e _ => ?_⟩
        by_cases hthreads : threads = 0
        · exact Or.inl hthreads
        · exact Or.inr (Or.inr fun nonce hmeets => hnone ha nonce (hit_of_meets hthreads hmeets))
      | some b =>
        have hmeets := meets_of_hit (hfound b ha)
        rw [Option.getD_some]
        split_ifs with hlast
        · refine ⟨fun nonce hok => by simp at hok, fun e _ => ?_⟩
          exact Or.inr (Or.inl (hlast ▸ hmeets))
        · refine ⟨fun nonce hok => ?_, fun e herror => by simp at herror⟩
          obtain rfl := Except.ok.inj hok
          exact ⟨if_pos hmeets, fun c hempty => initMainnetState_of_meets hempty hmeets⟩

/-- Two threads. The second does not see at once that the first is done. -/
def twoThreads : List (Event 2) :=
  let first : Fin (UInt64.toNat 2) := ⟨0, by decide⟩
  let second : Fin (UInt64.toNat 2) := ⟨1, by decide⟩
  [.check second true, .check first true, .storeDone first, .check second false,
    .storeWinner first, .check second true]

/-- Primitives under which the nonces that 256 divides meet the work, and no others. -/
def everyPage : Primitives := .byNonce ⟨List.replicate 32 254, List.length_replicate⟩

theorem genesis_mined_twoThreads :
    result (twoThreads.foldl (step everyPage) (spawn 2)) = .ok 0 ∧
      verifyGenesis everyPage mainnetGenesisTimestamp 0 = .ok () := by
  obtain ⟨hrun, hjoined, hresult⟩ : Along (step everyPage) IsNext (spawn 2) twoThreads ∧
      (∀ t, (twoThreads.foldl (step everyPage) (spawn 2)).thread t = .returned) ∧
      (twoThreads.foldl (step everyPage) (spawn 2)).winner = 0 := by
    decide +kernel
  have hok : result (twoThreads.foldl (step everyPage) (spawn 2)) = .ok 0 := by
    simp [result, hresult]
  obtain ⟨_, hend⟩ := genesis_mined everyPage 2 twoThreads hrun
  exact ⟨hok, (((hend _ rfl).2 hjoined).1 0 hok).1⟩

end Tensorium.GenesisMining
