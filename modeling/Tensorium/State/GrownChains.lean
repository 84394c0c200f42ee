import Tensorium.State.Context
import Tensorium.State.PeerChain

/-! # Growing chains

    On a network whose hash meets every difficulty a chain can be grown with any
    timestamps: each block takes the difficulty that is required of it, and the
    result is the chain of an honest peer. The timestamps steer the difficulty,
    and with it the work of the chain.
-/

namespace Tensorium

open ParentLinked

variable {P : Primitives} {params : ConsensusParams} {U : Set Block} {now : Block → Nat}
variable {Q : List Block} {b : Block}

/-! ## One more block -/

/-- The position of the last block. -/
theorem getElem?_length_sub_one (Q : List Block) : Q[Q.length - 1]? = Q.getLast? :=
  List.getLast?_eq_getElem?.symm

/-- The chain of a peer with one more block. -/
theorem PeerChain.append (hQ : PeerChain P U Q) (hne : Q ≠ []) (hb : b ∈ U)
    (hheight : b.header.height = Q.length) (hlink : ∀ p ∈ Q.getLast?, b.previousHash = p.hash P) :
    PeerChain P U (Q ++ [b]) := by
  have hpos : 0 < Q.length := List.length_pos_iff.mpr hne
  -- A position of the longer list is one of the shorter or the new one.
  have hcases : ∀ {j : Nat} {c : Block}, (Q ++ [b])[j]? = some c →
      Q[j]? = some c ∨ (j = Q.length ∧ c = b) := by
    intro j c hc
    by_cases hj : j < Q.length
    · rw [List.getElem?_append_left hj] at hc
      exact Or.inl hc
    · obtain ⟨hlt, _⟩ := List.getElem?_eq_some_iff.mp hc
      rw [List.length_append, List.length_singleton] at hlt
      obtain rfl : j = Q.length := by omega
      rw [List.getElem?_concat_length] at hc
      exact Or.inr ⟨rfl, (Option.some.inj hc).symm⟩
  constructor
  · intro c hc
    rcases List.mem_append.mp hc with hold | hnew
    · exact hQ.mem c hold
    · rw [List.mem_singleton.mp hnew]
      exact hb
  · intro c hc
    rcases hcases hc with hold | ⟨hzero, _⟩
    · exact hQ.root c hold
    · omega
  · intro j c d hc hd
    rcases hcases hd with hold | ⟨hlast, rfl⟩
    · obtain ⟨hlt, _⟩ := List.getElem?_eq_some_iff.mp hold
      rw [List.getElem?_append_left (by omega)] at hc
      exact hQ.link j c d hc hold
    · rw [List.getElem?_append_left (by omega)] at hc
      refine hlink c ?_
      rw [← getElem?_length_sub_one, ← hlast, Nat.add_sub_cancel]
      exact hc
  · intro j c hc
    rcases hcases hc with hold | ⟨rfl, rfl⟩
    · exact hQ.height j c hold
    · exact hheight

/-- So with an honest peer, if the block is valid and the longer chain replays. -/
theorem HonestPeer.append (hQ : HonestPeer P params U now Q) (hne : Q ≠ []) (hb : b ∈ U)
    (hval : Validated P params Q.getLast? b (now b) (requiredBits params Q.reverse)
      (chainSeed P Q.reverse Q.length))
    (hreplays : Replays P params (Q ++ [b])) : HonestPeer P params U now (Q ++ [b]) := by
  have hpos : 0 < Q.length := List.length_pos_iff.mpr hne
  have hupTo : ∀ {j : Nat}, j < Q.length → upTo (Q ++ [b]) j = upTo Q j := by
    intro j hj
    unfold upTo
    rw [List.take_append_of_le_length (by omega)]
  refine ⟨hQ.chain.append hne hb ?_ hval.previousHash, ?_, hreplays⟩
  · rw [hval.height]
    obtain ⟨p, hp⟩ : ∃ p, Q.getLast? = some p := ⟨_, List.getLast?_eq_some_getLast hne⟩
    have hheight := hQ.chain.height (Q.length - 1) p (by rw [getElem?_length_sub_one]; exact hp)
    rw [hp]
    show p.header.height + 1 = Q.length
    omega
  · intro j c hc
    by_cases hj : j + 1 < Q.length
    · rw [List.getElem?_append_left hj] at hc
      rw [List.getElem?_append_left (by omega), hupTo (by omega)]
      exact hQ.valid j c hc
    · obtain ⟨hlt, _⟩ := List.getElem?_eq_some_iff.mp hc
      rw [List.length_append, List.length_singleton] at hlt
      obtain hlast : j + 1 = Q.length := by omega
      rw [hlast, List.getElem?_concat_length] at hc
      obtain rfl := Option.some.inj hc
      rw [hupTo (by omega), upTo_last hlast, hlast, List.getElem?_append_left (by omega)]
      have hj' : j = Q.length - 1 := by omega
      rw [hj', getElem?_length_sub_one]
      exact hval

/-! ## Growing -/

/-- Every hash meets every difficulty. -/
def Effortless (P : Primitives) : Prop := ∀ header seed, headerMeetsWork P header seed = true

theorem sample_effortless : Effortless Primitives.sample := by
  intro header seed
  show hashMeetsWork Hash256.zero header.leadingZeroBits = true
  unfold hashMeetsWork
  have hzero : Hash256.zero.leadingZeroBits = 256 := by decide
  rw [hzero, decide_eq_true_eq]
  have hlt := header.leadingZeroBits.toNat_lt
  omega

/-- A branch with one more block for each timestamp, each of the difficulty
    required of it. -/
def grow (P : Primitives) (params : ConsensusParams) (branch : List Block)
    (timestamps : List Nat) : List Block :=
  timestamps.foldl (fun branch timestamp =>
    (candidateBlock P params branch.head? timestamp "m" [] 0).withBits (requiredBits params branch)
      :: branch) branch

theorem grow_cons (branch : List Block) (timestamp : Nat) (timestamps : List Nat) :
    grow P params branch (timestamp :: timestamps)
      = grow P params ((candidateBlock P params branch.head? timestamp "m" [] 0).withBits
          (requiredBits params branch) :: branch) timestamps := rfl

/-- Growing puts blocks with the given timestamps on top. -/
theorem grow_append (branch : List Block) (timestamps : List Nat) :
    ∃ new, grow P params branch timestamps = new ++ branch ∧
      new.map (fun b => b.header.timestampSeconds) = timestamps.reverse := by
  induction timestamps generalizing branch with
  | nil => exact ⟨[], rfl, rfl⟩
  | cons timestamp timestamps ih =>
    rw [grow_cons]
    obtain ⟨new, hnew, hstamps⟩ := ih
      ((candidateBlock P params branch.head? timestamp "m" [] 0).withBits (requiredBits params branch)
        :: branch)
    refine ⟨new ++ [(candidateBlock P params branch.head? timestamp "m" [] 0).withBits
      (requiredBits params branch)], ?_, ?_⟩
    · rw [hnew, List.append_assoc]
      rfl
    · rw [List.map_append, hstamps, List.reverse_cons]
      rfl

/-- **A grown chain is the chain of an honest peer**, on an effortless network. -/
theorem grow_honest (hP : Effortless P) {branch : List Block}
    (hQ : HonestPeer P params U now branch.reverse) (hne : branch ≠ []) (timestamps : List Nat)
    (hmem : ∀ b ∈ grow P params branch timestamps, b ∈ U)
    (hnow : ∀ b, ∀ t ∈ timestamps, t ≤ now b + params.maxFutureBlockTimeSeconds) :
    HonestPeer P params U now (grow P params branch timestamps).reverse := by
  induction timestamps generalizing branch with
  | nil => exact hQ
  | cons timestamp timestamps ih =>
    obtain ⟨p, t, rfl⟩ := List.exists_cons_of_ne_nil hne
    generalize hb : (candidateBlock P params (p :: t).head? timestamp "m" [] 0).withBits
      (requiredBits params (p :: t)) = b
    rw [grow_cons, hb] at hmem ⊢
    obtain ⟨new, hnew, _⟩ := grow_append (P := P) (b :: p :: t) timestamps
    have hbU : b ∈ U := by
      refine hmem b ?_
      rw [hnew]
      exact List.mem_append_right _ List.mem_cons_self
    -- Any nonce will do on an effortless network, and the time stamp is not ahead.
    have hvalid : ∀ seed, Validated P params (some p) b (now b) (requiredBits params (p :: t)) seed := by
      intro seed
      have h : Validated P params (some p)
          (((candidateBlock P params (some p) timestamp "m" [] 0).withBits
            (requiredBits params (p :: t))).withNonce 0) timestamp (requiredBits params (p :: t))
          seed := candidateBlock_validated (hP _ _)
      have hsame : ((candidateBlock P params (some p) timestamp "m" [] 0).withBits
          (requiredBits params (p :: t))).withNonce 0 = b := hb
      rw [hsame] at h
      refine { h with timestamp := ?_ }
      have hstamp : b.header.timestampSeconds = timestamp := by
        rw [← hb]
        rfl
      rw [hstamp]
      exact hnow b timestamp List.mem_cons_self
    refine ih ?_ (List.cons_ne_nil _ _) hmem fun c t ht => hnow c t (List.mem_cons_of_mem _ ht)
    rw [List.reverse_cons]
    refine hQ.append (by simp) hbU ?_ ?_
    · rw [List.getLast?_reverse, List.reverse_reverse]
      exact hvalid _
    · obtain ⟨u, hu⟩ := hQ.replays
      have hpremint : ¬ ((some p).elim 0 (fun p => p.header.height + 1) = 0 ∧
          hasGenesisPremint params) := fun h => absurd h.1 (Nat.succ_ne_zero _)
      obtain ⟨u', hu'⟩ := replayUtxo_mined (P := P) hu (some p) timestamp "m"
        (requiredBits params (p :: t)) 0 hpremint
      refine ⟨u', ?_⟩
      rw [← List.reverse_cons, ← hb]
      exact hu'

/-- A genesis block is the shortest of such chains. -/
theorem genesis_honest (hpremint : hasGenesisPremint params = false) (timestamp : Nat)
    (miner : String) (hmem : candidateBlock P params none timestamp miner [] 0 ∈ U) :
    HonestPeer P params U now [candidateBlock P params none timestamp miner [] 0] := by
  refine ⟨⟨?_, ?_, ?_, ?_⟩, ?_, ?_⟩
  · intro b hb
    rw [List.mem_singleton.mp hb]
    exact hmem
  · intro b hb
    obtain rfl := Option.some.inj hb
    rfl
  · intro j b c _ hc
    cases hc
  · intro j b hb
    obtain ⟨hlt, _⟩ := List.getElem?_eq_some_iff.mp hb
    obtain rfl : j = 0 := by
      rw [List.length_singleton] at hlt
      omega
    obtain rfl := Option.some.inj hb
    rfl
  · intro j b hb
    cases hb
  · have hlimit : ¬ ((none : Option Block).elim 0 (fun p => p.header.height + 1) = 0 ∧
        hasGenesisPremint params) := by
      rw [hpremint]
      simp
    have hnil : replayUtxo P params ([] : List Block).reverse = .ok ∅ := rfl
    obtain ⟨u, hu⟩ :=
      replayUtxo_mined hnil none timestamp miner params.initialLeadingZeroBits 0 hlimit
    exact ⟨u, hu⟩

/-- The chain that ticks with the clock is one, too, in the first epoch. -/
theorem clockChain_honest (hnet : EasyNetwork P params) {n : Nat}
    (hmem : ∀ k ≤ n, clockChain P params k ∈ U) (hepoch : n < TensorHash.epochLength)
    (hnow : ∀ b, n + 1 ≤ now b + params.maxFutureBlockTimeSeconds) :
    HonestPeer P params U now ((List.range (n + 1)).map (clockChain P params)) := by
  induction n with
  | zero => exact genesis_honest hnet.premint 1 "genesis" (hmem 0 le_rfl)
  | succ n ih =>
    have hQ := ih (fun k hk => hmem k (Nat.le_succ_of_le hk)) (Nat.lt_of_succ_lt hepoch)
      fun b => Nat.le_of_succ_le (hnow b)
    have hlast : ((List.range (n + 1)).map (clockChain P params)).getLast?
        = some (clockChain P params n) := by
      rw [List.range_succ, List.map_append, List.map_singleton, List.getLast?_concat]
    have hhead : ((List.range (n + 1)).map (clockChain P params)).reverse.head?
        = some (clockChain P params n) := by
      rw [List.head?_reverse]
      exact hlast
    -- In the first epoch the bits are the initial ones, and the seed is zero.
    have hbits : requiredBits params ((List.range (n + 1)).map (clockChain P params)).reverse
        = params.initialLeadingZeroBits := by
      refine requiredBits_inactive hhead ?_
      rw [clockChain_height]
      exact hepoch.trans hnet.activation
    have hseed : chainSeed P ((List.range (n + 1)).map (clockChain P params)).reverse
        ((List.range (n + 1)).map (clockChain P params)).length = Hash256.zero := by
      refine if_pos (Nat.div_eq_of_lt ?_)
      rw [List.length_map, List.length_range]
      exact hepoch
    rw [List.range_succ, List.map_append, List.map_singleton]
    refine hQ.append (by simp) (hmem (n + 1) le_rfl) ?_ ?_
    · rw [hlast, hbits, hseed]
      refine { ChainState.childAt_validated hnet (clockChain P params n) (n + 2) with
        timestamp := hnow _ }
    · obtain ⟨u, hu⟩ := hQ.replays
      rw [← List.reverse_reverse ((List.range (n + 1)).map (clockChain P params))] at hu
      obtain ⟨u', hu'⟩ := replayUtxo_mined (P := P) hu (some (clockChain P params n)) (n + 2) "m"
        params.initialLeadingZeroBits 0 fun h => absurd h.1 (Nat.succ_ne_zero _)
      refine ⟨u', ?_⟩
      rw [List.reverse_cons, List.reverse_reverse] at hu'
      exact hu'

/-- The sample hash tells blocks apart by their timestamps. -/
theorem sample_faithful {l : List Block}
    (hstamps : (l.map fun b => b.header.timestampSeconds).Nodup)
    (hrange : ∀ t ∈ l.map fun b => b.header.timestampSeconds, 0 < t ∧ t < 2 ^ 64) :
    HashFaithful Primitives.sample {b | b ∈ l} := by
  have hstamp : ∀ b ∈ l, stampOf (b.hash Primitives.sample).bytes
      = b.header.timestampSeconds := by
    intro b hb
    exact stampOf_hash (hrange _ (List.mem_map.mpr ⟨b, hb, rfl⟩)).2
  constructor
  · intro a ha b hb heq
    refine List.inj_on_of_nodup_map hstamps ha hb ?_
    rw [← hstamp a ha, ← hstamp b hb, heq]
  · intro b hb heq
    have hzero : stampOf Hash256.zero.bytes = 0 := by decide
    have hpos := (hrange _ (List.mem_map.mpr ⟨b, hb, rfl⟩)).1
    rw [← hstamp b hb, heq, hzero] at hpos
    exact absurd hpos (lt_irrefl 0)

end Tensorium
