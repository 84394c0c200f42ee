import Tensorium.State.Difficulty
import Tensorium.State.ForkChoice
import Tensorium.State.Submissions

/-! # Copying the chain of a peer

    A ledger that receives the blocks of one fixed chain in order. How far the
    chain is stored determines the canonical chain: the local one until the copy
    outweighs it, from then on the copy.
-/

namespace Tensorium

open ParentLinked

/-! ## Branches of a chain -/

/-- The part of a chain, genesis first, up to a position, as a branch. -/
def upTo (Q : List Block) (j : Nat) : List Block := (Q.take (j + 1)).reverse

section upTo

variable {Q : List Block} {j : Nat} {b : Block}

@[simp] theorem upTo_reverse (Q : List Block) (j : Nat) : (upTo Q j).reverse = Q.take (j + 1) :=
  List.reverse_reverse _

theorem upTo_zero (hb : Q[0]? = some b) : upTo Q 0 = [b] := by
  unfold upTo
  rw [List.take_add_one, hb]
  rfl

theorem upTo_succ (hb : Q[j + 1]? = some b) : upTo Q (j + 1) = b :: upTo Q j := by
  unfold upTo
  rw [List.take_add_one, hb]
  simp

theorem upTo_head (hb : Q[j]? = some b) : (upTo Q j).head? = some b := by
  cases j with
  | zero => rw [upTo_zero hb]; rfl
  | succ j => rw [upTo_succ hb]; rfl

theorem upTo_length (hj : j < Q.length) : (upTo Q j).length = j + 1 := by
  unfold upTo
  rw [List.length_reverse, List.length_take]
  omega

theorem upTo_last (hj : j + 1 = Q.length) : upTo Q j = Q.reverse := by
  unfold upTo
  rw [hj, List.take_length]

/-- A longer part has at least the work. -/
theorem branchWork_upTo_mono {i : Nat} (h : i ≤ j) :
    branchWork (upTo Q i) ≤ branchWork (upTo Q j) := by
  have hprefix : Q.take (i + 1) <+: Q.take (j + 1) := List.take_prefix_take_left (by omega)
  obtain ⟨rest, hrest⟩ := hprefix
  unfold branchWork upTo
  rw [← hrest]
  simp only [List.reverse_append, List.map_append, List.sum_append]
  omega

end upTo

/-! ## Work does not saturate -/

/-- No difficulty of the network exceeds 63 bits. -/
structure ModestDifficulty (params : ConsensusParams) : Prop where
  initial : params.initialLeadingZeroBits ≤ 63
  min : params.minLeadingZeroBits ≤ 63
  max : params.maxLeadingZeroBits ≤ 63

/-- This is so for every set of parameters in `params.rs`. -/
theorem modestDifficulty_of_network {params : ConsensusParams}
    (h : params = testnet ∨ params = mainnet ∨ params = testParams) : ModestDifficulty params := by
  rcases h with rfl | rfl | rfl
  · exact ⟨by decide, by decide, by decide⟩
  · exact ⟨by decide, by decide, by decide⟩
  · exact ⟨by decide, by decide, by decide⟩

theorem expectedLeadingZeroBits_le {params : ConsensusParams} (h : ModestDifficulty params)
    (height : Nat) (sample : Option DifficultySample) :
    expectedLeadingZeroBits params height sample ≤ 63 := by
  have hclamp : ∀ next, clamp8 next params.minLeadingZeroBits params.maxLeadingZeroBits ≤ 63 := by
    intro next
    unfold clamp8
    split_ifs with hlow hhigh
    · exact h.min
    · exact h.max
    · exact UInt8.le_trans (UInt8.not_lt.mp hhigh) h.max
  unfold expectedLeadingZeroBits
  split_ifs
  · exact h.initial
  · cases sample with
    | none => exact h.initial
    | some sample => exact hclamp _

/-- Below 2^64 blocks of such difficulties work adds up exactly. -/
theorem branchWork_lt_cons {b : Block} {branch : List Block}
    (hbits : ∀ c ∈ b :: branch, c.header.leadingZeroBits ≤ 63)
    (hlength : (b :: branch).length ≤ 2 ^ 64) : branchWork branch < branchWork (b :: branch) := by
  have hwork : ∀ c ∈ b :: branch, c.work ≤ 2 ^ 63 := by
    intro c hc
    have hle : c.header.leadingZeroBits.toNat ≤ 63 := UInt8.le_iff_toNat_le.mp (hbits c hc)
    unfold Block.work
    refine Nat.pow_le_pow_right (by decide) ?_
    omega
  have hsum : ((b :: branch).map Block.work).sum ≤ (b :: branch).length * 2 ^ 63 := by
    have hmap : ∀ w ∈ (b :: branch).map Block.work, w ≤ 2 ^ 63 := by
      intro w hw
      obtain ⟨c, hc, rfl⟩ := List.mem_map.mp hw
      exact hwork c hc
    have hcard := List.sum_le_card_nsmul _ _ hmap
    rwa [List.length_map, smul_eq_mul] at hcard
  have hpos : 0 < b.work := Nat.two_pow_pos _
  unfold branchWork
  rw [List.map_cons, List.sum_cons] at hsum ⊢
  omega

namespace ChainState

variable {P : Primitives} {params : ConsensusParams} {U : Set Block} {s : ChainState}

/-- The difficulties of all stored blocks are modest. -/
theorem Reachable.bits_le (h : Reachable P params U s) (hU : HashFaithful P U)
    (hmodest : ModestDifficulty params) {k : Hash256} {b : Block}
    (hb : s.getBlockByHash k = some b) : b.header.leadingZeroBits ≤ 63 := by
  obtain ⟨L, hR, hL⟩ := h.represents hU
  obtain ⟨parents, hwalk, _⟩ := hL.linked.exists_ancestry (hR.known ▸ hb)
  have hbits := h.bitsRequired hU k b parents (by unfold StoredAncestry; rw [hR.known]; exact hwalk)
  rw [hbits]
  exact expectedLeadingZeroBits_le hmodest _ _

end ChainState

/-! ## Chains of peers -/

/-- The canonical chain of a peer, genesis first: every block names the one
    before it and stands at its position. -/
structure PeerChain (P : Primitives) (U : Set Block) (Q : List Block) : Prop where
  mem : ∀ b ∈ Q, b ∈ U
  root : ∀ b, Q[0]? = some b → b.previousHash = Hash256.zero
  link : ∀ (j : Nat) (b c : Block), Q[j]? = some b → Q[j + 1]? = some c →
    c.previousHash = b.hash P
  height : ∀ (j : Nat) (b : Block), Q[j]? = some b → b.header.height = j

/-- Behind the position `K₀` the branch up to `j` outweighs the local chain. -/
def Overtakes (A Q : List Block) (K₀ j : Nat) : Prop :=
  K₀ < j ∧ branchWork A < branchWork (upTo Q j)

instance (A Q : List Block) (K₀ j : Nat) : Decidable (Overtakes A Q K₀ j) :=
  inferInstanceAs (Decidable (_ ∧ _))

theorem Overtakes.mono {A Q : List Block} {K₀ i j : Nat} (h : Overtakes A Q K₀ i) (hij : i ≤ j) :
    Overtakes A Q K₀ j :=
  ⟨lt_of_lt_of_le h.1 hij, lt_of_lt_of_le h.2 (branchWork_upTo_mono hij)⟩

/-- The canonical chain when the chain of the peer is stored up to a position. -/
def chainAt (A Q : List Block) (K₀ K : Nat) : List Block :=
  if Overtakes A Q K₀ K then upTo Q K else A

/-- A chain replays. -/
def Replays (P : Primitives) (params : ConsensusParams) (chain : List Block) : Prop :=
  ∃ u, replayUtxo P params chain = .ok u

/-- A part of a chain that replays does. -/
theorem Replays.take {P : Primitives} {params : ConsensusParams} {chain : List Block}
    (h : Replays P params chain) (j : Nat) : Replays P params (chain.take j) := by
  obtain ⟨u, hu⟩ := h
  cases hpart : replayUtxo P params (chain.take j) with
  | ok u' => exact ⟨u', hpart⟩
  | error e =>
    have hwhole : replayUtxo P params (chain.take j ++ chain.drop j) = .error e :=
      ExceptFold.foldlM_append_error hpart
    rw [List.take_append_drop, hu] at hwhole
    cases hwhole

/-- A peer whose chain is valid: every block was valid on top of the one before
    it, and the chain replays. -/
structure HonestPeer (P : Primitives) (params : ConsensusParams) (U : Set Block)
    (now : Block → Nat) (Q : List Block) : Prop where
  chain : PeerChain P U Q
  valid : ∀ (j : Nat) (b : Block), Q[j + 1]? = some b →
    Validated P params Q[j]? b (now b) (requiredBits params (upTo Q j)) (chainSeed P (upTo Q j) (j + 1))
  replays : Replays P params Q

/-- The block of the peer at a position is accepted once the one before it is
    stored. -/
structure Passes (P : Primitives) (params : ConsensusParams) (now : Block → Nat)
    (A Q : List Block) (K₀ j : Nat) : Prop where
  synced : Replays P params A.reverse
  valid : ∃ b, Q[j]? = some b ∧
    validateBlock P params Q[j - 1]? b (now b) (requiredBits params (upTo Q (j - 1)))
      (chainSeed P (chainAt A Q K₀ (j - 1)) j) = .ok ()
  spends : Overtakes A Q K₀ j → Replays P params (Q.take (j + 1))

namespace Ledger

variable {P : Primitives} {params : ConsensusParams} {U : Set Block}
variable {A Q : List Block} {K₀ K : Nat} {L : Ledger}

/-- The ledger holds the chain of the peer up to the position `K` and nothing of
    it beyond. -/
structure Copied (P : Primitives) (params : ConsensusParams) (U : Set Block) (A Q : List Block)
    (K₀ : Nat) (L : Ledger) (K : Nat) : Prop where
  wellFormed : L.WellFormed P U
  start : K₀ ≤ K
  bound : K < Q.length
  stored : ∀ (j : Nat) (b : Block), Q[j]? = some b → j ≤ K → L.known (b.hash P) = some b
  fresh : ∀ (j : Nat) (b : Block), Q[j]? = some b → K < j → L.known (b.hash P) = none
  chain : L.chain = chainAt A Q K₀ K
  replays : Replays P params L.chain.reverse ↔ Replays P params A.reverse
  bits : ∀ b ∈ upTo Q K, b.header.leadingZeroBits ≤ 63

/-- What is stored of the chain is a branch. -/
theorem ancestry_upTo (hL : L.WellFormed P U) (hU : HashFaithful P U) (hQ : PeerChain P U Q)
    {j : Nat} {b : Block} (hb : Q[j]? = some b)
    (hstored : ∀ (i : Nat) (c : Block), Q[i]? = some c → i ≤ j → L.known (c.hash P) = some c) :
    L.AncestryOf (b.hash P) (upTo Q j) := by
  induction j generalizing b with
  | zero =>
    rw [upTo_zero hb]
    exact .genesis (hstored 0 b hb (le_refl _)) (hQ.root b hb)
  | succ j ih =>
    obtain ⟨p, hp⟩ : ∃ p, Q[j]? = some p := by
      obtain ⟨hlt, _⟩ := List.getElem?_eq_some_iff.mp hb
      exact ⟨Q[j], List.getElem?_eq_getElem (by omega)⟩
    have hparents := ih hp fun i c hc hi => hstored i c hc (by omega)
    rw [← hQ.link j p b hp hb] at hparents
    rw [upTo_succ hb]
    exact .child (hstored (j + 1) b hb (le_refl _)) (hL.previousHash_ne_zero hU hparents) hparents

/-- If a block of the chain is stored, so is the one before it. -/
theorem known_before (hL : L.WellFormed P U) (hU : HashFaithful P U) (hQ : PeerChain P U Q)
    {j : Nat} {b c : Block} (hb : Q[j]? = some b) (hc : Q[j + 1]? = some c)
    (hknown : (L.known (c.hash P)).isSome) : (L.known (b.hash P)).isSome := by
  obtain ⟨d, hd⟩ := Option.isSome_iff_exists.mp hknown
  have hdc : d = c := by
    refine hU.injective d (hL.mem _ _ hd) c (hQ.mem c (List.mem_of_getElem? hc)) ?_
    exact hL.keyed _ _ hd
  subst hdc
  have hlink := hQ.link j b d hb hc
  rcases hL.linked.link _ _ hd with ⟨hroot, _⟩ | ⟨_, p, hp, _⟩
  · rw [hlink] at hroot
    exact absurd hroot (hU.nonzero b (hQ.mem b (List.mem_of_getElem? hb)))
  · rw [← hlink, hp]
    rfl

/-- What is known under the hash of a block of the chain is the block. -/
theorem known_eq (hL : L.WellFormed P U) (hU : HashFaithful P U) (hQ : PeerChain P U Q)
    {b : Block} (hb : b ∈ Q) (hknown : (L.known (b.hash P)).isSome) :
    L.known (b.hash P) = some b := by
  obtain ⟨d, hd⟩ := Option.isSome_iff_exists.mp hknown
  have hdb : d = b := hU.injective d (hL.mem _ _ hd) b (hQ.mem b hb) (hL.keyed _ _ hd)
  rw [hd, hdb]

/-- A ledger that knows the genesis block of the chain holds it up to some
    position. -/
theorem exists_copied (params : ConsensusParams) (hL : L.WellFormed P U)
    (hU : HashFaithful P U) (hQ : PeerChain P U Q)
    (hbits : ∀ k b, L.known k = some b → b.header.leadingZeroBits ≤ 63)
    {g : Block} (hg : Q[0]? = some g) (hknown : (L.known (g.hash P)).isSome) :
    ∃ K, Copied P params U L.chain Q K L K := by
  classical
  let held : Nat → Prop := fun j => ∃ b, Q[j]? = some b ∧ (L.known (b.hash P)).isSome
  have hzero : held 0 := ⟨g, hg, hknown⟩
  have hlast : held (Nat.findGreatest held Q.length) :=
    Nat.findGreatest_spec (Nat.zero_le _) hzero
  -- What is below a block that is held is held too.
  have hdown : ∀ d j, held (j + d) → held j := by
    intro d
    induction d with
    | zero => exact fun j h => h
    | succ d ih =>
      rintro j ⟨c, hc, hcknown⟩
      refine ih j ?_
      obtain ⟨hlt, _⟩ := List.getElem?_eq_some_iff.mp hc
      have hb : Q[j + d]? = some Q[j + d] := List.getElem?_eq_getElem (by omega)
      exact ⟨_, hb, known_before hL hU hQ hb hc hcknown⟩
  generalize hK : Nat.findGreatest held Q.length = K at hlast
  obtain ⟨c, hc, _⟩ := hlast
  obtain ⟨hbound, _⟩ := List.getElem?_eq_some_iff.mp hc
  -- `K` is the last position that is held.
  have hstored : ∀ (j : Nat) (b : Block), Q[j]? = some b → j ≤ K → L.known (b.hash P) = some b := by
    intro j b hb hj
    obtain ⟨b', hb', hbknown⟩ := hdown (K - j) j (by
      rw [show j + (K - j) = K by omega]
      exact hK ▸ Nat.findGreatest_spec (Nat.zero_le _) hzero)
    obtain rfl := Option.some.inj (hb.symm.trans hb')
    exact known_eq hL hU hQ (List.mem_of_getElem? hb) hbknown
  refine ⟨K, hL, le_refl _, hbound, hstored, ?_, ?_, Iff.rfl, ?_⟩
  · intro j b hb hj
    by_contra hne
    obtain ⟨hlt, _⟩ := List.getElem?_eq_some_iff.mp hb
    refine Nat.findGreatest_is_greatest (P := held) (n := Q.length) (k := j) (by omega) (by omega) ?_
    exact ⟨b, hb, Option.isSome_iff_ne_none.mpr hne⟩
  · unfold chainAt
    rw [if_neg fun h => absurd h.1 (lt_irrefl K)]
  · intro b hb
    unfold upTo at hb
    rw [List.mem_reverse] at hb
    obtain ⟨j, hj⟩ := List.mem_iff_getElem?.mp hb
    obtain ⟨hlt, _⟩ := List.getElem?_eq_some_iff.mp hj
    rw [List.length_take] at hlt
    rw [List.getElem?_take_of_lt (by omega)] at hj
    exact hbits _ _ (hstored j b hj (by omega))

namespace Copied

/-! ### Submitting a block of the chain -/

/-- A block that is stored already. -/
theorem submit_stored (h : Copied P params U A Q K₀ L K) {j : Nat} {b : Block}
    (hb : Q[j]? = some b) (hj : j ≤ K) (nowSeconds : Nat) :
    L.submit P params b nowSeconds = (.error .alreadyKnown, L) :=
  submit_known (h.stored j b hb hj)

/-- A block whose parent is not stored. -/
theorem submit_beyond (h : Copied P params U A Q K₀ L K) (hQ : PeerChain P U Q) {j : Nat}
    {b : Block} (hb : Q[j]? = some b) (hj : K + 1 < j) (nowSeconds : Nat) :
    (Replays P params A.reverse → L.submit P params b nowSeconds = (.error .unknownParent, L)) ∧
    (¬ Replays P params A.reverse → ∃ e, L.submit P params b nowSeconds = (.error (.utxo e), L)) := by
  have hfresh := h.fresh j b hb (by omega)
  constructor
  · intro hready
    obtain ⟨u, hu⟩ := h.replays.mpr hready
    refine submit_orphan hfresh hu (branch_eq_none ?_)
    obtain ⟨i, rfl⟩ : ∃ i, j = i + 1 := ⟨j - 1, by omega⟩
    obtain ⟨hlt, _⟩ := List.getElem?_eq_some_iff.mp hb
    have hp : Q[i]? = some Q[i] := List.getElem?_eq_getElem (by omega)
    rw [hQ.link i Q[i] b hp hb]
    exact h.fresh i _ hp (by omega)
  · intro hready
    cases hreplay : replayUtxo P params L.chain.reverse with
    | ok u => exact absurd (h.replays.mp ⟨u, hreplay⟩) hready
    | error e => exact ⟨e, submit_unsynced hfresh hreplay⟩

/-- Storing the next block leaves the next position. -/
theorem advance (h : Copied P params U A Q K₀ L K) (hU : HashFaithful P U) (hQ : PeerChain P U Q)
    {b : Block} (hb : Q[K + 1]? = some b) (hbits : b.header.leadingZeroBits ≤ 63) {L' : Ledger}
    (hL' : L'.WellFormed P U) (hknown : L'.known = (L.store P b).known)
    (hchain : L'.chain = chainAt A Q K₀ (K + 1))
    (hreplays : Replays P params L'.chain.reverse ↔ Replays P params A.reverse) :
    Copied P params U A Q K₀ L' (K + 1) := by
  obtain ⟨hlt, _⟩ := List.getElem?_eq_some_iff.mp hb
  have hbU := hQ.mem b (List.mem_of_getElem? hb)
  refine ⟨hL', by have := h.start; omega, hlt, ?_, ?_, hchain, hreplays, ?_⟩
  · intro j c hc hj
    rw [hknown]
    by_cases hlast : j = K + 1
    · subst hlast
      obtain rfl := Option.some.inj (hb.symm.trans hc)
      exact store_known_self L b
    · exact h.wellFormed.store_extends hU hbU _ _ (h.stored j c hc (by omega))
  · intro j c hc hj
    -- Another position, hence another height, hence another block and hash.
    have hne : c.hash P ≠ b.hash P := by
      intro heq
      have hsame := hU.injective c (hQ.mem c (List.mem_of_getElem? hc)) b hbU heq
      have hheight := hQ.height j c hc
      rw [hsame, hQ.height (K + 1) b hb] at hheight
      omega
    rw [hknown, store_known_of_ne hne]
    exact h.fresh j c hc (by omega)
  · intro c hc
    rw [upTo_succ hb] at hc
    rcases List.mem_cons.mp hc with rfl | hold
    · exact hbits
    · exact h.bits c hold

/-- Whether the next block makes its branch canonical is whether the branch
    overtakes the local chain. -/
theorem overtakes_iff (h : Copied P params U A Q K₀ L K) (hlength : Q.length ≤ 2 ^ 64)
    {b : Block} (hb : Q[K + 1]? = some b) (hbits : b.header.leadingZeroBits ≤ 63) :
    branchWork L.chain < branchWork (upTo Q (K + 1)) ↔ Overtakes A Q K₀ (K + 1) := by
  have hchain := h.chain
  have hstart := h.start
  obtain ⟨hlt, _⟩ := List.getElem?_eq_some_iff.mp hb
  unfold chainAt at hchain
  by_cases hover : Overtakes A Q K₀ K
  · rw [if_pos hover] at hchain
    rw [hchain]
    refine ⟨fun _ => hover.mono (by omega), fun _ => ?_⟩
    rw [upTo_succ hb]
    refine branchWork_lt_cons ?_ ?_
    · intro c hc
      rcases List.mem_cons.mp hc with rfl | hold
      · exact hbits
      · exact h.bits c hold
    · rw [List.length_cons, upTo_length h.bound]
      omega
  · rw [if_neg hover] at hchain
    rw [hchain]
    exact ⟨fun hwork => ⟨by omega, hwork⟩, fun hwork => hwork.2⟩

/-- **The next block is stored if it passes**, and otherwise refused, with the
    canonical chain left as it was. -/
theorem submit_next (h : Copied P params U A Q K₀ L K) (now : Block → Nat) (hU : HashFaithful P U)
    (hQ : PeerChain P U Q) (hmodest : ModestDifficulty params) (hlength : Q.length ≤ 2 ^ 64)
    {b : Block} (hb : Q[K + 1]? = some b) :
    (Passes P params now A Q K₀ (K + 1) →
      (L.submit P params b (now b)).1 = .ok b ∧
      Copied P params U A Q K₀ (L.submit P params b (now b)).2 (K + 1)) ∧
    (¬ Passes P params now A Q K₀ (K + 1) →
      ∃ e, (L.submit P params b (now b)).1 = .error e ∧ e ≠ .alreadyKnown ∧ e ≠ .unknownParent ∧
        (L.submit P params b (now b)).2.chain = L.chain) := by
  have hL := h.wellFormed
  have hfresh := h.fresh (K + 1) b hb (by omega)
  have hbU := hQ.mem b (List.mem_of_getElem? hb)
  obtain ⟨p, hparent⟩ : ∃ p, Q[K]? = some p := ⟨_, List.getElem?_eq_getElem h.bound⟩
  have hparents : L.AncestryOf b.previousHash (upTo Q K) := by
    rw [hQ.link K p b hparent hb]
    exact ancestry_upTo hL hU hQ hparent h.stored
  cases hreplay : replayUtxo P params L.chain.reverse with
  | error e =>
    have hunsynced : ¬ Passes P params now A Q K₀ (K + 1) := by
      intro hpass
      obtain ⟨u, hu⟩ := h.replays.mpr hpass.synced
      rw [hreplay] at hu
      cases hu
    refine ⟨fun hpass => absurd hpass hunsynced, fun _ => ⟨.utxo e, ?_⟩⟩
    rw [submit_unsynced hfresh hreplay]
    exact ⟨rfl, by simp, by simp, rfl⟩
  | ok u =>
    have hready : Replays P params A.reverse := h.replays.mp ⟨u, hreplay⟩
    have hcontext : validateBlock P params (upTo Q K).head? b (now b) (requiredBits params (upTo Q K))
        (chainSeed P L.chain b.header.height)
        = validateBlock P params Q[K + 1 - 1]? b (now b) (requiredBits params (upTo Q (K + 1 - 1)))
          (chainSeed P (chainAt A Q K₀ (K + 1 - 1)) (K + 1)) := by
      rw [upTo_head hparent, h.chain, hQ.height (K + 1) b hb, Nat.add_sub_cancel, hparent]
    cases hval : validateBlock P params (upTo Q K).head? b (now b) (requiredBits params (upTo Q K))
        (chainSeed P L.chain b.header.height) with
    | error e =>
      have hinvalid : ¬ Passes P params now A Q K₀ (K + 1) := by
        intro hpass
        obtain ⟨c, hc, hok⟩ := hpass.valid
        obtain rfl := Option.some.inj (hb.symm.trans hc)
        rw [← hcontext, hval] at hok
        cases hok
      refine ⟨fun hpass => absurd hpass hinvalid, fun _ => ⟨.validation e, ?_⟩⟩
      rw [submit_invalid hfresh hreplay hparents hval]
      exact ⟨rfl, by simp, by simp, rfl⟩
    | ok _ =>
      have hheight := hL.validated_height hparents hval
      have hbits : b.header.leadingZeroBits ≤ 63 := by
        rw [(validateBlock_ok.mp hval).bits]
        exact expectedLeadingZeroBits_le hmodest _ _
      have hover := h.overtakes_iff hlength hb hbits
      have hstore := hL.store hU hbU hparents hheight
      rw [submit_valid hfresh hreplay hparents hval]
      unfold choose
      rw [← upTo_succ hb, upTo_reverse]
      by_cases hwork : Overtakes A Q K₀ (K + 1)
      · -- The branch is heavier, and becomes canonical if it replays.
        rw [if_pos (hover.mpr hwork)]
        cases hnew : replayUtxo P params (Q.take (K + 1 + 1)) with
        | error e =>
          have hspent : ¬ Passes P params now A Q K₀ (K + 1) := by
            intro hpass
            obtain ⟨u', hu'⟩ := hpass.spends hwork
            rw [hnew] at hu'
            cases hu'
          refine ⟨fun hpass => absurd hpass hspent, fun _ => ⟨.utxo e, rfl, by simp, by simp, rfl⟩⟩
        | ok u' =>
          have hpass : Passes P params now A Q K₀ (K + 1) :=
            ⟨hready, ⟨b, hb, hcontext ▸ hval⟩, fun _ => ⟨u', hnew⟩⟩
          refine ⟨fun _ => ⟨rfl, ?_⟩, fun hfail => absurd hpass hfail⟩
          have hchain : (L.adopt P b (upTo Q K)).chain = upTo Q (K + 1) := (upTo_succ hb).symm
          refine h.advance hU hQ hb hbits (hL.adopt hU hbU hparents hheight) rfl ?_ ?_
          · rw [hchain]
            unfold chainAt
            rw [if_pos hwork]
          · rw [hchain, upTo_reverse]
            exact ⟨fun _ => hready, fun _ => ⟨u', hnew⟩⟩
      · -- It is not, and stays on the side.
        rw [if_neg fun hlt => hwork (hover.mp hlt)]
        have hpass : Passes P params now A Q K₀ (K + 1) :=
          ⟨hready, ⟨b, hb, hcontext ▸ hval⟩, fun hw => absurd hw hwork⟩
        refine ⟨fun _ => ⟨rfl, ?_⟩, fun hfail => absurd hpass hfail⟩
        refine h.advance hU hQ hb hbits hstore rfl ?_ h.replays
        have hbefore : ¬ Overtakes A Q K₀ K := fun hK => hwork (hK.mono (by omega))
        have hchain := h.chain
        unfold chainAt at hchain ⊢
        rw [if_neg hbefore] at hchain
        rw [if_neg hwork]
        exact hchain

end Copied

end Ledger

end Tensorium
