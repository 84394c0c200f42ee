import Tensorium.Core.State

/-! # The abstract ledger

    What a chain state is for, without its column families, caches and update
    paths: a set of known blocks, and one chain among them that is canonical.
    `submit` is `submit_block` on this level. There is no fast path: a branch
    that outweighs the canonical chain becomes canonical if it replays.

    Difficulty and work are functions of a chain of blocks, newest first. The
    epoch seed is one of the canonical chain.
-/

namespace Tensorium

open Saturating ParentLinked

/-- The assumption on the header hash: it tells the blocks of `U` apart, and
    none of them hashes to the value that stands for "no parent". -/
structure HashFaithful (P : Primitives) (U : Set Block) : Prop where
  injective : ∀ a ∈ U, ∀ b ∈ U, a.hash P = b.hash P → a = b
  nonzero : ∀ b ∈ U, b.hash P ≠ Hash256.zero

/-! ## Functions of a branch -/

/-- The work of a branch, clamped at the largest `u128`. -/
def branchWork (branch : List Block) : Nat := min ((branch.map Block.work).sum) (2 ^ 128 - 1)

@[simp] theorem branchWork_reverse (branch : List Block) :
    branchWork branch.reverse = branchWork branch := by
  unfold branchWork
  rw [List.map_reverse, List.sum_reverse]

theorem branchWork_le_cons (b : Block) (branch : List Block) :
    branchWork branch ≤ branchWork (b :: branch) := by
  unfold branchWork
  rw [List.map_cons, List.sum_cons]
  omega

/-- The difficulty required of a child of the first block of a branch. -/
def requiredBits (params : ConsensusParams) (branch : List Block) : UInt8 :=
  let height := branch.head?.elim 0 fun p => p.header.height + 1
  expectedLeadingZeroBits params height
    (difficultySample params height fun visit => visitUntil visit branch (none, none))

/-- The epoch seed that a canonical chain gives for a height. -/
def chainSeed (P : Primitives) (chain : List Block) (height : Nat) : Hash256 :=
  if height / TensorHash.epochLength = 0 then Hash256.zero
  else ((chain.reverse[ChainState.seedHeight height]?).map (Block.hash P)).getD Hash256.zero

/-! ## Ledgers -/

/-- The known blocks, by hash, and the canonical chain, newest block first. -/
structure Ledger where
  known : Hash256 → Option Block
  chain : List Block

namespace Ledger

variable {P : Primitives} {params : ConsensusParams} {U : Set Block} {L : Ledger} {block : Block}

/-- The ancestry of a known block, back to genesis. -/
abbrev AncestryOf (L : Ledger) : Hash256 → List Block → Prop :=
  Ancestry Block.previousHash Hash256.zero L.known

/-- No block known, no chain. -/
def empty : Ledger := ⟨fun _ => none, []⟩

open Classical in
/-- The branch that ends in the block with a given hash, if it is complete. -/
noncomputable def branch (L : Ledger) (k : Hash256) : Option (List Block) :=
  if h : ∃ t, L.AncestryOf k t then some h.choose else none

theorem branch_eq_some {k : Hash256} {t : List Block} :
    L.branch k = some t ↔ L.AncestryOf k t := by
  unfold branch
  constructor
  · intro h
    split at h
    next hex =>
      rw [← Option.some.inj h]
      exact hex.choose_spec
    next => cases h
  · intro h
    have hex : ∃ t, L.AncestryOf k t := ⟨t, h⟩
    rw [dif_pos hex, hex.choose_spec.unique h]

/-- A block that is not known ends no branch. -/
theorem branch_eq_none {k : Hash256} (h : L.known k = none) : L.branch k = none := by
  refine Option.eq_none_iff_forall_ne_some.mpr fun t ht => ?_
  obtain ⟨b, _, _, hb⟩ := (branch_eq_some.mp ht).head
  rw [h] at hb
  cases hb

/-- The hash of the canonical tip, zero when there is none. -/
def tipHash (P : Primitives) (L : Ledger) : Hash256 :=
  (L.chain.head?.map (Block.hash P)).getD Hash256.zero

/-- Remember a block. -/
def store (P : Primitives) (L : Ledger) (block : Block) : Ledger :=
  { L with known := Function.update L.known (block.hash P) (some block) }

/-- Remember a block and make the chain that ends in it canonical. -/
def adopt (P : Primitives) (L : Ledger) (block : Block) (parents : List Block) : Ledger :=
  { L.store P block with chain := block :: parents }

@[simp] theorem store_known_self (L : Ledger) (block : Block) :
    (L.store P block).known (block.hash P) = some block :=
  Function.update_self _ _ _

theorem store_known_of_ne {k : Hash256} (hk : k ≠ block.hash P) :
    (L.store P block).known k = L.known k :=
  Function.update_of_ne hk _ _

theorem store_known_cases {k : Hash256} {b : Block} (h : (L.store P block).known k = some b) :
    (k = block.hash P ∧ b = block) ∨ L.known k = some b := by
  by_cases hkey : k = block.hash P
  · subst hkey
    rw [store_known_self] at h
    exact Or.inl ⟨rfl, (Option.some.inj h).symm⟩
  · rw [store_known_of_ne hkey] at h
    exact Or.inr h

/-- Fork choice for a block that passed contextual validation: the block is
    remembered; if its branch outweighs the canonical chain and replays, that
    branch becomes canonical. -/
def choose (P : Primitives) (params : ConsensusParams) (L : Ledger) (block : Block)
    (parents : List Block) : Except StateError Block × Ledger :=
  if branchWork (block :: parents) > branchWork L.chain then
    match replayUtxo P params (block :: parents).reverse with
    | .error e => (.error (.utxo e), L.store P block)
    | .ok _ => (.ok block, L.adopt P block parents)
  else (.ok block, L.store P block)

/-- `submit_block`, without the data structures. -/
noncomputable def submit (P : Primitives) (params : ConsensusParams) (L : Ledger) (block : Block)
    (nowSeconds : Nat) : Except StateError Block × Ledger :=
  if (L.known (block.hash P)).isSome then (.error .alreadyKnown, L)
  else match replayUtxo P params L.chain.reverse with
    | .error e => (.error (.utxo e), L)
    | .ok _ =>
      match L.branch block.previousHash with
      | none => (.error .unknownParent, L)
      | some parents =>
        match validateBlock P params parents.head? block nowSeconds (requiredBits params parents)
            (chainSeed P L.chain block.header.height) with
        | .error e => (.error (.validation e), L)
        | .ok () => L.choose P params block parents

/-! ## The paths of a submission -/

section paths

variable {nowSeconds : Nat}

theorem submit_known {c : Block} (h : L.known (block.hash P) = some c) :
    L.submit P params block nowSeconds = (.error .alreadyKnown, L) := by
  unfold submit
  rw [h]
  rfl

theorem submit_unsynced {e : UtxoError} (hfresh : L.known (block.hash P) = none)
    (hreplay : replayUtxo P params L.chain.reverse = .error e) :
    L.submit P params block nowSeconds = (.error (.utxo e), L) := by
  unfold submit
  rw [hfresh, hreplay]
  rfl

theorem submit_orphan {u : UtxoSet} (hfresh : L.known (block.hash P) = none)
    (hreplay : replayUtxo P params L.chain.reverse = .ok u)
    (hparent : L.branch block.previousHash = none) :
    L.submit P params block nowSeconds = (.error .unknownParent, L) := by
  unfold submit
  rw [hfresh, hreplay, hparent]
  rfl

theorem submit_invalid {u : UtxoSet} {parents : List Block} {e : ValidationError}
    (hfresh : L.known (block.hash P) = none)
    (hreplay : replayUtxo P params L.chain.reverse = .ok u)
    (hparents : L.AncestryOf block.previousHash parents)
    (hval : validateBlock P params parents.head? block nowSeconds (requiredBits params parents)
      (chainSeed P L.chain block.header.height) = .error e) :
    L.submit P params block nowSeconds = (.error (.validation e), L) := by
  unfold submit
  rw [hfresh, hreplay, branch_eq_some.mpr hparents]
  dsimp only
  rw [hval]
  rfl

theorem submit_valid {u : UtxoSet} {parents : List Block}
    (hfresh : L.known (block.hash P) = none)
    (hreplay : replayUtxo P params L.chain.reverse = .ok u)
    (hparents : L.AncestryOf block.previousHash parents)
    (hval : validateBlock P params parents.head? block nowSeconds (requiredBits params parents)
      (chainSeed P L.chain block.header.height) = .ok ()) :
    L.submit P params block nowSeconds = L.choose P params block parents := by
  unfold submit
  rw [hfresh, hreplay, branch_eq_some.mpr hparents]
  dsimp only
  rw [hval]
  rfl

/-- A submission that succeeds has passed every check. -/
theorem submit_ok {b : Block} (h : (L.submit P params block nowSeconds).1 = .ok b) :
    ∃ u parents, L.known (block.hash P) = none ∧
      replayUtxo P params L.chain.reverse = .ok u ∧ L.AncestryOf block.previousHash parents ∧
      validateBlock P params parents.head? block nowSeconds (requiredBits params parents)
        (chainSeed P L.chain block.header.height) = .ok () ∧
      L.submit P params block nowSeconds = L.choose P params block parents := by
  -- The checks in their order: each failure is an error, and not this result.
  cases hfresh : L.known (block.hash P) with
  | some c =>
    rw [submit_known hfresh] at h
    cases h
  | none =>
    cases hreplay : replayUtxo P params L.chain.reverse with
    | error e =>
      rw [submit_unsynced hfresh hreplay] at h
      cases h
    | ok u =>
      cases hparent : L.branch block.previousHash with
      | none =>
        rw [submit_orphan hfresh hreplay hparent] at h
        cases h
      | some parents =>
        have hparents := branch_eq_some.mp hparent
        cases hval : validateBlock P params parents.head? block nowSeconds
            (requiredBits params parents) (chainSeed P L.chain block.header.height) with
        | error e =>
          rw [submit_invalid hfresh hreplay hparents hval] at h
          cases h
        | ok _ =>
          exact ⟨u, parents, rfl, rfl, hparents, hval,
            submit_valid hfresh hreplay hparents hval⟩

/-- The two ways in which fork choice succeeds. -/
theorem choose_ok {parents : List Block} {b : Block}
    (h : (L.choose P params block parents).1 = .ok b) :
    b = block ∧
    ((branchWork (block :: parents) > branchWork L.chain ∧
        (∃ u, replayUtxo P params (block :: parents).reverse = .ok u) ∧
        (L.choose P params block parents).2 = L.adopt P block parents) ∨
      (¬ branchWork (block :: parents) > branchWork L.chain ∧
        (L.choose P params block parents).2 = L.store P block)) := by
  unfold choose at h ⊢
  split_ifs at h ⊢ with hwork
  · cases hreplay : replayUtxo P params (block :: parents).reverse with
    | error e =>
      rw [hreplay] at h
      cases h
    | ok u =>
      rw [hreplay] at h
      exact ⟨(Except.ok.inj h).symm, Or.inl ⟨hwork, ⟨u, rfl⟩, rfl⟩⟩
  · exact ⟨(Except.ok.inj h).symm, Or.inr ⟨hwork, rfl⟩⟩

/-- A branch that does not replay is stored but never adopted. -/
theorem choose_of_error {parents : List Block} {e : UtxoError}
    (h : replayUtxo P params (block :: parents).reverse = .error e) :
    (L.choose P params block parents).2 = L.store P block := by
  unfold choose
  rw [h]
  split_ifs
  · rfl
  · rfl

/-- `AlreadyKnown` is answered only for a hash under which a block is known. -/
theorem known_of_alreadyKnown
    (h : (L.submit P params block nowSeconds).1 = .error .alreadyKnown) :
    ∃ c, L.known (block.hash P) = some c := by
  cases hfresh : L.known (block.hash P) with
  | some c => exact ⟨c, rfl⟩
  | none =>
    -- All other ways to fail name another error.
    unfold submit choose at h
    rw [hfresh] at h
    simp only [Option.isSome_none, Bool.false_eq_true, if_false] at h
    split at h
    · simp at h
    split at h
    · simp at h
    split at h
    · simp at h
    split_ifs at h
    split at h
    · simp at h
    · simp at h

end paths

/-! ## Well-formedness -/

/-- The known blocks are filed under their hashes, every block but a genesis has
    its parent among them one height below, and the canonical chain is the
    ancestry of its tip. -/
structure WellFormed (P : Primitives) (U : Set Block) (L : Ledger) : Prop where
  mem : ∀ k b, L.known k = some b → b ∈ U
  keyed : ∀ k b, L.known k = some b → b.hash P = k
  linked : Linked Block.previousHash Hash256.zero (fun b => b.header.height) L.known
  chain : ∀ b, L.chain.head? = some b → L.AncestryOf (b.hash P) L.chain
  nonempty : ∀ k b, L.known k = some b → L.chain ≠ []

theorem wellFormed_empty : WellFormed P U empty where
  mem _ _ h := by cases h
  keyed _ _ h := by cases h
  linked := ⟨fun _ _ h => by cases h⟩
  chain _ h := by cases h
  nonempty _ _ h := by cases h

namespace WellFormed

variable (hL : L.WellFormed P U) (hU : HashFaithful P U)

include hL in
/-- The canonical chain is the ancestry of the tip. -/
theorem chain_ancestry (hne : L.chain ≠ []) : L.AncestryOf (L.tipHash P) L.chain := by
  obtain ⟨b, t, hchain⟩ := List.exists_cons_of_ne_nil hne
  have hb : L.chain.head? = some b := by rw [hchain]; rfl
  have h := hL.chain b hb
  unfold tipHash
  rw [hb]
  exact h

include hL in
/-- A block on a branch is known under its hash. -/
theorem known_of_mem {k : Hash256} {t : List Block} (ht : L.AncestryOf k t) {b : Block}
    (hb : b ∈ t) : L.known (b.hash P) = some b := by
  obtain ⟨k', _, hk', _, _⟩ := ht.of_mem hb
  rw [hL.keyed k' b hk']
  exact hk'

include hL hU in
theorem known_zero : L.known Hash256.zero = none := by
  cases h : L.known Hash256.zero with
  | none => rfl
  | some b => exact absurd (hL.keyed _ _ h) (hU.nonzero b (hL.mem _ _ h))

include hL hU in
/-- A block whose parent is known is no genesis. -/
theorem previousHash_ne_zero {parents : List Block}
    (hparents : L.AncestryOf block.previousHash parents) : block.previousHash ≠ Hash256.zero := by
  intro hzero
  obtain ⟨_, _, _, hp⟩ := hparents.head
  rw [hzero, hL.known_zero hU] at hp
  cases hp

include hL hU in
/-- Only one block can be filed under the hash of a block of `U`. -/
theorem store_extends (hblock : block ∈ U) : Extends L.known (L.store P block).known := by
  intro k b hk
  by_cases hkey : k = block.hash P
  · -- The hash tells blocks of `U` apart, so nothing else was filed there.
    have hhash := hL.keyed k b hk
    rw [hkey] at hhash
    rw [hU.injective b (hL.mem k b hk) block hblock hhash, hkey]
    exact store_known_self L block
  · rw [store_known_of_ne hkey]
    exact hk

include hL hU in
/-- The hash tells the blocks of `U` apart, so two ledgers of such blocks never
    differ in the ancestry of a block. -/
theorem ancestry_unique {L' : Ledger} (hL' : L'.WellFormed P U) {k : Hash256} {t t' : List Block}
    (ht : L.AncestryOf k t) (ht' : L'.AncestryOf k t') : t = t' := by
  refine ht.unique_of_agree ht' ?_
  intro k b b' hb hb'
  have hhash : b.hash P = b'.hash P := by rw [hL.keyed k b hb, hL'.keyed k b' hb']
  exact hU.injective b (hL.mem k b hb) b' (hL'.mem k b' hb') hhash

include hL in
/-- A branch has as many blocks as its tip's height says. -/
theorem ancestry_length {k : Hash256} {p : Block} {t : List Block}
    (ht : L.AncestryOf k (p :: t)) : p.header.height + 1 = (p :: t).length := by
  obtain ⟨_, _, hcons, hp⟩ := ht.head
  obtain ⟨rfl, rfl⟩ := List.cons.inj hcons
  obtain ⟨l, hl, hlen⟩ := hL.linked.exists_ancestry hp
  rw [ht.unique hl, List.length_cons, hlen]

include hL in
/-- So has the canonical chain. -/
theorem chain_length {p : Block} (hhead : L.chain.head? = some p) :
    p.header.height + 1 = L.chain.length := by
  obtain ⟨t, ht⟩ := List.head?_eq_some_iff.mp hhead
  rw [ht]
  exact hL.ancestry_length (ht ▸ hL.chain p hhead)

include hL in
/-- The block at index `i` of a branch, counted from genesis, has height `i`. -/
theorem height_of_getElem {k : Hash256} {t : List Block} (ht : L.AncestryOf k t) {i : Nat}
    {b : Block} (hb : t.reverse[i]? = some b) : b.header.height = i :=
  hL.linked.measure_get ht hb

include hL in
/-- No block occurs twice on a branch. -/
theorem ancestry_nodup {k : Hash256} {t : List Block} (ht : L.AncestryOf k t) : t.Nodup := by
  rw [← List.nodup_reverse, List.nodup_iff_getElem?_ne_getElem?]
  intro i j hij hj heq
  obtain ⟨b, hb⟩ : ∃ b, t.reverse[j]? = some b := by
    exact ⟨t.reverse[j], List.getElem?_eq_getElem hj⟩
  have hi := hL.height_of_getElem ht (heq.trans hb)
  have hj' := hL.height_of_getElem ht hb
  omega

include hL hU in
/-- Two branches that have a block in common have its ancestors in common. -/
theorem suffix_of_mem {L' : Ledger} (hL' : L'.WellFormed P U) {k k' : Hash256}
    {t t' : List Block} (ht : L.AncestryOf k t) (ht' : L'.AncestryOf k' t') {b : Block}
    {l : List Block} (hl : (b :: l) <:+ t) (hb : b ∈ t') : (b :: l) <:+ t' := by
  obtain ⟨k₁, hk₁, hwalk₁⟩ := ht.of_suffix hl
  obtain ⟨k₂, l₂, hk₂, hwalk₂, hl₂⟩ := ht'.of_mem hb
  have hkey : k₁ = k₂ := by rw [← hL.keyed k₁ b hk₁, ← hL'.keyed k₂ b hk₂]
  subst hkey
  rw [hL.ancestry_unique hU hL' hwalk₁ hwalk₂]
  exact hl₂

include hL hU in
/-- The ancestry of a block, once it is stored. -/
theorem store_ancestry (hblock : block ∈ U) {parents : List Block}
    (hparents : L.AncestryOf block.previousHash parents) :
    (L.store P block).AncestryOf (block.hash P) (block :: parents) := by
  exact .child (store_known_self L block) (hL.previousHash_ne_zero hU hparents)
    (hparents.mono (hL.store_extends hU hblock))

include hL hU in
/-- Storing a child of a known block keeps the ledger well formed. -/
theorem store (hblock : block ∈ U) {parents : List Block}
    (hparents : L.AncestryOf block.previousHash parents)
    (hheight : block.header.height = parents.length) : (L.store P block).WellFormed P U := by
  have hext := hL.store_extends hU hblock
  obtain ⟨p, t, rfl, hp⟩ := hparents.head
  -- The parent's height is the number of its ancestors, so the block stands one
  -- above its parent.
  have hpheight := hL.ancestry_length hparents
  refine ⟨?_, ?_, ⟨?_⟩, ?_, ?_⟩
  · intro k b hk
    rcases store_known_cases hk with ⟨_, rfl⟩ | hold
    · exact hblock
    · exact hL.mem k b hold
  · intro k b hk
    rcases store_known_cases hk with ⟨rfl, rfl⟩ | hold
    · rfl
    · exact hL.keyed k b hold
  · intro k b hk
    rcases store_known_cases hk with ⟨_, rfl⟩ | hold
    · exact Or.inr ⟨hL.previousHash_ne_zero hU hparents, p, hext _ _ hp, by omega⟩
    · rcases hL.linked.link k b hold with hgenesis | ⟨hne, q, hq, hm⟩
      · exact Or.inl hgenesis
      · exact Or.inr ⟨hne, q, hext _ _ hq, hm⟩
  · intro b hb
    exact (hL.chain b hb).mono hext
  · intro _ _ _
    exact hL.nonempty _ _ hp

include hL hU in
/-- Adopting a child of a known block keeps the ledger well formed. -/
theorem adopt (hblock : block ∈ U) {parents : List Block}
    (hparents : L.AncestryOf block.previousHash parents)
    (hheight : block.header.height = parents.length) :
    (L.adopt P block parents).WellFormed P U := by
  have hstore := hL.store hU hblock hparents hheight
  refine ⟨hstore.mem, hstore.keyed, hstore.linked, ?_, fun _ _ _ => List.cons_ne_nil _ _⟩
  intro b hb
  obtain rfl : block = b := Option.some.inj hb
  exact hL.store_ancestry hU hblock hparents

include hL hU in
theorem choose (hblock : block ∈ U) {parents : List Block}
    (hparents : L.AncestryOf block.previousHash parents)
    (hheight : block.header.height = parents.length) :
    (L.choose P params block parents).2.WellFormed P U := by
  unfold Ledger.choose
  split_ifs
  · split
    · exact hL.store hU hblock hparents hheight
    · exact hL.adopt hU hblock hparents hheight
  · exact hL.store hU hblock hparents hheight

include hL in
/-- A block that passed contextual validation stands one above its parent. -/
theorem validated_height {k : Hash256} {parents : List Block} (hparents : L.AncestryOf k parents)
    {nowSeconds : Nat} {bits : UInt8} {seed : Hash256}
    (hval : validateBlock P params parents.head? block nowSeconds bits seed = .ok ()) :
    block.header.height = parents.length := by
  obtain ⟨p, t, rfl, _⟩ := hparents.head
  have hheight := (validateBlock_ok.mp hval).height
  rw [hheight, ← hL.ancestry_length hparents]
  rfl

end WellFormed

/-- Adopting a genesis block in an empty ledger makes it well formed. -/
theorem wellFormed_genesis (hempty : ∀ k, L.known k = none) (hblock : block ∈ U)
    (hroot : block.previousHash = Hash256.zero) (hheight : block.header.height = 0) :
    (L.adopt P block []).WellFormed P U := by
  have honly : ∀ k b, (L.adopt P block []).known k = some b → k = block.hash P ∧ b = block := by
    intro k b hk
    rcases store_known_cases hk with hself | hold
    · exact hself
    · rw [hempty k] at hold
      cases hold
  refine ⟨?_, ?_, ⟨?_⟩, ?_, fun _ _ _ => List.cons_ne_nil _ _⟩
  · intro k b hk
    obtain ⟨_, rfl⟩ := honly k b hk
    exact hblock
  · intro k b hk
    obtain ⟨rfl, rfl⟩ := honly k b hk
    rfl
  · intro k b hk
    obtain ⟨_, rfl⟩ := honly k b hk
    exact Or.inl ⟨hroot, hheight⟩
  · intro b hb
    obtain rfl : block = b := Option.some.inj hb
    exact .genesis (store_known_self L block) hroot

end Ledger

end Tensorium
