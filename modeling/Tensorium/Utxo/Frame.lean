import Tensorium.Utxo.Accept
import Tensorium.Core.Params

/-! # What a block leaves alone

    Phase 3 of `apply_block` inserts outputs under the key `(tx.id, index)`
    without looking whether the set already holds an entry there. An entry no
    input names therefore survives exactly when no output of the block is
    written over it.
-/

namespace Tensorium

open BulkMap

/-- Every entry of the set that no non-coinbase input of the block names is
    still there, unchanged, in the new set. -/
def KeepsUnlisted (b : Block) (u u' : UtxoSet) : Prop :=
  ∀ op e, u.lookup op = some e → op ∉ b.spends → u'.lookup op = some e

/-- No output of the block is written over an entry that the set holds and the
    block does not spend, unless the last output written there makes the very
    same entry. -/
def NoOverwrite (b : Block) (u : UtxoSet) : Prop :=
  ∀ op ∈ b.creates.map Prod.fst, ∀ e, u.lookup op = some e → op ∉ b.spends →
    lastBinding b.creates op = some e

theorem lookup_applyDelta (b : Block) (u : UtxoSet) (op : OutPoint) :
    (applyDelta b u).lookup op
      = (lastBinding b.creates op).or (if op ∈ b.spends then none else u.lookup op) := by
  unfold applyDelta
  rw [lookup_insertAll, lookup_eraseAll]

/-- **An accepted block keeps every entry it does not list as an input if and
    only if none of its outputs is written over one.** -/
theorem keepsUnlisted_iff_noOverwrite (P : Primitives) (params : ConsensusParams)
    (b : Block) (u u' : UtxoSet) (h : applyBlock P params b u = .ok u') :
    KeepsUnlisted b u u' ↔ NoOverwrite b u := by
  obtain ⟨_, _, _, _, _, _, _, rfl⟩ := applyBlock_ok h
  unfold KeepsUnlisted NoOverwrite
  constructor
  · -- An entry that is kept although it is written over was rewritten as it was.
    intro hkeep op hcreated e he hunlisted
    have hnew := hkeep op e he hunlisted
    rw [lookup_applyDelta, if_neg hunlisted, he] at hnew
    cases hlast : lastBinding b.creates op with
    | none => exact absurd hcreated (lastBinding_eq_none.mp hlast)
    | some e' =>
      rw [hlast, Option.some_or] at hnew
      exact hnew
  · intro hno op e he hunlisted
    rw [lookup_applyDelta, if_neg hunlisted, he]
    by_cases hcreated : op ∈ b.creates.map Prod.fst
    · rw [hno op hcreated e he hunlisted, Option.some_or]
    · rw [lastBinding_eq_none.mpr hcreated, Option.none_or]

/-! ## Chains

    What neither the blocks of one chain nor those of another have touched, on
    top of what they share, both hold alike. Chains are newest block first. -/

theorem applyBlock_lookup_untouched {P : Primitives} {params : ConsensusParams} {b : Block}
    {u u' : UtxoSet} (h : applyBlock P params b u = .ok u') {op : OutPoint}
    (hcreated : op ∉ b.creates.map Prod.fst) (hspent : op ∉ b.spends) :
    u'.lookup op = u.lookup op := by
  obtain ⟨_, _, _, _, _, _, _, rfl⟩ := applyBlock_ok h
  rw [lookup_applyDelta, lastBinding_eq_none.mpr hcreated, if_neg hspent, Option.none_or]

/-- Blocks on top of a chain keep an entry they neither spend nor write over. -/
theorem replay_lookup_append {P : Primitives} {params : ConsensusParams} {new base : List Block}
    {u u' : UtxoSet} (hu : replayUtxo P params base.reverse = .ok u)
    (hu' : replayUtxo P params (new ++ base).reverse = .ok u') {op : OutPoint}
    (hnew : ∀ b ∈ new, op ∉ b.creates.map Prod.fst ∧ op ∉ b.spends) :
    u'.lookup op = u.lookup op := by
  induction new generalizing u' with
  | nil =>
    rw [List.nil_append, hu] at hu'
    rw [Except.ok.inj hu']
  | cons b new ih =>
    rw [List.cons_append, List.reverse_cons, replayUtxo_concat] at hu'
    obtain ⟨v, hv, happly⟩ := ExceptFold.bind_eq_ok.mp hu'
    obtain ⟨hcreated, hspent⟩ := hnew b List.mem_cons_self
    rw [applyBlock_lookup_untouched happly hcreated hspent]
    exact ih hv fun b' hb' => hnew b' (List.mem_cons_of_mem _ hb')

/-- An entry survives the change from one chain to another if no block that goes
    has created it, and no block that comes spends it or writes over it. -/
theorem replay_lookup_kept {P : Primitives} {params : ConsensusParams} {old new : List Block}
    {u u' : UtxoSet} (hshare : ∀ b l, (b :: l) <:+ old → b ∈ new → (b :: l) <:+ new)
    (hnd : new.Nodup) (hu : replayUtxo P params old.reverse = .ok u)
    (hu' : replayUtxo P params new.reverse = .ok u') {op : OutPoint} {entry : UtxoEntry}
    (hentry : u.lookup op = some entry)
    (hold : ∀ b ∈ old, b ∉ new → op ∉ b.creates.map Prod.fst)
    (hnew : ∀ b ∈ new, b ∉ old → op ∉ b.creates.map Prod.fst ∧ op ∉ b.spends) :
    u'.lookup op = some entry := by
  -- Go down the old chain to the first block that is also on the new one.
  induction old generalizing u with
  | nil =>
    obtain rfl := ExceptFold.foldlM_nil_ok.mp hu
    cases hentry
  | cons b old ih =>
    by_cases hb : b ∈ new
    · obtain ⟨top, htop⟩ := hshare b old List.suffix_rfl hb
      rw [← htop] at hu' hnd
      rw [replay_lookup_append hu hu', hentry]
      intro b' hb'
      refine hnew b' (by rw [← htop]; exact List.mem_append_left _ hb') ?_
      exact fun hmem => List.disjoint_of_nodup_append hnd hb' hmem
    · have hcreated := hold b List.mem_cons_self hb
      rw [List.reverse_cons, replayUtxo_concat] at hu
      obtain ⟨v, hv, happly⟩ := ExceptFold.bind_eq_ok.mp hu
      have hbefore : v.lookup op = some entry := by
        obtain ⟨_, _, _, _, _, _, _, rfl⟩ := applyBlock_ok happly
        rw [lookup_applyDelta, lastBinding_eq_none.mpr hcreated, Option.none_or] at hentry
        split_ifs at hentry
        exact hentry
      refine ih ?_ hv hbefore ?_ ?_
      · intro c l hl hc
        exact hshare c l (hl.trans (List.suffix_cons b old)) hc
      · intro c hc
        exact hold c (List.mem_cons_of_mem _ hc)
      · intro c hc hnotin
        refine hnew c hc fun hmem => ?_
        rcases List.mem_cons.mp hmem with rfl | hin
        · exact hb hc
        · exact hnotin hin

/-! ## A coinbase mined twice

    The payload of a coinbase need only start with its tag, so a miner can put
    the coinbase of block 0 into block 1 as it is. Its identifier is the honest
    one, and the second copy is written over the first. -/

/-- The coinbase of block 0. -/
def reusedCoinbase : Transaction :=
  Transaction.coinbase Primitives.sample 0 (rewardAtHeight testParams 0) "a"

/-- The set after block 0. -/
def afterBlock0 : UtxoSet := applyDelta (bareBlock 0 [reusedCoinbase]) ∅

/-- A block on top of it with a coinbase of its own. -/
def freshBlock : Block :=
  bareBlock 1 [Transaction.coinbase Primitives.sample 1 (rewardAtHeight testParams 1) "b"]

theorem keepsUnlisted_freshBlock :
    applyBlock Primitives.sample testParams freshBlock afterBlock0
      = .ok (applyDelta freshBlock afterBlock0) ∧
    (afterBlock0.lookup ⟨reusedCoinbase.id, 0⟩).isSome ∧
    KeepsUnlisted freshBlock afterBlock0 (applyDelta freshBlock afterBlock0) := by
  have happly : applyBlock Primitives.sample testParams freshBlock afterBlock0
      = .ok (applyDelta freshBlock afterBlock0) := rfl
  have hfresh : ∀ op ∈ freshBlock.creates.map Prod.fst, afterBlock0.lookup op = none := by
    decide
  refine ⟨happly, by decide, (keepsUnlisted_iff_noOverwrite _ _ _ _ _ happly).mpr ?_⟩
  intro op hop e he
  rw [hfresh op hop] at he
  cases he

/-- The coinbase of block 0, mined again in block 1, replaces the unspent output
    of block 0 and restarts its maturity, though block 1 has no input at all. -/
theorem reusedCoinbase_overwrites :
    applyBlock Primitives.sample testParams (bareBlock 0 [reusedCoinbase]) ∅ = .ok afterBlock0 ∧
    applyBlock Primitives.sample testParams (bareBlock 1 [reusedCoinbase]) afterBlock0
      = .ok (applyDelta (bareBlock 1 [reusedCoinbase]) afterBlock0) ∧
    reusedCoinbase.id = reusedCoinbase.computedId Primitives.sample ∧
    ¬ KeepsUnlisted (bareBlock 1 [reusedCoinbase]) afterBlock0
      (applyDelta (bareBlock 1 [reusedCoinbase]) afterBlock0) := by
  refine ⟨rfl, rfl, rfl, fun hkeep => ?_⟩
  have hnew := hkeep ⟨reusedCoinbase.id, 0⟩
    ⟨⟨rewardAtHeight testParams 0, Transaction.payTo Primitives.sample "a"⟩, 0, true⟩
    (by decide) (by decide)
  revert hnew
  decide

end Tensorium
