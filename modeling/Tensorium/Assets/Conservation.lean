import Tensorium.Assets.Transfer

/-! # Assets are conserved

    The invariant couples the three maps of an asset state: the balances of a
    fungible asset add up to its supply, balances exist for fungible assets
    only, and owners for non-fungible ones only. Every branch of `apply` keeps
    it, and under it no branch panics.
-/

namespace Tensorium.Assets

open BulkMap

namespace AssetState

variable {st st' : AssetState}

/-! ## The invariant -/

/-- What all addresses together hold of an asset. -/
def held (st : AssetState) (id : Hash256) : Nat :=
  weightBy (fun key balance => if key.2 = id then balance.toNat else 0) st.ftBalances

structure Conserved (st : AssetState) : Prop where
  /-- The balances of a fungible asset add up to its supply. -/
  supply : ∀ id info, st.assets.lookup id = some info → info.kind = .fungible →
    st.held id = info.supply.toNat
  /-- A balance belongs to a known fungible asset. -/
  balances : ∀ addr id balance, st.ftBalances.lookup (addr, id) = some balance →
    ∃ info, st.assets.lookup id = some info ∧ info.kind = .fungible
  /-- A non-fungible asset has an owner. -/
  owned : ∀ id info, st.assets.lookup id = some info → info.kind = .nonFungible →
    ∃ owner, st.nftOwner.lookup id = some owner
  /-- An owner belongs to a known non-fungible asset. -/
  owners : ∀ id owner, st.nftOwner.lookup id = some owner →
    ∃ info, st.assets.lookup id = some info ∧ info.kind = .nonFungible

/-- What a call that returned `r` may have done to the state. -/
structure Sound (st : AssetState) (r : ApplyResult) (st' : AssetState) : Prop where
  conserved : Conserved st'
  assets : ∀ id info, st.assets.lookup id = some info → st'.assets.lookup id = some info
  ignored : ∀ reason, r = .ignored reason → st' = st

theorem conserved_default : Conserved default where
  supply _ _ h := by cases h
  balances _ _ _ h := by cases h
  owned _ _ h := by cases h
  owners _ _ h := by cases h

theorem Conserved.ignored (h : Conserved st) (reason : String) :
    Sound st (.ignored reason) st :=
  ⟨h, fun _ _ hid => hid, fun _ _ => rfl⟩

/-- An asset that is not known yet has no balances. -/
theorem Conserved.held_unknown (h : Conserved st) {id : Hash256} (hid : st.assets.lookup id = none) :
    st.held id = 0 := by
  unfold held
  apply weightBy_eq_zero
  intro key balance hkey
  by_cases heq : key.2 = id
  · obtain ⟨info, hinfo, _⟩ := h.balances key.1 key.2 balance hkey
    rw [heq, hid] at hinfo
    cases hinfo
  · simp [heq]

/-! ## Moving a balance -/

theorem held_insert (st : AssetState) (addr : String) (id id' : Hash256) (balance : UInt64) :
    held { st with ftBalances := st.ftBalances.insert (addr, id) balance } id'
        + (if id = id' then (st.ftBalance addr id).toNat else 0)
      = st.held id' + (if id = id' then balance.toNat else 0) := by
  have h := weightBy_insert_add
    (fun (key : String × Hash256) (b : UInt64) => if key.2 = id' then b.toNat else 0)
    st.ftBalances (addr, id) balance
  have hat : weightAt (fun b : UInt64 => if id = id' then b.toNat else 0) st.ftBalances (addr, id)
      = if id = id' then (st.ftBalance addr id).toNat else 0 := by
    unfold weightAt ftBalance
    cases st.ftBalances.lookup (addr, id) with
    | none => simp
    | some b => simp
  rw [hat] at h
  exact h

theorem ftBalance_le_held (st : AssetState) (addr : String) (id : Hash256) :
    (st.ftBalance addr id).toNat ≤ st.held id := by
  have h := weightAt_le_weightBy
    (fun (key : String × Hash256) (b : UInt64) => if key.2 = id then b.toNat else 0)
    st.ftBalances (addr, id)
  have hat : weightAt (fun b : UInt64 => if id = id then b.toNat else 0) st.ftBalances (addr, id)
      = (st.ftBalance addr id).toNat := by
    unfold weightAt ftBalance
    cases st.ftBalances.lookup (addr, id) with
    | none => simp
    | some b => simp
  rw [hat] at h
  exact h

/-- A credit that fits into the register succeeds and adds to what is held. -/
theorem credit_eq (st : AssetState) (addr : String) (id : Hash256) {amount : UInt64}
    (hfits : st.held id + amount.toNat < 2 ^ 64) :
    ∃ balance, st.credit addr id amount
        = some { st with ftBalances := st.ftBalances.insert (addr, id) balance } ∧
      ∀ id', held { st with ftBalances := st.ftBalances.insert (addr, id) balance } id'
        = st.held id' + if id = id' then amount.toNat else 0 := by
  have hle := st.ftBalance_le_held addr id
  have hlt : (st.ftBalance addr id).toNat + amount.toNat < 2 ^ 64 := by omega
  refine ⟨st.ftBalance addr id + amount, ?_, ?_⟩
  · unfold credit checkedAdd
    rw [if_pos hlt]
    rfl
  · intro id'
    have h := st.held_insert addr id id' (st.ftBalance addr id + amount)
    rw [UInt64.toNat_add, Nat.mod_eq_of_lt hlt] at h
    split_ifs at h ⊢ with heq
    · omega
    · omega

/-- A debit that the balance covers finds its entry and takes from what is
    held. -/
theorem debit_eq (st : AssetState) (addr : String) (id : Hash256) {amount : UInt64}
    (hpos : amount ≠ 0) (hcovers : amount ≤ st.ftBalance addr id) :
    ∃ balance, st.debit addr id amount
        = some { st with ftBalances := st.ftBalances.insert (addr, id) balance } ∧
      ∀ id', held { st with ftBalances := st.ftBalances.insert (addr, id) balance } id'
          + (if id = id' then amount.toNat else 0) = st.held id' := by
  -- The balance is positive, so it is not the default of a missing entry.
  have hentry : ∃ b, st.ftBalances.lookup (addr, id) = some b := by
    cases hlook : st.ftBalances.lookup (addr, id) with
    | some b => exact ⟨b, rfl⟩
    | none =>
      have hzero : st.ftBalance addr id = 0 := by simp [ftBalance, hlook]
      rw [hzero] at hcovers
      exact absurd (UInt64.le_zero_iff.mp hcovers) hpos
  obtain ⟨b, hb⟩ := hentry
  have hbal : st.ftBalance addr id = b := by simp [ftBalance, hb]
  rw [hbal] at hcovers
  refine ⟨b - amount, ?_, ?_⟩
  · unfold debit checkedSub
    rw [hb, Option.bind_eq_bind, Option.bind_some, if_pos hcovers]
    rfl
  · intro id'
    have h := st.held_insert addr id id' (b - amount)
    have hle := UInt64.le_iff_toNat_le.mp hcovers
    rw [hbal, UInt64.toNat_sub_of_le _ _ hcovers] at h
    split_ifs at h ⊢ with heq
    · omega
    · omega

/-- Replacing balances of a known fungible asset keeps the invariant as long as
    every asset is held as before. -/
theorem Conserved.moved (h : Conserved st) {id : Hash256} {info : AssetInfo}
    (hid : st.assets.lookup id = some info) (hkind : info.kind = .fungible)
    (hassets : st'.assets = st.assets) (howner : st'.nftOwner = st.nftOwner)
    (hheld : ∀ id', st'.held id' = st.held id')
    (hkeys : ∀ addr id' b, st'.ftBalances.lookup (addr, id') = some b →
      id' = id ∨ ∃ b', st.ftBalances.lookup (addr, id') = some b') : Conserved st' where
  supply id' info' hid' hkind' := by
    rw [hassets] at hid'
    rw [hheld]
    exact h.supply id' info' hid' hkind'
  balances addr id' b hb := by
    rw [hassets]
    rcases hkeys addr id' b hb with rfl | ⟨b', hb'⟩
    · exact ⟨info, hid, hkind⟩
    · exact h.balances addr id' b' hb'
  owned id' info' hid' hkind' := by
    rw [hassets] at hid'
    rw [howner]
    exact h.owned id' info' hid' hkind'
  owners id' owner ho := by
    rw [howner] at ho
    rw [hassets]
    exact h.owners id' owner ho

/-- Filing a new asset keeps those that are filed. -/
theorem lookup_insert_fresh {assets : Map Hash256 AssetInfo} {txid id : Hash256}
    {info info' : AssetInfo} (hfresh : assets.lookup txid = none)
    (hid : assets.lookup id = some info') : (assets.insert txid info).lookup id = some info' := by
  rw [lookup_insert_ite, if_neg]
  · exact hid
  · rintro rfl
    rw [hfresh] at hid
    cases hid

/-! ## The branches of `apply` -/

theorem Conserved.applyIssue (h : Conserved st) (txid : Hash256) (height : Nat) (source : String)
    (d : IssueData) :
    ∃ r st', st.applyIssue txid height source d = some (r, st') ∧ Sound st r st' := by
  unfold AssetState.applyIssue
  split_ifs with hknown hdecimals
  · exact ⟨_, st, rfl, h.ignored _⟩
  · exact ⟨_, st, rfl, h.ignored _⟩
  have hfresh : st.assets.lookup txid = none := Option.not_isSome_iff_eq_none.mp hknown
  have hzero := h.held_unknown hfresh
  -- Nothing of the new asset is held before, so the credit cannot overflow.
  have hfits : st.held txid + d.supply.toNat < 2 ^ 64 := by
    have hlt := d.supply.toNat_lt
    omega
  obtain ⟨balance, hcredit, hheld⟩ := credit_eq
    { st with assets := st.assets.insert txid (d.assetInfo source height) } source txid hfits
  dsimp only
  rw [hcredit]
  refine ⟨.applied, _, rfl, ⟨⟨?_, ?_, ?_, ?_⟩, ?_, fun _ hr => by cases hr⟩⟩
  · intro id info hid hkind
    rw [hheld]
    show st.held id + _ = _
    rw [lookup_insert_ite] at hid
    split_ifs at hid ⊢ with heq
    · subst heq
      obtain rfl := Option.some.inj hid
      rw [hzero, Nat.zero_add]
      rfl
    · exact h.supply id info hid hkind
  · intro addr id b hb
    rw [lookup_insert_ite] at hb
    by_cases heq : txid = id
    · subst heq
      exact ⟨d.assetInfo source height, Finmap.lookup_insert _, rfl⟩
    · rw [if_neg (by simp [heq])] at hb
      obtain ⟨info, hid, hkind⟩ := h.balances addr id b hb
      exact ⟨info, lookup_insert_fresh hfresh hid, hkind⟩
  · intro id info hid hkind
    rw [lookup_insert_ite] at hid
    split_ifs at hid with heq
    · obtain rfl := Option.some.inj hid
      cases hkind
    · exact h.owned id info hid hkind
  · intro id owner ho
    obtain ⟨info, hid, hkind⟩ := h.owners id owner ho
    exact ⟨info, lookup_insert_fresh hfresh hid, hkind⟩
  · intro id info hid
    exact lookup_insert_fresh hfresh hid

theorem Conserved.applyNftMint (h : Conserved st) (txid : Hash256) (height : Nat)
    (source : String) (d : NftMintData) :
    ∃ r st', st.applyNftMint txid height source d = some (r, st') ∧ Sound st r st' := by
  unfold AssetState.applyNftMint
  split_ifs with hknown hroyalty
  · exact ⟨_, st, rfl, h.ignored _⟩
  · exact ⟨_, st, rfl, h.ignored _⟩
  -- The id is new, so no other asset, balance or owner changes.
  have hfresh : st.assets.lookup txid = none := Option.not_isSome_iff_eq_none.mp hknown
  refine ⟨.applied, _, rfl, ⟨⟨?_, ?_, ?_, ?_⟩, ?_, fun _ hr => by cases hr⟩⟩
  · intro id info hid hkind
    rw [lookup_insert_ite] at hid
    split_ifs at hid with heq
    · obtain rfl := Option.some.inj hid
      cases hkind
    · exact h.supply id info hid hkind
  · intro addr id b hb
    obtain ⟨info, hid, hkind⟩ := h.balances addr id b hb
    exact ⟨info, lookup_insert_fresh hfresh hid, hkind⟩
  · intro id info hid hkind
    rw [lookup_insert_ite] at hid
    by_cases heq : txid = id
    · subst heq
      exact ⟨source, Finmap.lookup_insert _⟩
    · rw [if_neg heq] at hid
      obtain ⟨owner, ho⟩ := h.owned id info hid hkind
      refine ⟨owner, ?_⟩
      rw [lookup_insert_ite, if_neg heq, ho]
  · intro id owner ho
    rw [lookup_insert_ite] at ho
    by_cases heq : txid = id
    · subst heq
      exact ⟨d.assetInfo source height, Finmap.lookup_insert _, rfl⟩
    · rw [if_neg heq] at ho
      obtain ⟨info, hid, hkind⟩ := h.owners id owner ho
      exact ⟨info, lookup_insert_fresh hfresh hid, hkind⟩
  · intro id info hid
    exact lookup_insert_fresh hfresh hid

/-- The fungible case of a transfer: what the debit takes out of the asset the
    credit puts back, also when both meet the same entry. -/
theorem Conserved.moveBalance (h : Conserved st) {id : Hash256} {info : AssetInfo}
    (hid : st.assets.lookup id = some info) (hkind : info.kind = .fungible) (source dest : String)
    {amount : UInt64} (hpos : amount ≠ 0) (hcovers : amount ≤ st.ftBalance source id) :
    ∃ st₁ st₂, st.debit source id amount = some st₁ ∧ st₁.credit dest id amount = some st₂ ∧
      Conserved st₂ ∧ st₂.assets = st.assets := by
  obtain ⟨b₁, hdebit, hheld₁⟩ := st.debit_eq source id hpos hcovers
  generalize hst₁ : ({ st with ftBalances := st.ftBalances.insert (source, id) b₁ } : AssetState)
    = st₁ at hdebit hheld₁
  have hback : st₁.held id + amount.toNat = st.held id := by simpa using hheld₁ id
  have hfits : st₁.held id + amount.toNat < 2 ^ 64 := by
    rw [hback, h.supply id info hid hkind]
    exact info.supply.toNat_lt
  obtain ⟨b₂, hcredit, hheld₂⟩ := st₁.credit_eq dest id hfits
  subst hst₁
  refine ⟨_, _, hdebit, hcredit, h.moved hid hkind rfl rfl ?_ ?_, rfl⟩
  · intro id'
    rw [hheld₂, hheld₁]
  · intro addr id' b hb
    by_cases heq : id' = id
    · exact Or.inl heq
    · refine Or.inr ⟨b, ?_⟩
      dsimp only at hb
      rw [lookup_insert_ite, if_neg (by simp [Ne.symm heq]), lookup_insert_ite,
        if_neg (by simp [Ne.symm heq])] at hb
      exact hb

theorem Conserved.applyTransfer (h : Conserved st) (source : String) (destAddr : Option String)
    (d : TransferData) :
    ∃ r st', st.applyTransfer source destAddr d = some (r, st') ∧ Sound st r st' := by
  unfold AssetState.applyTransfer
  cases hid : st.assets.lookup d.assetId with
  | none => exact ⟨_, st, rfl, h.ignored _⟩
  | some info =>
  cases destAddr with
  | none => exact ⟨_, st, rfl, h.ignored _⟩
  | some dest =>
  dsimp only
  cases hkind : info.kind with
  | fungible =>
    dsimp only
    split_ifs with hzero hshort
    · exact ⟨_, st, rfl, h.ignored _⟩
    · exact ⟨_, st, rfl, h.ignored _⟩
    · obtain ⟨st₁, st₂, hdebit, hcredit, hconserved, hassets⟩ :=
        h.moveBalance hid hkind source dest hzero (UInt64.not_lt.mp hshort)
      rw [hdebit, Option.bind_eq_bind, Option.bind_some, hcredit]
      refine ⟨.applied, st₂, rfl, hconserved, ?_, fun _ hr => by cases hr⟩
      intro id' info' hid'
      rw [hassets]
      exact hid'
  | nonFungible =>
    dsimp only
    split_ifs with hamount howner
    · exact ⟨_, st, rfl, h.ignored _⟩
    · exact ⟨_, st, rfl, h.ignored _⟩
    · refine ⟨.applied, _, rfl, ⟨h.supply, h.balances, ?_, ?_⟩, fun _ _ hid' => hid',
        fun _ hr => by cases hr⟩
      · intro id' info' hid' hkind'
        -- The token has its new owner, and all others keep theirs.
        by_cases heq : d.assetId = id'
        · subst heq
          exact ⟨dest, Finmap.lookup_insert _⟩
        · obtain ⟨owner, ho⟩ := h.owned id' info' hid' hkind'
          refine ⟨owner, ?_⟩
          rw [lookup_insert_ite, if_neg heq, ho]
      · intro id' owner ho
        rw [lookup_insert_ite] at ho
        by_cases heq : d.assetId = id'
        · subst heq
          exact ⟨info, hid, hkind⟩
        · rw [if_neg heq] at ho
          exact h.owners id' owner ho

/-- One call keeps the invariant and does not panic. -/
theorem Conserved.apply (h : Conserved st) (txid : Hash256) (height : Nat) (source : String)
    (destAddr : Option String) (op : AssetOp) :
    ∃ r st', st.apply txid height source destAddr op = some (r, st') ∧ Sound st r st' := by
  cases op with
  | issue d => exact h.applyIssue txid height source d
  | nftMint d => exact h.applyNftMint txid height source d
  | transfer d => exact h.applyTransfer source destAddr d

/-! ## Only the source loses -/

/-- Between the two states, `addr` lost some of a fungible asset or its
    non-fungible one. -/
def Loses (st st' : AssetState) (addr : String) (id : Hash256) : Prop :=
  st'.ftBalance addr id < st.ftBalance addr id ∨
  (st.nftOwner.lookup id = some addr ∧ st'.nftOwner.lookup id ≠ some addr)

theorem not_loses_self (st : AssetState) (addr : String) (id : Hash256) :
    ¬ Loses st st addr id := by
  rintro (hlt | ⟨how, hne⟩)
  · exact absurd hlt (UInt64.lt_irrefl _)
  · exact hne how

/-- A credit takes nothing from anyone. -/
theorem not_loses_credit {dest : String} {id : Hash256} {amount : UInt64}
    (h : st.credit dest id amount = some st') (addr : String) (id' : Hash256) :
    ¬ Loses st st' addr id' := by
  intro hloses
  rcases hloses with hlt | ⟨how, hne⟩
  · have hbalance := toNat_ftBalance_credit h addr id'
    have hless := UInt64.lt_iff_toNat_lt.mp hlt
    omega
  · rw [nftOwner_credit h] at hne
    exact hne how

/-- What moves leaves its source. -/
theorem Moves.source_of_loses {id id' : Hash256} {amount : UInt64} {source dest addr : String}
    (hmoves : Moves st st' id amount source dest) (hloses : Loses st st' addr id') :
    source = addr := by
  cases hmoves with
  | balance _ _ _ howners hbalances =>
    rcases hloses with hlt | ⟨how, hne⟩
    · have hbalance := hbalances addr id'
      have hless := UInt64.lt_iff_toNat_lt.mp hlt
      by_contra hsource
      rw [if_neg fun hentry => hsource hentry.1] at hbalance
      omega
    · rw [howners] at hne
      exact absurd how hne
  | token _ _ _ hbalances _ howner howners =>
    rcases hloses with hlt | ⟨how, hne⟩
    · unfold ftBalance at hlt
      rw [hbalances] at hlt
      exact absurd hlt (UInt64.lt_irrefl _)
    · rw [howners] at hne
      by_cases hid : id = id'
      · rw [← hid, howner] at how
        exact Option.some.inj how
      · rw [if_neg hid] at hne
        exact absurd how hne

/-- An issue takes nothing from anyone. -/
theorem not_loses_applyIssue {txid : Hash256} {height : Nat} {source : String} {d : IssueData}
    {r : ApplyResult} (hcall : st.applyIssue txid height source d = some (r, st'))
    (addr : String) (id : Hash256) : ¬ Loses st st' addr id := by
  unfold AssetState.applyIssue at hcall
  dsimp only at hcall
  split_ifs at hcall
  · cases hcall
    exact not_loses_self _ _ _
  · cases hcall
    exact not_loses_self _ _ _
  · obtain ⟨st₁, hcredit, hst₁⟩ := Option.bind_eq_some_iff.mp hcall
    cases hst₁
    exact not_loses_credit hcredit addr id

/-- Minting takes nothing from anyone: the id is new, so nobody owned it. -/
theorem Conserved.not_loses_applyNftMint (h : Conserved st) {txid : Hash256} {height : Nat}
    {source : String} {d : NftMintData} {r : ApplyResult}
    (hcall : st.applyNftMint txid height source d = some (r, st')) (addr : String)
    (id : Hash256) : ¬ Loses st st' addr id := by
  unfold AssetState.applyNftMint at hcall
  split_ifs at hcall with hknown hroyalty
  · cases hcall
    exact not_loses_self _ _ _
  · cases hcall
    exact not_loses_self _ _ _
  · cases hcall
    intro hloses
    rcases hloses with hlt | ⟨how, hne⟩
    · exact absurd hlt (UInt64.lt_irrefl _)
    · dsimp only at hne
      rw [lookup_insert_ite] at hne
      by_cases heq : txid = id
      · obtain ⟨info, hid, _⟩ := h.owners id addr how
        rw [heq, hid] at hknown
        exact absurd rfl hknown
      · rw [if_neg heq] at hne
        exact absurd how hne

/-- A transfer takes from its source. -/
theorem source_of_loses_applyTransfer {source : String} {destAddr : Option String}
    {d : TransferData} {r : ApplyResult}
    (hcall : st.applyTransfer source destAddr d = some (r, st')) {addr : String} {id : Hash256}
    (hloses : Loses st st' addr id) : source = addr := by
  have hsame : ∀ reason, some (.ignored reason, st) = some (r, st') → source = addr := by
    intro reason heq
    cases heq
    exact absurd hloses (not_loses_self _ _ _)
  cases hid : st.assets.lookup d.assetId with
  | none =>
    unfold AssetState.applyTransfer at hcall
    rw [hid] at hcall
    exact hsame _ hcall
  | some info =>
    cases destAddr with
    | none =>
      unfold AssetState.applyTransfer at hcall
      rw [hid] at hcall
      exact hsame _ hcall
    | some dest =>
      rcases applyTransfer_cases hid hcall with ⟨_, _, hmoves⟩ | ⟨_, rfl⟩
      · exact hmoves.source_of_loses hloses
      · exact absurd hloses (not_loses_self _ _ _)

/-- Whatever a call takes, it takes from its source. -/
theorem Conserved.source_of_loses (h : Conserved st) {txid : Hash256} {height : Nat}
    {source : String} {destAddr : Option String} {op : AssetOp} {r : ApplyResult}
    (hcall : st.apply txid height source destAddr op = some (r, st')) {addr : String}
    {id : Hash256} (hloses : Loses st st' addr id) : source = addr := by
  cases op with
  | issue d => exact absurd hloses (not_loses_applyIssue hcall addr id)
  | nftMint d => exact absurd hloses (h.not_loses_applyNftMint hcall addr id)
  | transfer d => exact source_of_loses_applyTransfer hcall hloses

/-! ## Sequences of calls -/

/-- The arguments of one call of `apply`. -/
structure Call where
  txid : Hash256
  height : Nat
  source : String
  destAddr : Option String
  op : AssetOp

def call (st : AssetState) (c : Call) : Option (ApplyResult × AssetState) :=
  st.apply c.txid c.height c.source c.destAddr c.op

/-- The state after a sequence of calls; `none` if one of them panics. -/
def run (st : AssetState) (calls : List Call) : Option AssetState :=
  calls.foldlM (fun st c => (st.call c).map Prod.snd) st

theorem Conserved.run (h : Conserved st) (calls : List Call) :
    ∃ st', st.run calls = some st' ∧ Conserved st' := by
  -- Induction on the calls, from any state that satisfies the invariant.
  induction calls generalizing st with
  | nil => exact ⟨st, rfl, h⟩
  | cons c calls ih =>
    obtain ⟨r, st₁, hcall, hsound⟩ := h.apply c.txid c.height c.source c.destAddr c.op
    obtain ⟨st', hrun, hst'⟩ := ih hsound.conserved
    refine ⟨st', ?_, hst'⟩
    have hstep : st.call c = some (r, st₁) := hcall
    unfold AssetState.run at hrun ⊢
    rw [List.foldlM_cons, hstep]
    exact hrun

/-- **Assets are conserved.** No sequence of calls panics. In the state it leads
    to, the balances of a fungible asset add up to its supply, balances exist for
    known fungible assets only, and a non-fungible asset has exactly one owner
    and no balances. From there any further call returns, keeps every asset with
    its record, and changes nothing at all if it is ignored. -/
theorem assets_conserved (calls : List Call) :
    ∃ st, run default calls = some st ∧
      (∀ id info, st.assets.lookup id = some info → info.kind = .fungible →
        st.held id = info.supply.toNat) ∧
      (∀ addr id balance, st.ftBalances.lookup (addr, id) = some balance →
        ∃ info, st.assets.lookup id = some info ∧ info.kind = .fungible) ∧
      (∀ id info, st.assets.lookup id = some info → info.kind = .nonFungible →
        (∃! owner, st.nftOwner.lookup id = some owner) ∧
        ∀ addr, st.ftBalances.lookup (addr, id) = none) ∧
      ∀ c : Call, ∃ r st', st.call c = some (r, st') ∧
        (∀ id info, st.assets.lookup id = some info → st'.assets.lookup id = some info) ∧
        (∀ reason, r = .ignored reason → st' = st) := by
  obtain ⟨st, hrun, h⟩ := conserved_default.run calls
  refine ⟨st, hrun, h.supply, h.balances, ?_, ?_⟩
  · intro id info hid hkind
    obtain ⟨owner, ho⟩ := h.owned id info hid hkind
    constructor
    · refine ⟨owner, ho, fun owner' ho' => ?_⟩
      rw [ho] at ho'
      exact (Option.some.inj ho').symm
    · intro addr
      cases hb : st.ftBalances.lookup (addr, id) with
      | none => rfl
      | some balance =>
        obtain ⟨info', hid', hkind'⟩ := h.balances addr id balance hb
        rw [hid] at hid'
        obtain rfl := Option.some.inj hid'
        rw [hkind] at hkind'
        cases hkind'
  · intro c
    obtain ⟨r, st', hcall, hsound⟩ := h.apply c.txid c.height c.source c.destAddr c.op
    exact ⟨r, st', hcall, hsound.assets, hsound.ignored⟩

end AssetState

end Tensorium.Assets
