import Tensorium.Core.Assets

/-! # What a transfer does

    A transfer either moves exactly its amount from its source to its destination,
    or it is ignored and changes nothing.
-/

namespace Tensorium.Assets

open BulkMap

namespace AssetState

variable {st st' : AssetState} {id : Hash256} {amount : UInt64} {source dest : String}

/-- An address has so much of an asset to give: the balance of a fungible one, or the
    one piece of a non-fungible one. -/
inductive Holds (st : AssetState) (id : Hash256) (amount : UInt64) (addr : String) : Prop where
  | balance {info : AssetInfo} : st.assets.lookup id = some info → info.kind = .fungible →
      amount ≤ st.ftBalance addr id → Holds st id amount addr
  | token {info : AssetInfo} : st.assets.lookup id = some info → info.kind = .nonFungible →
      amount = 1 → st.nftOwner.lookup id = some addr → Holds st id amount addr

/-- Exactly so much of an asset passes from one address to another, and nothing else
    changes. -/
inductive Moves (st st' : AssetState) (id : Hash256) (amount : UInt64) (source dest : String) :
    Prop where
  | balance {info : AssetInfo} : st.assets.lookup id = some info → info.kind = .fungible →
      st'.assets = st.assets → st'.nftOwner = st.nftOwner →
      (∀ addr id', (st'.ftBalance addr id').toNat
          + (if source = addr ∧ id = id' then amount.toNat else 0)
        = (st.ftBalance addr id').toNat
          + (if dest = addr ∧ id = id' then amount.toNat else 0)) →
      Moves st st' id amount source dest
  | token {info : AssetInfo} : st.assets.lookup id = some info → info.kind = .nonFungible →
      st'.assets = st.assets → st'.ftBalances = st.ftBalances → amount = 1 →
      st.nftOwner.lookup id = some source →
      (∀ id', st'.nftOwner.lookup id' = if id = id' then some dest else st.nftOwner.lookup id') →
      Moves st st' id amount source dest

theorem ftBalance_insert (st : AssetState) (addr addr' : String) (id id' : Hash256)
    (balance : UInt64) :
    ftBalance { st with ftBalances := st.ftBalances.insert (addr, id) balance } addr' id'
      = if addr = addr' ∧ id = id' then balance else st.ftBalance addr' id' := by
  unfold ftBalance
  dsimp only
  rw [lookup_insert_ite]
  by_cases h : addr = addr' ∧ id = id'
  · rw [if_pos h, if_pos (by rw [h.1, h.2])]
    rfl
  · rw [if_neg h, if_neg]
    rintro heq
    obtain ⟨rfl, rfl⟩ := Prod.mk.inj heq
    exact h ⟨rfl, rfl⟩

/-- A credit adds to one balance. -/
theorem toNat_ftBalance_credit (h : st.credit dest id amount = some st') (addr : String)
    (id' : Hash256) :
    (st'.ftBalance addr id').toNat = (st.ftBalance addr id').toNat
      + (if dest = addr ∧ id = id' then amount.toNat else 0) := by
  obtain ⟨balance, hbalance, h⟩ := Option.bind_eq_some_iff.mp h
  obtain rfl := Option.some.inj h
  rw [ftBalance_insert]
  by_cases hentry : dest = addr ∧ id = id'
  · obtain ⟨rfl, rfl⟩ := hentry
    rw [if_pos ⟨rfl, rfl⟩, if_pos ⟨rfl, rfl⟩]
    exact checkedAdd_eq_some.mp hbalance
  · rw [if_neg hentry, if_neg hentry, Nat.add_zero]

/-- A debit takes from one balance. -/
theorem toNat_ftBalance_debit (h : st.debit source id amount = some st') (addr : String)
    (id' : Hash256) :
    (st'.ftBalance addr id').toNat + (if source = addr ∧ id = id' then amount.toNat else 0)
      = (st.ftBalance addr id').toNat := by
  obtain ⟨balance, hlookup, h⟩ := Option.bind_eq_some_iff.mp h
  obtain ⟨less, hless, h⟩ := Option.bind_eq_some_iff.mp h
  obtain rfl := Option.some.inj h
  rw [ftBalance_insert]
  by_cases hentry : source = addr ∧ id = id'
  · obtain ⟨rfl, rfl⟩ := hentry
    rw [if_pos ⟨rfl, rfl⟩, if_pos ⟨rfl, rfl⟩]
    unfold ftBalance
    rw [hlookup]
    exact (checkedSub_eq_some.mp hless).symm
  · rw [if_neg hentry, if_neg hentry, Nat.add_zero]

theorem nftOwner_credit {addr : String} {id : Hash256} {amount : UInt64}
    (h : st.credit addr id amount = some st') : st'.nftOwner = st.nftOwner := by
  unfold credit at h
  obtain ⟨b, _, hb⟩ := Option.bind_eq_some_iff.mp h
  obtain rfl := Option.some.inj hb
  rfl

theorem nftOwner_debit {addr : String} {id : Hash256} {amount : UInt64}
    (h : st.debit addr id amount = some st') : st'.nftOwner = st.nftOwner := by
  unfold debit at h
  obtain ⟨b, _, hb⟩ := Option.bind_eq_some_iff.mp h
  obtain ⟨b', _, hb'⟩ := Option.bind_eq_some_iff.mp hb
  obtain rfl := Option.some.inj hb'
  rfl

theorem assets_credit (h : st.credit dest id amount = some st') : st'.assets = st.assets := by
  obtain ⟨_, _, h⟩ := Option.bind_eq_some_iff.mp h
  obtain rfl := Option.some.inj h
  rfl

theorem assets_debit (h : st.debit source id amount = some st') : st'.assets = st.assets := by
  obtain ⟨_, _, h⟩ := Option.bind_eq_some_iff.mp h
  obtain ⟨_, _, h⟩ := Option.bind_eq_some_iff.mp h
  obtain rfl := Option.some.inj h
  rfl

/-- An asset is not of both kinds. -/
theorem one_kind {info info' : AssetInfo} (hid : st.assets.lookup id = some info)
    (hkind : info.kind = .fungible) (hid' : st.assets.lookup id = some info')
    (hkind' : info'.kind = .nonFungible) : False := by
  rw [hid] at hid'
  rw [Option.some.inj hid', hkind'] at hkind
  cases hkind

section Known

variable {info : AssetInfo} (hid : st.assets.lookup id = some info)

include hid

theorem holds_fungible_iff (hkind : info.kind = .fungible) {addr : String} :
    st.Holds id amount addr ↔ amount ≤ st.ftBalance addr id := by
  constructor
  · intro h
    cases h with
    | balance _ _ hle => exact hle
    | token hknown hother =>
      exact (one_kind hid hkind hknown hother).elim
  · exact .balance hid hkind

theorem holds_nonFungible_iff (hkind : info.kind = .nonFungible) {addr : String} :
    st.Holds id amount addr ↔ amount = 1 ∧ st.nftOwner.lookup id = some addr := by
  constructor
  · intro h
    cases h with
    | balance hknown hother =>
      exact (one_kind hknown hother hid hkind).elim
    | token _ _ hone howner => exact ⟨hone, howner⟩
  · rintro ⟨hone, howner⟩
    exact .token hid hkind hone howner

end Known

/-- A transfer moves what its source has to give, and is ignored otherwise. -/
theorem applyTransfer_cases {destIndex : UInt8} {r : ApplyResult} {info : AssetInfo}
    (hid : st.assets.lookup id = some info)
    (hcall : st.applyTransfer source (some dest) ⟨id, amount, destIndex⟩ = some (r, st')) :
    (amount ≠ 0 ∧ st.Holds id amount source ∧ Moves st st' id amount source dest) ∨
      ((amount = 0 ∨ ¬ st.Holds id amount source) ∧ st' = st) := by
  unfold applyTransfer at hcall
  rw [hid] at hcall
  dsimp only at hcall
  cases hkind : info.kind with
  | fungible =>
    rw [hkind] at hcall
    dsimp only at hcall
    rw [holds_fungible_iff hid hkind]
    by_cases hzero : amount = 0
    · rw [if_pos hzero] at hcall
      cases hcall
      exact Or.inr ⟨Or.inl hzero, rfl⟩
    rw [if_neg hzero] at hcall
    by_cases hshort : st.ftBalance source id < amount
    · rw [if_pos hshort] at hcall
      cases hcall
      exact Or.inr ⟨Or.inr (UInt64.not_le.mpr hshort), rfl⟩
    rw [if_neg hshort] at hcall
    obtain ⟨st₁, hdebit, hcall⟩ := Option.bind_eq_some_iff.mp hcall
    obtain ⟨st₂, hcredit, hcall⟩ := Option.bind_eq_some_iff.mp hcall
    cases hcall
    refine Or.inl ⟨hzero, UInt64.not_lt.mp hshort, .balance hid hkind ?_ ?_ ?_⟩
    · rw [assets_credit hcredit, assets_debit hdebit]
    · rw [nftOwner_credit hcredit, nftOwner_debit hdebit]
    · -- Both at once, as source and destination may be the same.
      intro addr id'
      have hin := toNat_ftBalance_credit hcredit addr id'
      have hout := toNat_ftBalance_debit hdebit addr id'
      omega
  | nonFungible =>
    rw [hkind] at hcall
    dsimp only at hcall
    rw [holds_nonFungible_iff hid hkind]
    by_cases hone : amount = 1
    · rw [if_neg (not_not_intro hone)] at hcall
      by_cases howner : st.nftOwner.lookup id = some source
      · rw [if_neg (not_not_intro howner)] at hcall
        cases hcall
        have hpos : amount ≠ 0 := by
          rw [hone]
          decide
        exact Or.inl ⟨hpos, ⟨hone, howner⟩,
          .token hid hkind rfl rfl hone howner fun id' => lookup_insert_ite _ _ _ _⟩
      · rw [if_pos howner] at hcall
        cases hcall
        exact Or.inr ⟨Or.inr fun h => howner h.2, rfl⟩
    · rw [if_pos hone] at hcall
      cases hcall
      exact Or.inr ⟨Or.inr fun h => hone h.1, rfl⟩

/-- A state without a change is one in which nothing has to move. -/
theorem moves_self_iff (hholds : st.Holds id amount source) :
    Moves st st id amount source dest ↔ amount = 0 ∨ source = dest := by
  cases hholds with
  | @balance info hid hkind hle =>
    constructor
    · intro h
      cases h with
      | balance _ _ _ _ hbalances =>
        have hsource := hbalances source id
        rw [if_pos ⟨rfl, rfl⟩] at hsource
        -- The balance of the source does not change, though it should fall.
        by_cases hsame : dest = source
        · exact Or.inr hsame.symm
        · rw [if_neg fun hentry => hsame hentry.1] at hsource
          refine Or.inl (UInt64.toNat_inj.mp ?_)
          rw [UInt64.toNat_zero]
          omega
      | token hknown hother =>
        exact (one_kind hid hkind hknown hother).elim
    · intro h
      refine .balance hid hkind rfl rfl ?_
      intro addr id'
      rcases h with rfl | rfl
      · simp
      · rfl
  | @token info hid hkind hone howner =>
    constructor
    · intro h
      cases h with
      | balance hknown hother =>
        exact (one_kind hknown hother hid hkind).elim
      | token _ _ _ _ _ _ howners =>
        have hdest := howners id
        rw [if_pos rfl, howner] at hdest
        exact Or.inr (Option.some.inj hdest)
    · intro h
      have hsame : source = dest := by
        apply h.resolve_left
        rw [hone]
        decide
      refine .token hid hkind rfl rfl hone howner ?_
      intro id'
      by_cases hid' : id = id'
      · rw [if_pos hid', ← hid', howner, hsame]
      · rw [if_neg hid']

/-- What has left one address has not left another. -/
theorem Moves.source_eq {other : String} (hpos : amount ≠ 0)
    (hmoves : Moves st st' id amount source dest) (hother : Moves st st' id amount other dest) :
    other = source := by
  cases hmoves with
  | @balance info hid hkind _ _ hbalances =>
    cases hother with
    | balance _ _ _ _ hbalances' =>
      have hsource := hbalances source id
      have hsource' := hbalances' source id
      rw [if_pos ⟨rfl, rfl⟩, ← hsource'] at hsource
      by_contra hne
      rw [if_neg fun hentry => hne hentry.1] at hsource
      refine hpos (UInt64.toNat_inj.mp ?_)
      rw [UInt64.toNat_zero]
      omega
    | token hknown hkind' =>
      exact (one_kind hid hkind hknown hkind').elim
  | @token info hid hkind _ _ _ howner =>
    cases hother with
    | balance hknown hkind' =>
      exact (one_kind hknown hkind' hid hkind).elim
    | token _ _ _ _ _ howner' =>
      rw [howner] at howner'
      exact (Option.some.inj howner').symm

end AssetState

end Tensorium.Assets
