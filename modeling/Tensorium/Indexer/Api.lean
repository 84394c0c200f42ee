import Tensorium.Indexer.Round

/-! # The interface of the indexer

    What `route` publishes of the books. The maps are hash maps, so each list comes in an
    order of its own.
-/

namespace Tensorium.Indexer

open BulkMap Assets AssetState ByteCodec

/-! ## The routes -/

/-- `u8::from_str_radix(_, 16)` of two characters, which passes over a plus sign. -/
def parseByte (high low : Char) : Option UInt8 :=
  if high = '+' then (hexValue low).map UInt8.ofNat
  else do
    let h ← hexValue high
    let l ← hexValue low
    return UInt8.ofNat (h * 16 + l)

/-- Two characters after two others. -/
def parseBytes : List Char → Option Bytes
  | [] => some []
  | [_] => none
  | high :: low :: rest => do
    let b ← parseByte high low
    let bs ← parseBytes rest
    return b :: bs

/-- `parse_id`. A character of more than one byte fails in `get` or in `from_str_radix`. -/
def parseId (hex : String) : Option Hash256 :=
  if (asBytes hex).length ≠ 64 then none
  else (parseBytes hex.toList).bind fun bs =>
    if hsize : bs.length = 32 then some ⟨bs, hsize⟩ else none

/-- `GET /asset/<id>`. -/
def asset (idx : Indexer) (id : String) : Option AssetInfo :=
  (parseId id).bind fun key => idx.state.assets.lookup key

/-- `GET /nft/<id>/owner`. -/
def nftOwner (idx : Indexer) (id : String) : Option String :=
  (parseId id).bind fun key => idx.state.nftOwner.lookup key

/-- `GET /balance/<addr>`. -/
structure BalanceReply where
  fungible : List (String × UInt64)
  nfts : List String

def balance (idx : Indexer) (balances : Iteration (String × Hash256) UInt64)
    (owners : Iteration Hash256 String) (addr : String) : BalanceReply where
  fungible := ((balances.list idx.state.ftBalances).filter fun e => e.1.1 = addr ∧ 0 < e.2).map
    fun e => (e.1.2.toHex, e.2)
  nfts := ((owners.list idx.state.nftOwner).filter fun e => e.2 = addr).map fun e => e.1.toHex

/-- The holders of an asset: of a fungible one, and of the one piece. -/
def holdersOf (balances : Iteration (String × Hash256) UInt64) (idx : Indexer) (key : Hash256) :
    List (String × UInt64) :=
  (((balances.list idx.state.ftBalances).filter fun e => e.1.2 = key ∧ 0 < e.2).map
    fun e => (e.1.1, e.2)) ++
  (idx.state.nftOwner.lookup key).toList.map fun owner => (owner, 1)

/-- `GET /holders/<id>`. -/
def holders (idx : Indexer) (balances : Iteration (String × Hash256) UInt64) (id : String) :
    Option (List (String × UInt64)) :=
  (parseId id).map (holdersOf balances idx)

variable {encode : String → Bytes → String}

/-! ## The records -/

/-- A record that an issue or a mint may file. -/
structure Sane (info : AssetInfo) : Prop where
  royalty : info.royaltyBps ≤ 10000
  decimals : info.decimals ≤ 18
  single : info.kind = .nonFungible → info.supply = 1

/-- Every record of the books is one. -/
def Recorded (idx : Indexer) : Prop :=
  ∀ id info, idx.state.assets.lookup id = some info → Sane info

/-- An operation files at most one record. -/
theorem assets_apply {st st' : AssetState} {txid : Hash256} {height : Nat} {source : String}
    {dest : Option String} {op : AssetOp} {r : ApplyResult}
    (h : st.apply txid height source dest op = some (r, st')) :
    st'.assets = st.assets ∨ ∃ info, Sane info ∧ st'.assets = st.assets.insert txid info := by
  cases op with
  | issue d =>
    unfold AssetState.apply AssetState.applyIssue at h
    dsimp only at h
    split_ifs at h with hknown hdecimals
    · cases h
      exact Or.inl rfl
    · cases h
      exact Or.inl rfl
    · obtain ⟨st₁, hcredit, h⟩ := Option.bind_eq_some_iff.mp h
      cases h
      refine Or.inr ⟨d.assetInfo source height, ⟨?_, UInt8.not_lt.mp hdecimals, ?_⟩,
        assets_credit hcredit⟩
      · show (0 : UInt16) ≤ 10000
        decide
      · intro hkind
        cases hkind
  | nftMint d =>
    unfold AssetState.apply AssetState.applyNftMint at h
    dsimp only at h
    split_ifs at h with hknown hroyalty
    · cases h
      exact Or.inl rfl
    · cases h
      exact Or.inl rfl
    · cases h
      refine Or.inr ⟨d.assetInfo source height, ⟨UInt16.not_lt.mp hroyalty, ?_, fun _ => rfl⟩, rfl⟩
      show (0 : UInt8) ≤ 18
      decide
  | transfer d =>
    left
    change st.applyTransfer source dest d = some (r, st') at h
    unfold AssetState.applyTransfer at h
    cases hid : st.assets.lookup d.assetId with
    | none =>
      rw [hid] at h
      cases h
      rfl
    | some info =>
      rw [hid] at h
      cases dest with
      | none =>
        cases h
        rfl
      | some dest =>
        dsimp only at h
        cases hkind : info.kind with
        | fungible =>
          rw [hkind] at h
          dsimp only at h
          split_ifs at h
          · cases h
            rfl
          · cases h
            rfl
          · obtain ⟨st₁, hdebit, h⟩ := Option.bind_eq_some_iff.mp h
            obtain ⟨st₂, hcredit, h⟩ := Option.bind_eq_some_iff.mp h
            cases h
            rw [assets_credit hcredit, assets_debit hdebit]
        | nonFungible =>
          rw [hkind] at h
          dsimp only at h
          split_ifs at h
          · cases h
            rfl
          · cases h
            rfl
          · cases h
            rfl

/-- One round keeps the records as they have to be. -/
theorem Recorded.applyTx {idx idx' : Indexer} {height : Nat} {tx : Transaction}
    (hrecorded : idx.Recorded) (h : idx.applyTx encode height tx = some idx') :
    idx'.Recorded := by
  have hstate : idx'.state = idx.state ∨ ∃ source dest op r,
      idx.state.apply tx.id height source dest op = some (r, idx'.state) := by
    cases hop : extractAssetOp tx with
    | none =>
      obtain ⟨idx₁, happly, rfl⟩ := Option.map_eq_some_iff.mp h
      unfold applyOp at happly
      rw [hop] at happly
      cases happly
      exact Or.inl rfl
    | some op =>
      cases hsource : idx.resolveSource tx with
      | none =>
        obtain ⟨idx₁, happly, rfl⟩ := Option.map_eq_some_iff.mp h
        unfold applyOp at happly
        rw [hop, hsource] at happly
        cases happly
        exact Or.inl rfl
      | some source =>
        obtain ⟨r, hcall⟩ := applyTx_eq_apply h hop hsource
        exact Or.inr ⟨source, _, op, r, hcall⟩
  intro id info hid
  rcases hstate with hsame | ⟨source, dest, op, r, hcall⟩
  · rw [hsame] at hid
    exact hrecorded id info hid
  · rcases assets_apply hcall with hassets | ⟨new, hsane, hassets⟩
    · rw [hassets] at hid
      exact hrecorded id info hid
    · rw [hassets, lookup_insert_ite] at hid
      split_ifs at hid
      · rw [← Option.some.inj hid]
        exact hsane
      · exact hrecorded id info hid

theorem Recorded.applyTxs {idx idx' : Indexer} {height : Nat} {txs : List Transaction}
    (hrecorded : idx.Recorded) (h : idx.applyTxs encode height txs = some idx') :
    idx'.Recorded := by
  induction txs generalizing idx with
  | nil =>
    cases h
    exact hrecorded
  | cons tx txs ih =>
    obtain ⟨idx₁, htx, h⟩ := Option.bind_eq_some_iff.mp h
    exact ih (hrecorded.applyTx htx) h

/-- After any chain, every record is one that an issue or a mint may file. -/
theorem Recorded.applyChain {idx idx' : Indexer} {chain : List Block}
    (hrecorded : idx.Recorded) (h : idx.applyChain encode chain = some idx') :
    idx'.Recorded := by
  induction chain generalizing idx with
  | nil =>
    cases h
    exact hrecorded
  | cons b chain ih =>
    obtain ⟨idx₁, hb, h⟩ := Option.bind_eq_some_iff.mp h
    obtain ⟨idx₂, htxs, rfl⟩ := Option.map_eq_some_iff.mp hb
    have hafter : idx₂.Recorded := hrecorded.applyTxs htxs
    have hscanned : Recorded { idx₂ with lastHeight := b.header.height, scannedAny := true } :=
      hafter
    exact ih hscanned h

theorem recorded_of_scanned {idx : Indexer} {chain : List Block}
    (h : default.applyChain encode chain = some idx) : idx.Recorded := by
  have hdefault : default.Recorded := by
    intro id info hid
    cases hid
  exact hdefault.applyChain h

/-! ## The lists -/

section Lists

variable {idx : Indexer} {addr : String} {id : Hash256} {amount : UInt64}
  (balances : Iteration (String × Hash256) UInt64) (owners : Iteration Hash256 String)

theorem mem_fungible : (id.toHex, amount) ∈ (idx.balance balances owners addr).fungible ↔
    0 < amount ∧ idx.state.ftBalances.lookup (addr, id) = some amount := by
  unfold balance
  rw [List.mem_map]
  constructor
  · intro ⟨e, he, heq⟩
    obtain ⟨hmem, hkeep⟩ := List.mem_filter.mp he
    obtain ⟨rfl, hpos⟩ := of_decide_eq_true hkeep
    obtain ⟨hid, rfl⟩ := Prod.mk.inj heq
    rw [← Hash256.toHex_injective hid]
    exact ⟨hpos, (balances.mem_iff _ _ _).mp hmem⟩
  · intro ⟨hpos, hlookup⟩
    refine ⟨((addr, id), amount), List.mem_filter.mpr ⟨?_, decide_eq_true ⟨rfl, hpos⟩⟩, rfl⟩
    exact (balances.mem_iff _ _ _).mpr hlookup

theorem mem_nfts : id.toHex ∈ (idx.balance balances owners addr).nfts ↔
    idx.state.nftOwner.lookup id = some addr := by
  unfold balance
  rw [List.mem_map]
  constructor
  · intro ⟨e, he, heq⟩
    obtain ⟨hmem, hkeep⟩ := List.mem_filter.mp he
    rw [← Hash256.toHex_injective heq, ← of_decide_eq_true hkeep]
    exact (owners.mem_iff _ _ _).mp hmem
  · intro hlookup
    refine ⟨(id, addr), List.mem_filter.mpr ⟨?_, decide_eq_true rfl⟩, rfl⟩
    exact (owners.mem_iff _ _ _).mpr hlookup

/-- What an address can give away is what is listed for it. -/
theorem holds_iff_listed (h : idx.state.Conserved) (hpos : amount ≠ 0) :
    idx.state.Holds id amount addr ↔
      (∃ b, (id.toHex, b) ∈ (idx.balance balances owners addr).fungible ∧ amount ≤ b) ∨
        amount = 1 ∧ id.toHex ∈ (idx.balance balances owners addr).nfts := by
  rw [mem_nfts]
  constructor
  · intro hholds
    cases hholds with
    | balance hid hkind hle =>
      left
      unfold AssetState.ftBalance at hle
      cases hlookup : idx.state.ftBalances.lookup (addr, id) with
      | none =>
        rw [hlookup] at hle
        exact absurd (UInt64.le_zero_iff.mp hle) hpos
      | some b =>
        rw [hlookup] at hle
        have hb : 0 < b := UInt64.lt_of_lt_of_le (UInt64.pos_iff_ne_zero.mpr hpos) hle
        exact ⟨b, (mem_fungible balances owners).mpr ⟨hb, hlookup⟩, hle⟩
    | token _ _ hone howner => exact Or.inr ⟨hone, howner⟩
  · intro hlisted
    rcases hlisted with ⟨b, hmem, hle⟩ | ⟨hone, howner⟩
    · obtain ⟨_, hlookup⟩ := (mem_fungible balances owners).mp hmem
      obtain ⟨info, hid, hkind⟩ := h.balances addr id b hlookup
      refine .balance hid hkind ?_
      unfold AssetState.ftBalance
      rw [hlookup]
      exact hle
    · obtain ⟨info, hid, hkind⟩ := h.owners id addr howner
      exact .token hid hkind hone howner

/-- A hash map yields no key twice, whatever is left of it. -/
theorem nodup_map_filter {α β γ : Type} [DecidableEq α] (order : Iteration α β) (m : Map α β)
    (keep : α × β → Bool) {f : α × β → γ}
    (hinj : ∀ e, keep e = true → ∀ e', keep e' = true → f e = f e' → e.1 = e'.1) :
    (((order.list m).filter keep).map f).Nodup := by
  have hnodup : (((order.list m).filter keep).map Prod.fst).Nodup :=
    (List.filter_sublist.map Prod.fst).nodup (order.nodup m)
  refine List.Nodup.map_on ?_ hnodup.of_map
  intro e he e' he' heq
  have hkey := hinj e (List.mem_filter.mp he).2 e' (List.mem_filter.mp he').2 heq
  exact List.inj_on_of_nodup_map hnodup he he' hkey

/-- No asset is listed twice for an address. -/
theorem nodup_balance (h : idx.state.Conserved) :
    ((idx.balance balances owners addr).fungible.map Prod.fst
      ++ (idx.balance balances owners addr).nfts).Nodup := by
  rw [List.nodup_append]
  refine ⟨?_, ?_, ?_⟩
  · unfold balance
    rw [List.map_map]
    refine nodup_map_filter balances _ _ fun e he e' he' heq => ?_
    obtain ⟨haddr, _⟩ := of_decide_eq_true he
    obtain ⟨haddr', _⟩ := of_decide_eq_true he'
    exact Prod.ext (haddr.trans haddr'.symm) (Hash256.toHex_injective heq)
  · refine nodup_map_filter owners _ _ fun e _ e' _ heq => ?_
    exact Hash256.toHex_injective heq
  · -- An asset with a balance is fungible, one with an owner is not.
    intro text htext text' htext' heq
    unfold balance at htext htext'
    rw [List.map_map] at htext
    obtain ⟨e, he, rfl⟩ := List.mem_map.mp htext
    obtain ⟨e', he', rfl⟩ := List.mem_map.mp htext'
    have hid : e.1.2 = e'.1 := Hash256.toHex_injective heq
    have hbalance := (balances.mem_iff _ _ _).mp (List.mem_of_mem_filter he)
    have howner := (owners.mem_iff _ _ _).mp (List.mem_of_mem_filter he')
    rw [← hid] at howner
    obtain ⟨_, hknown, hkind⟩ := h.balances e.1.1 e.1.2 e.2 hbalance
    obtain ⟨_, hknown', hkind'⟩ := h.owners e.1.2 e'.2 howner
    exact one_kind hknown hkind hknown' hkind'

theorem mem_holdersOf {key : Hash256} : (addr, amount) ∈ holdersOf balances idx key ↔
    (0 < amount ∧ idx.state.ftBalances.lookup (addr, key) = some amount) ∨
      (amount = 1 ∧ idx.state.nftOwner.lookup key = some addr) := by
  unfold holdersOf
  rw [List.mem_append, List.mem_map, List.mem_map]
  apply or_congr
  · constructor
    · intro ⟨e, he, heq⟩
      obtain ⟨hmem, hkeep⟩ := List.mem_filter.mp he
      obtain ⟨rfl, hpos⟩ := of_decide_eq_true hkeep
      obtain ⟨rfl, rfl⟩ := Prod.mk.inj heq
      exact ⟨hpos, (balances.mem_iff _ _ _).mp hmem⟩
    · intro ⟨hpos, hlookup⟩
      refine ⟨((addr, key), amount), List.mem_filter.mpr ⟨?_, decide_eq_true ⟨rfl, hpos⟩⟩, rfl⟩
      exact (balances.mem_iff _ _ _).mpr hlookup
  · constructor
    · intro ⟨owner, howner, heq⟩
      obtain ⟨rfl, rfl⟩ := Prod.mk.inj heq
      exact ⟨rfl, Option.mem_toList.mp howner⟩
    · intro ⟨hone, hlookup⟩
      exact ⟨addr, Option.mem_toList.mpr hlookup, by rw [hone]⟩

/-- An address holds as much as is listed for it, and no more. -/
theorem mem_holdersOf_iff (h : idx.state.Conserved) {key : Hash256} :
    (addr, amount) ∈ holdersOf balances idx key ↔ amount ≠ 0 ∧
      idx.state.Holds key amount addr ∧ ∀ more, idx.state.Holds key more addr → more ≤ amount := by
  rw [mem_holdersOf]
  constructor
  · intro hlisted
    rcases hlisted with ⟨hpos, hlookup⟩ | ⟨rfl, howner⟩
    · obtain ⟨info, hid, hkind⟩ := h.balances addr key amount hlookup
      have hbalance : idx.state.ftBalance addr key = amount := by
        unfold AssetState.ftBalance
        rw [hlookup]
        rfl
      refine ⟨UInt64.pos_iff_ne_zero.mp hpos, ?_, fun more hmore => ?_⟩
      · rw [holds_fungible_iff hid hkind, hbalance]
        exact UInt64.le_refl _
      · rwa [holds_fungible_iff hid hkind, hbalance] at hmore
    · obtain ⟨info, hid, hkind⟩ := h.owners key addr howner
      refine ⟨by decide, .token hid hkind rfl howner, fun more hmore => ?_⟩
      obtain ⟨rfl, _⟩ := (holds_nonFungible_iff hid hkind).mp hmore
      exact UInt64.le_refl _
  · intro ⟨hne, hholds, hmost⟩
    cases hholds with
    | balance hid hkind hle =>
      have hall := hmost _ (.balance hid hkind (UInt64.le_refl _))
      have hbalance : idx.state.ftBalance addr key = amount := UInt64.le_antisymm hall hle
      refine Or.inl ⟨UInt64.pos_iff_ne_zero.mpr hne, ?_⟩
      unfold AssetState.ftBalance at hbalance
      cases hlookup : idx.state.ftBalances.lookup (addr, key) with
      | none =>
        rw [hlookup] at hbalance
        exact absurd hbalance.symm hne
      | some b =>
        rw [hlookup] at hbalance
        rw [← hbalance]
        rfl
    | token _ _ hone howner => exact Or.inr ⟨hone, howner⟩

/-- No holder is listed twice. -/
theorem nodup_holdersOf (h : idx.state.Conserved) (key : Hash256) :
    ((holdersOf balances idx key).map Prod.fst).Nodup := by
  unfold holdersOf
  rw [List.map_append, List.map_map, List.nodup_append]
  refine ⟨?_, ?_, ?_⟩
  · refine nodup_map_filter balances _ _ fun e he e' he' heq => ?_
    obtain ⟨hkey, _⟩ := of_decide_eq_true he
    obtain ⟨hkey', _⟩ := of_decide_eq_true he'
    exact Prod.ext heq (hkey.trans hkey'.symm)
  · cases idx.state.nftOwner.lookup key with
    | none => simp
    | some owner => simp
  · intro holder hholder holder' hholder'
    obtain ⟨e, he, _⟩ := List.mem_map.mp hholder
    obtain ⟨hmem, hkeep⟩ := List.mem_filter.mp he
    obtain ⟨hkey, _⟩ := of_decide_eq_true hkeep
    have hbalance := (balances.mem_iff _ _ _).mp hmem
    obtain ⟨pair, hpair, _⟩ := List.mem_map.mp hholder'
    obtain ⟨owner, howner, _⟩ := List.mem_map.mp hpair
    obtain ⟨_, hknown, hkind⟩ := h.balances e.1.1 e.1.2 e.2 hbalance
    obtain ⟨_, hknown', hkind'⟩ := h.owners key owner (Option.mem_toList.mp howner)
    rw [hkey] at hknown
    exact (one_kind hknown hkind hknown' hkind').elim

/-- What all holders have together is the supply. -/
theorem sum_holdersOf (h : idx.state.Conserved) (hrecorded : idx.Recorded) (key : Hash256) :
    ((holdersOf balances idx key).map fun holder => holder.2.toNat).sum
      = ((idx.state.assets.lookup key).map fun info => info.supply.toNat).getD 0 := by
  have hbalances : (((balances.list idx.state.ftBalances).filter
      fun e => e.1.2 = key ∧ 0 < e.2).map fun e => e.2.toNat).sum = idx.state.held key := by
    unfold AssetState.held
    rw [← balances.sum_eq_weightBy]
    generalize balances.list idx.state.ftBalances = list
    induction list with
    | nil => rfl
    | cons e list ih =>
      rw [List.map_cons, List.sum_cons, ← ih]
      by_cases hkeep : e.1.2 = key ∧ 0 < e.2
      · rw [List.filter_cons_of_pos (by simpa using hkeep), if_pos hkeep.1]
        rfl
      · rw [List.filter_cons_of_neg (by simpa using hkeep)]
        by_cases hkey : e.1.2 = key
        · have hzero : e.2.toNat = 0 := by
            by_contra hne
            exact hkeep ⟨hkey, UInt64.lt_iff_toNat_lt.mpr (Nat.pos_of_ne_zero hne)⟩
          rw [if_pos hkey, hzero, Nat.zero_add]
        · rw [if_neg hkey, Nat.zero_add]
  unfold holdersOf
  rw [List.map_append, List.sum_append, List.map_map]
  have hfront : (((balances.list idx.state.ftBalances).filter fun e => e.1.2 = key ∧ 0 < e.2).map
      ((fun holder : String × UInt64 => holder.2.toNat) ∘ fun e => (e.1.1, e.2))).sum
      = idx.state.held key := hbalances
  rw [hfront]
  cases hid : idx.state.assets.lookup key with
  | none =>
    have howner : idx.state.nftOwner.lookup key = none := by
      rw [Option.eq_none_iff_forall_not_mem]
      intro owner howner
      obtain ⟨_, hknown, _⟩ := h.owners key owner howner
      rw [hid] at hknown
      cases hknown
    rw [h.held_unknown hid, howner]
    rfl
  | some info =>
    cases hkind : info.kind with
    | fungible =>
      have howner : idx.state.nftOwner.lookup key = none := by
        rw [Option.eq_none_iff_forall_not_mem]
        intro owner howner
        obtain ⟨_, hknown, hkind'⟩ := h.owners key owner howner
        exact (one_kind hid hkind hknown hkind').elim
      rw [h.supply key info hid hkind, howner]
      rfl
    | nonFungible =>
      obtain ⟨owner, howner⟩ := h.owned key info hid hkind
      have hnone : idx.state.held key = 0 := by
        unfold AssetState.held
        apply weightBy_eq_zero
        intro e b hb
        rw [if_neg]
        intro hkey
        obtain ⟨_, hknown, hkind'⟩ := h.balances e.1 e.2 b hb
        rw [hkey] at hknown
        exact (one_kind hknown hkind' hid hkind).elim
      rw [hnone, howner, Option.map_some, Option.getD_some, (hrecorded key info hid).single hkind]
      rfl

end Lists

/-- **What the indexer publishes adds up.** After any chain that it has scanned, and in
    whatever order its maps are iterated: what is listed for an address is, asset by
    asset and none twice, exactly what a transfer of the address can take; the holders
    that are listed for an asset are, none twice, those who can transfer it, each with
    the most that it can transfer; and together they have the supply that is published
    for the asset. -/
theorem books_published (encode : String → Bytes → String) (chain : List Block)
    (balances : Iteration (String × Hash256) UInt64) (owners : Iteration Hash256 String) :
    ∃ idx, default.applyChain encode chain = some idx ∧
      (∀ addr, let reply := idx.balance balances owners addr
        (reply.fungible.map Prod.fst ++ reply.nfts).Nodup ∧
        ∀ (id : Hash256) (amount : UInt64), amount ≠ 0 → (idx.state.Holds id amount addr ↔
          (∃ b, (id.toHex, b) ∈ reply.fungible ∧ amount ≤ b) ∨
            amount = 1 ∧ id.toHex ∈ reply.nfts)) ∧
      ∀ (id : String) (list : List (String × UInt64)), idx.holders balances id = some list →
        ∃ key, parseId id = some key ∧ (list.map Prod.fst).Nodup ∧
          (∀ (addr : String) (amount : UInt64), (addr, amount) ∈ list ↔ amount ≠ 0 ∧
            idx.state.Holds key amount addr ∧
            ∀ more, idx.state.Holds key more addr → more ≤ amount) ∧
          (list.map fun holder => holder.2.toNat).sum
            = ((idx.asset id).map fun info => info.supply.toNat).getD 0 := by
  obtain ⟨idx, hchain, hscanned⟩ := (scanned_default encode).applyChain chain
  have hconserved := hscanned.conserved
  refine ⟨idx, hchain, ?_, ?_⟩
  · intro addr
    exact ⟨nodup_balance balances owners hconserved,
      fun id amount hpos => holds_iff_listed balances owners hconserved hpos⟩
  · intro id list hlist
    obtain ⟨key, hkey, rfl⟩ := Option.map_eq_some_iff.mp hlist
    refine ⟨key, hkey, nodup_holdersOf balances hconserved key,
      fun addr amount => mem_holdersOf_iff balances hconserved, ?_⟩
    rw [sum_holdersOf balances hconserved (recorded_of_scanned hchain) key]
    unfold asset
    rw [hkey, Option.bind_some]

end Tensorium.Indexer
