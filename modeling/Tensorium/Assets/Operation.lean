import Tensorium.Assets.Conservation
import Tensorium.Assets.Transfer

/-! # What an operation does to the books

    `apply` either does all that an operation asks for, or leaves the books alone; which
    of the two can be read off the books before.
-/

namespace Tensorium.Assets

open BulkMap

namespace AssetState

variable {st st' : AssetState} {txid : Hash256} {height : Nat} {source dest : String}

/-- A new asset enters the books: all of it belongs to its issuer, and what anyone holds
    of the others stays. -/
structure Registers (st st' : AssetState) (id : Hash256) (info : AssetInfo) : Prop where
  fresh : st.assets.lookup id = none
  assets_eq : st'.assets = st.assets.insert id info
  issuer : st'.Holds id info.supply info.issuer
  only : ∀ amount addr, st'.Holds id amount addr → amount = 0 ∨ addr = info.issuer
  others : ∀ other, other ≠ id → ∀ amount addr,
    st'.Holds other amount addr ↔ st.Holds other amount addr

/-- The books admit an operation of an address. -/
def Admits (st : AssetState) (txid : Hash256) (source : String) : AssetOp → Prop
  | .issue d => st.assets.lookup txid = none ∧ d.decimals ≤ 18
  | .nftMint d => st.assets.lookup txid = none ∧ d.royaltyBps ≤ 10000
  | .transfer d => d.amount ≠ 0 ∧ st.Holds d.assetId d.amount source

/-- What is to become of the books. -/
def Performs (st st' : AssetState) (txid : Hash256) (height : Nat) (source dest : String) :
    AssetOp → Prop
  | .issue d => st.Registers st' txid (d.assetInfo source height)
  | .nftMint d => st.Registers st' txid (d.assetInfo source height)
  | .transfer d => st.Moves st' d.assetId d.amount source dest

/-- The same balances, the same owner and the same entry. -/
theorem holds_congr {id : Hash256} (hassets : st'.assets.lookup id = st.assets.lookup id)
    (hbalances : ∀ addr, st'.ftBalance addr id = st.ftBalance addr id)
    (howner : st'.nftOwner.lookup id = st.nftOwner.lookup id) (amount : UInt64) (addr : String) :
    st'.Holds id amount addr ↔ st.Holds id amount addr := by
  constructor
  · intro h
    cases h with
    | balance hid hkind hle =>
      rw [hassets] at hid
      rw [hbalances] at hle
      exact .balance hid hkind hle
    | token hid hkind hone hown =>
      rw [hassets] at hid
      rw [howner] at hown
      exact .token hid hkind hone hown
  · intro h
    cases h with
    | balance hid hkind hle =>
      rw [← hassets] at hid
      rw [← hbalances] at hle
      exact .balance hid hkind hle
    | token hid hkind hone hown =>
      rw [← hassets] at hid
      rw [← howner] at hown
      exact .token hid hkind hone hown

/-- Nobody has a balance of an asset that the books do not know. -/
theorem Conserved.ftBalance_unknown (h : Conserved st) {id : Hash256}
    (hid : st.assets.lookup id = none) (addr : String) : (st.ftBalance addr id).toNat = 0 := by
  have hle := st.ftBalance_le_held addr id
  rw [h.held_unknown hid] at hle
  omega

/-- A fungible asset: the supply is credited to the issuer. -/
theorem Conserved.registers_fungible (h : Conserved st) {info : AssetInfo}
    (hkind : info.kind = .fungible) (hfresh : st.assets.lookup txid = none)
    (hcredit : credit { st with assets := st.assets.insert txid info } info.issuer txid info.supply
      = some st') : st.Registers st' txid info := by
  have hassets : st'.assets = st.assets.insert txid info := assets_credit hcredit
  have hbalance := toNat_ftBalance_credit hcredit
  have hzero := h.ftBalance_unknown hfresh
  have hid : st'.assets.lookup txid = some info := by
    rw [hassets]
    exact Finmap.lookup_insert _
  refine ⟨hfresh, hassets, ?_, ?_, ?_⟩
  · rw [holds_fungible_iff hid hkind, UInt64.le_iff_toNat_le, hbalance, if_pos ⟨rfl, rfl⟩]
    exact Nat.le_add_left _ _
  · intro amount addr hholds
    rw [holds_fungible_iff hid hkind, UInt64.le_iff_toNat_le, hbalance] at hholds
    by_cases hissuer : info.issuer = addr
    · exact Or.inr hissuer.symm
    · rw [if_neg fun hboth => hissuer hboth.1] at hholds
      have hbefore : (ftBalance { st with assets := st.assets.insert txid info } addr txid).toNat
          = 0 := hzero addr
      refine Or.inl (UInt64.toNat_inj.mp ?_)
      rw [UInt64.toNat_zero]
      omega
  · intro other hne amount addr
    refine holds_congr ?_ ?_ ?_ amount addr
    · rw [hassets]
      exact Finmap.lookup_insert_of_ne _ hne
    · intro addr'
      apply UInt64.toNat_inj.mp
      rw [hbalance, if_neg fun hboth => hne hboth.2.symm]
      rfl
    · rw [nftOwner_credit hcredit]

/-- A non-fungible one: the one piece goes to the issuer. -/
theorem registers_nonFungible {info : AssetInfo} (hkind : info.kind = .nonFungible)
    (hsupply : info.supply = 1) (hfresh : st.assets.lookup txid = none) :
    st.Registers { st with
      assets := st.assets.insert txid info
      nftOwner := st.nftOwner.insert txid info.issuer } txid info := by
  have hid : (st.assets.insert txid info).lookup txid = some info := Finmap.lookup_insert _
  have howner : (st.nftOwner.insert txid info.issuer).lookup txid = some info.issuer :=
    Finmap.lookup_insert _
  refine ⟨hfresh, rfl, ?_, ?_, ?_⟩
  · exact .token hid hkind hsupply howner
  · intro amount addr hholds
    cases hholds with
    | balance hknown hother => exact (one_kind hknown hother hid hkind).elim
    | token _ _ _ hown => exact Or.inr (Option.some.inj (hown.symm.trans howner))
  · intro other hne amount addr
    refine holds_congr ?_ ?_ ?_ amount addr
    · exact Finmap.lookup_insert_of_ne _ hne
    · intro addr'
      rfl
    · exact Finmap.lookup_insert_of_ne _ hne

/-- An operation is done if the books admit it, and nothing is done otherwise. -/
theorem Conserved.apply_cases (h : Conserved st) {op : AssetOp} {r : ApplyResult}
    (hcall : st.apply txid height source (some dest) op = some (r, st')) :
    (st.Admits txid source op ∧ st.Performs st' txid height source dest op) ∨
      (¬ st.Admits txid source op ∧ st' = st) := by
  cases op with
  | issue d =>
    unfold AssetState.apply AssetState.applyIssue at hcall
    dsimp only at hcall
    split_ifs at hcall with hknown hdecimals
    · cases hcall
      refine Or.inr ⟨fun hadmits => ?_, rfl⟩
      rw [hadmits.1] at hknown
      cases hknown
    · cases hcall
      exact Or.inr ⟨fun hadmits => absurd hadmits.2 (UInt8.not_le.mpr hdecimals), rfl⟩
    · have hfresh := Option.not_isSome_iff_eq_none.mp hknown
      obtain ⟨st₁, hcredit, hcall⟩ := Option.bind_eq_some_iff.mp hcall
      cases hcall
      refine Or.inl ⟨⟨hfresh, UInt8.not_lt.mp hdecimals⟩, ?_⟩
      exact h.registers_fungible rfl hfresh hcredit
  | nftMint d =>
    unfold AssetState.apply AssetState.applyNftMint at hcall
    dsimp only at hcall
    split_ifs at hcall with hknown hroyalty
    · cases hcall
      refine Or.inr ⟨fun hadmits => ?_, rfl⟩
      rw [hadmits.1] at hknown
      cases hknown
    · cases hcall
      exact Or.inr ⟨fun hadmits => absurd hadmits.2 (UInt16.not_le.mpr hroyalty), rfl⟩
    · have hfresh := Option.not_isSome_iff_eq_none.mp hknown
      cases hcall
      refine Or.inl ⟨⟨hfresh, UInt16.not_lt.mp hroyalty⟩, ?_⟩
      exact registers_nonFungible rfl rfl hfresh
  | transfer d =>
    obtain ⟨id, amount, destIndex⟩ := d
    change st.applyTransfer source (some dest) ⟨id, amount, destIndex⟩ = _ at hcall
    cases hid : st.assets.lookup id with
    | none =>
      unfold AssetState.applyTransfer at hcall
      rw [hid] at hcall
      cases hcall
      refine Or.inr ⟨fun hadmits => ?_, rfl⟩
      cases hadmits.2 with
      | balance hknown =>
        rw [hid] at hknown
        cases hknown
      | token hknown =>
        rw [hid] at hknown
        cases hknown
    | some info =>
      rcases applyTransfer_cases hid hcall with ⟨hpos, hable, hmoves⟩ | ⟨hignored, hstate⟩
      · exact Or.inl ⟨⟨hpos, hable⟩, hmoves⟩
      · refine Or.inr ⟨fun hadmits => ?_, hstate⟩
        rcases hignored with hzero | hnot
        · exact hadmits.1 hzero
        · exact hnot hadmits.2

end AssetState

end Tensorium.Assets
