import Tensorium.Lib.BulkMap
import Tensorium.Core.Block

/-! # The asset overlay

    `assets/mod.rs`, `assets/codec.rs` and `assets/state.rs`: asset operations
    carried in `OP_RETURN` outputs, and the state a sequence of them builds.
    Asset ids are `[u8; 32]` in the source, of which `Hash256` is the wrapper.
-/

namespace Tensorium

open BulkMap ByteCodec

namespace Assets

/-! ## Operations -/

structure IssueData where
  ticker : String
  decimals : UInt8
  supply : UInt64
  name : String
  flags : UInt8
  deriving DecidableEq

structure NftMintData where
  collectionId : Hash256
  royaltyBps : UInt16
  royaltyAddr : String
  uri : String
  contentHash : Hash256
  deriving DecidableEq

structure TransferData where
  assetId : Hash256
  amount : UInt64
  destOutputIndex : UInt8
  deriving DecidableEq

/-- `AssetOp`. -/
inductive AssetOp where
  | issue (d : IssueData)
  | nftMint (d : NftMintData)
  | transfer (d : TransferData)
  deriving DecidableEq

/-- `AssetError`, less the variants no function of the source returns. -/
inductive AssetError where
  | badMagic
  | badVersion
  | unknownOpcode
  | truncated
  | tooLarge
  | badRoyalty
  deriving DecidableEq, Repr

/-- `MAGIC`. -/
def magic : Bytes := asBytes "TXMA"

/-- `VERSION`. -/
def version : UInt8 := 0x01

/-- `MAX_PAYLOAD`. -/
def maxPayload : Nat := 520

/-! ## Decoding -/

/-- A UTF-8 continuation byte. -/
def isContinuation (b : UInt8) : Bool := 0x80 ≤ b && b ≤ 0xbf

/-- Whether `c` may follow the first byte `b` of a sequence of three or four. -/
def secondByteOk (b c : UInt8) : Bool :=
  if b = 0xe0 then 0xa0 ≤ c && c ≤ 0xbf
  else if b = 0xed then 0x80 ≤ c && c ≤ 0x9f
  else if b = 0xf0 then 0x90 ≤ c && c ≤ 0xbf
  else if b = 0xf4 then 0x80 ≤ c && c ≤ 0x8f
  else isContinuation c

/-- The number of bytes of the sequence a first byte announces, zero for a byte
    that begins none. -/
def utf8CharWidth (b : UInt8) : Nat :=
  if b < 0x80 then 1
  else if 0xc2 ≤ b && b ≤ 0xdf then 2
  else if 0xe0 ≤ b && b ≤ 0xef then 3
  else if 0xf0 ≤ b && b ≤ 0xf4 then 4
  else 0

/-- The low six bits of a continuation byte. -/
def sixBits (b : UInt8) : Nat := b.toNat % 64

/-- The first chunk of `String::from_utf8_lossy`: a character, or the
    replacement for the longest part of a sequence that could still have been
    continued, and how many bytes it takes up. -/
def lossyChar (b : UInt8) (rest : Bytes) : Char × Nat :=
  let replacement := Char.ofNat 0xfffd
  match utf8CharWidth b, rest with
  | 1, _ => (Char.ofNat b.toNat, 1)
  | 2, c :: _ =>
    if isContinuation c then (Char.ofNat (b.toNat % 32 * 64 + sixBits c), 2)
    else (replacement, 1)
  | 3, c :: rest =>
    if secondByteOk b c then
      match rest with
      | d :: _ =>
        if isContinuation d then
          (Char.ofNat ((b.toNat % 16 * 64 + sixBits c) * 64 + sixBits d), 3)
        else (replacement, 2)
      | [] => (replacement, 2)
    else (replacement, 1)
  | 4, c :: rest =>
    if secondByteOk b c then
      match rest with
      | d :: rest =>
        if isContinuation d then
          match rest with
          | e :: _ =>
            if isContinuation e then
              (Char.ofNat (((b.toNat % 8 * 64 + sixBits c) * 64 + sixBits d) * 64 + sixBits e), 4)
            else (replacement, 3)
          | [] => (replacement, 3)
        else (replacement, 2)
      | [] => (replacement, 2)
    else (replacement, 1)
  | _, _ => (replacement, 1)

/-- The loop of `String::from_utf8_lossy`; every round takes at least one byte. -/
def fromUtf8LossyLoop : Nat → Bytes → List Char
  | _, [] => []
  | 0, _ :: _ => []
  | fuel + 1, b :: rest =>
    let (char, width) := lossyChar b rest
    char :: fromUtf8LossyLoop fuel (rest.drop (width - 1))

/-- `String::from_utf8_lossy`. -/
def fromUtf8Lossy (bytes : Bytes) : String :=
  String.ofList (fromUtf8LossyLoop bytes.length bytes)

/-- `take`: the next `n` bytes, and what is behind them. -/
def take (n : Nat) (buf : Bytes) : Except AssetError (Bytes × Bytes) :=
  if n > buf.length then .error .truncated else .ok (buf.take n, buf.drop n)

/-- `take(buf, i, 1)?[0]`. -/
def takeByte (buf : Bytes) : Except AssetError (UInt8 × Bytes) :=
  match buf with
  | [] => .error .truncated
  | b :: buf => .ok (b, buf)

/-- `take_str`. -/
def takeStr (buf : Bytes) : Except AssetError (String × Bytes) := do
  let (len, buf) ← takeByte buf
  let (bytes, buf) ← take len.toNat buf
  return (fromUtf8Lossy bytes, buf)

/-- `take_u64`. -/
def takeU64 (buf : Bytes) : Except AssetError (UInt64 × Bytes) := do
  let (b, buf) ← take 8 buf
  return (UInt64.ofNat (beNat b), buf)

/-- The next 32 bytes, as an id. -/
def takeHash (buf : Bytes) : Except AssetError (Hash256 × Bytes) :=
  if h : buf.length < 32 then .error .truncated
  else .ok (⟨buf.take 32, by simp only [List.length_take]; omega⟩, buf.drop 32)

/-- `decode_op`. -/
def decodeOp (buf : Bytes) : Except AssetError AssetOp := do
  if buf.length > maxPayload then throw .tooLarge
  let (m, buf) ← take 4 buf
  if m ≠ magic then throw .badMagic
  let (v, buf) ← takeByte buf
  if v ≠ version then throw .badVersion
  let (opcode, buf) ← takeByte buf
  match opcode with
  | 0x01 =>
    let (ticker, buf) ← takeStr buf
    let (decimals, buf) ← takeByte buf
    let (supply, buf) ← takeU64 buf
    let (name, buf) ← takeStr buf
    let (flags, _) ← takeByte buf
    return .issue ⟨ticker, decimals, supply, name, flags⟩
  | 0x02 =>
    let (collectionId, buf) ← takeHash buf
    let (bps, buf) ← take 2 buf
    let royaltyBps := UInt16.ofNat (beNat bps)
    if royaltyBps > 10000 then throw .badRoyalty
    let (royaltyAddr, buf) ← takeStr buf
    let (uri, buf) ← takeStr buf
    let (contentHash, _) ← takeHash buf
    return .nftMint ⟨collectionId, royaltyBps, royaltyAddr, uri, contentHash⟩
  | 0x03 =>
    let (assetId, buf) ← takeHash buf
    let (amount, buf) ← takeU64 buf
    let (destOutputIndex, _) ← takeByte buf
    return .transfer ⟨assetId, amount, destOutputIndex⟩
  | _ => throw .unknownOpcode

/-- The slice `spk.get(i..i + len)`. -/
def slice (bytes : Bytes) (i len : Nat) : Option Bytes :=
  if i + len ≤ bytes.length then some ((bytes.drop i).take len) else none

/-- `op_return_data`. -/
def opReturnData (spk : Bytes) : Option Bytes :=
  if spk.head? ≠ some Script.opReturnByte then none
  else do
    let n ← spk[1]?
    if 0x01 ≤ n ∧ n ≤ 0x4b then slice spk 2 n.toNat
    else if n = 0x4c then
      let len ← spk[2]?
      slice spk 3 len.toNat
    else if n = 0x4d then
      let lo ← spk[2]?
      let hi ← spk[3]?
      slice spk 4 (lo.toNat + hi.toNat * 256)
    else none

/-- `extract_asset_op`: the first output whose data decodes. -/
def extractAssetOp (tx : Transaction) : Option AssetOp :=
  tx.outputs.findSome? fun out =>
    (opReturnData out.scriptPubkey).bind fun data => (decodeOp data).toOption

/-! ## State -/

/-- `AssetKind`. -/
inductive AssetKind where
  | fungible
  | nonFungible
  deriving DecidableEq, Repr

structure AssetInfo where
  kind : AssetKind
  ticker : String
  name : String
  decimals : UInt8
  supply : UInt64
  issuer : String
  royaltyBps : UInt16
  royaltyAddr : String
  uri : String
  contentHash : Hash256
  mintHeight : Nat
  deriving DecidableEq

/-- The record `apply` files for an issue. -/
def IssueData.assetInfo (d : IssueData) (source : String) (height : Nat) : AssetInfo where
  kind := .fungible
  ticker := d.ticker
  name := d.name
  decimals := d.decimals
  supply := d.supply
  issuer := source
  royaltyBps := 0
  royaltyAddr := ""
  uri := ""
  contentHash := Hash256.zero
  mintHeight := height

/-- The record `apply` files for a mint. -/
def NftMintData.assetInfo (d : NftMintData) (source : String) (height : Nat) : AssetInfo where
  kind := .nonFungible
  ticker := ""
  name := ""
  decimals := 0
  supply := 1
  issuer := source
  royaltyBps := d.royaltyBps
  royaltyAddr := d.royaltyAddr
  uri := d.uri
  contentHash := d.contentHash
  mintHeight := height

/-- `ApplyResult`. -/
inductive ApplyResult where
  | applied
  | ignored (reason : String)
  deriving DecidableEq, Repr

/-- `AssetState`. -/
structure AssetState where
  assets : Map Hash256 AssetInfo
  ftBalances : Map (String × Hash256) UInt64
  nftOwner : Map Hash256 String

/-- `u64` addition, `none` when it overflows. The debug build panics there and
    the release build wraps. -/
def checkedAdd (a b : UInt64) : Option UInt64 :=
  if a.toNat + b.toNat < 2 ^ 64 then some (a + b) else none

/-- `u64` subtraction, `none` when it underflows. -/
def checkedSub (a b : UInt64) : Option UInt64 :=
  if b ≤ a then some (a - b) else none

theorem checkedAdd_eq_some {a b c : UInt64} :
    checkedAdd a b = some c ↔ c.toNat = a.toNat + b.toNat := by
  unfold checkedAdd
  by_cases hfits : a.toNat + b.toNat < 2 ^ 64
  · rw [if_pos hfits, Option.some.injEq, ← UInt64.toNat_inj, UInt64.toNat_add,
      Nat.mod_eq_of_lt hfits]
    exact eq_comm
  · have hlt := c.toNat_lt
    rw [if_neg hfits]
    constructor
    · intro h
      cases h
    · intro h
      omega

theorem checkedSub_eq_some {a b c : UInt64} :
    checkedSub a b = some c ↔ a.toNat = c.toNat + b.toNat := by
  unfold checkedSub
  by_cases hle : b ≤ a
  · have hnat := UInt64.le_iff_toNat_le.mp hle
    rw [if_pos hle, Option.some.injEq, ← UInt64.toNat_inj, UInt64.toNat_sub_of_le _ _ hle]
    omega
  · rw [UInt64.le_iff_toNat_le] at hle
    rw [if_neg (by rwa [UInt64.le_iff_toNat_le])]
    constructor
    · intro h
      cases h
    · intro h
      omega

theorem exists_checkedSub {a b : UInt64} (h : b.toNat ≤ a.toNat) :
    ∃ c, checkedSub a b = some c ∧ a.toNat = c.toNat + b.toNat := by
  have hsub : checkedSub a b = some (a - b) := if_pos (UInt64.le_iff_toNat_le.mpr h)
  exact ⟨a - b, hsub, checkedSub_eq_some.mp hsub⟩

/-- A natural number is read off a register if it fits. -/
theorem exists_toNat_eq_iff {n : Nat} : (∃ v : UInt64, v.toNat = n) ↔ n < 2 ^ 64 := by
  constructor
  · rintro ⟨v, rfl⟩
    exact v.toNat_lt
  · intro h
    exact ⟨UInt64.ofNat n, UInt64.toNat_ofNat_of_lt' h⟩

namespace AssetState

/-- `AssetState::default`. -/
def default : AssetState := ⟨∅, ∅, ∅⟩

/-- `ft_balance`. -/
def ftBalance (st : AssetState) (addr : String) (assetId : Hash256) : UInt64 :=
  (st.ftBalances.lookup (addr, assetId)).getD 0

/-- `*entry(key).or_insert(0) += amount`. -/
def credit (st : AssetState) (addr : String) (assetId : Hash256) (amount : UInt64) :
    Option AssetState := do
  let balance ← checkedAdd (st.ftBalance addr assetId) amount
  return { st with ftBalances := st.ftBalances.insert (addr, assetId) balance }

/-- `*get_mut(key).unwrap() -= amount`. -/
def debit (st : AssetState) (addr : String) (assetId : Hash256) (amount : UInt64) :
    Option AssetState := do
  let balance ← st.ftBalances.lookup (addr, assetId)
  let balance ← checkedSub balance amount
  return { st with ftBalances := st.ftBalances.insert (addr, assetId) balance }

/-- The branch of `apply` for `AssetOp::Issue`. -/
def applyIssue (st : AssetState) (txid : Hash256) (height : Nat) (source : String)
    (d : IssueData) : Option (ApplyResult × AssetState) :=
  if (st.assets.lookup txid).isSome then some (.ignored "asset_id exists", st)
  else if d.decimals > 18 then some (.ignored "decimals too high", st)
  else do
    let st := { st with assets := st.assets.insert txid (d.assetInfo source height) }
    let st ← st.credit source txid d.supply
    return (.applied, st)

/-- The branch of `apply` for `AssetOp::NftMint`. -/
def applyNftMint (st : AssetState) (txid : Hash256) (height : Nat) (source : String)
    (d : NftMintData) : Option (ApplyResult × AssetState) :=
  if (st.assets.lookup txid).isSome then some (.ignored "asset_id exists", st)
  else if d.royaltyBps > 10000 then some (.ignored "royalty too high", st)
  else
    some (.applied,
      { st with
        assets := st.assets.insert txid (d.assetInfo source height)
        nftOwner := st.nftOwner.insert txid source })

/-- The branch of `apply` for `AssetOp::Transfer`. -/
def applyTransfer (st : AssetState) (source : String) (destAddr : Option String)
    (d : TransferData) : Option (ApplyResult × AssetState) :=
  match st.assets.lookup d.assetId with
  | none => some (.ignored "unknown asset", st)
  | some info =>
    match destAddr with
    | none => some (.ignored "bad dest output", st)
    | some dest =>
      match info.kind with
      | .fungible =>
        if d.amount = 0 then some (.ignored "zero amount", st)
        else if st.ftBalance source d.assetId < d.amount then
          some (.ignored "insufficient balance", st)
        else do
          -- The debit is written before the credit reads, which matters when
          -- source and destination are one.
          let st ← st.debit source d.assetId d.amount
          let st ← st.credit dest d.assetId d.amount
          return (.applied, st)
      | .nonFungible =>
        if d.amount ≠ 1 then some (.ignored "nft amount must be 1", st)
        else if st.nftOwner.lookup d.assetId ≠ some source then
          some (.ignored "not nft owner", st)
        else some (.applied, { st with nftOwner := st.nftOwner.insert d.assetId dest })

/-- `AssetState::apply`; `none` when it panics. -/
def apply (st : AssetState) (txid : Hash256) (height : Nat) (source : String)
    (destAddr : Option String) (op : AssetOp) : Option (ApplyResult × AssetState) :=
  match op with
  | .issue d => st.applyIssue txid height source d
  | .nftMint d => st.applyNftMint txid height source d
  | .transfer d => st.applyTransfer source destAddr d

end AssetState

end Assets

end Tensorium
