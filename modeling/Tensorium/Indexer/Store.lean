import Tensorium.Lib.Rekeyed
import Tensorium.Indexer.Incremental
import Tensorium.Miner.SameHeader

/-! # The snapshot on disk

    `tensorium-indexer/src/store.rs`. JSON has no keys but strings, so the ids are written
    in hexadecimal, and a balance is filed under its address and its id with a bar
    between them. What is read back is decoded key by key. The text in between is left
    out: what `serde_json` writes, it reads.
-/

namespace Tensorium

open BulkMap ByteCodec Assets Miner

/-! ## Snapshots -/

/-- `AssetInfoJson`. -/
structure AssetInfoJson where
  kind : String
  ticker : String
  name : String
  decimals : UInt8
  supply : UInt64
  issuer : String
  royaltyBps : UInt16
  royaltyAddr : String
  uri : String
  contentHash : String
  mintHeight : Nat
  deriving DecidableEq

structure Snapshot where
  lastHeight : Nat
  lastHash : String
  scannedAny : Bool
  assets : Map String AssetInfoJson
  ftBalances : Map String UInt64
  nftOwner : Map String String
  outpoints : Map String String
  history : Map String (List HistoryEntry)

/-- The orders in which the hash maps are gone through. -/
structure MapOrders where
  assets : Iteration Hash256 AssetInfo
  ftBalances : Iteration (String × Hash256) UInt64
  nftOwner : Iteration Hash256 String
  assetsWritten : Iteration String AssetInfoJson
  ftBalancesWritten : Iteration String UInt64
  nftOwnerWritten : Iteration String String

/-! ## Strings for keys -/

/-- `hex32`. -/
def hex32 (b : Hash256) : String := b.toHex

/-- `s.get(i..j)`. -/
def getSlice (bytes : Bytes) (i j : Nat) : Option Bytes :=
  if i ≤ j ∧ j ≤ bytes.length ∧ isCharBoundary bytes i = true ∧ isCharBoundary bytes j = true then
    some ((bytes.drop i).take (j - i))
  else none

/-- The loop of `unhex32`, with the bytes put out so far. -/
def unhexLoop : List (Option UInt8) → Bytes → Option Bytes
  | [], out => some out
  | none :: _, _ => none
  | some b :: rest, out => if out.length ≥ 32 then none else unhexLoop rest (out ++ [b])

/-- `unhex32`. -/
def unhex32 (s : String) : Option Hash256 :=
  let bytes := asBytes s
  let pairs := (List.range ((bytes.length + 1) / 2)).map fun i =>
    (getSlice bytes (2 * i) (2 * i + 2)).bind fromStrRadix16
  (unhexLoop pairs []).bind fun out => if h : out.length = 32 then some ⟨out, h⟩ else none

/-- `rsplit_once`. -/
def rsplitOnce (sep : Char) (s : String) : Option (String × String) :=
  match s.toList.reverse.dropWhile fun c => c ≠ sep with
  | [] => none
  | _ :: before => some (String.ofList before.reverse,
      String.ofList (s.toList.reverse.takeWhile fun c => c ≠ sep).reverse)

/-- `format!("{addr}|{}", hex32(id))`. -/
def balanceKey (key : String × Hash256) : String := key.1 ++ "|" ++ hex32 key.2

/-- The address and the id in the key of a balance. -/
def readBalanceKey (key : String) : Option (String × Hash256) :=
  (rsplitOnce '|' key).bind fun parts => (unhex32 parts.2).map fun id => (parts.1, id)

/-! ## Writing and reading -/

def AssetInfoJson.ofInfo (info : AssetInfo) : AssetInfoJson where
  kind := match info.kind with
    | .fungible => "ft"
    | .nonFungible => "nft"
  ticker := info.ticker
  name := info.name
  decimals := info.decimals
  supply := info.supply
  issuer := info.issuer
  royaltyBps := info.royaltyBps
  royaltyAddr := info.royaltyAddr
  uri := info.uri
  contentHash := hex32 info.contentHash
  mintHeight := info.mintHeight

def AssetInfoJson.toInfo (info : AssetInfoJson) : AssetInfo where
  kind := if info.kind = "nft" then .nonFungible else .fungible
  ticker := info.ticker
  name := info.name
  decimals := info.decimals
  supply := info.supply
  issuer := info.issuer
  royaltyBps := info.royaltyBps
  royaltyAddr := info.royaltyAddr
  uri := info.uri
  contentHash := (unhex32 info.contentHash).getD Hash256.zero
  mintHeight := info.mintHeight

namespace Snapshot

/-- `Snapshot::from_indexer`. -/
def fromIndexer (orders : MapOrders) (idx : SyncIndexer) : Snapshot where
  lastHeight := idx.lastHeight
  lastHash := idx.lastHash
  scannedAny := idx.scannedAny
  assets := rekey orders.assets hex32 AssetInfoJson.ofInfo idx.state.assets
  ftBalances := rekey orders.ftBalances balanceKey id idx.state.ftBalances
  nftOwner := rekey orders.nftOwner hex32 id idx.state.nftOwner
  outpoints := idx.outpoints
  history := idx.history

/-- `Snapshot::apply_to`. -/
def applyTo (orders : MapOrders) (snap : Snapshot) (idx : SyncIndexer) : SyncIndexer :=
  { idx with
    lastHeight := snap.lastHeight
    lastHash := snap.lastHash
    scannedAny := snap.scannedAny
    outpoints := snap.outpoints
    history := snap.history
    state :=
      { assets := readInto orders.assetsWritten unhex32 AssetInfoJson.toInfo snap.assets
          idx.state.assets
        ftBalances := readInto orders.ftBalancesWritten readBalanceKey id snap.ftBalances
          idx.state.ftBalances
        nftOwner := readInto orders.nftOwnerWritten unhex32 id snap.nftOwner
          idx.state.nftOwner } }

end Snapshot

/-! ## Every encoding is decoded -/

theorem getSlice_of_le {bytes : Bytes} (h : ∀ b ∈ bytes, b < 128) {i j : Nat} (hij : i ≤ j)
    (hj : j ≤ bytes.length) : getSlice bytes i j = some ((bytes.drop i).take (j - i)) :=
  if_pos ⟨hij, hj, isCharBoundary_ascii h (hij.trans hj), isCharBoundary_ascii h hj⟩

theorem unhexLoop_some (bs out : Bytes) (h : out.length + bs.length ≤ 32) :
    unhexLoop (bs.map some) out = some (out ++ bs) := by
  induction bs generalizing out with
  | nil => rw [List.append_nil]; rfl
  | cons b bs ih =>
    rw [List.length_cons] at h
    rw [List.map_cons, unhexLoop, if_neg (by omega), ih _ (by simp; omega), List.append_assoc]
    rfl

/-- The pairs of a hexadecimal text are the bytes it was made from. -/
theorem pairs_flatMap (bs : Bytes) :
    (List.range bs.length).map (fun i =>
      (getSlice (bs.flatMap hexPair) (2 * i) (2 * i + 2)).bind fromStrRadix16) = bs.map some := by
  have hascii : ∀ c ∈ bs.flatMap hexPair, c < 128 := by
    intro c hc
    rw [← asBytes_hexEncode] at hc
    obtain ⟨n, hn, rfl⟩ := mem_hexEncode hc
    have hplain := hexByte_plain n hn
    grind
  have hlen : (bs.flatMap hexPair).length = 2 * bs.length := by
    rw [← asBytes_hexEncode, length_hexEncode]
  apply List.ext_getElem
  · simp
  · intro i hi _
    rw [List.length_map, List.length_range] at hi
    -- Pair `i` stands behind the pairs of the bytes before it.
    have hdrop : (bs.flatMap hexPair).drop (2 * i) = (bs.drop i).flatMap hexPair := by
      have htake : ((bs.take i).flatMap hexPair).length = 2 * i := by
        rw [← asBytes_hexEncode, length_hexEncode, List.length_take, Nat.min_eq_left hi.le]
      conv_lhs => rw [← List.take_append_drop i bs, List.flatMap_append, ← htake]
      exact List.drop_left
    rw [List.getElem_map, List.getElem_map, List.getElem_range,
      getSlice_of_le hascii (by omega) (by omega), hdrop, List.drop_eq_getElem_cons hi,
      Nat.add_sub_cancel_left]
    exact fromStrRadix16_hexPair bs[i]

theorem unhex32_hex32 (b : Hash256) : unhex32 (hex32 b) = some b := by
  have hbytes : asBytes (hex32 b) = b.bytes.flatMap hexPair := asBytes_hexEncode b.bytes
  have hlen : ((b.bytes.flatMap hexPair).length + 1) / 2 = b.bytes.length := by
    rw [← asBytes_hexEncode, length_hexEncode]
    omega
  unfold unhex32
  rw [hbytes]
  dsimp only
  rw [hlen, pairs_flatMap, unhexLoop_some _ _ (by rw [b.size]; exact le_rfl), List.nil_append,
    Option.bind_some, dif_pos b.size]

theorem rsplitOnce_append {sep : Char} (s : String) {cs : List Char} (h : sep ∉ cs) :
    rsplitOnce sep (s ++ String.ofList (sep :: cs)) = some (s, String.ofList cs) := by
  have hall : ∀ c ∈ cs.reverse, (decide (c ≠ sep)) = true := by
    intro c hc
    rw [decide_eq_true_eq]
    rintro rfl
    exact h (List.mem_reverse.mp hc)
  have hreverse : (s ++ String.ofList (sep :: cs)).toList.reverse
      = cs.reverse ++ (sep :: s.toList.reverse) := by
    rw [String.toList_append, String.toList_ofList]
    simp
  have hdrop : (cs.reverse ++ (sep :: s.toList.reverse)).dropWhile (fun c => decide (c ≠ sep))
      = sep :: s.toList.reverse := by
    rw [List.dropWhile_append_of_pos hall]
    simp
  have htake : (cs.reverse ++ (sep :: s.toList.reverse)).takeWhile (fun c => decide (c ≠ sep))
      = cs.reverse := by
    rw [List.takeWhile_append_of_pos hall]
    simp
  unfold rsplitOnce
  rw [hreverse, hdrop, htake]
  dsimp only
  rw [List.reverse_reverse, List.reverse_reverse, String.ofList_toList]

/-- No hexadecimal digit is a bar, so the last bar is the one that was put in. -/
theorem readBalanceKey_balanceKey (key : String × Hash256) :
    readBalanceKey (balanceKey key) = some key := by
  have hbar : '|' ∉ hexDigits key.2.bytes := by
    intro hmem
    have hdigit : ∀ n < 16, Nat.digitChar n ≠ '|' := by decide
    obtain ⟨b, _, hb⟩ := List.mem_flatMap.mp hmem
    have hlt := b.toNat_lt
    rcases List.mem_cons.mp hb with hhigh | hlow
    · exact hdigit _ (by omega) hhigh.symm
    · exact hdigit _ (by omega) (List.mem_singleton.mp hlow).symm
  have hkey : balanceKey key = key.1 ++ String.ofList ('|' :: hexDigits key.2.bytes) := by
    unfold balanceKey hex32 Hash256.toHex hexEncode
    rw [← String.toList_inj]
    simp
  unfold readBalanceKey
  rw [hkey, rsplitOnce_append _ hbar, Option.bind_some]
  have hunhex : unhex32 (String.ofList (hexDigits key.2.bytes)) = some key.2 := unhex32_hex32 key.2
  rw [hunhex]
  rfl

theorem toInfo_ofInfo (info : AssetInfo) : (AssetInfoJson.ofInfo info).toInfo = info := by
  obtain ⟨kind, _, _, _, _, _, _, _, _, hash, _⟩ := info
  unfold AssetInfoJson.ofInfo AssetInfoJson.toInfo
  dsimp only
  rw [unhex32_hex32]
  cases kind <;> rfl

namespace SyncIndexer

/-- The indexer as it starts again: `load` of what `save` has written. -/
def restart (orders : MapOrders) (idx : SyncIndexer) : SyncIndexer :=
  (Snapshot.fromIndexer orders idx).applyTo orders default

/-- Everything comes back but the checkpoint. -/
theorem restart_eq (orders : MapOrders) (idx : SyncIndexer) :
    idx.restart orders = { idx with checkpoint := none } := by
  have hassets := readInto_rekey orders.assets orders.assetsWritten unhex32_hex32 toInfo_ofInfo
    idx.state.assets
  have hft : readInto orders.ftBalancesWritten readBalanceKey id
      (rekey orders.ftBalances balanceKey id idx.state.ftBalances) ∅ = idx.state.ftBalances :=
    readInto_rekey _ _ readBalanceKey_balanceKey (fun _ => rfl) _
  have hnft : readInto orders.nftOwnerWritten unhex32 id
      (rekey orders.nftOwner hex32 id idx.state.nftOwner) ∅ = idx.state.nftOwner :=
    readInto_rekey _ _ unhex32_hex32 (fun _ => rfl) _
  have hstate : (idx.restart orders).state = idx.state := by
    show AssetState.mk (readInto _ _ _ (rekey _ _ _ _) ∅) (readInto _ _ _ (rekey _ _ _ _) ∅)
      (readInto _ _ _ (rekey _ _ _ _) ∅) = idx.state
    rw [hassets, hft, hnft]
  show { idx.restart orders with state := (idx.restart orders).state } = _
  rw [hstate]
  rfl

end SyncIndexer

end Tensorium
