import Tensorium.Assets.Lossy
import Tensorium.Lib.ExceptFold

/-! # The codec of asset operations

    `assets/codec.rs`: how an operation is written into an `OP_RETURN` output and
    read from it. What the decoder accepts is stated as a layout: the header, a
    body for the operation, and anything behind it.
-/

namespace Tensorium

open ByteCodec ExceptFold

namespace Assets

/-! ## Encoding -/

/-- `put_str`. -/
def putStr (s : String) (max : Nat) : Bytes :=
  let b := asBytes s
  let n := min b.length max
  UInt8.ofNat n :: b.take n

/-- `encode_op`. -/
def encodeOp : AssetOp → Bytes
  | .issue d =>
    magic ++ [version] ++ [0x01] ++ putStr d.ticker 8 ++ [d.decimals]
      ++ beBytes 8 d.supply.toNat ++ putStr d.name 32 ++ [d.flags]
  | .nftMint d =>
    magic ++ [version] ++ [0x02] ++ d.collectionId.bytes ++ beBytes 2 d.royaltyBps.toNat
      ++ putStr d.royaltyAddr 90 ++ putStr d.uri 200 ++ d.contentHash.bytes
  | .transfer d =>
    magic ++ [version] ++ [0x03] ++ d.assetId.bytes ++ beBytes 8 d.amount.toNat
      ++ [d.destOutputIndex]

/-- `op_return_script`. -/
def opReturnScript (data : Bytes) : Bytes :=
  let n := data.length
  let push :=
    if n ≤ 0x4b then [UInt8.ofNat n]
    else if n ≤ 0xff then [0x4c, UInt8.ofNat n]
    else [0x4d, UInt8.ofNat (n % 256), UInt8.ofNat (n / 256 % 256)]
  Script.opReturnByte :: push ++ data

/-! ## What the readers accept -/

theorem take_eq_ok {n : Nat} {buf a rest : Bytes} :
    take n buf = .ok (a, rest) ↔ buf = a ++ rest ∧ a.length = n := by
  unfold take
  split_ifs with hshort
  · constructor
    · intro h
      cases h
    · rintro ⟨rfl, hn⟩
      rw [List.length_append] at hshort
      omega
  · constructor
    · intro h
      obtain ⟨rfl, rfl⟩ := Prod.mk.inj (Except.ok.inj h)
      rw [List.length_take]
      exact ⟨(List.take_append_drop n buf).symm, by omega⟩
    · rintro ⟨rfl, rfl⟩
      rw [List.take_left, List.drop_left]

theorem takeByte_eq_ok {b : UInt8} {buf rest : Bytes} :
    takeByte buf = .ok (b, rest) ↔ buf = b :: rest := by
  unfold takeByte
  cases buf with
  | nil => simp
  | cons c buf =>
    constructor
    · intro h
      obtain ⟨rfl, rfl⟩ := Prod.mk.inj (Except.ok.inj h)
      rfl
    · intro h
      obtain ⟨rfl, rfl⟩ := List.cons.inj h
      rfl

/-- Bytes behind their number. -/
def counted (raw : Bytes) : Bytes := UInt8.ofNat raw.length :: raw

theorem takeStr_eq_ok {s : String} {buf rest : Bytes} :
    takeStr buf = .ok (s, rest) ↔
      ∃ raw, raw.length < 256 ∧ buf = counted raw ++ rest ∧ s = fromUtf8Lossy raw := by
  unfold takeStr
  constructor
  · intro h
    obtain ⟨⟨len, buf₁⟩, hlen, h⟩ := bind_eq_ok.mp h
    obtain ⟨⟨raw, buf₂⟩, hraw, h⟩ := bind_eq_ok.mp h
    obtain ⟨rfl, rfl⟩ := Prod.mk.inj (Except.ok.inj h)
    obtain ⟨rfl, hcount⟩ := take_eq_ok.mp hraw
    refine ⟨raw, by have := len.toNat_lt; omega, ?_, rfl⟩
    rw [takeByte_eq_ok.mp hlen]
    unfold counted
    rw [hcount, UInt8.ofNat_toNat]
    rfl
  · rintro ⟨raw, hcount, rfl, rfl⟩
    apply bind_eq_ok.mpr
    refine ⟨(UInt8.ofNat raw.length, raw ++ rest), rfl, ?_⟩
    apply bind_eq_ok.mpr
    refine ⟨(raw, rest), ?_, rfl⟩
    rw [take_eq_ok]
    exact ⟨rfl, (toNat_byte hcount).symm⟩

theorem takeU64_eq_ok {v : UInt64} {buf rest : Bytes} :
    takeU64 buf = .ok (v, rest) ↔ buf = beBytes 8 v.toNat ++ rest := by
  unfold takeU64
  constructor
  · intro h
    obtain ⟨⟨b, buf₁⟩, htake, h⟩ := bind_eq_ok.mp h
    obtain ⟨rfl, rfl⟩ := Prod.mk.inj (Except.ok.inj h)
    obtain ⟨rfl, hlen⟩ := take_eq_ok.mp htake
    have hlt : beNat b < 2 ^ 64 := by
      have := beNat_lt b
      rw [hlen] at this
      exact this
    have hbytes : beBytes 8 (beNat b) = b :=
      beNat_injective (by rw [length_beBytes, hlen]) (beNat_beBytes (by omega))
    show b ++ buf₁ = beBytes 8 (UInt64.ofNat (beNat b)).toNat ++ buf₁
    rw [UInt64.toNat_ofNat_of_lt' hlt, hbytes]
  · rintro rfl
    apply bind_eq_ok.mpr
    refine ⟨(beBytes 8 v.toNat, rest), take_eq_ok.mpr ⟨rfl, length_beBytes _ _⟩, ?_⟩
    show Except.ok (UInt64.ofNat (beNat (beBytes 8 v.toNat)), rest) = _
    rw [beNat_beBytes v.toNat_lt, UInt64.ofNat_toNat]

theorem takeHash_eq_ok {hash : Hash256} {buf rest : Bytes} :
    takeHash buf = .ok (hash, rest) ↔ buf = hash.bytes ++ rest := by
  unfold takeHash
  split_ifs with hshort
  · constructor
    · intro h
      cases h
    · rintro rfl
      rw [List.length_append, hash.size] at hshort
      omega
  · constructor
    · intro h
      obtain ⟨rfl, rfl⟩ := Prod.mk.inj (Except.ok.inj h)
      exact (List.take_append_drop 32 buf).symm
    · rintro rfl
      congr 2
      · ext1
        exact List.take_left' hash.size
      · exact List.drop_left' hash.size

/-! ## What the decoder accepts -/

/-- The body of an operation, from its opcode on. -/
inductive Carries : Bytes → AssetOp → Prop where
  | issue {ticker name : Bytes} (decimals : UInt8) (supply : UInt64) (flags : UInt8) :
      ticker.length < 256 → name.length < 256 →
      Carries (0x01 :: (counted ticker ++ decimals :: (beBytes 8 supply.toNat
          ++ (counted name ++ [flags]))))
        (.issue ⟨fromUtf8Lossy ticker, decimals, supply, fromUtf8Lossy name, flags⟩)
  | nftMint {addr uri : Bytes} (collectionId : Hash256) (royaltyBps : UInt16)
      (contentHash : Hash256) :
      royaltyBps ≤ 10000 → addr.length < 256 → uri.length < 256 →
      Carries (0x02 :: (collectionId.bytes ++ (beBytes 2 royaltyBps.toNat
          ++ (counted addr ++ (counted uri ++ contentHash.bytes)))))
        (.nftMint ⟨collectionId, royaltyBps, fromUtf8Lossy addr, fromUtf8Lossy uri, contentHash⟩)
  | transfer (assetId : Hash256) (amount : UInt64) (destOutputIndex : UInt8) :
      Carries (0x03 :: (assetId.bytes ++ (beBytes 8 amount.toNat ++ [destOutputIndex])))
        (.transfer ⟨assetId, amount, destOutputIndex⟩)

/-- The branch of `decode_op` for `OP_ISSUE`. -/
def decodeIssue (buf : Bytes) : Except AssetError AssetOp := do
  let (ticker, buf) ← takeStr buf
  let (decimals, buf) ← takeByte buf
  let (supply, buf) ← takeU64 buf
  let (name, buf) ← takeStr buf
  let (flags, _) ← takeByte buf
  return .issue ⟨ticker, decimals, supply, name, flags⟩

/-- The branch of `decode_op` for `OP_NFT_MINT`. -/
def decodeNftMint (buf : Bytes) : Except AssetError AssetOp := do
  let (collectionId, buf) ← takeHash buf
  let (bps, buf) ← take 2 buf
  let royaltyBps := UInt16.ofNat (beNat bps)
  if royaltyBps > 10000 then throw .badRoyalty
  let (royaltyAddr, buf) ← takeStr buf
  let (uri, buf) ← takeStr buf
  let (contentHash, _) ← takeHash buf
  return .nftMint ⟨collectionId, royaltyBps, royaltyAddr, uri, contentHash⟩

/-- The branch of `decode_op` for `OP_TRANSFER`. -/
def decodeTransfer (buf : Bytes) : Except AssetError AssetOp := do
  let (assetId, buf) ← takeHash buf
  let (amount, buf) ← takeU64 buf
  let (destOutputIndex, _) ← takeByte buf
  return .transfer ⟨assetId, amount, destOutputIndex⟩

/-- What `decode_op` does behind the opcode. -/
def decodeBody (opcode : UInt8) (buf : Bytes) : Except AssetError AssetOp :=
  match opcode with
  | 0x01 => decodeIssue buf
  | 0x02 => decodeNftMint buf
  | 0x03 => decodeTransfer buf
  | _ => throw .unknownOpcode

theorem decodeIssue_eq_ok {buf : Bytes} {op : AssetOp} :
    decodeIssue buf = .ok op ↔ ∃ ticker decimals supply name flags rest,
      ticker.length < 256 ∧ name.length < 256 ∧
      buf = counted ticker ++ decimals :: (beBytes 8 supply.toNat
        ++ (counted name ++ flags :: rest)) ∧
      op = .issue ⟨fromUtf8Lossy ticker, decimals, supply, fromUtf8Lossy name, flags⟩ := by
  constructor
  · intro h
    obtain ⟨⟨_, buf₁⟩, hticker, h⟩ := bind_eq_ok.mp h
    obtain ⟨⟨decimals, buf₂⟩, hdecimals, h⟩ := bind_eq_ok.mp h
    obtain ⟨⟨supply, buf₃⟩, hsupply, h⟩ := bind_eq_ok.mp h
    obtain ⟨⟨_, buf₄⟩, hname, h⟩ := bind_eq_ok.mp h
    obtain ⟨⟨flags, rest⟩, hflags, hop⟩ := bind_eq_ok.mp h
    obtain ⟨ticker, htickerLen, rfl, rfl⟩ := takeStr_eq_ok.mp hticker
    obtain rfl := takeByte_eq_ok.mp hdecimals
    obtain rfl := takeU64_eq_ok.mp hsupply
    obtain ⟨name, hnameLen, rfl, rfl⟩ := takeStr_eq_ok.mp hname
    obtain rfl := takeByte_eq_ok.mp hflags
    exact ⟨ticker, decimals, supply, name, flags, rest, htickerLen, hnameLen, rfl,
      (Except.ok.inj hop).symm⟩
  · rintro ⟨ticker, decimals, supply, name, flags, rest, hticker, hname, rfl, rfl⟩
    apply bind_eq_ok.mpr ⟨_, takeStr_eq_ok.mpr ⟨ticker, hticker, rfl, rfl⟩, _⟩
    apply bind_eq_ok.mpr ⟨_, takeByte_eq_ok.mpr rfl, _⟩
    apply bind_eq_ok.mpr ⟨_, takeU64_eq_ok.mpr rfl, _⟩
    apply bind_eq_ok.mpr ⟨_, takeStr_eq_ok.mpr ⟨name, hname, rfl, rfl⟩, _⟩
    exact bind_eq_ok.mpr ⟨_, takeByte_eq_ok.mpr rfl, rfl⟩

theorem decodeNftMint_eq_ok {buf : Bytes} {op : AssetOp} :
    decodeNftMint buf = .ok op ↔
      ∃ (collectionId : Hash256) (royaltyBps : UInt16) (addr uri : Bytes) (contentHash : Hash256)
        (rest : Bytes),
      royaltyBps ≤ 10000 ∧ addr.length < 256 ∧ uri.length < 256 ∧
      buf = collectionId.bytes ++ (beBytes 2 royaltyBps.toNat
        ++ (counted addr ++ (counted uri ++ (contentHash.bytes ++ rest)))) ∧
      op = .nftMint ⟨collectionId, royaltyBps, fromUtf8Lossy addr, fromUtf8Lossy uri,
        contentHash⟩ := by
  constructor
  · intro h
    obtain ⟨⟨collectionId, buf₁⟩, hcollection, h⟩ := bind_eq_ok.mp h
    obtain ⟨⟨bps, buf₂⟩, hbps, h⟩ := bind_eq_ok.mp h
    dsimp only at h
    by_cases hroyalty : UInt16.ofNat (beNat bps) > 10000
    · rw [if_pos hroyalty] at h
      cases h
    · rw [if_neg hroyalty] at h
      obtain ⟨⟨_, buf₃⟩, haddr, h⟩ := bind_eq_ok.mp h
      obtain ⟨⟨_, buf₄⟩, huri, h⟩ := bind_eq_ok.mp h
      obtain ⟨⟨contentHash, rest⟩, hcontent, hop⟩ := bind_eq_ok.mp h
      obtain rfl := takeHash_eq_ok.mp hcollection
      obtain ⟨rfl, hlen⟩ := take_eq_ok.mp hbps
      obtain ⟨addr, haddrLen, rfl, rfl⟩ := takeStr_eq_ok.mp haddr
      obtain ⟨uri, huriLen, rfl, rfl⟩ := takeStr_eq_ok.mp huri
      obtain rfl := takeHash_eq_ok.mp hcontent
      have hlt : beNat bps < 2 ^ 16 := by
        have := beNat_lt bps
        rw [hlen] at this
        exact this
      -- The royalty is read from two bytes, which are those of its number.
      have hbytes : beBytes 2 (UInt16.ofNat (beNat bps)).toNat = bps := by
        rw [UInt16.toNat_ofNat_of_lt' hlt]
        exact beNat_injective (by rw [length_beBytes, hlen]) (beNat_beBytes (by omega))
      refine ⟨collectionId, UInt16.ofNat (beNat bps), addr, uri, contentHash, rest,
        UInt16.not_lt.mp hroyalty, haddrLen, huriLen, ?_, (Except.ok.inj hop).symm⟩
      rw [hbytes]
  · rintro ⟨collectionId, royaltyBps, addr, uri, contentHash, rest, hroyalty, haddr, huri, rfl, rfl⟩
    have hbps : UInt16.ofNat (beNat (beBytes 2 royaltyBps.toNat)) = royaltyBps := by
      rw [beNat_beBytes royaltyBps.toNat_lt, UInt16.ofNat_toNat]
    apply bind_eq_ok.mpr ⟨_, takeHash_eq_ok.mpr rfl, _⟩
    apply bind_eq_ok.mpr ⟨_, take_eq_ok.mpr ⟨rfl, length_beBytes _ _⟩, _⟩
    dsimp only
    rw [hbps, if_neg (UInt16.not_lt.mpr hroyalty)]
    apply bind_eq_ok.mpr ⟨_, takeStr_eq_ok.mpr ⟨addr, haddr, rfl, rfl⟩, _⟩
    apply bind_eq_ok.mpr ⟨_, takeStr_eq_ok.mpr ⟨uri, huri, rfl, rfl⟩, _⟩
    exact bind_eq_ok.mpr ⟨_, takeHash_eq_ok.mpr rfl, rfl⟩

theorem decodeTransfer_eq_ok {buf : Bytes} {op : AssetOp} :
    decodeTransfer buf = .ok op ↔
      ∃ (assetId : Hash256) (amount : UInt64) (destOutputIndex : UInt8) (rest : Bytes),
      buf = assetId.bytes ++ (beBytes 8 amount.toNat ++ destOutputIndex :: rest) ∧
      op = .transfer ⟨assetId, amount, destOutputIndex⟩ := by
  constructor
  · intro h
    obtain ⟨⟨assetId, buf₁⟩, hasset, h⟩ := bind_eq_ok.mp h
    obtain ⟨⟨amount, buf₂⟩, hamount, h⟩ := bind_eq_ok.mp h
    obtain ⟨⟨dest, rest⟩, hdest, hop⟩ := bind_eq_ok.mp h
    obtain rfl := takeHash_eq_ok.mp hasset
    obtain rfl := takeU64_eq_ok.mp hamount
    obtain rfl := takeByte_eq_ok.mp hdest
    exact ⟨assetId, amount, dest, rest, rfl, (Except.ok.inj hop).symm⟩
  · rintro ⟨assetId, amount, dest, rest, rfl, rfl⟩
    apply bind_eq_ok.mpr ⟨_, takeHash_eq_ok.mpr rfl, _⟩
    apply bind_eq_ok.mpr ⟨_, takeU64_eq_ok.mpr rfl, _⟩
    exact bind_eq_ok.mpr ⟨_, takeByte_eq_ok.mpr rfl, rfl⟩

/-- A body is what the decoder takes in behind the header. -/
theorem decodeBody_eq_ok {opcode : UInt8} {buf : Bytes} {op : AssetOp} :
    decodeBody opcode buf = .ok op ↔ ∃ body rest, opcode :: buf = body ++ rest ∧ Carries body op := by
  constructor
  · intro h
    unfold decodeBody at h
    -- The opcode says which decoder reads the body.
    split at h
    · obtain ⟨ticker, decimals, supply, name, flags, rest, hticker, hname, rfl, rfl⟩ :=
        decodeIssue_eq_ok.mp h
      exact ⟨_, rest, by simp, .issue decimals supply flags hticker hname⟩
    · obtain ⟨collectionId, royaltyBps, addr, uri, contentHash, rest, hroyalty, haddr, huri, rfl,
        rfl⟩ := decodeNftMint_eq_ok.mp h
      exact ⟨_, rest, by simp, .nftMint collectionId royaltyBps contentHash hroyalty haddr huri⟩
    · obtain ⟨assetId, amount, dest, rest, rfl, rfl⟩ := decodeTransfer_eq_ok.mp h
      exact ⟨_, rest, by simp, .transfer assetId amount dest⟩
    · cases h
  · rintro ⟨body, rest, hsplit, hbody⟩
    cases hbody with
    | @issue ticker name decimals supply flags hticker hname =>
      obtain ⟨rfl, rfl⟩ := List.cons.inj hsplit
      show decodeIssue _ = _
      rw [decodeIssue_eq_ok]
      exact ⟨ticker, decimals, supply, name, flags, rest, hticker, hname, by simp, rfl⟩
    | @nftMint addr uri collectionId royaltyBps contentHash hroyalty haddr huri =>
      obtain ⟨rfl, rfl⟩ := List.cons.inj hsplit
      show decodeNftMint _ = _
      rw [decodeNftMint_eq_ok]
      exact ⟨collectionId, royaltyBps, addr, uri, contentHash, rest, hroyalty, haddr, huri,
        by simp, rfl⟩
    | transfer assetId amount dest =>
      obtain ⟨rfl, rfl⟩ := List.cons.inj hsplit
      show decodeTransfer _ = _
      rw [decodeTransfer_eq_ok]
      exact ⟨assetId, amount, dest, rest, by simp, rfl⟩

/-- The decoder accepts the header, a body and anything behind it. -/
theorem decodeOp_eq_ok {buf : Bytes} {op : AssetOp} :
    decodeOp buf = .ok op ↔ buf.length ≤ maxPayload ∧
      ∃ body rest, buf = magic ++ version :: (body ++ rest) ∧ Carries body op := by
  constructor
  · -- The checks of `decode_op`, one after the other.
    intro h
    unfold decodeOp at h
    by_cases hlarge : buf.length > maxPayload
    · rw [if_pos hlarge] at h
      cases h
    · rw [if_neg hlarge] at h
      obtain ⟨⟨m, buf₁⟩, hmagic, h⟩ := bind_eq_ok.mp h
      dsimp only at h
      by_cases hm : m ≠ magic
      · rw [if_pos hm] at h
        cases h
      · rw [if_neg hm] at h
        obtain ⟨⟨v, buf₂⟩, hversion, h⟩ := bind_eq_ok.mp h
        dsimp only at h
        by_cases hv : v ≠ version
        · rw [if_pos hv] at h
          cases h
        · rw [if_neg hv] at h
          obtain ⟨⟨opcode, buf₃⟩, hopcode, hbody⟩ := bind_eq_ok.mp h
          obtain ⟨body, rest, hsplit, hcarries⟩ := decodeBody_eq_ok.mp hbody
          refine ⟨Nat.le_of_not_lt hlarge, body, rest, ?_, hcarries⟩
          rw [(take_eq_ok.mp hmagic).1, not_ne_iff.mp hm, takeByte_eq_ok.mp hversion,
            not_ne_iff.mp hv, takeByte_eq_ok.mp hopcode, hsplit]
  · rintro ⟨hlen, body, rest, rfl, hcarries⟩
    -- A body starts with its opcode.
    obtain ⟨opcode, tail, hbody⟩ : ∃ opcode tail, body ++ rest = opcode :: tail := by
      cases hcarries with
      | issue => exact ⟨_, _, rfl⟩
      | nftMint => exact ⟨_, _, rfl⟩
      | transfer => exact ⟨_, _, rfl⟩
    have hdecode := decodeBody_eq_ok.mpr ⟨body, rest, hbody.symm, hcarries⟩
    rw [hbody] at hlen ⊢
    unfold decodeOp
    rw [if_neg (Nat.not_lt.mpr hlen)]
    apply bind_eq_ok.mpr ⟨_, take_eq_ok.mpr ⟨rfl, rfl⟩, _⟩
    dsimp only
    rw [if_neg (not_ne_iff.mpr rfl)]
    apply bind_eq_ok.mpr ⟨_, takeByte_eq_ok.mpr rfl, _⟩
    dsimp only
    rw [if_neg (not_ne_iff.mpr rfl)]
    exact bind_eq_ok.mpr ⟨_, takeByte_eq_ok.mpr rfl, hdecode⟩

/-! ## The round trip -/

/-- The limits of the protocol. -/
def WithinLimits : AssetOp → Prop
  | .issue d => (asBytes d.ticker).length ≤ 8 ∧ (asBytes d.name).length ≤ 32
  | .nftMint d => d.royaltyBps ≤ 10000 ∧ (asBytes d.royaltyAddr).length ≤ 90 ∧
      (asBytes d.uri).length ≤ 200
  | .transfer _ => True

instance : (op : AssetOp) → Decidable (WithinLimits op)
  | .issue _ => inferInstanceAs (Decidable (_ ∧ _))
  | .nftMint _ => inferInstanceAs (Decidable (_ ∧ _ ∧ _))
  | .transfer _ => inferInstanceAs (Decidable True)

/-- What `put_str` writes is counted bytes, and no more than it may. -/
theorem putStr_eq (s : String) (max : Nat) : putStr s max = counted ((asBytes s).take max) := by
  unfold putStr counted
  dsimp only
  by_cases hfits : (asBytes s).length ≤ max
  · rw [Nat.min_eq_left hfits, List.take_length, List.take_of_length_le hfits]
  · rw [Nat.min_eq_right (by omega), List.length_take, Nat.min_eq_left (by omega)]

theorem length_counted_take_le (s : String) (max : Nat) :
    (counted ((asBytes s).take max)).length ≤ max + 1 := by
  unfold counted
  rw [List.length_cons, List.length_take]
  omega

/-- A text that is cut at a limit and read back. -/
def cut (max : Nat) (s : String) : String := fromUtf8Lossy ((asBytes s).take max)

/-- What is left of an operation that was encoded. -/
def stored : AssetOp → AssetOp
  | .issue d => .issue { d with ticker := cut 8 d.ticker, name := cut 32 d.name }
  | .nftMint d => .nftMint { d with royaltyAddr := cut 90 d.royaltyAddr, uri := cut 200 d.uri }
  | .transfer d => .transfer d

/-- A royalty that the decoder lets pass. -/
def RoyaltyOk : AssetOp → Prop
  | .nftMint d => d.royaltyBps ≤ 10000
  | _ => True

/-- The body that the encoder writes. -/
theorem encodeOp_eq {op : AssetOp} (hroyalty : RoyaltyOk op) :
    ∃ body, encodeOp op = magic ++ version :: body ∧ Carries body (stored op) ∧
      body.length ≤ 400 := by
  -- Every limit is below 256, so one byte counts what is left.
  have hcut : ∀ (s : String) (max : Nat), max < 256 → ((asBytes s).take max).length < 256 := by
    intro s max hmax
    rw [List.length_take]
    omega
  cases op with
  | issue d =>
    have hticker := length_counted_take_le d.ticker 8
    have hname := length_counted_take_le d.name 32
    refine ⟨_, ?_, .issue d.decimals d.supply d.flags (hcut d.ticker 8 (by omega))
      (hcut d.name 32 (by omega)), ?_⟩
    · simp [encodeOp, putStr_eq]
    · simp only [List.length_cons, List.length_append, length_beBytes, List.length_nil]
      omega
  | nftMint d =>
    have haddr := length_counted_take_le d.royaltyAddr 90
    have huri := length_counted_take_le d.uri 200
    refine ⟨_, ?_, .nftMint d.collectionId d.royaltyBps d.contentHash hroyalty
      (hcut d.royaltyAddr 90 (by omega)) (hcut d.uri 200 (by omega)), ?_⟩
    · simp [encodeOp, putStr_eq]
    · simp only [List.length_cons, List.length_append, length_beBytes, d.collectionId.size,
        d.contentHash.size]
      omega
  | transfer d =>
    refine ⟨_, ?_, .transfer d.assetId d.amount d.destOutputIndex, ?_⟩
    · simp [encodeOp]
    · simp only [List.length_cons, List.length_append, length_beBytes, List.length_nil,
        d.assetId.size]
      omega

theorem length_encodeOp_le {op : AssetOp} (hroyalty : RoyaltyOk op) :
    (encodeOp op).length ≤ 405 ∧ 5 ≤ (encodeOp op).length := by
  obtain ⟨body, hencode, _, hlen⟩ := encodeOp_eq hroyalty
  have hmagic : magic.length = 4 := rfl
  rw [hencode, List.length_append, List.length_cons, hmagic]
  omega

/-- Decoding what was encoded gives the operation with its texts cut. -/
theorem decodeOp_encodeOp {op : AssetOp} (hroyalty : RoyaltyOk op) :
    decodeOp (encodeOp op) = .ok (stored op) := by
  obtain ⟨body, hencode, hcarries, _⟩ := encodeOp_eq hroyalty
  rw [decodeOp_eq_ok]
  refine ⟨?_, body, [], by rw [hencode, List.append_nil], hcarries⟩
  have hlen := (length_encodeOp_le hroyalty).1
  have hmax : maxPayload = 520 := rfl
  omega

theorem cut_eq_self {max : Nat} {s : String} (h : (asBytes s).length ≤ max) : cut max s = s :=
  (fromUtf8Lossy_take_iff max s).mpr (Or.inl h)

theorem WithinLimits.royaltyOk {op : AssetOp} (h : WithinLimits op) : RoyaltyOk op := by
  cases op with
  | issue d => trivial
  | nftMint d => exact h.1
  | transfer d => trivial

theorem WithinLimits.stored_eq {op : AssetOp} (h : WithinLimits op) : stored op = op := by
  cases op with
  | issue d =>
    show AssetOp.issue { d with ticker := cut 8 d.ticker, name := cut 32 d.name } = _
    rw [cut_eq_self h.1, cut_eq_self h.2]
  | nftMint d =>
    show AssetOp.nftMint
      { d with royaltyAddr := cut 90 d.royaltyAddr, uri := cut 200 d.uri } = _
    rw [cut_eq_self h.2.1, cut_eq_self h.2.2]
  | transfer d => rfl

/-! ## The carrier output -/

theorem slice_left (front data : Bytes) : slice (front ++ data) front.length data.length
    = some data := by
  unfold slice
  rw [if_pos (by rw [List.length_append]), List.drop_left, List.take_length]

/-- Data of any size that one or two length bytes can count is read back. -/
theorem opReturnData_opReturnScript {data : Bytes} (hpos : 0 < data.length)
    (hlen : data.length < 2 ^ 16) : opReturnData (opReturnScript data) = some data := by
  unfold opReturnScript
  dsimp only
  -- The three pushes: the length itself, `OP_PUSHDATA1` and `OP_PUSHDATA2`.
  by_cases hdirect : data.length ≤ 0x4b
  · have hbyte : (UInt8.ofNat data.length).toNat = data.length := toNat_byte (by omega)
    have hrange : 0x01 ≤ UInt8.ofNat data.length ∧ UInt8.ofNat data.length ≤ 0x4b := by
      rw [UInt8.le_iff_toNat_le, UInt8.le_iff_toNat_le, hbyte]
      exact ⟨hpos, hdirect⟩
    rw [if_pos hdirect]
    show (if 0x01 ≤ UInt8.ofNat data.length ∧ UInt8.ofNat data.length ≤ 0x4b then
      slice ([Script.opReturnByte, UInt8.ofNat data.length] ++ data) 2
        (UInt8.ofNat data.length).toNat else _) = _
    rw [if_pos hrange, hbyte]
    exact slice_left [Script.opReturnByte, UInt8.ofNat data.length] data
  · rw [if_neg hdirect]
    by_cases hone : data.length ≤ 0xff
    · rw [if_pos hone]
      show slice ([Script.opReturnByte, 0x4c, UInt8.ofNat data.length] ++ data) 3
        (UInt8.ofNat data.length).toNat = _
      rw [toNat_byte (by omega)]
      exact slice_left [Script.opReturnByte, 0x4c, UInt8.ofNat data.length] data
    · rw [if_neg hone]
      show slice ([Script.opReturnByte, 0x4d, UInt8.ofNat (data.length % 256),
        UInt8.ofNat (data.length / 256 % 256)] ++ data) 4
        ((UInt8.ofNat (data.length % 256)).toNat
          + (UInt8.ofNat (data.length / 256 % 256)).toNat * 256) = _
      rw [toNat_byte (by omega), toNat_byte (by omega),
        show data.length % 256 + data.length / 256 % 256 * 256 = data.length by omega]
      exact slice_left [Script.opReturnByte, 0x4d, UInt8.ofNat (data.length % 256),
        UInt8.ofNat (data.length / 256 % 256)] data

/-- An output that carries no operation. -/
def CarriesNone (out : TxOutput) : Prop :=
  ∀ data, opReturnData out.scriptPubkey = some data → ∀ op, decodeOp data ≠ .ok op

/-- The first output that carries an operation decides. -/
theorem extractAssetOp_of_first {tx : Transaction} {before after : List TxOutput} {out : TxOutput}
    {op : AssetOp} {data : Bytes} (houtputs : tx.outputs = before ++ out :: after)
    (hbefore : ∀ other ∈ before, CarriesNone other)
    (hdata : opReturnData out.scriptPubkey = some data) (hop : decodeOp data = .ok op) :
    extractAssetOp tx = some op := by
  have hfound : ((opReturnData out.scriptPubkey).bind fun data => (decodeOp data).toOption)
      = some op := by
    rw [hdata]
    show (decodeOp data).toOption = some op
    rw [hop]
    rfl
  unfold extractAssetOp
  rw [houtputs, List.findSome?_append, List.findSome?_eq_none_iff.mpr, Option.none_or,
    List.findSome?_cons, hfound]
  · -- What stands in front carries nothing.
    intro other hother
    cases hcarried : opReturnData other.scriptPubkey with
    | none => rfl
    | some carried =>
      show (decodeOp carried).toOption = none
      cases hdecoded : decodeOp carried with
      | error e => rfl
      | ok other' => exact absurd hdecoded (hbefore other hother carried hcarried other')

/-- **An operation survives the trip through a transaction.** Within the limits of
    the protocol it is decoded as it was encoded, and found in an output that
    carries it behind outputs that carry none, whatever push its length selects. -/
theorem assetOp_round_trip (op : AssetOp) (h : WithinLimits op) :
    decodeOp (encodeOp op) = .ok op ∧
      ∀ (tx : Transaction) (before after : List TxOutput) (out : TxOutput),
        tx.outputs = before ++ out :: after → (∀ other ∈ before, CarriesNone other) →
        out.scriptPubkey = opReturnScript (encodeOp op) → extractAssetOp tx = some op := by
  have hdecode : decodeOp (encodeOp op) = .ok op := by
    rw [decodeOp_encodeOp h.royaltyOk, h.stored_eq]
  refine ⟨hdecode, ?_⟩
  intro tx before after out houtputs hbefore hscript
  obtain ⟨hlong, hshort⟩ := length_encodeOp_le h.royaltyOk
  have hdata : opReturnData out.scriptPubkey = some (encodeOp op) := by
    rw [hscript]
    exact opReturnData_opReturnScript (by omega) (by omega)
  exact extractAssetOp_of_first houtputs hbefore hdata hdecode

/-- A transfer in the second output. -/
theorem assetOp_round_trip_transfer :
    let op := AssetOp.transfer ⟨Hash256.zero, 5, 0⟩
    extractAssetOp ⟨Hash256.zero, [], [⟨1000, []⟩, ⟨0, opReturnScript (encodeOp op)⟩], []⟩
      = some op := by
  intro op
  apply (assetOp_round_trip op trivial).2 _ [⟨1000, []⟩] [] ⟨0, _⟩ rfl _ rfl
  intro other hother data hdata
  obtain rfl := List.mem_singleton.mp hother
  cases hdata

end Assets

end Tensorium
