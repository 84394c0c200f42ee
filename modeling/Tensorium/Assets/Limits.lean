import Tensorium.Assets.Codec

/-! # The limits of a decoded operation

    The encoder cuts every text at its limit. The decoder takes texts of any
    counted length, and replaces what is not UTF-8: an operation it accepts may
    be one that the encoder cannot write.
-/

namespace Tensorium

open ByteCodec

namespace Assets

/-- The limits documented with the fields. -/
def ObeysLimits : AssetOp → Prop
  | .issue d => (asBytes d.ticker).length ≤ 8 ∧ (asBytes d.name).length ≤ 32
  | .nftMint d => d.royaltyBps ≤ 10000 ∧ (asBytes d.uri).length ≤ 200
  | .transfer _ => True

/-! ## The texts in a payload -/

/-- The bytes behind the length byte at an offset. -/
def countedAt (buf : Bytes) (i : Nat) : Bytes := (buf.drop (i + 1)).take (buf.getD i 0).toNat

/-- Bytes that are read as a text of at most so many bytes. -/
def Fits (limit : Nat) (raw : Bytes) : Prop := (asBytes (fromUtf8Lossy raw)).length ≤ limit

/-- Every text of a payload is read as one within its limit; the royalty address may
    also be one that is the same after a cut at its limit. -/
def FieldsFit (buf : Bytes) : Prop :=
  if buf.getD 5 0 = 0x01 then
    Fits 8 (countedAt buf 6) ∧ Fits 32 (countedAt buf ((countedAt buf 6).length + 16))
  else if buf.getD 5 0 = 0x02 then
    ReadsBack 90 (fromUtf8Lossy (countedAt buf 40)) ∧
      Fits 200 (countedAt buf ((countedAt buf 40).length + 41))
  else True

/-- Counted bytes are found behind what stands before them. -/
theorem countedAt_of_eq {buf raw : Bytes} {i : Nat} (front rest : Bytes)
    (hbuf : buf = front ++ (counted raw ++ rest)) (hi : front.length = i)
    (hraw : raw.length < 256) : countedAt buf i = raw := by
  have hlength : buf.getD i 0 = UInt8.ofNat raw.length := by
    rw [hbuf, ← hi, List.getD_eq_getElem?_getD, List.getElem?_append_right (Nat.le_refl _),
      Nat.sub_self]
    rfl
  have hdrop : buf.drop (i + 1) = raw ++ rest := by
    rw [hbuf, ← hi, ← List.drop_drop, List.drop_left]
    rfl
  unfold countedAt
  rw [hlength, toNat_byte hraw, hdrop, List.take_left]

/-! ## Encoding again -/

/-- An operation with a royalty that passes is encoded faithfully exactly if cutting
    its texts changes nothing. -/
theorem faithful_iff {op : AssetOp} (hroyalty : RoyaltyOk op) :
    decodeOp (encodeOp op) = .ok op ↔ stored op = op := by
  rw [decodeOp_encodeOp hroyalty, Except.ok.injEq]

theorem stored_issue_iff (d : IssueData) :
    stored (.issue d) = .issue d ↔ ReadsBack 8 d.ticker ∧ ReadsBack 32 d.name := by
  rw [← fromUtf8Lossy_take_iff, ← fromUtf8Lossy_take_iff]
  show AssetOp.issue { d with ticker := cut 8 d.ticker, name := cut 32 d.name } = _ ↔ _
  rw [AssetOp.issue.injEq]
  constructor
  · intro h
    exact ⟨congrArg IssueData.ticker h, congrArg IssueData.name h⟩
  · rintro ⟨hticker, hname⟩
    unfold cut
    rw [hticker, hname]

theorem stored_nftMint_iff (d : NftMintData) :
    stored (.nftMint d) = .nftMint d ↔ ReadsBack 90 d.royaltyAddr ∧ ReadsBack 200 d.uri := by
  rw [← fromUtf8Lossy_take_iff, ← fromUtf8Lossy_take_iff]
  show AssetOp.nftMint { d with royaltyAddr := cut 90 d.royaltyAddr, uri := cut 200 d.uri } = _ ↔ _
  rw [AssetOp.nftMint.injEq]
  constructor
  · intro h
    exact ⟨congrArg NftMintData.royaltyAddr h, congrArg NftMintData.uri h⟩
  · rintro ⟨haddr, huri⟩
    unfold cut
    rw [haddr, huri]

section Payload

variable {buf rest : Bytes}

/-- The texts of an issue, found in its payload. -/
theorem fieldsFit_issue {ticker name : Bytes} {decimals : UInt8} {supply : UInt64} {flags : UInt8}
    (hbuf : buf = magic ++ version :: ((0x01 :: (counted ticker ++ decimals
      :: (beBytes 8 supply.toNat ++ (counted name ++ [flags])))) ++ rest))
    (hticker : ticker.length < 256) (hname : name.length < 256) :
    FieldsFit buf ↔ Fits 8 ticker ∧ Fits 32 name := by
  have hopcode : buf.getD 5 0 = 0x01 := by
    rw [hbuf]
    rfl
  have htickerAt : countedAt buf 6 = ticker := by
    apply countedAt_of_eq (magic ++ [version, 0x01])
      (decimals :: (beBytes 8 supply.toNat ++ (counted name ++ flags :: rest))) _ rfl hticker
    rw [hbuf]
    simp
  -- Between the texts there are the decimals and the supply.
  have hnameAt : countedAt buf (ticker.length + 16) = name := by
    apply countedAt_of_eq
      (magic ++ [version, 0x01] ++ counted ticker ++ decimals :: beBytes 8 supply.toNat)
      (flags :: rest) _ _ hname
    · rw [hbuf]
      simp
    · have hfront : (magic ++ [version, 0x01]).length = 6 := rfl
      rw [List.length_append, List.length_append, hfront, List.length_cons, length_beBytes]
      unfold counted
      rw [List.length_cons]
      omega
  unfold FieldsFit
  rw [if_pos hopcode, htickerAt, hnameAt]

/-- The texts of a mint, found in its payload. -/
theorem fieldsFit_nftMint {addr uri : Bytes} {collectionId : Hash256} {royaltyBps : UInt16}
    {contentHash : Hash256}
    (hbuf : buf = magic ++ version :: ((0x02 :: (collectionId.bytes
      ++ (beBytes 2 royaltyBps.toNat ++ (counted addr ++ (counted uri ++ contentHash.bytes)))))
      ++ rest))
    (haddr : addr.length < 256) (huri : uri.length < 256) :
    FieldsFit buf ↔ ReadsBack 90 (fromUtf8Lossy addr) ∧ Fits 200 uri := by
  have hopcode : buf.getD 5 0 = 0x02 := by
    rw [hbuf]
    rfl
  have hfront : (magic ++ [version, 0x02] ++ collectionId.bytes
      ++ beBytes 2 royaltyBps.toNat).length = 40 := by
    rw [List.length_append, List.length_append, collectionId.size, length_beBytes]
    rfl
  have haddrAt : countedAt buf 40 = addr := by
    apply countedAt_of_eq _ (counted uri ++ (contentHash.bytes ++ rest)) _ hfront haddr
    rw [hbuf]
    simp
  have huriAt : countedAt buf (addr.length + 41) = uri := by
    apply countedAt_of_eq (magic ++ [version, 0x02] ++ collectionId.bytes
      ++ beBytes 2 royaltyBps.toNat ++ counted addr) (contentHash.bytes ++ rest) _ _ huri
    · rw [hbuf]
      simp
    · rw [List.length_append, hfront]
      unfold counted
      rw [List.length_cons]
      omega
  unfold FieldsFit
  rw [if_neg (by rw [hopcode]; decide), if_pos hopcode, haddrAt, huriAt]

/-- A transfer has no texts. -/
theorem fieldsFit_transfer {assetId : Hash256} {amount : UInt64} {dest : UInt8}
    (hbuf : buf = magic ++ version :: ((0x03 :: (assetId.bytes ++ (beBytes 8 amount.toNat
      ++ [dest]))) ++ rest)) : FieldsFit buf := by
  have hopcode : buf.getD 5 0 = 0x03 := by
    rw [hbuf]
    rfl
  unfold FieldsFit
  rw [if_neg (by rw [hopcode]; decide), if_neg (by rw [hopcode]; decide)]
  trivial

end Payload

/-- **The decoder checks no length.** What it makes of a payload obeys the documented
    limits and is encoded faithfully again if and only if every text of the payload
    is read as one within its limit. -/
theorem decoded_obeys_limits_iff {buf : Bytes} {op : AssetOp} (h : decodeOp buf = .ok op) :
    ObeysLimits op ∧ decodeOp (encodeOp op) = .ok op ↔ FieldsFit buf := by
  obtain ⟨_, body, rest, hbuf, hbody⟩ := decodeOp_eq_ok.mp h
  cases hbody with
  | @issue ticker name decimals supply flags hticker hname =>
    rw [fieldsFit_issue hbuf hticker hname, @faithful_iff (.issue _) trivial, stored_issue_iff]
    constructor
    · rintro ⟨hlimits, _⟩
      exact hlimits
    · intro hfits
      exact ⟨hfits, Or.inl hfits.1, Or.inl hfits.2⟩
  | @nftMint addr uri collectionId royaltyBps contentHash hroyalty haddr huri =>
    have hroyaltyOk : RoyaltyOk
        (.nftMint ⟨collectionId, royaltyBps, fromUtf8Lossy addr, fromUtf8Lossy uri, contentHash⟩) :=
      hroyalty
    rw [fieldsFit_nftMint hbuf haddr huri, faithful_iff hroyaltyOk, stored_nftMint_iff]
    constructor
    · rintro ⟨hlimits, hreads⟩
      exact ⟨hreads.1, hlimits.2⟩
    · rintro ⟨hreads, hfits⟩
      exact ⟨⟨hroyalty, hfits⟩, hreads, Or.inl hfits⟩
  | transfer assetId amount dest =>
    rw [@faithful_iff (.transfer _) trivial]
    exact iff_of_true ⟨trivial, rfl⟩ (fieldsFit_transfer hbuf)

/-! ## Tickers of any length -/

/-- An issue with a ticker of as many letters. -/
def issueNamed (n : Nat) : Bytes :=
  magic ++ version :: 0x01 :: (counted (List.replicate n 0x41) ++ 8 :: (beBytes 8 5
    ++ (counted [] ++ [0])))

theorem utf8_replicate (n : Nat) : utf8 (List.replicate n 'A') = List.replicate n 0x41 := by
  induction n with
  | zero => rfl
  | succ n ih =>
    rw [List.replicate_succ, List.replicate_succ, utf8_cons, ih]
    rfl

/-- The issue with a ticker of as many letters. -/
def issueOp (n : Nat) : AssetOp := .issue ⟨String.ofList (List.replicate n 'A'), 8, 5, "", 0⟩

theorem decodeOp_issueNamed {n : Nat} (h : n ≤ 255) :
    decodeOp (issueNamed n) = .ok (issueOp n) := by
  have hticker : (List.replicate n (0x41 : UInt8)).length < 256 := by
    rw [List.length_replicate]
    omega
  have hcarries := @Carries.issue (List.replicate n 0x41) [] 8 5 0 hticker (by decide)
  have hread : fromUtf8Lossy (List.replicate n 0x41) = String.ofList (List.replicate n 'A') := by
    rw [← utf8_replicate, fromUtf8Lossy_utf8]
  rw [hread] at hcarries
  refine decodeOp_eq_ok.mpr ⟨?_, _, [], ?_, hcarries⟩
  · have hlength : (issueNamed n).length = n + 18 := by
      have hmagic : magic.length = 4 := by decide
      simp only [issueNamed, counted, List.length_append, List.length_cons, List.length_replicate,
        List.length_nil, length_beBytes, hmagic]
      omega
    rw [hlength]
    show n + 18 ≤ 520
    omega
  · rw [List.append_nil]
    rfl

/-- A ticker of four letters is within its limit. -/
theorem decoded_obeys_limits_iff_four :
    ObeysLimits (issueOp 4) ∧ decodeOp (encodeOp (issueOp 4)) = .ok (issueOp 4) := by
  apply (decoded_obeys_limits_iff (decodeOp_issueNamed (by decide : 4 ≤ 255))).mpr
  have hticker : countedAt (issueNamed 4) 6 = utf8 (List.replicate 4 'A') := rfl
  have hname : countedAt (issueNamed 4) 20 = utf8 [] := rfl
  have hopcode : (issueNamed 4).getD 5 0 = 0x01 := rfl
  unfold FieldsFit Fits
  rw [if_pos hopcode, hticker]
  show _ ∧ (asBytes (fromUtf8Lossy (countedAt (issueNamed 4) 20))).length ≤ 32
  rw [hname, fromUtf8Lossy_utf8, fromUtf8Lossy_utf8]
  decide

/-- A ticker of nine letters is decoded. -/
theorem decoded_exceeds_limit :
    ∃ buf op, decodeOp buf = .ok op ∧ ¬ (ObeysLimits op ∧ decodeOp (encodeOp op) = .ok op) := by
  refine ⟨issueNamed 9, _, decodeOp_issueNamed (by decide), ?_⟩
  rintro ⟨⟨hticker, _⟩, _⟩
  dsimp only at hticker
  rw [asBytes_eq_utf8, String.toList_ofList, utf8_replicate, List.length_replicate] at hticker
  exact absurd hticker (by decide)

end Assets

end Tensorium
