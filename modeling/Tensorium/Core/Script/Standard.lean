import Tensorium.Core.Script.Vm

/-! # Standard scripts

    The scripts of `script/standard.rs` that the block builder, the wallet and
    the indexer need.
-/

namespace Tensorium.Script

/-- `p2pkh_script`. -/
def p2pkhScript (hash20 : Bytes) : Bytes := [0x76, 0xa9, 0x14] ++ hash20 ++ [0x88, 0xac]

/-- `ADDRESS_HRP`. -/
def addressHrp : String := "txm"

/-- `p2pkh_from_address`. -/
def p2pkhFromAddress (P : Primitives) (addr : String) : Except ScriptError Bytes :=
  match P.bech32Decode addr with
  | none => .error .invalidAddress
  | some (hrp, data) =>
    if hrp ≠ addressHrp then .error .invalidAddress
    else match P.fromBase32 data with
      | none => .error .invalidAddress
      | some hash20 =>
        if hash20.length ≠ 20 then .error .invalidAddress else .ok (p2pkhScript hash20)

/-- `p2pkh_from_pubkey`. -/
def p2pkhFromPubkey (P : Primitives) (pubkeyBytes : Bytes) : Bytes :=
  p2pkhScript ((P.sha256 pubkeyBytes).bytes.take 20)

/-- `p2pkh_script_sig`. The lengths are cast to `u8`. -/
def p2pkhScriptSig (derSig pubkey : Bytes) : Bytes :=
  UInt8.ofNat derSig.length :: derSig ++ UInt8.ofNat pubkey.length :: pubkey

/-! ## Addresses -/

/-- `P2SH_HRP`. -/
def p2shHrp : String := "txms"

/-- `extract_p2sh_hash`. -/
def extractP2shHash (spk : Bytes) : Option Bytes :=
  if isP2sh spk then some ((spk.drop 2).take 20) else none

/-- The pattern `extract_address` recognises as P2PKH. -/
def isP2pkh (spk : Bytes) : Bool :=
  spk.length == 25 && spk[0]? == some 0x76 && spk[1]? == some 0xa9 && spk[2]? == some 0x14
    && spk[23]? == some 0x88 && spk[24]? == some 0xac

/-- `extract_address`; `encode` is `bech32::encode` of the base-32 form of some
    bytes, which fails for an invalid human-readable part only. -/
def extractAddress (encode : String → Bytes → String) (spk : Bytes) : Option String :=
  match extractP2shHash spk with
  | some hash20 => some (encode p2shHrp hash20)
  | none => if isP2pkh spk then some (encode addressHrp ((spk.drop 3).take 20)) else none

/-- An unspendable output carries no address. -/
theorem extractAddress_opReturn (encode : String → Bytes → String) {spk : Bytes}
    (h : spk.head? = some opReturnByte) : extractAddress encode spk = none := by
  obtain ⟨rest, rfl⟩ := List.head?_eq_some_iff.mp h
  simp [extractAddress, extractP2shHash, isP2sh, isP2pkh, opReturnByte]

end Tensorium.Script
