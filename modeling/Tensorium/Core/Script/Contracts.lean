import Tensorium.Lib.Panicking
import Tensorium.Core.Script.Standard

/-! # Contract scripts

    The multisig, P2SH, HTLC and time-lock scripts of `script/standard.rs`, and the
    scriptSigs that spend them. Arrays of the source carry their length in their
    type; assertions are panics, those of debug builds left out.
-/

namespace Tensorium.Script

open ByteCodec Panicking

/-- `[u8; n]`. -/
abbrev ByteVec (n : Nat) : Type := {bytes : Bytes // bytes.length = n}

/-! ## Multisig and P2SH -/

/-- `p2sh_script`, of a hash that has its twenty bytes. -/
def p2shScript (hash20 : Bytes) : Bytes := [0xa9, 0x14] ++ hash20 ++ [0x87]

/-- `p2sh_script_from_redeem`. -/
def p2shScriptFromRedeem (P : Primitives) (redeemScript : Bytes) : Bytes :=
  p2shScript ((P.sha256 redeemScript).bytes.take 20)

/-- Data behind its length, which is cast to `u8`. -/
def lengthPrefixed (data : Bytes) : Bytes := UInt8.ofNat data.length :: data

/-- `multisig_script_sig`. -/
def multisigScriptSig (sigs : List Bytes) : Bytes := sigs.flatMap lengthPrefixed

/-- `p2sh_multisig_script_sig`. -/
def p2shMultisigScriptSig (sigs : List Bytes) (redeemScript : Bytes) : MayPanic Bytes := do
  let s := sigs.flatMap lengthPrefixed
  let rlen := redeemScript.length
  if rlen ≤ 0x4b then return s ++ UInt8.ofNat rlen :: redeemScript
  assert (rlen ≤ 0xff)
  return s ++ 0x4c :: UInt8.ofNat rlen :: redeemScript

/-- `multisig_script`. -/
def multisigScript (m : UInt8) (pubkeys : List Bytes) : Except ScriptError Bytes :=
  let n := pubkeys.length
  if m = 0 ∨ n = 0 ∨ m.toNat > n ∨ n > 16 then .error .invalidKey
  else if pubkeys.any fun pk => pk.length != 33 then .error .invalidKey
  else .ok ([0x51 - 1 + m] ++ pubkeys.flatMap (fun pk => 0x21 :: pk)
    ++ [0x51 - 1 + UInt8.ofNat n, 0xae])

/-! ## Time locks -/

/-- The loop of `encode_locktime`: zeros at the end are left out, down to one byte. -/
def minimalLen (bytes : Bytes) : Nat → Nat
  | 0 => 0
  | len + 1 => if len + 1 > 1 ∧ bytes[len]? = some 0 then minimalLen bytes len else len + 1

/-- `encode_locktime`. -/
def encodeLocktime (locktime : UInt64) : Bytes :=
  let bytes := leBytes 8 locktime.toNat
  bytes.take (minimalLen bytes 8)

/-- `cltv_p2pkh_script`. -/
def cltvP2pkhScript (locktime : UInt64) (hash20 : ByteVec 20) : Bytes :=
  let lt := encodeLocktime locktime
  [UInt8.ofNat lt.length] ++ lt ++ [0xb1, 0x75, 0x76, 0xa9, 0x14] ++ hash20.1 ++ [0x88, 0xac]

/-! ## Hash time-locked contracts -/

/-- `htlc_script`. -/
def htlcScript (hash : ByteVec 32) (recipientHash refundHash : ByteVec 20) (locktime : UInt64) :
    Bytes :=
  let lt := encodeLocktime locktime
  [0x63, 0xa8, 0x20] ++ hash.1 ++ [0x88, 0x76, 0xa9, 0x14] ++ recipientHash.1 ++ [0x88, 0xac]
    ++ [0x67, UInt8.ofNat lt.length] ++ lt ++ [0xb1, 0x75, 0x76, 0xa9, 0x14] ++ refundHash.1
    ++ [0x88, 0xac, 0x68]

/-- `htlc_claim_script_sig`. -/
def htlcClaimScriptSig (derSig pubkey preimage : Bytes) : MayPanic Bytes := do
  assert (preimage.length ≤ 75)
  return lengthPrefixed derSig ++ lengthPrefixed pubkey ++ lengthPrefixed preimage ++ [0x51]

/-- `htlc_refund_script_sig`. -/
def htlcRefundScriptSig (derSig pubkey : Bytes) : Bytes :=
  lengthPrefixed derSig ++ lengthPrefixed pubkey ++ [0x00]

end Tensorium.Script
