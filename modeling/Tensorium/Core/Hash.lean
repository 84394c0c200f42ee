import Tensorium.Lib.ByteCodec

/-! # Hashes and the primitives behind them

    `Hash256` is the 32-byte digest of `hash.rs`. The digest functions, the
    ECDSA operations and the bech32 codec come from other crates (`sha2`,
    `blake2`, `k256`, `bech32`); they are the fields of `Primitives`, and
    everything downstream takes a `Primitives` as its first argument.
-/

namespace Tensorium

/-- Byte strings (`Vec<u8>`, `&[u8]`). -/
abbrev Bytes : Type := List UInt8

/-- The UTF-8 bytes of a string (`str::as_bytes`). -/
def asBytes (s : String) : Bytes := s.toUTF8.data.toList

/-- A 32-byte digest. -/
@[ext] structure Hash256 where
  bytes : Bytes
  size  : bytes.length = 32
  deriving DecidableEq

namespace Hash256

/-- `Hash256::ZERO`. -/
def zero : Hash256 := ⟨List.replicate 32 0, by simp⟩

/-- `u8::leading_zeros`. -/
def byteLeadingZeros (b : UInt8) : Nat :=
  if b = 0 then 8 else 7 - Nat.log2 b.toNat

/-- The loop of `Hash256::leading_zero_bits`: whole zero bytes count eight,
    the first other byte contributes its own leading zeros and ends the loop. -/
def leadingZeroBitsLoop : Bytes → Nat → Nat
  | [], bits => bits
  | b :: bs, bits =>
    if b = 0 then leadingZeroBitsLoop bs (bits + 8) else bits + byteLeadingZeros b

/-- `Hash256::leading_zero_bits`. -/
def leadingZeroBits (h : Hash256) : Nat := leadingZeroBitsLoop h.bytes 0

/-- `Hash256::to_hex`. -/
def toHex (h : Hash256) : String := ByteCodec.hexEncode h.bytes

theorem toHex_injective : Function.Injective toHex :=
  fun _ _ h => Hash256.ext (ByteCodec.hexEncode_injective h)

theorem toHex_ne_empty (h : Hash256) : h.toHex ≠ "" := by
  intro heq
  have hdecode := ByteCodec.hexDecode_hexEncode h.bytes
  rw [show ByteCodec.hexEncode h.bytes = "" from heq] at hdecode
  have hnil : h.bytes = [] := (Option.some.inj hdecode).symm
  have hsize := h.size
  rw [hnil] at hsize
  cases hsize

end Hash256

/-- The operations the crate takes from its dependencies. -/
structure Primitives where
  /-- `sha2::Sha256::digest`. -/
  sha256 : Bytes → Hash256
  /-- `blake2::Blake2b<U32>` of the concatenation of its updates. -/
  blake2b256 : Bytes → Hash256
  /-- `k256::ecdsa::VerifyingKey`. -/
  VerifyingKey : Type
  /-- `k256::ecdsa::Signature`. -/
  Signature : Type
  /-- `VerifyingKey::from_sec1_bytes`. -/
  fromSec1Bytes : Bytes → Option VerifyingKey
  /-- `Signature::from_der`. -/
  fromDer : Bytes → Option Signature
  /-- `Verifier::verify` of a key on a message and a signature. -/
  verify : VerifyingKey → Bytes → Signature → Bool
  /-- `bech32::decode`: the human-readable part and the base-32 digits. -/
  bech32Decode : String → Option (String × List UInt8)
  /-- `Vec::<u8>::from_base32`. -/
  fromBase32 : List UInt8 → Option Bytes

/-- `Hash256::double_sha256`. -/
def Primitives.doubleSha256 (P : Primitives) (bytes : Bytes) : Hash256 :=
  P.sha256 (P.sha256 bytes).bytes

/-! ## A computable instance

    Used to run the model on concrete inputs. Its digest keeps the last 32
    bytes of a string, which tells apart the few preimages such a run hashes;
    its proof-of-work digest meets every target; a signature is the key that
    made it followed by the signed message. -/

/-- The last 32 bytes of a string, padded with zeros on the left. -/
def Hash256.ofSuffix (bytes : Bytes) : Hash256 :=
  ⟨(List.replicate 32 0 ++ bytes).drop bytes.length, by
    rw [List.length_drop, List.length_append, List.length_replicate]
    omega⟩

def Primitives.sample : Primitives where
  sha256 := Hash256.ofSuffix
  blake2b256 := fun _ => Hash256.zero
  VerifyingKey := Bytes
  Signature := Bytes
  fromSec1Bytes := fun key => if key.length = 33 then some key else none
  fromDer := fun sig => if sig.isEmpty then none else some sig
  verify := fun key message sig => sig == key ++ message
  bech32Decode := fun addr => some ("txm", asBytes addr)
  fromBase32 := fun data => some ((Hash256.ofSuffix data).bytes.drop 12)

end Tensorium
