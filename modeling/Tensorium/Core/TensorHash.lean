import Tensorium.Core.Hash

/-! # TensorHash v1

    The memory-hard proof-of-work hash of the `tensorium-tensorhash` crate,
    over the Blake2b-256 of `Primitives`.
-/

namespace Tensorium.TensorHash

open ByteCodec

/-- `DATASET_N`. -/
def datasetN : Nat := 600000000

/-- `EPOCH_LENGTH`. -/
def epochLength : Nat := 8192

/-- `K`, the number of dataset lookups of one attempt. -/
def lookups : Nat := 32

/-- `dataset_element`. -/
def datasetElement (P : Primitives) (epochSeed : Hash256) (index : Nat) : Hash256 :=
  P.blake2b256 (epochSeed.bytes ++ leBytes 8 index)

/-- `bytes_to_u64x4`. -/
def bytesToU64x4 (bytes : Bytes) : Vector UInt64 4 :=
  Vector.ofFn fun i => UInt64.ofNat (leNat ((bytes.drop (8 * i.val)).take 8))

/-- `u64x4_to_bytes`. -/
def u64x4ToBytes (words : Vector UInt64 4) : Bytes :=
  words.toList.flatMap fun w => leBytes 8 w.toNat

/-- `u64::rotate_left(13)`. -/
def rotateLeft13 (x : UInt64) : UInt64 := (x <<< 13) ||| (x >>> 51)

/-- The multiply-rotate-add step that folds one dataset element into the
    accumulator. -/
def tensorMix (acc elem : Vector UInt64 4) : Vector UInt64 4 :=
  Vector.ofFn fun m => acc.get m * (elem.get m ||| 1) + rotateLeft13 (elem.get (m + 1))

/-- `pow_hash`. -/
def powHash (P : Primitives) (headerBytes : Bytes) (nonce : UInt64) (epochSeed : Hash256) :
    Hash256 :=
  let nonceBytes := leBytes 8 nonce.toNat
  let digest := P.blake2b256 (headerBytes ++ nonceBytes)
  let acc := (List.range lookups).foldl (fun acc j =>
    let idxSeed := P.blake2b256 (digest.bytes ++ leBytes 8 j)
    let idx := leNat (idxSeed.bytes.take 8) % datasetN
    tensorMix acc (bytesToU64x4 (datasetElement P epochSeed idx).bytes))
    (bytesToU64x4 digest.bytes)
  P.blake2b256 (headerBytes ++ nonceBytes ++ u64x4ToBytes acc)

end Tensorium.TensorHash

namespace Tensorium

/-- The computable primitives with a proof-of-work digest that meets every target
    for a nonce that 256 divides, and is `digest` for any other. -/
def Primitives.byNonce (digest : Hash256) : Primitives :=
  { Primitives.sample with
    blake2b256 := fun bytes =>
      if bytes.reverse[39]? = some 0 then ⟨List.replicate 31 0 ++ [1], by decide⟩ else digest }

end Tensorium
