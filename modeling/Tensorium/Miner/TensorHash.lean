import Tensorium.Core.TensorHash
import Tensorium.Lib.Blake2b

/-! # The TensorHash of the miner

    `blake2b.cuh`, `host_tensorhash.cpp` and `tensorhash.cuh`. A pointer is the
    bytes from where it points on, and a local array without an initialiser is an
    argument, since it may hold anything. Host and device differ in where a
    dataset element comes from: the host hashes it, the device loads it.
-/

namespace Tensorium.Miner

open ByteCodec

/-! ## Bytes in memory -/

/-- `TH_PREFIX_MAX`. -/
def thPrefixMax : Nat := 184

/-- `TH_DATASET_N`. -/
def thDatasetN : Nat := 600000000

/-- `TH_K`. -/
def thK : Nat := 32

/-- `for (int k = 7; k >= 0; k--) w = (w << 8) | b[off + k];`, also `le64_load`. -/
def le64Load (b : Bytes) (off : Nat) : UInt64 :=
  [7, 6, 5, 4, 3, 2, 1, 0].foldl (fun w k => (w <<< 8) ||| (b.getD (off + k) 0).toUInt64) 0

/-- Copies `bytes` to `b + off`, one after the other. -/
def storeBytes (b : Bytes) (off : Nat) : Bytes → Bytes
  | [] => b
  | byte :: bytes => storeBytes (b.set off byte) (off + 1) bytes

/-- The bytes `le64_store` writes: `(uint8_t)v; v >>= 8;`. -/
def le64Bytes : Nat → UInt64 → Bytes
  | 0, _ => []
  | n + 1, v => v.toUInt8 :: le64Bytes n (v >>> 8)

/-- `le64_store`. -/
def le64Store (b : Bytes) (off : Nat) (v : UInt64) : Bytes := storeBytes b off (le64Bytes 8 v)

/-! ## blake2b.cuh -/

/-- `TH_B2B_IV_INIT`. -/
def thB2bIv : Vector UInt64 8 :=
  #v[0x6a09e667f3bcc908, 0xbb67ae8584caa73b,
    0x3c6ef372fe94f82b, 0xa54ff53a5f1d36f1,
    0x510e527fade682d1, 0x9b05688c2b3e6c1f,
    0x1f83d9abfb41bd6b, 0x5be0cd19137e2179]

/-- `TH_B2B_SIGMA_INIT`. -/
def thB2bSigma : Vector (Vector (Fin 16) 16) 12 :=
  #v[#v[0, 1, 2, 3, 4, 5, 6, 7, 8, 9, 10, 11, 12, 13, 14, 15],
    #v[14, 10, 4, 8, 9, 15, 13, 6, 1, 12, 0, 2, 11, 7, 5, 3],
    #v[11, 8, 12, 0, 5, 2, 15, 13, 10, 14, 3, 6, 7, 1, 9, 4],
    #v[7, 9, 3, 1, 13, 12, 11, 14, 2, 6, 5, 10, 4, 0, 15, 8],
    #v[9, 0, 5, 7, 2, 4, 10, 15, 14, 1, 11, 12, 6, 8, 3, 13],
    #v[2, 12, 6, 10, 0, 11, 8, 3, 4, 13, 7, 5, 15, 14, 1, 9],
    #v[12, 5, 1, 15, 14, 13, 4, 10, 0, 7, 6, 3, 9, 2, 8, 11],
    #v[13, 11, 7, 14, 12, 1, 3, 9, 5, 0, 15, 4, 8, 6, 2, 10],
    #v[6, 15, 14, 9, 11, 3, 0, 8, 12, 2, 13, 7, 1, 4, 10, 5],
    #v[10, 2, 8, 4, 7, 6, 1, 5, 15, 11, 9, 14, 3, 12, 13, 0],
    #v[0, 1, 2, 3, 4, 5, 6, 7, 8, 9, 10, 11, 12, 13, 14, 15],
    #v[14, 10, 4, 8, 9, 15, 13, 6, 1, 12, 0, 2, 11, 7, 5, 3]]

/-- `th_rotr64`. -/
def thRotr64 (x n : UInt64) : UInt64 := (x >>> n) ||| (x <<< (64 - n))

/-- `TH_G`. -/
def thG (v : Vector UInt64 16) (a b c d : Fin 16) (x y : UInt64) : Vector UInt64 16 :=
  let v := v.set a (v[a] + v[b] + x)
  let v := v.set d (thRotr64 (v[d] ^^^ v[a]) 32)
  let v := v.set c (v[c] + v[d])
  let v := v.set b (thRotr64 (v[b] ^^^ v[c]) 24)
  let v := v.set a (v[a] + v[b] + y)
  let v := v.set d (thRotr64 (v[d] ^^^ v[a]) 16)
  let v := v.set c (v[c] + v[d])
  v.set b (thRotr64 (v[b] ^^^ v[c]) 63)

/-- The body of the loop over the rounds in `th_blake2b_compress`. -/
def thRound (m v : Vector UInt64 16) (r : Nat) : Vector UInt64 16 :=
  let s := thB2bSigma.get (Fin.ofNat 12 r)
  let v := thG v 0 4 8 12 m[s[0]] m[s[1]]
  let v := thG v 1 5 9 13 m[s[2]] m[s[3]]
  let v := thG v 2 6 10 14 m[s[4]] m[s[5]]
  let v := thG v 3 7 11 15 m[s[6]] m[s[7]]
  let v := thG v 0 5 10 15 m[s[8]] m[s[9]]
  let v := thG v 1 6 11 12 m[s[10]] m[s[11]]
  let v := thG v 2 7 8 13 m[s[12]] m[s[13]]
  thG v 3 4 9 14 m[s[14]] m[s[15]]

/-- The work vector of `th_blake2b_compress` before the rounds. -/
def thWorkVector (h : Vector UInt64 8) (t : UInt64) (last : Bool) : Vector UInt64 16 :=
  let v : Vector UInt64 16 := Vector.ofFn fun i =>
    if hi : i.val < 8 then h[i.val] else thB2bIv[i.val - 8]
  -- The upper half of the counter is zero for the lengths in use.
  let v := v.set 12 (v[12] ^^^ t)
  if last then v.set 14 (~~~ v[14]) else v

/-- `th_blake2b_compress`. -/
def thBlake2bCompress (h : Vector UInt64 8) (block : Bytes) (t : UInt64) (last : Bool) :
    Vector UInt64 8 :=
  let m : Vector UInt64 16 := Vector.ofFn fun i => le64Load block (i * 8)
  let v := (List.range 12).foldl (thRound m) (thWorkVector h t last)
  Vector.ofFn fun i => h[i] ^^^ (v[i.val] ^^^ v[8 + i.val])

/-- The loop over the full blocks of `th_blake2b256`. -/
def thAbsorb (data : Bytes) (len : Nat) (h : Vector UInt64 8) (off : Nat) :
    Vector UInt64 8 × Nat :=
  if len - off > 128 then
    thAbsorb data len (thBlake2bCompress h (data.drop off) (UInt64.ofNat off + 128) false)
      (off + 128)
  else (h, off)
termination_by len - off
decreasing_by omega

/-- `th_blake2b256`; what it writes to `out`. -/
def thBlake2b256 (data : Bytes) (len : Nat) : Bytes :=
  let h := thB2bIv.set 0 (thB2bIv[0] ^^^ (0x01010000 ^^^ 32))
  let (h, off) := thAbsorb data len h 0
  let rem := len - off
  let block := (List.range 128).map fun i => if i < rem then data.getD (off + i) 0 else 0
  let h := thBlake2bCompress h block (UInt64.ofNat len) true
  (List.range 32).map fun i =>
    (h.get (Fin.ofNat 8 (i / 8)) >>> UInt64.ofNat (8 * (i % 8))).toUInt8

/-! ## host_tensorhash.cpp and tensorhash.cuh -/

/-- `rotl64`. -/
def rotl64 (x n : UInt64) : UInt64 := (x <<< n) ||| (x >>> (64 - n))

/-- `host_dataset_element`. -/
def hostDatasetElement (buf : Vector UInt8 40) (seed : Bytes) (index : UInt64) : Bytes :=
  let buf := storeBytes buf.toList 0 seed
  let buf := le64Store buf 32 index
  thBlake2b256 buf 40

/-- `next[m] = acc[m] * (elem[m] | 1) + rotl64(elem[(m + 1) & 3], 13)`. -/
def nextAcc (acc elem : Vector UInt64 4) : Vector UInt64 4 :=
  Vector.ofFn fun m =>
    acc[m] * (elem[m] ||| 1) + rotl64 (elem.get ⟨(m.val + 1) &&& 3, Nat.lt_succ_of_le Nat.and_le_right⟩) 13

/-- The body `host_pow_hash` and `th_pow_hash_device` share; `element` is where
    they get a dataset element from. -/
def powHashWith (element : UInt64 → Vector UInt64 4)
    (buf : Vector UInt8 (thPrefixMax + 8 + 32)) (ibuf : Vector UInt8 40) (headerBytes : Bytes)
    (nonce : UInt64) : Bytes :=
  let prefixLen := headerBytes.length
  let buf := storeBytes buf.toList 0 headerBytes
  let buf := le64Store buf prefixLen nonce
  let digest := thBlake2b256 buf (prefixLen + 8)
  let acc : Vector UInt64 4 := Vector.ofFn fun m => le64Load digest (m * 8)
  let ibuf := storeBytes ibuf.toList 0 digest
  let (acc, _) := (List.range thK).foldl (fun (acc, ibuf) j =>
    let ibuf := le64Store ibuf 32 (UInt64.ofNat j)
    let iseed := thBlake2b256 ibuf 40
    let idx := le64Load iseed 0 % UInt64.ofNat thDatasetN
    (nextAcc acc (element idx), ibuf)) (acc, ibuf)
  -- `buf` still holds the header and the nonce.
  let buf := (List.finRange 4).foldl (fun buf m =>
    le64Store buf (prefixLen + 8 + m.val * 8) (acc.get m)) buf
  thBlake2b256 buf (prefixLen + 8 + 32)

/-- `host_pow_hash`. -/
def hostPowHash (buf : Vector UInt8 (thPrefixMax + 8 + 32)) (ibuf elementBuf : Vector UInt8 40)
    (headerBytes : Bytes) (nonce : UInt64) (seed : Bytes) : Bytes :=
  powHashWith (fun idx =>
      let elemBytes := hostDatasetElement elementBuf seed idx
      Vector.ofFn fun m => le64Load elemBytes (m * 8))
    buf ibuf headerBytes nonce

/-- `__ldg` of a `uint64_t` on a little-endian machine. -/
def ldg (memory : Nat → UInt8) (address : Nat) : UInt64 :=
  UInt64.ofNat (leNat ((List.range 8).map fun k => memory (address + k)))

/-- `th_pow_hash_device`; `dataset` is the memory from the pointer on. -/
def thPowHashDevice (dataset : Nat → UInt8) (buf : Vector UInt8 (thPrefixMax + 8 + 32))
    (ibuf : Vector UInt8 40) (headerBytes : Bytes) (nonce : UInt64) : Bytes :=
  powHashWith (fun idx => Vector.ofFn fun m => ldg dataset (idx.toNat * 32 + m * 8))
    buf ibuf headerBytes nonce

end Tensorium.Miner
