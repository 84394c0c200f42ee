import Mathlib.Data.Fin.VecNotation
import Tensorium.Lib.ByteCodec

/-! # BLAKE2b

    The unkeyed hash of RFC 7693: the mixing function G, the compression
    function F, and the hash of a message that is padded with zeros to whole
    blocks of 128 bytes. The last rules read a message from an offset on, block
    by block, as an implementation does.
-/

namespace Blake2b

open ByteCodec

/-- The words of a block and of the work vector. -/
abbrev blockWords : Nat := 16

/-- The words of the state between two blocks. -/
abbrev stateWords : Nat := 8

/-- The indices into a block are written as literals. -/
local instance neZero_blockWords : NeZero blockWords := ⟨by decide⟩

/-- `IV`. -/
def iv : Vector UInt64 stateWords :=
  .ofFn ![0x6a09e667f3bcc908, 0xbb67ae8584caa73b, 0x3c6ef372fe94f82b, 0xa54ff53a5f1d36f1,
    0x510e527fade682d1, 0x9b05688c2b3e6c1f, 0x1f83d9abfb41bd6b, 0x5be0cd19137e2179]

/-- `SIGMA`. -/
def sigma : Vector (Vector (Fin blockWords) blockWords) 10 :=
  .ofFn ![.ofFn ![0, 1, 2, 3, 4, 5, 6, 7, 8, 9, 10, 11, 12, 13, 14, 15],
    .ofFn ![14, 10, 4, 8, 9, 15, 13, 6, 1, 12, 0, 2, 11, 7, 5, 3],
    .ofFn ![11, 8, 12, 0, 5, 2, 15, 13, 10, 14, 3, 6, 7, 1, 9, 4],
    .ofFn ![7, 9, 3, 1, 13, 12, 11, 14, 2, 6, 5, 10, 4, 0, 15, 8],
    .ofFn ![9, 0, 5, 7, 2, 4, 10, 15, 14, 1, 11, 12, 6, 8, 3, 13],
    .ofFn ![2, 12, 6, 10, 0, 11, 8, 3, 4, 13, 7, 5, 15, 14, 1, 9],
    .ofFn ![12, 5, 1, 15, 14, 13, 4, 10, 0, 7, 6, 3, 9, 2, 8, 11],
    .ofFn ![13, 11, 7, 14, 12, 1, 3, 9, 5, 0, 15, 4, 8, 6, 2, 10],
    .ofFn ![6, 15, 14, 9, 11, 3, 0, 8, 12, 2, 13, 7, 1, 4, 10, 5],
    .ofFn ![10, 2, 8, 4, 7, 6, 1, 5, 15, 11, 9, 14, 3, 12, 13, 0]]

/-- `x >>> n`, the rotation to the right. -/
def rotateRight (x : UInt64) (n : Nat) : UInt64 := ⟨x.toBitVec.rotateRight n⟩

/-- G: mixes two words into four entries of the work vector. -/
def mix (v : Vector UInt64 blockWords) (a b c d : Fin blockWords) (x y : UInt64) :
    Vector UInt64 blockWords :=
  let v := v.set a (v[a] + v[b] + x)
  let v := v.set d (rotateRight (v[d] ^^^ v[a]) 32)
  let v := v.set c (v[c] + v[d])
  let v := v.set b (rotateRight (v[b] ^^^ v[c]) 24)
  let v := v.set a (v[a] + v[b] + y)
  let v := v.set d (rotateRight (v[d] ^^^ v[a]) 16)
  let v := v.set c (v[c] + v[d])
  v.set b (rotateRight (v[b] ^^^ v[c]) 63)

/-- One round of F, with the message schedule of the round. -/
def round (m v : Vector UInt64 blockWords) (s : Vector (Fin blockWords) blockWords) :
    Vector UInt64 blockWords :=
  let v := mix v 0 4 8 12 m[s[0]] m[s[1]]
  let v := mix v 1 5 9 13 m[s[2]] m[s[3]]
  let v := mix v 2 6 10 14 m[s[4]] m[s[5]]
  let v := mix v 3 7 11 15 m[s[6]] m[s[7]]
  let v := mix v 0 5 10 15 m[s[8]] m[s[9]]
  let v := mix v 1 6 11 12 m[s[10]] m[s[11]]
  let v := mix v 2 7 8 13 m[s[12]] m[s[13]]
  mix v 3 4 9 14 m[s[14]] m[s[15]]

/-- The work vector F starts from. -/
def workVector (h : Vector UInt64 stateWords) (t : Nat) (f : Bool) : Vector UInt64 blockWords :=
  let v : Vector UInt64 blockWords := h ++ iv
  let v := v.set 12 (v[12] ^^^ UInt64.ofNat t)
  let v := v.set 13 (v[13] ^^^ UInt64.ofNat (t / 2 ^ 64))
  if f then v.set 14 (v[14] ^^^ 0xffffffffffffffff) else v

/-- F: compresses a block at offset counter `t`; `f` marks the last one. -/
def compress (h : Vector UInt64 stateWords) (m : Vector UInt64 blockWords) (t : Nat) (f : Bool) :
    Vector UInt64 stateWords :=
  let v := (List.range 12).foldl (fun v i => round m v (sigma.get (Fin.ofNat 10 i)))
    (workVector h t f)
  Vector.ofFn fun i => h.get i ^^^ v.get (i.castAdd stateWords) ^^^ v.get (i.natAdd stateWords)

/-- Word `i` of a block: eight bytes, least significant first. -/
def word (block : List UInt8) (i : Nat) : UInt64 :=
  UInt64.ofNat (leNat ((block.drop (8 * i)).take 8))

def words (block : List UInt8) : Vector UInt64 blockWords := Vector.ofFn fun i => word block i

/-- The state before the first block, for a digest of `nn` bytes and no key. -/
def initial (nn : Nat) : Vector UInt64 stateWords :=
  iv.set 0 (iv[0] ^^^ 0x01010000 ^^^ UInt64.ofNat nn)

/-- `dd`, the number of blocks; the empty message has one. -/
def blockCount (ll : Nat) : Nat := max 1 ((ll + 127) / 128)

/-- `d[i]`, block `i` of the message padded with zeros to whole blocks. -/
def block (data : List UInt8) (i : Nat) : Vector UInt64 blockWords :=
  let padded := data ++ List.replicate (128 * blockCount data.length - data.length) 0
  words ((padded.drop (128 * i)).take 128)

/-- The unkeyed hash, with a digest of `nn` bytes. -/
def hash (nn : Nat) (data : List UInt8) : List UInt8 :=
  let dd := blockCount data.length
  let h := (List.range (dd - 1)).foldl
    (fun h i => compress h (block data i) ((i + 1) * 128) false) (initial nn)
  let h := compress h (block data (dd - 1)) data.length true
  (h.toList.flatMap fun w => leBytes 8 w.toNat).take nn

theorem length_hash {nn : Nat} (h : nn ≤ 64) (data : List UInt8) :
    (hash nn data).length = nn := by
  simp [hash, List.length_flatMap]
  omega

end Blake2b
