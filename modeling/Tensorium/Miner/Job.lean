import Tensorium.Miner.TensorHash

/-! # Jobs of the miner

    `JobDesc` and the constants of `common.h`, the header of `build_header` in
    `solo_client.cpp`, and the check of a found nonce on the host in
    `gpu_worker.cu`. A `char` array is the C string it holds.
-/

namespace Tensorium.Miner

open ByteCodec

/-- `JOB_ID_LEN`. -/
def jobIdLen : Nat := 48

/-- `CHAIN_ID_LEN`. -/
def chainIdLen : Nat := 64

/-- `HEADER_MAX`. -/
def headerMax : Nat := 192

structure JobDesc where
  jobId : Bytes
  chainId : Bytes
  height : UInt64
  previousHash : Hash256
  merkleRoot : Hash256
  epochSeed : Hash256
  timestamp : UInt64
  difficultyBits : UInt8
  shareBits : UInt8
  version : UInt64
  valid : Bool
  deriving DecidableEq

/-- `memset(&job, 0, sizeof(job))`. -/
def JobDesc.cleared : JobDesc where
  jobId := []
  chainId := []
  height := 0
  previousHash := .zero
  merkleRoot := .zero
  epochSeed := .zero
  timestamp := 0
  difficultyBits := 0
  shareBits := 0
  version := 0
  valid := false

/-- The loop of `share_bits_from_diff`; 64 halvings empty the word. -/
def shareBitsLoop : Nat → UInt64 → UInt8 → UInt8
  | 0, _, bits => bits
  | n + 1, diff, bits => if diff > 1 then shareBitsLoop n (diff >>> 1) (bits + 1) else bits

/-- `share_bits_from_diff`. -/
def shareBitsFromDiff (diff : UInt64) : UInt8 := shareBitsLoop 64 diff 0

/-! ## The header -/

/-- The bytes `write_le32` writes. -/
def le32Bytes : Nat → UInt32 → Bytes
  | 0, _ => []
  | n + 1, v => v.toUInt8 :: le32Bytes n (v >>> 8)

/-- `build_header`; no bytes stand for the return value zero. -/
def buildHeader (job : JobDesc) (nonce : UInt64) : Bytes :=
  let cidLen := job.chainId.length
  if cidLen ≤ 0 then []
  else
    let total := 4 + cidLen + 8 + 32 + 32 + 8 + 1 + 8
    if total > headerMax then []
    else
      le32Bytes 4 job.version.toUInt32 ++ job.chainId ++ le64Bytes 8 job.height
        ++ job.previousHash.bytes ++ job.merkleRoot.bytes ++ le64Bytes 8 job.timestamp
        ++ [job.difficultyBits] ++ le64Bytes 8 nonce

/-! ## The check on the host -/

/-- `while (!(x & 0x80)) { bits++; x <<= 1; }`; a byte that is not zero has at most
    seven zeros to shift out. -/
def byteZerosLoop : Nat → UInt32 → Nat → Nat
  | 0, _, bits => bits
  | n + 1, x, bits => if x &&& 0x80 = 0 then byteZerosLoop n (x <<< 1) (bits + 1) else bits

/-- The loop of `host_leading_zero_bits`. -/
def hostLeadingZeroBitsLoop : Bytes → Nat → Nat
  | [], bits => bits
  | b :: bs, bits =>
    if b = 0 then hostLeadingZeroBitsLoop bs (bits + 8) else byteZerosLoop 7 b.toUInt32 bits

/-- `host_leading_zero_bits`. -/
def hostLeadingZeroBits (hash : Bytes) : Nat := hostLeadingZeroBitsLoop hash 0

/-- `verify_share`, with the proof-of-work hash of the host as an argument: it takes
    the header without the nonce, the nonce and the seed. -/
def verifyShare (hostHash : Bytes → UInt64 → Bytes → Bytes) (job : JobDesc) (nonce : UInt64) :
    Nat :=
  let header := buildHeader job nonce
  let hlen := header.length
  if hlen ≤ 8 then 0
  else hostLeadingZeroBits (hostHash (header.take (hlen - 8)) nonce job.epochSeed.bytes)

/-- What a GPU worker makes of a nonce the kernel found: `is_share` and `is_block`. -/
def judge (hostHash : Bytes → UInt64 → Bytes → Bytes) (job : JobDesc) (nonce : UInt64) :
    Bool × Bool :=
  let zeros := verifyShare hostHash job nonce
  (decide (zeros ≥ job.shareBits.toNat), decide (zeros ≥ job.difficultyBits.toNat))

structure ShareResult where
  jobId : Bytes
  nonce : UInt64
  isBlock : Bool
  deriving DecidableEq

/-- The share a GPU worker pushes for a nonce the kernel found; `none` when the host
    does not confirm it. -/
def shareOf (hostHash : Bytes → UInt64 → Bytes → Bytes) (job : JobDesc) (nonce : UInt64) :
    Option ShareResult :=
  let (isShare, isBlock) := judge hostHash job nonce
  if isShare || isBlock then some ⟨job.jobId.take (jobIdLen - 1), nonce, isBlock⟩ else none

theorem shareOf_spec {hostHash : Bytes → UInt64 → Bytes → Bytes} {desc : JobDesc}
    {nonce : UInt64} {share : ShareResult}
    (h : shareOf hostHash desc nonce = some share) :
    share.jobId = desc.jobId.take (jobIdLen - 1) ∧ share.nonce = nonce := by
  unfold shareOf at h
  dsimp only at h
  split_ifs at h with hfound
  rw [← Option.some.inj h]
  exact ⟨rfl, rfl⟩

end Tensorium.Miner
