import Tensorium.Lib.Quoted
import Tensorium.Miner.Job

/-! # The job message as the miner reads it

    The field extractors and `parse_notify` of `stratum_client.cpp`. A pointer
    into a line is the bytes from there to the terminator, and an extractor
    returns what it leaves in the caller's buffer.
-/

namespace Tensorium.Miner

open ByteCodec Quoted

/-! ## Field extractors -/

/-- `while (*p == ' ' || *p == ':') p++;`. -/
def skipColon (p : Bytes) : Bytes := p.dropWhile fun c => c = 0x20 || c = 0x3a

/-- `jstr`: the return value and the string left in the buffer of `len` bytes.
    `none`: the key is not there, and the buffer is untouched. -/
def jstr (json : Bytes) (key : String) (len : Nat) : Option (Bool × Bytes) :=
  let search := (quoted 0x22 (asBytes key)).take 127
  match findPast search json with
  | none => none
  | some p =>
    match skipColon p with
    | 0x22 :: p => some (true, (p.takeWhile fun c => c ≠ 0x22).take (len - 1))
    | p =>
      let out := (p.takeWhile fun c => c ≠ 0x2c && c ≠ 0x7d && c ≠ 0x5d).take (len - 1)
      some (!out.isEmpty, out)

/-- `isspace` in the C locale. -/
def isSpace (c : UInt8) : Bool := c = 0x20 || (0x09 ≤ c && c ≤ 0x0d)

/-- The value of decimal digits. -/
def decimalValue (digits : Bytes) : Nat := digits.foldl (fun v c => 10 * v + (c.toNat - 48)) 0

/-- `strtoull(s, NULL, 10)`. -/
def strtoull (s : Bytes) : UInt64 :=
  let s := s.dropWhile isSpace
  let negative := s.head? = some 0x2d
  let s := if s.head? = some 0x2b || negative then s.tail else s
  let value := decimalValue (s.takeWhile fun c => 0x30 ≤ c && c ≤ 0x39)
  if value ≥ 2 ^ 64 then 0xffffffffffffffff
  else if negative then 0 - UInt64.ofNat value
  else UInt64.ofNat value

/-- `jnum`. -/
def jnum (json : Bytes) (key : String) : UInt64 :=
  let val := ((jstr json key 32).map Prod.snd).getD []
  if val = [] then 0 else strtoull val

/-- `hi = (hi >= 'a') ? hi-'a'+10 : (hi >= 'A') ? hi-'A'+10 : hi-'0';`, in the low
    byte of the `int`. A `char` is signed. -/
def hexNibble (c : UInt8) : UInt8 :=
  if c.toInt8 ≥ 97 then c - 97 + 10
  else if c.toInt8 ≥ 65 then c - 65 + 10
  else c - 48

/-- `hex64_to_bytes`. -/
def hex64ToBytes (hex : Bytes) : Hash256 where
  bytes := (List.range 32).map fun i =>
    (hexNibble (hex.getD (i * 2) 0) <<< 4) ||| hexNibble (hex.getD (i * 2 + 1) 0)
  size := by simp

/-- `nonce_to_hex`. -/
def nonceToHex (nonce : UInt64) : String := hexEncode (le64Bytes 8 nonce)

/-! ## mining.notify -/

/-- `find_params`. -/
def findParams (line : Bytes) : Option Bytes :=
  (findPast (quoted 0x22 (asBytes "params")) line).map skipColon

/-- A field of 64 hexadecimal digits; `none` leaves the hash of the job as it was. -/
def jhash (params : Bytes) (key : String) : Option Hash256 :=
  match jstr params key 128 with
  | some (true, hex) => if hex.length = 64 then some (hex64ToBytes hex) else none
  | _ => none

/-- `parse_notify` into the caller's `job`; `none` is the return value zero, after
    which the caller drops the job. -/
def parseNotify (line : Bytes) (job : JobDesc) (shareDiff : UInt64) : Option JobDesc :=
  match findParams line with
  | none => none
  | some params =>
    match jstr params "job_id" jobIdLen with
    | some (true, jobId) =>
      let chainId :=
        match jstr params "chain_id" chainIdLen with
        | some (true, chainId) => chainId
        | _ => asBytes "tensorium-mainnet"
      let poolDiff := jnum params "share_difficulty"
      let shareDiff := if poolDiff > 0 then poolDiff else shareDiff
      some
        { jobId := jobId
          chainId := chainId
          height := jnum params "height"
          timestamp := jnum params "timestamp"
          difficultyBits := (jnum params "difficulty_bits").toUInt8
          version := 1
          shareBits := shareBitsFromDiff shareDiff
          previousHash := (jhash params "previous_hash").getD job.previousHash
          merkleRoot := (jhash params "merkle_root").getD job.merkleRoot
          epochSeed := (jhash params "epoch_seed").getD .zero
          valid := true }
    | _ => none

end Tensorium.Miner
