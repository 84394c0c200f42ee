import Mathlib.Data.List.Sort
import Tensorium.Pool.Stratum

/-! # The job message of the pool

    `notify_msg` of `stratum.rs` and the line `serde_json` makes of it. An object
    is a `BTreeMap`, so its members come out in the order of their keys.
-/

namespace Tensorium

open ByteCodec

/-! ## JSON -/

/-- `serde_json::Value`, with the kinds of values the messages of the pool use. -/
inductive JsonValue where
  | null
  | bool (b : Bool)
  | number (n : Nat)
  | string (s : String)
  | object (members : List (String × JsonValue))

namespace JsonValue

/-- `json!({ .. })`. -/
def ofMembers (members : List (String × JsonValue)) : JsonValue :=
  .object (members.insertionSort fun a b => a.1 ≤ b.1)

/-- What the serializer writes for a byte of a string. -/
def escapeByte (b : UInt8) : Bytes :=
  if b = 0x22 then asBytes "\\\""
  else if b = 0x5c then asBytes "\\\\"
  else if b = 0x08 then asBytes "\\b"
  else if b = 0x09 then asBytes "\\t"
  else if b = 0x0a then asBytes "\\n"
  else if b = 0x0c then asBytes "\\f"
  else if b = 0x0d then asBytes "\\r"
  else if b < 0x20 then asBytes "\\u00" ++ asBytes (hexEncode [b])
  else [b]

/-- A string between quotes. -/
def stringBytes (s : String) : Bytes := 0x22 :: ((asBytes s).flatMap escapeByte ++ [0x22])

mutual

/-- `Value::to_string`. -/
def toBytes : JsonValue → Bytes
  | .null => asBytes "null"
  | .bool b => asBytes (toString b)
  | .number n => asBytes (toString n)
  | .string s => stringBytes s
  | .object members => 0x7b :: membersToBytes true members

/-- The members of an object and its closing brace; a comma stands before every
    member but the first. -/
def membersToBytes : Bool → List (String × JsonValue) → Bytes
  | _, [] => [0x7d]
  | first, (key, value) :: members =>
    (if first then [] else [0x2c])
      ++ (stringBytes key ++ (0x3a :: (value.toBytes ++ membersToBytes false members)))

end

end JsonValue

/-! ## mining.notify -/

/-- `bytes_to_hex`. -/
def bytesToHex (bytes : Bytes) : String := hexEncode bytes

/-- `bits_to_diff`. -/
def bitsToDiff (bits : UInt8) : UInt64 := 1 <<< bits.toUInt64

/-- `notify_msg`. -/
def notifyMsg (job : StratumJob) (workerDiff : UInt64) : JsonValue :=
  .ofMembers
    [("id", .null), ("method", .string "mining.notify"),
      ("params", .ofMembers
        [("job_id", .string job.jobId),
          ("chain_id", .string job.chainId),
          ("height", .number job.height),
          ("previous_hash", .string (bytesToHex job.previousHash.bytes)),
          ("merkle_root", .string (bytesToHex job.merkleRoot.bytes)),
          ("epoch_seed", .string (bytesToHex job.epochSeed.bytes)),
          ("timestamp", .number job.timestamp),
          ("difficulty_bits", .number job.difficultyBits.toNat),
          ("share_difficulty", .number workerDiff.toNat),
          ("clean_jobs", .bool true)])]

end Tensorium
