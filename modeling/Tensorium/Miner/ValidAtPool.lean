import Tensorium.Miner.Submissions

/-! # What the pool makes of the submissions

    The pool writes a job as a line and the miner reads it back; the miner writes a
    share as a line, whose nonce the pool reads back. Between the two the share has
    been checked on the host, so `validate_share` finds it valid.
-/

namespace Tensorium.Miner

open ByteCodec Quoted RingBuffer

/-! ## Lines on the wire -/

/-- Short, and without control characters. -/
def Fits (length : Nat) (value : JsonValue) : Prop :=
  value.toBytes.length ≤ length ∧ (value.toBytes.all fun b => decide (0x20 ≤ b)) = true

instance (length : Nat) (value : JsonValue) : Decidable (Fits length value) :=
  inferInstanceAs (Decidable (_ ∧ _ = true))

theorem Fits.mono {value : JsonValue} {length length' : Nat} (h : Fits length value)
    (hle : length ≤ length') : Fits length' value :=
  ⟨h.1.trans hle, h.2⟩

/-- A job of the pool, with the share bits of the worker it is sent to. -/
structure Offer where
  job : StratumJob
  bits : UInt8

/-- What `send_line` writes, up to the end of the line. -/
def Offer.line (offer : Offer) : Bytes := (notifyMsg offer.job (bitsToDiff offer.bits)).toBytes

end Tensorium.Miner
