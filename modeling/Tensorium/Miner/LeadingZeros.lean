import Tensorium.Miner.SameHeader

/-! # Four counts of leading zeros

    The pool counts the leading zero bits of a hash in a byte, the node in a `u32`, the
    miner in an `int`: on the host bit by bit, on the device with `__clz`. All count the
    zeros in front of one number of 256 bits; a byte cannot hold 256.
-/

namespace Tensorium

open ByteCodec Miner

/-! ## What is counted -/

theorem byteLeadingZeros_eq (b : UInt8) : Hash256.byteLeadingZeros b = 8 - b.toNat.size := by
  have hbytes : ∀ n < 256, Hash256.byteLeadingZeros (UInt8.ofNat n) = 8 - n.size := by
    decide +kernel
  have heq := hbytes b.toNat b.toNat_lt
  rwa [UInt8.ofNat_toNat] at heq

theorem leadingZeroBitsLoop_eq (bs : Bytes) (bits : Nat) :
    Hash256.leadingZeroBitsLoop bs bits = bits + (8 * bs.length - (beNat bs).size) := by
  induction bs generalizing bits with
  | nil => rfl
  | cons b bs ih =>
    unfold Hash256.leadingZeroBitsLoop
    rw [List.length_cons]
    split_ifs with hb
    · have hbe : beNat (b :: bs) = beNat bs := by
        rw [beNat_cons, hb]
        simp
      have hle : (beNat bs).size ≤ 8 * bs.length := by
        rw [Nat.size_le, pow_mul]
        exact beNat_lt bs
      rw [ih, hbe]
      omega
    · rw [byteLeadingZeros_eq, size_beNat_cons hb]
      omega

/-! ## The count on the device -/

namespace Miner

/-- The loop of `th_leading_zero_bits_dev`. -/
def thLeadingZeroBitsDevLoop : Bytes → Nat → Nat
  | [], bits => bits
  | b :: bs, bits =>
    if b = 0 then thLeadingZeroBitsDevLoop bs (bits + 8)
    else bits + (b.toUInt32.toBitVec.clz.toNat - 24)

/-- `th_leading_zero_bits_dev`. -/
def thLeadingZeroBitsDev (hash : Bytes) : Nat := thLeadingZeroBitsDevLoop hash 0

end Miner

/-! ## Counters that overflow -/

namespace Counter

/-- `bits += n` in a counter of `limit` values; `none` if it overflows. -/
def add (limit bits n : Nat) : Option Nat := if bits + n < limit then some (bits + n) else none

/-- The loop of all four functions; `last` ends it at a byte that is not zero. -/
def zerosLoop (limit : Nat) (last : UInt8 → Nat → Option Nat) : Bytes → Nat → Option Nat
  | [], bits => some bits
  | b :: bs, bits =>
    if b = 0 then (add limit bits 8).bind (zerosLoop limit last bs) else last b bits

/-- `leading_zero_bits` of the pool, in a `u8`. -/
def poolLeadingZeroBits (hash : Bytes) : Option Nat :=
  zerosLoop (2 ^ 8) (fun b bits => add (2 ^ 8) bits (Hash256.byteLeadingZeros b)) hash 0

/-- `Hash256::leading_zero_bits`, in a `u32`. -/
def leadingZeroBits (hash : Bytes) : Option Nat :=
  zerosLoop (2 ^ 32) (fun b bits => add (2 ^ 32) bits (Hash256.byteLeadingZeros b)) hash 0

/-- `while (!(x & 0x80)) { bits++; x <<= 1; }`. -/
def byteZerosLoop (limit : Nat) : Nat → UInt32 → Nat → Option Nat
  | 0, _, bits => some bits
  | n + 1, x, bits =>
    if x &&& 0x80 = 0 then (add limit bits 1).bind (byteZerosLoop limit n (x <<< 1)) else some bits

/-- `host_leading_zero_bits`, in an `int`. -/
def hostLeadingZeroBits (hash : Bytes) : Option Nat :=
  zerosLoop (2 ^ 31) (fun b bits => byteZerosLoop (2 ^ 31) 7 b.toUInt32 bits) hash 0

/-- `th_leading_zero_bits_dev`, in an `int`. -/
def thLeadingZeroBitsDev (hash : Bytes) : Option Nat :=
  zerosLoop (2 ^ 31) (fun b bits => add (2 ^ 31) bits (b.toUInt32.toBitVec.clz.toNat - 24)) hash 0

/-- `bits` if the counter can hold it. -/
def fitting (limit bits : Nat) : Option Nat := if bits < limit then some bits else none

/-- A counter that ends where the exact count does has not overflowed on the way. -/
theorem zerosLoop_eq {limit : Nat} {last : UInt8 → Nat → Option Nat}
    (hlast : ∀ b bits, b ≠ 0 → bits < limit →
      last b bits = fitting limit (bits + Hash256.byteLeadingZeros b))
    (bs : Bytes) {bits : Nat} (hbits : bits < limit) :
    zerosLoop limit last bs bits = fitting limit (Hash256.leadingZeroBitsLoop bs bits) := by
  induction bs generalizing bits with
  | nil => exact (if_pos hbits).symm
  | cons b bs ih =>
    unfold zerosLoop Hash256.leadingZeroBitsLoop
    split_ifs with hb
    · by_cases hfits : bits + 8 < limit
      · rw [add, if_pos hfits, Option.bind_some, ih hfits]
      · -- The exact count is no smaller than what did not fit.
        have hover := leadingZeroBitsLoop_eq bs (bits + 8)
        rw [add, if_neg hfits, Option.bind_none, fitting, if_neg (by omega)]
    · exact hlast b bits hb hbits

/-- Adding ones stops at the same place as adding them at once. -/
theorem byteZerosLoop_eq {limit : Nat} (n : Nat) (x : UInt32) {bits : Nat} (hbits : bits < limit) :
    byteZerosLoop limit n x bits = fitting limit (Miner.byteZerosLoop n x bits) := by
  induction n generalizing x bits with
  | zero => exact (if_pos hbits).symm
  | succ n ih =>
    unfold byteZerosLoop Miner.byteZerosLoop
    split_ifs with hx
    · by_cases hfits : bits + 1 < limit
      · rw [add, if_pos hfits, Option.bind_some, ih _ hfits]
      · have hadd := byteZerosLoop_add n (x <<< 1) (bits + 1)
        rw [add, if_neg hfits, Option.bind_none, fitting, if_neg (by omega)]
    · exact (if_pos hbits).symm

/-! ## The four counters -/

theorem add_byte (limit : Nat) (b : UInt8) (bits : Nat) (_ : b ≠ 0) (_ : bits < limit) :
    add limit bits (Hash256.byteLeadingZeros b)
      = fitting limit (bits + Hash256.byteLeadingZeros b) :=
  rfl

theorem poolLeadingZeroBits_eq (hash : Hash256) :
    poolLeadingZeroBits hash.bytes = fitting (2 ^ 8) hash.leadingZeroBits :=
  zerosLoop_eq (add_byte _) hash.bytes (by omega)

theorem leadingZeroBits_eq (hash : Hash256) :
    leadingZeroBits hash.bytes = fitting (2 ^ 32) hash.leadingZeroBits :=
  zerosLoop_eq (add_byte _) hash.bytes (by omega)

theorem hostLeadingZeroBits_eq (hash : Hash256) :
    hostLeadingZeroBits hash.bytes = fitting (2 ^ 31) hash.leadingZeroBits := by
  refine zerosLoop_eq ?_ hash.bytes (by omega)
  intro b bits hb hbits
  rw [byteZerosLoop_eq 7 b.toUInt32 hbits, Miner.byteZerosLoop_eq hb]

/-- `__clz` of a byte, less the upper three bytes. -/
theorem clz_byte {b : UInt8} (hb : b ≠ 0) :
    b.toUInt32.toBitVec.clz.toNat - 24 = Hash256.byteLeadingZeros b := by
  have hbytes : ∀ n < 256, n ≠ 0 → (UInt8.ofNat n).toUInt32.toBitVec.clz.toNat - 24
      = Hash256.byteLeadingZeros (UInt8.ofNat n) := by decide +kernel
  have hne : b.toNat ≠ 0 := fun h => hb (UInt8.toNat_inj.mp h)
  have heq := hbytes b.toNat b.toNat_lt hne
  rwa [UInt8.ofNat_toNat] at heq

theorem thLeadingZeroBitsDev_eq (hash : Hash256) :
    thLeadingZeroBitsDev hash.bytes = fitting (2 ^ 31) hash.leadingZeroBits := by
  refine zerosLoop_eq ?_ hash.bytes (by omega)
  intro b bits hb _
  rw [clz_byte hb]
  rfl

end Counter

theorem Miner.thLeadingZeroBitsDev_eq (h : Hash256) :
    thLeadingZeroBitsDev h.bytes = h.leadingZeroBits := by
  have hloop : ∀ (bs : Bytes) (bits : Nat),
      thLeadingZeroBitsDevLoop bs bits = Hash256.leadingZeroBitsLoop bs bits := by
    intro bs
    induction bs with
    | nil => intro bits; rfl
    | cons b bs ih =>
      intro bits
      unfold thLeadingZeroBitsDevLoop Hash256.leadingZeroBitsLoop
      split_ifs with hb
      · exact ih (bits + 8)
      · rw [Counter.clz_byte hb]
  exact hloop h.bytes 0

/-! ## The verdicts -/

/-- The four functions return `n`, no counter overflows, and `n` is how many of the
    256 bits of the hash, read as one number, stand before its first one. -/
structure CountedAs (hash : Hash256) (n : Nat) : Prop where
  value : n = 256 - (beNat hash.bytes).size
  pool : (poolLeadingZeroBits hash).toNat = n
  node : hash.leadingZeroBits = n
  host : hostLeadingZeroBits hash.bytes = n
  device : thLeadingZeroBitsDev hash.bytes = n
  pool_fits : Counter.poolLeadingZeroBits hash.bytes = some n
  node_fits : Counter.leadingZeroBits hash.bytes = some n
  host_fits : Counter.hostLeadingZeroBits hash.bytes = some n
  device_fits : Counter.thLeadingZeroBitsDev hash.bytes = some n

/-- The pool, the host and the device accept a hash for a target exactly if the node
    does. -/
def AcceptAlike (hash : Hash256) (target : UInt8) : Prop :=
  decide (poolLeadingZeroBits hash ≥ target) = hashMeetsWork hash target ∧
    decide (hostLeadingZeroBits hash.bytes ≥ target.toNat) = hashMeetsWork hash target ∧
    decide (thLeadingZeroBitsDev hash.bytes ≥ target.toNat) = hashMeetsWork hash target

instance (hash : Hash256) (target : UInt8) : Decidable (AcceptAlike hash target) :=
  inferInstanceAs (Decidable (_ ∧ _ ∧ _))

theorem acceptAlike_of_pool {hash : Hash256} (h : (poolLeadingZeroBits hash).toNat
    = hash.leadingZeroBits) (target : UInt8) : AcceptAlike hash target := by
  refine ⟨?_, ?_, ?_⟩
  · unfold hashMeetsWork
    rw [decide_eq_decide, ge_iff_le, UInt8.le_iff_toNat_le, h]
  · rw [hostLeadingZeroBits_eq]
    rfl
  · rw [thLeadingZeroBitsDev_eq]
    rfl

/-- **The counts agree on every hash but that of zeros.** There the byte of the pool
    overflows. -/
theorem zero_counts_agree_iff (hash : Hash256) :
    ((∃ n ≤ 256, CountedAs hash n) ∧ ∀ target, AcceptAlike hash target) ↔ hash ≠ .zero := by
  constructor
  · rintro ⟨⟨n, _, hcount⟩, _⟩ rfl
    have hn := hcount.node
    rw [leadingZeroBits_zero] at hn
    have hbyte := (poolLeadingZeroBits .zero).toNat_lt
    have hpool := hcount.pool
    omega
  · intro hne
    have hlt := leadingZeroBits_lt hne
    have hpool : (poolLeadingZeroBits hash).toNat = hash.leadingZeroBits := by
      rw [toNat_poolLeadingZeroBits, Nat.mod_eq_of_lt hlt]
    have hfits : ∀ limit, 2 ^ 8 ≤ limit →
        Counter.fitting limit hash.leadingZeroBits = some hash.leadingZeroBits :=
      fun limit hlimit => if_pos (Nat.lt_of_lt_of_le hlt hlimit)
    refine ⟨⟨hash.leadingZeroBits, hlt.le, ?_⟩, acceptAlike_of_pool hpool⟩
    constructor
    · have hloop := leadingZeroBitsLoop_eq hash.bytes 0
      rw [hash.size, Nat.zero_add] at hloop
      exact hloop
    · exact hpool
    · rfl
    · exact hostLeadingZeroBits_eq hash
    · exact thLeadingZeroBitsDev_eq hash
    · rw [Counter.poolLeadingZeroBits_eq, hfits _ (by omega)]
    · rw [Counter.leadingZeroBits_eq, hfits _ (by omega)]
    · rw [Counter.hostLeadingZeroBits_eq, hfits _ (by omega)]
    · rw [Counter.thLeadingZeroBitsDev_eq, hfits _ (by omega)]

/-- The byte of the pool wraps around to zero, and one bit of work is refused. -/
theorem zero_hash_miscounted :
    poolLeadingZeroBits .zero = 0 ∧ Counter.poolLeadingZeroBits Hash256.zero.bytes = none ∧
      Hash256.zero.leadingZeroBits = 256 ∧ ¬ AcceptAlike .zero 1 := by
  decide

end Tensorium
