import Mathlib.Data.Nat.Size
import Mathlib.Tactic

/-! # Fixed-width byte encodings

    Little- and big-endian encodings of natural numbers in a fixed number of
    bytes, their round trips, and the order of byte strings of one length: it
    is the order of the numbers they denote, most significant byte first. A
    concatenation of encodings is uniquely decodable once the length of each
    part is known.
-/

namespace ByteCodec

/-- The `w` low bytes of `n`, least significant first. -/
def leBytes : Nat → Nat → List UInt8
  | 0, _ => []
  | w + 1, n => UInt8.ofNat n :: leBytes w (n / 256)

/-- The `w` low bytes of `n`, most significant first. -/
def beBytes (w n : Nat) : List UInt8 := (leBytes w n).reverse

/-- The number a little-endian byte string denotes. -/
def leNat : List UInt8 → Nat
  | [] => 0
  | b :: bs => b.toNat + 256 * leNat bs

/-- A number that fits in a byte. -/
theorem toNat_byte {n : Nat} (h : n < 256) : (UInt8.ofNat n).toNat = n :=
  UInt8.toNat_ofNat_of_lt' h

@[simp] theorem length_leBytes (w n : Nat) : (leBytes w n).length = w := by
  induction w generalizing n with
  | zero => rfl
  | succ w ih => simp [leBytes, ih]

@[simp] theorem length_beBytes (w n : Nat) : (beBytes w n).length = w := by
  simp [beBytes]

/-- Decoding the encoding gives the number back, up to the width. -/
theorem leNat_leBytes (w n : Nat) : leNat (leBytes w n) = n % 256 ^ w := by
  induction w generalizing n with
  | zero => simp [leBytes, leNat, Nat.mod_one]
  | succ w ih =>
    rw [leBytes, leNat, ih, pow_succ', Nat.mod_mul]
    simp

/-- Numbers that fit in the width are determined by their encoding. -/
theorem leBytes_injective {w m n : Nat} (hm : m < 256 ^ w) (hn : n < 256 ^ w)
    (h : leBytes w m = leBytes w n) : m = n := by
  have hdec := congrArg leNat h
  rwa [leNat_leBytes, leNat_leBytes, Nat.mod_eq_of_lt hm, Nat.mod_eq_of_lt hn] at hdec

/-- Encoding the number an eight-bit-digit string denotes gives the string back. -/
theorem leBytes_leNat (bs : List UInt8) : leBytes bs.length (leNat bs) = bs := by
  induction bs with
  | nil => rfl
  | cons b bs ih =>
    have hb : b.toNat < 256 := b.toNat_lt
    have hdiv : (b.toNat + 256 * leNat bs) / 256 = leNat bs := by omega
    have hmod : UInt8.ofNat (b.toNat + 256 * leNat bs) = b := by
      apply UInt8.toNat_inj.mp
      rw [UInt8.toNat_ofNat']
      omega
    rw [List.length_cons, leNat, leBytes, hdiv, hmod, ih]

/-! ## Concatenations -/

/-- Concatenations of encodings whose parts have pairwise equal lengths agree
    only if the parts do, and what follows them. -/
theorem flatMap_append_inj {α : Type*} {encode : α → List UInt8}
    (hencode : ∀ a b, encode a = encode b → a = b) {xs ys : List α} {r r' : List UInt8}
    (hlen : xs.map (fun a => (encode a).length) = ys.map fun a => (encode a).length)
    (h : xs.flatMap encode ++ r = ys.flatMap encode ++ r') : xs = ys ∧ r = r' := by
  induction xs generalizing ys with
  | nil =>
    cases ys with
    | nil => exact ⟨rfl, h⟩
    | cons y ys => simp at hlen
  | cons x xs ih =>
    cases ys with
    | nil => simp at hlen
    | cons y ys =>
      simp only [List.map_cons, List.cons.injEq] at hlen
      rw [List.flatMap_cons, List.flatMap_cons, List.append_assoc, List.append_assoc] at h
      obtain ⟨hhead, htail⟩ := List.append_inj h hlen.1
      obtain ⟨rfl, rfl⟩ := ih hlen.2 htail
      exact ⟨by rw [hencode x y hhead], rfl⟩

/-! ## Big-endian strings and their order -/

/-- The number a big-endian byte string denotes. -/
def beNat (bs : List UInt8) : Nat := leNat bs.reverse

theorem leNat_append (as bs : List UInt8) :
    leNat (as ++ bs) = leNat as + 256 ^ as.length * leNat bs := by
  induction as with
  | nil => simp [leNat]
  | cons a as ih =>
    rw [List.cons_append, leNat, ih, leNat, List.length_cons, pow_succ']
    ring

theorem leNat_replicate_zero (n : Nat) : leNat (List.replicate n 0) = 0 := by
  induction n with
  | zero => rfl
  | succ n ih =>
    rw [List.replicate_succ, leNat, ih]
    rfl

/-- Zeros above the most significant byte change nothing. -/
theorem leNat_padded (bs : List UInt8) (n : Nat) : leNat (bs ++ List.replicate n 0) = leNat bs := by
  rw [leNat_append, leNat_replicate_zero, Nat.mul_zero, Nat.add_zero]

theorem leNat_lt (bs : List UInt8) : leNat bs < 256 ^ bs.length := by
  induction bs with
  | nil => simp [leNat]
  | cons b bs ih =>
    have hb : b.toNat < 256 := b.toNat_lt
    rw [leNat, List.length_cons, pow_succ']
    omega

theorem beNat_cons (b : UInt8) (bs : List UInt8) :
    beNat (b :: bs) = b.toNat * 256 ^ bs.length + beNat bs := by
  unfold beNat
  rw [List.reverse_cons, leNat_append, List.length_reverse]
  simp only [leNat]
  ring

theorem beNat_lt (bs : List UInt8) : beNat bs < 256 ^ bs.length := by
  have h := leNat_lt bs.reverse
  rwa [List.length_reverse] at h

/-- The first digit decides the size of a number, unless it is zero. -/
theorem size_beNat_cons {b : UInt8} (hb : b ≠ 0) (bs : List UInt8) :
    (beNat (b :: bs)).size = 8 * bs.length + b.toNat.size := by
  have hpos : 0 < b.toNat := Nat.pos_of_ne_zero fun h => hb (UInt8.toNat_inj.mp h)
  have hsize : 0 < b.toNat.size := Nat.size_pos.mpr hpos
  have hlow := beNat_lt bs
  have hupper : b.toNat < 2 ^ b.toNat.size := Nat.lt_size_self _
  have hlower : 2 ^ (b.toNat.size - 1) ≤ b.toNat := Nat.lt_size.mp (by omega)
  have hbase : (256 : Nat) ^ bs.length = 2 ^ (8 * bs.length) := by
    rw [pow_mul]
    rfl
  rw [hbase] at hlow
  rw [beNat_cons, hbase]
  apply Nat.le_antisymm
  · rw [Nat.size_le, pow_add, Nat.mul_comm (2 ^ (8 * bs.length))]
    calc b.toNat * 2 ^ (8 * bs.length) + beNat bs
        < b.toNat * 2 ^ (8 * bs.length) + 2 ^ (8 * bs.length) := by omega
      _ = (b.toNat + 1) * 2 ^ (8 * bs.length) := by ring
      _ ≤ 2 ^ b.toNat.size * 2 ^ (8 * bs.length) := Nat.mul_le_mul_right _ hupper
  · have hsucc : 8 * bs.length + b.toNat.size = (b.toNat.size - 1 + 8 * bs.length) + 1 := by omega
    rw [hsucc, Nat.succ_le_iff, Nat.lt_size, pow_add]
    exact (Nat.mul_le_mul_right _ hlower).trans (Nat.le_add_right _ _)

theorem beNat_beBytes {w n : Nat} (hn : n < 256 ^ w) : beNat (beBytes w n) = n := by
  unfold beNat beBytes
  rw [List.reverse_reverse, leNat_leBytes, Nat.mod_eq_of_lt hn]

/-- Strings of one length are determined by the number they denote. -/
theorem beNat_injective {as bs : List UInt8} (hlen : as.length = bs.length)
    (h : beNat as = beNat bs) : as = bs := by
  have hrev : leBytes as.reverse.length (leNat as.reverse)
      = leBytes bs.reverse.length (leNat bs.reverse) := by
    rw [List.length_reverse, List.length_reverse, hlen]
    exact congrArg _ h
  rw [leBytes_leNat, leBytes_leNat] at hrev
  exact List.reverse_injective hrev

/-- On strings of one length the lexicographic order is the numeric one. -/
theorem lt_iff_beNat_lt {as bs : List UInt8} (hlen : as.length = bs.length) :
    as < bs ↔ beNat as < beNat bs := by
  induction as generalizing bs with
  | nil =>
    obtain rfl : bs = [] := List.length_eq_zero_iff.mp hlen.symm
    simp
  | cons a as ih =>
    cases bs with
    | nil => simp at hlen
    | cons b bs =>
      have hlen' : as.length = bs.length := by simpa using hlen
      have ha := beNat_lt as
      have hb := beNat_lt bs
      rw [List.cons_lt_cons_iff, ih hlen', beNat_cons, beNat_cons, hlen', UInt8.lt_iff_toNat_lt]
      rw [hlen'] at ha
      -- A smaller first digit outweighs everything behind it.
      constructor
      · rintro (hlt | ⟨rfl, hlt⟩)
        · have := Nat.mul_le_mul_right (256 ^ bs.length) (Nat.succ_le_of_lt hlt)
          rw [Nat.succ_mul] at this
          omega
        · omega
      · intro hlt
        rcases lt_trichotomy a.toNat b.toNat with h | h | h
        · exact Or.inl h
        · refine Or.inr ⟨UInt8.toNat_inj.mp h, ?_⟩
          rw [h] at hlt
          omega
        · have := Nat.mul_le_mul_right (256 ^ bs.length) (Nat.succ_le_of_lt h)
          rw [Nat.succ_mul] at this
          omega

/-! ## Hexadecimal -/

/-- Two lower-case digits per byte. -/
def hexDigits (bs : List UInt8) : List Char :=
  bs.flatMap fun b => [Nat.digitChar (b.toNat / 16), Nat.digitChar (b.toNat % 16)]

def hexEncode (bs : List UInt8) : String := String.ofList (hexDigits bs)

/-- The value of a digit, of either case. -/
def hexValue (c : Char) : Option Nat :=
  if '0' ≤ c ∧ c ≤ '9' then some (c.toNat - '0'.toNat)
  else if 'a' ≤ c ∧ c ≤ 'f' then some (c.toNat - 'a'.toNat + 10)
  else if 'A' ≤ c ∧ c ≤ 'F' then some (c.toNat - 'A'.toNat + 10)
  else none

/-- The bytes a string of digits denotes; `none` for an odd number of them or
    for any other character. -/
def hexBytes : List Char → Option (List UInt8)
  | [] => some []
  | [_] => none
  | high :: low :: rest => do
    let h ← hexValue high
    let l ← hexValue low
    let bs ← hexBytes rest
    return UInt8.ofNat (h * 16 + l) :: bs

def hexDecode (s : String) : Option (List UInt8) := hexBytes s.toList

theorem hexValue_digitChar : ∀ n < 16, hexValue (Nat.digitChar n) = some n := by decide

theorem hexBytes_hexDigits (bs : List UInt8) : hexBytes (hexDigits bs) = some bs := by
  induction bs with
  | nil => rfl
  | cons b bs ih =>
    have hb := b.toNat_lt
    have hhigh := hexValue_digitChar (b.toNat / 16) (by omega)
    have hlow := hexValue_digitChar (b.toNat % 16) (by omega)
    have hdigits : hexDigits (b :: bs)
        = Nat.digitChar (b.toNat / 16) :: Nat.digitChar (b.toNat % 16) :: hexDigits bs := rfl
    have hround : b.toNat / 16 * 16 + b.toNat % 16 = b.toNat := by omega
    rw [hdigits, hexBytes, hhigh, hlow, ih]
    show some (UInt8.ofNat (b.toNat / 16 * 16 + b.toNat % 16) :: bs) = some (b :: bs)
    rw [hround, UInt8.ofNat_toNat]

@[simp] theorem hexDecode_hexEncode (bs : List UInt8) : hexDecode (hexEncode bs) = some bs := by
  unfold hexDecode hexEncode
  rw [String.toList_ofList, hexBytes_hexDigits]

theorem hexEncode_injective : Function.Injective hexEncode := by
  intro as bs h
  have hdecode := congrArg hexDecode h
  rw [hexDecode_hexEncode, hexDecode_hexEncode] at hdecode
  exact Option.some.inj hdecode

end ByteCodec
