import Mathlib.Tactic
import Mathlib.Algebra.Order.BigOperators.Group.List

/-! # Saturating machine arithmetic

    An unsigned `w`-bit register is read as a natural number below `2 ^ w`.
    Saturating addition and multiplication clamp at the largest register
    value instead of wrapping. The lemmas say when a saturating sum is exact,
    and what a fold of saturating additions computes.
-/

namespace Saturating

/-! ## Registers read as natural numbers -/

/-- Saturating addition of two `w`-bit registers. -/
def satAdd (w a b : Nat) : Nat := min (a + b) (2 ^ w - 1)

/-- Saturating multiplication of two `w`-bit registers. -/
def satMul (w a b : Nat) : Nat := min (a * b) (2 ^ w - 1)

theorem satAdd_le (w a b : Nat) : satAdd w a b ≤ 2 ^ w - 1 :=
  Nat.min_le_right _ _

/-- A fold of saturating additions is the exact sum, clamped once. -/
theorem foldl_satAdd {α : Type*} (w : Nat) (f : α → Nat) (l : List α) (a : Nat)
    (ha : a ≤ 2 ^ w - 1) :
    l.foldl (fun acc x => satAdd w acc (f x)) a
      = min (a + (l.map f).sum) (2 ^ w - 1) := by
  induction l generalizing a with
  | nil => simp [ha]
  | cons x l ih =>
    rw [List.foldl_cons, ih _ (satAdd_le w a (f x))]
    simp only [List.map_cons, List.sum_cons, satAdd]
    omega

/-! ## Sixty-four bit registers -/

/-- `u64` saturating addition. -/
def satAdd64 (a b : UInt64) : UInt64 :=
  UInt64.ofNat (satAdd 64 a.toNat b.toNat)

@[simp] theorem toNat_satAdd64 (a b : UInt64) :
    (satAdd64 a b).toNat = min (a.toNat + b.toNat) (2 ^ 64 - 1) := by
  have h : satAdd 64 a.toNat b.toNat < UInt64.size :=
    Nat.lt_of_le_of_lt (satAdd_le 64 a.toNat b.toNat) (by decide)
  rw [satAdd64, UInt64.toNat_ofNat_of_lt' h]
  rfl

/-- `u64` saturating subtraction. -/
def satSub64 (a b : UInt64) : UInt64 :=
  UInt64.ofNat (a.toNat - b.toNat)

@[simp] theorem toNat_satSub64 (a b : UInt64) :
    (satSub64 a b).toNat = a.toNat - b.toNat := by
  have h : a.toNat - b.toNat < UInt64.size :=
    Nat.lt_of_le_of_lt (Nat.sub_le _ _) a.toNat_lt
  rw [satSub64, UInt64.toNat_ofNat_of_lt' h]

/-- `u64` saturating multiplication. -/
def satMul64 (a b : UInt64) : UInt64 :=
  UInt64.ofNat (satMul 64 a.toNat b.toNat)

@[simp] theorem toNat_satMul64 (a b : UInt64) :
    (satMul64 a b).toNat = min (a.toNat * b.toNat) (2 ^ 64 - 1) := by
  have h : satMul 64 a.toNat b.toNat < UInt64.size :=
    Nat.lt_of_le_of_lt (Nat.min_le_right _ _) (by decide)
  rw [satMul64, UInt64.toNat_ofNat_of_lt' h]
  rfl

/-- The `u64` form of `foldl_satAdd`. -/
theorem toNat_foldl_satAdd64 {α : Type*} (f : α → UInt64) (l : List α) (a : UInt64) :
    (l.foldl (fun acc x => satAdd64 acc (f x)) a).toNat
      = min (a.toNat + (l.map fun x => (f x).toNat).sum) (2 ^ 64 - 1) := by
  induction l generalizing a with
  | nil =>
    have h := a.toNat_lt
    simp only [List.foldl_nil, List.map_nil, List.sum_nil]
    omega
  | cons x l ih =>
    rw [List.foldl_cons, ih, toNat_satAdd64]
    simp only [List.map_cons, List.sum_cons]
    omega

/-! ## Thirty-two bit registers -/

/-- `u32` saturating addition. -/
def satAdd32 (a b : UInt32) : UInt32 :=
  UInt32.ofNat (satAdd 32 a.toNat b.toNat)

@[simp] theorem toNat_satAdd32 (a b : UInt32) :
    (satAdd32 a b).toNat = min (a.toNat + b.toNat) (2 ^ 32 - 1) := by
  have h : satAdd 32 a.toNat b.toNat < UInt32.size :=
    Nat.lt_of_le_of_lt (satAdd_le 32 a.toNat b.toNat) (by decide)
  rw [satAdd32, UInt32.toNat_ofNat_of_lt' h]
  rfl

end Saturating
