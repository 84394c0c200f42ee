import Mathlib.Data.List.DropRight
import Mathlib.Data.Rat.Cast.Order
import Tensorium.Core.Assets

/-! # Amounts in decimal

    The two parts of an amount go through the integer parser of the standard
    library, which allows a plus sign before the digits. A text with one before its
    first digits, or after its dot, is read as an amount too; every other text is read
    as the grammar says.
-/

namespace Tensorium

namespace Adapter

open Assets

/-- `SAT`. -/
def SAT : UInt64 := 100000000

/-! ## The standard library -/

/-- `u64::checked_mul`. -/
def checkedMul (a b : UInt64) : Option UInt64 :=
  if a.toNat * b.toNat < 2 ^ 64 then some (a * b) else none

/-- `char::is_whitespace`, the characters of `White_Space`. -/
def isWhitespace (c : Char) : Bool :=
  let n := c.toNat
  (0x9 ≤ n && n ≤ 0xd) || n = 0x20 || n = 0x85 || n = 0xa0 || n = 0x1680 ||
    (0x2000 ≤ n && n ≤ 0x200a) || n = 0x2028 || n = 0x2029 || n = 0x202f || n = 0x205f ||
    n = 0x3000

/-- `str::trim`. -/
def trim (s : List Char) : List Char := (s.dropWhile isWhitespace).rdropWhile isWhitespace

/-- `str::split_once`. -/
def splitOnce (delimiter : Char) : List Char → Option (List Char × List Char)
  | [] => none
  | c :: cs =>
    if c = delimiter then some ([], cs)
    else (splitOnce delimiter cs).map fun (before, after) => (c :: before, after)

/-- `str::len`, in bytes. -/
def byteLen (s : List Char) : Nat := (s.map Char.utf8Size).sum

/-- The loop of `u64::from_str` over the digits. -/
def fromDigits (result : UInt64) : List Char → Option UInt64
  | [] => some result
  | c :: cs => do
    let x ← if c.isDigit then some (UInt64.ofNat (c.toNat - 48)) else none
    let shifted ← checkedMul result 10
    fromDigits (← checkedAdd shifted x) cs

/-- `u64::from_str`: a leading `+` is dropped, unless it stands alone. -/
def parseU64 : List Char → Option UInt64
  | [] => none
  | ['+'] => none
  | '+' :: digits => fromDigits 0 digits
  | digits => fromDigits 0 digits

/-! ## `wallet.rs` -/

/-- `txm_to_atoms` from where the text is split in two. -/
def partsToAtoms (int frac : List Char) : Except String UInt64 := do
  if byteLen frac > 8 then throw "too many decimals (max 8)"
  let int ← (parseU64 int).elim (throw "bad integer part") pure
  -- Each turn of the loop pushes one byte.
  let fracPadded := frac ++ List.replicate (8 - byteLen frac) '0'
  let frac ← if fracPadded.isEmpty then pure 0
    else (parseU64 fracPadded).elim (throw "bad fraction") pure
  ((checkedMul int SAT).bind fun a => checkedAdd a frac).elim (throw "amount overflow") pure

/-- `txm_to_atoms`. -/
def txmToAtoms (s : String) : Except String UInt64 :=
  let s := trim s.toList
  match splitOnce '.' s with
  | some (int, frac) => partsToAtoms int frac
  | none => partsToAtoms s []

/-- `atoms_to_txm_str`: the remainder is padded to eight digits. -/
def atomsToTxmStr (atoms : UInt64) : String :=
  toString (atoms / SAT).toNat ++ "." ++
    String.ofList ((Nat.toDigits 10 (atoms % SAT).toNat).leftpad 8 '0')

/-! ## What a text denotes -/

/-- Only ASCII digits. -/
def Digits (cs : List Char) : Prop := ∀ c ∈ cs, c.isDigit

/-- One or more digits, optionally followed by a dot and at most eight digits. -/
inductive Decimal : List Char → List Char → List Char → Prop where
  | whole {int : List Char} : int ≠ [] → Digits int → Decimal int int []
  | fraction {int frac : List Char} : int ≠ [] → Digits int → Digits frac → frac.length ≤ 8 →
      Decimal (int ++ '.' :: frac) int frac

/-- The number in decimal notation. -/
def amount (int frac : List Char) : ℚ :=
  Nat.ofDigitChars 10 int 0 + (Nat.ofDigitChars 10 frac 0 : ℚ) / 10 ^ frac.length

/-- The text is read as the grammar says: as an amount, and exactly, or not at all. -/
def ReadExactly (s : String) : Prop :=
  ∀ a, txmToAtoms s = .ok a ↔
    ∃ int frac, Decimal (trim s.toList) int frac ∧ (a.toNat : ℚ) = amount int frac * 10 ^ 8

/-- What the parser of integers drops before the digits. -/
def Sign (cs : List Char) : Prop := cs = [] ∨ cs = ['+']

/-- The grammar with signs: one before the first digits, one after the dot. -/
inductive Signed : List Char → List Char → List Char → List Char → List Char → Prop where
  | whole {plus int : List Char} : Sign plus → int ≠ [] → Digits int →
      Signed (plus ++ int) plus int [] []
  | fraction {plus int plus' frac : List Char} : Sign plus → int ≠ [] → Digits int →
      Sign plus' → Digits frac → (plus' ++ frac).length ≤ 8 →
      Signed (plus ++ int ++ '.' :: (plus' ++ frac)) plus int plus' frac

/-- The atoms of such a text. A sign after the dot takes the place of a digit. -/
def signedAtoms (int plus' frac : List Char) : Nat :=
  Nat.ofDigitChars 10 int 0 * 10 ^ 8 +
    Nat.ofDigitChars 10 frac 0 * 10 ^ (8 - (plus' ++ frac).length)

/-- The text has a plus sign before its digits or the digits after its dot, is otherwise
    an amount, and not too large. -/
def PlusSigned (text : List Char) : Prop :=
  ∃ plus int plus' frac, Signed text plus int plus' frac ∧ (plus ≠ [] ∨ plus' ≠ []) ∧
    signedAtoms int plus' frac < 2 ^ 64

/-! ## The parser of integers -/

theorem checkedMul_eq_some {a b c : UInt64} :
    checkedMul a b = some c ↔ c.toNat = a.toNat * b.toNat := by
  unfold checkedMul
  by_cases hfits : a.toNat * b.toNat < 2 ^ 64
  · rw [if_pos hfits, Option.some.injEq, ← UInt64.toNat_inj, UInt64.toNat_mul,
      Nat.mod_eq_of_lt hfits]
    exact eq_comm
  · have hlt := c.toNat_lt
    rw [if_neg hfits]
    constructor
    · intro h
      cases h
    · intro h
      omega

theorem Digits.cons_iff {c : Char} {cs : List Char} :
    Digits (c :: cs) ↔ c.isDigit ∧ Digits cs := List.forall_mem_cons

theorem Digits.append_iff {as bs : List Char} :
    Digits (as ++ bs) ↔ Digits as ∧ Digits bs := List.forall_mem_append

theorem digits_zeros (n : Nat) : Digits (List.replicate n '0') := by
  intro c hc
  rw [List.eq_of_mem_replicate hc]
  decide

theorem le_ofDigitChars (cs : List Char) (n : Nat) : n ≤ Nat.ofDigitChars 10 cs n := by
  rw [Nat.ofDigitChars_eq_ofDigitChars_zero]
  exact (Nat.le_mul_of_pos_left n (by positivity)).trans (Nat.le_add_right _ _)

theorem toNat_digit {c : Char} (h : c.isDigit) :
    (UInt64.ofNat (c.toNat - 48)).toNat = c.toNat - '0'.toNat := by
  have hdigit : 48 ≤ c.toNat ∧ c.toNat ≤ 57 := Char.isDigit_iff_toNat.mp h
  rw [UInt64.toNat_ofNat_of_lt' (show c.toNat - 48 < 2 ^ 64 by omega)]
  rfl

/-- The checks of the loop are passed if the whole number fits. -/
theorem fromDigits_eq_some {cs : List Char} {result v : UInt64} :
    fromDigits result cs = some v ↔
      Digits cs ∧ v.toNat = Nat.ofDigitChars 10 cs result.toNat := by
  induction cs generalizing result with
  | nil =>
    have hnil : Digits [] := by simp [Digits]
    unfold fromDigits
    rw [Nat.ofDigitChars_nil, UInt64.toNat_inj, Option.some.injEq, eq_comm, and_iff_right hnil]
  | cons c cs ih =>
    rw [Digits.cons_iff, Nat.ofDigitChars_cons]
    unfold fromDigits
    by_cases hc : c.isDigit
    · have hx := toNat_digit hc
      simp only [hc, if_true, true_and, Option.bind_eq_bind, Option.bind_some,
        Option.bind_eq_some_iff, checkedMul_eq_some, checkedAdd_eq_some, ih]
      constructor
      · rintro ⟨shifted, hshifted, next, hnext, hdigits, hv⟩
        refine ⟨hdigits, ?_⟩
        rw [hv, hnext, hshifted, hx, Nat.mul_comm]
        rfl
      · rintro ⟨hdigits, hv⟩
        -- What has been read so far is at most the whole number.
        have hle := le_ofDigitChars cs (10 * result.toNat + (c.toNat - '0'.toNat))
        have hlt := v.toNat_lt
        have hten : (10 : UInt64).toNat = 10 := rfl
        have hshifted := UInt64.toNat_ofNat_of_lt' (show result.toNat * 10 < 2 ^ 64 by omega)
        have hnext := UInt64.toNat_ofNat_of_lt'
          (show 10 * result.toNat + (c.toNat - '0'.toNat) < 2 ^ 64 by omega)
        refine ⟨_, hshifted, UInt64.ofNat (10 * result.toNat + (c.toNat - '0'.toNat)), ?_,
          hdigits, ?_⟩
        · rw [hnext, hshifted, hx]
          omega
        · rw [hnext, hv]
    · simp [hc]

/-- The parser takes the digits after a sign. -/
theorem parseU64_eq_some {cs : List Char} {v : UInt64} :
    parseU64 cs = some v ↔
      ∃ plus digits, Sign plus ∧ digits ≠ [] ∧ Digits digits ∧ cs = plus ++ digits ∧
        v.toNat = Nat.ofDigitChars 10 digits 0 := by
  constructor
  · intro h
    unfold parseU64 at h
    split at h
    · cases h
    · cases h
    · rename_i digits hne
      obtain ⟨hdigits, hv⟩ := fromDigits_eq_some.mp h
      exact ⟨['+'], digits, Or.inr rfl, fun hnil => hne (by rw [hnil]), hdigits, rfl, hv⟩
    · rename_i hnil _ _
      obtain ⟨hdigits, hv⟩ := fromDigits_eq_some.mp h
      exact ⟨[], cs, Or.inl rfl, hnil, hdigits, rfl, hv⟩
  · rintro ⟨plus, digits, hplus, hne, hdigits, rfl, hv⟩
    obtain ⟨d, ds, rfl⟩ := List.exists_cons_of_ne_nil hne
    have hread : fromDigits 0 (d :: ds) = some v := fromDigits_eq_some.mpr ⟨hdigits, hv⟩
    rcases hplus with rfl | rfl
    · have hd : d ≠ '+' := by
        rintro rfl
        exact absurd (Digits.cons_iff.mp hdigits).1 (by decide)
      simpa [parseU64, hd] using hread
    · exact hread

/-! ## The two parts -/

theorem splitOnce_eq_none {d : Char} {cs : List Char} : splitOnce d cs = none ↔ d ∉ cs := by
  induction cs with
  | nil => simp [splitOnce]
  | cons c cs ih =>
    unfold splitOnce
    by_cases hc : c = d
    · simp [hc]
    · simp [hc, Ne.symm hc, ih]

/-- What comes before the first delimiter, and after it. -/
theorem splitOnce_eq_some {d : Char} {cs before after : List Char} :
    splitOnce d cs = some (before, after) ↔ d ∉ before ∧ cs = before ++ d :: after := by
  induction cs generalizing before with
  | nil => simp [splitOnce]
  | cons c cs ih =>
    unfold splitOnce
    by_cases hc : c = d
    · cases before with
      | nil => simp [hc, eq_comm]
      | cons b bs =>
        have hno : ¬ (d ∉ b :: bs ∧ c :: cs = b :: bs ++ d :: after) := by
          rintro ⟨hb, heq⟩
          exact hb (by rw [← hc, (List.cons.inj heq).1]; exact List.mem_cons_self)
        simp [hc] at hno ⊢
        tauto
    · cases before with
      | nil => simp [hc]
      | cons b bs =>
        simp [hc, ih]
        constructor
        · rintro ⟨⟨hmem, htail⟩, rfl⟩
          exact ⟨⟨Ne.symm hc, hmem⟩, rfl, htail⟩
        · rintro ⟨⟨_, hmem⟩, rfl, htail⟩
          exact ⟨⟨hmem, htail⟩, rfl⟩

theorem byteLen_digits {cs : List Char} (h : Digits cs) : byteLen cs = cs.length := by
  have hone : ∀ c ∈ cs, c.utf8Size = 1 := by
    intro c hc
    have hle : c.toNat ≤ 57 := (Char.isDigit_iff_toNat.mp (h c hc)).2
    have hval : c.val ≤ 0x7f := UInt32.le_iff_toNat_le.mpr (hle.trans (by decide))
    unfold Char.utf8Size
    exact if_pos hval
  unfold byteLen
  rw [List.map_congr_left hone, List.map_const', List.sum_replicate, smul_eq_mul, Nat.mul_one]

theorem byteLen_signed {plus digits : List Char} (hplus : Sign plus) (h : Digits digits) :
    byteLen (plus ++ digits) = (plus ++ digits).length := by
  have happ : byteLen (plus ++ digits) = byteLen plus + byteLen digits := by
    unfold byteLen
    rw [List.map_append, List.sum_append]
  rw [happ, byteLen_digits h, List.length_append]
  rcases hplus with rfl | rfl <;> rfl

theorem digits_no_dot {cs : List Char} (h : Digits cs) : '.' ∉ cs := by
  intro hmem
  exact absurd (h _ hmem) (by decide)

theorem signed_no_dot {plus digits : List Char} (hplus : Sign plus) (h : Digits digits) :
    '.' ∉ plus ++ digits := by
  rw [List.mem_append, not_or]
  refine ⟨?_, digits_no_dot h⟩
  rcases hplus with rfl | rfl <;> simp

/-- The fraction after padding: digits, possibly behind a sign that took a place. -/
theorem parse_padded {frac : List Char} {v : UInt64} (hlen : byteLen frac ≤ 8) :
    parseU64 (frac ++ List.replicate (8 - byteLen frac) '0') = some v ↔
      ∃ plus digits, Sign plus ∧ Digits digits ∧ frac = plus ++ digits ∧
        v.toNat = Nat.ofDigitChars 10 digits 0 * 10 ^ (8 - frac.length) := by
  rw [parseU64_eq_some]
  have hpad : ∀ digits : List Char,
      Nat.ofDigitChars 10 (digits ++ List.replicate (8 - frac.length) '0') 0
      = Nat.ofDigitChars 10 digits 0 * 10 ^ (8 - frac.length) := by
    intro digits
    rw [Nat.ofDigitChars_append, Nat.ofDigitChars_replicate_zero, Nat.mul_comm]
  constructor
  · rintro ⟨plus, digits, hplus, hne, hdigits, heq, hv⟩
    -- The sign is the first character of the fraction: the padding has none.
    have hsplit : ∃ rest, frac = plus ++ rest ∧
        digits = rest ++ List.replicate (8 - byteLen frac) '0' := by
      rcases hplus with rfl | rfl
      · exact ⟨frac, rfl, heq.symm⟩
      · cases frac with
        | nil => exact absurd (List.cons.inj heq).1 (by decide)
        | cons c cs =>
          obtain ⟨rfl, htail⟩ := List.cons.inj heq
          exact ⟨cs, rfl, htail.symm⟩
    obtain ⟨rest, rfl, rfl⟩ := hsplit
    have hrest := (Digits.append_iff.mp hdigits).1
    rw [byteLen_signed hplus hrest, hpad] at hv
    exact ⟨plus, rest, hplus, hrest, rfl, hv⟩
  · rintro ⟨plus, digits, hplus, hdigits, rfl, hv⟩
    have hbytes := byteLen_signed hplus hdigits
    rw [hbytes] at hlen ⊢
    refine ⟨plus, digits ++ List.replicate (8 - (plus ++ digits).length) '0', hplus, ?_,
      Digits.append_iff.mpr ⟨hdigits, digits_zeros _⟩, List.append_assoc _ _ _, ?_⟩
    · -- At most one of the eight places is the sign's.
      intro hnil
      obtain ⟨rfl, hzeros⟩ := List.append_eq_nil_iff.mp hnil
      rcases hplus with rfl | rfl <;> exact absurd hzeros (by decide)
    · rw [hv, hpad]

theorem toNat_SAT : SAT.toNat = 10 ^ 8 := by decide

theorem elim_eq_ok {r : Option UInt64} {message : String} {a : UInt64} :
    r.elim (throw message) pure = (Except.ok a : Except String UInt64) ↔ r = some a := by
  cases r with
  | none =>
    constructor <;> intro h <;> cases h
  | some b =>
    constructor <;> intro h <;> cases h <;> rfl

theorem partsToAtoms_eq_ok {int frac : List Char} {a : UInt64} :
    partsToAtoms int frac = .ok a ↔ byteLen frac ≤ 8 ∧ ∃ n m, parseU64 int = some n ∧
      parseU64 (frac ++ List.replicate (8 - byteLen frac) '0') = some m ∧
      a.toNat = n.toNat * 10 ^ 8 + m.toNat := by
  unfold partsToAtoms
  by_cases hlen : byteLen frac > 8
  · rw [if_pos hlen]
    constructor
    · intro h
      cases h
    · rintro ⟨hle, _⟩
      omega
  · -- Eight places are never empty, so the branch for an empty fraction is not taken.
    have hpadded : (frac ++ List.replicate (8 - byteLen frac) '0').isEmpty = false := by
      cases frac with
      | nil => rfl
      | cons c cs => rfl
    have hle : byteLen frac ≤ 8 := Nat.not_lt.mp hlen
    rw [if_neg hlen]
    simp only [hpadded, Bool.false_eq_true, if_false, hle, true_and]
    cases parseU64 int with
    | none =>
      constructor
      · intro h
        cases h
      · rintro ⟨n, m, hn, _⟩
        cases hn
    | some n =>
      cases parseU64 (frac ++ List.replicate (8 - byteLen frac) '0') with
      | none =>
        constructor
        · intro h
          cases h
        · rintro ⟨n, m, _, hm, _⟩
          cases hm
      | some m =>
        simp only [Option.elim_some, pure_bind]
        rw [elim_eq_ok, Option.bind_eq_some_iff]
        simp only [checkedMul_eq_some, checkedAdd_eq_some, toNat_SAT, Option.some.injEq]
        constructor
        · rintro ⟨b, hb, ha⟩
          exact ⟨n, m, rfl, rfl, by rw [ha, hb]⟩
        · rintro ⟨_, _, rfl, rfl, ha⟩
          have hlt := a.toNat_lt
          have hb := UInt64.toNat_ofNat_of_lt' (show n.toNat * 10 ^ 8 < 2 ^ 64 by omega)
          exact ⟨_, hb, by rw [hb, ha]⟩

/-- An amount that is accepted is one with signs, and no other text is accepted. -/
theorem txmToAtoms_eq_ok {s : String} {a : UInt64} :
    txmToAtoms s = .ok a ↔ ∃ plus int plus' frac, Signed (trim s.toList) plus int plus' frac ∧
      a.toNat = signedAtoms int plus' frac := by
  unfold txmToAtoms
  dsimp only
  constructor
  · intro h
    cases hsplit : splitOnce '.' (trim s.toList) with
    | none =>
      rw [hsplit] at h
      obtain ⟨_, n, m, hn, hm, ha⟩ := partsToAtoms_eq_ok.mp h
      obtain ⟨plus, int, hplus, hne, hint, htext, hnval⟩ := parseU64_eq_some.mp hn
      -- Without a dot there are eight zeros.
      have hm : m = 0 := Option.some.inj (hm.symm.trans (by decide))
      refine ⟨plus, int, [], [], ?_, ?_⟩
      · rw [htext]
        exact Signed.whole hplus hne hint
      · rw [ha, hm, hnval]
        simp [signedAtoms]
    | some parts =>
      rw [hsplit] at h
      obtain ⟨hlen, n, m, hn, hm, ha⟩ := partsToAtoms_eq_ok.mp h
      obtain ⟨plus, int, hplus, hne, hint, hbefore, hnval⟩ := parseU64_eq_some.mp hn
      obtain ⟨plus', frac, hplus', hfrac, hafter, hmval⟩ := (parse_padded hlen).mp hm
      rw [hafter, byteLen_signed hplus' hfrac] at hlen
      refine ⟨plus, int, plus', frac, ?_, ?_⟩
      · rw [(splitOnce_eq_some.mp hsplit).2, hbefore, hafter]
        exact Signed.fraction hplus hne hint hplus' hfrac hlen
      · rw [ha, hnval, hmval, hafter]
        rfl
  · rintro ⟨plus, int, plus', frac, htext, ha⟩
    generalize trim s.toList = text at htext ⊢
    cases htext with
    | whole hplus hne hint =>
      rw [splitOnce_eq_none.mpr (signed_no_dot hplus hint)]
      have hlt := a.toNat_lt
      have hn := UInt64.toNat_ofNat_of_lt' (show Nat.ofDigitChars 10 int 0 < 2 ^ 64 by
        unfold signedAtoms at ha
        omega)
      refine partsToAtoms_eq_ok.mpr ⟨by decide, _, 0,
        parseU64_eq_some.mpr ⟨plus, int, hplus, hne, hint, rfl, hn⟩, by decide, ?_⟩
      rw [ha, hn]
      simp [signedAtoms]
    | fraction hplus hne hint hplus' hfrac hlen =>
      rw [splitOnce_eq_some.mpr ⟨signed_no_dot hplus hint, rfl⟩]
      have hlt := a.toNat_lt
      unfold signedAtoms at ha
      have hn := UInt64.toNat_ofNat_of_lt' (show Nat.ofDigitChars 10 int 0 < 2 ^ 64 by omega)
      have hm := UInt64.toNat_ofNat_of_lt' (show Nat.ofDigitChars 10 frac 0 *
        10 ^ (8 - (plus' ++ frac).length) < 2 ^ 64 by omega)
      have hbytes : byteLen (plus' ++ frac) ≤ 8 := by rwa [byteLen_signed hplus' hfrac]
      refine partsToAtoms_eq_ok.mpr ⟨hbytes, _, _,
        parseU64_eq_some.mpr ⟨plus, int, hplus, hne, hint, rfl, hn⟩,
        (parse_padded hbytes).mpr ⟨plus', frac, hplus', hfrac, rfl, hm⟩, ?_⟩
      rw [ha, hn, hm]

/-! ## Signs -/

theorem Decimal.signed {text int frac : List Char} (h : Decimal text int frac) :
    Signed text [] int [] frac := by
  cases h with
  | whole hne hint => exact Signed.whole (Or.inl rfl) hne hint
  | fraction hne hint hfrac hlen =>
    exact Signed.fraction (Or.inl rfl) hne hint (Or.inl rfl) hfrac hlen

theorem Signed.decimal {text int frac : List Char} (h : Signed text [] int [] frac) :
    Decimal text int frac := by
  cases h with
  | whole _ hne hint => exact Decimal.whole hne hint
  | fraction _ hne hint _ hfrac hlen => exact Decimal.fraction hne hint hfrac hlen

theorem Decimal.length_le {text int frac : List Char} (h : Decimal text int frac) :
    frac.length ≤ 8 := by
  cases h with
  | whole => exact Nat.zero_le _
  | fraction _ _ _ hlen => exact hlen

theorem plus_not_mem_digits {cs : List Char} (h : Digits cs) : '+' ∉ cs := by
  intro hmem
  exact absurd (h _ hmem) (by decide)

theorem Decimal.plus_not_mem {text int frac : List Char} (h : Decimal text int frac) :
    '+' ∉ text := by
  cases h with
  | whole _ hint => exact plus_not_mem_digits hint
  | fraction _ hint hfrac _ =>
    rw [List.mem_append, List.mem_cons, not_or, not_or]
    exact ⟨plus_not_mem_digits hint, by decide, plus_not_mem_digits hfrac⟩

theorem Sign.plus_mem {cs : List Char} (h : Sign cs) (hne : cs ≠ []) : '+' ∈ cs := by
  rcases h with rfl | rfl
  · exact absurd rfl hne
  · exact List.mem_singleton_self _

theorem Signed.plus_mem {text plus int plus' frac : List Char}
    (h : Signed text plus int plus' frac) (hsign : plus ≠ [] ∨ plus' ≠ []) : '+' ∈ text := by
  cases h with
  | whole hplus =>
    have hne : plus ≠ [] := hsign.resolve_right fun h => h rfl
    exact List.mem_append_left _ (hplus.plus_mem hne)
  | fraction hplus _ _ hplus' =>
    rcases hsign with hne | hne
    · exact List.mem_append_left _ (List.mem_append_left _ (hplus.plus_mem hne))
    · exact List.mem_append_right _
        (List.mem_cons_of_mem _ (List.mem_append_left _ (hplus'.plus_mem hne)))

/-- Without signs the atoms are the value times 10^8. -/
theorem signedAtoms_eq_amount {int frac : List Char} (hlen : frac.length ≤ 8) :
    (signedAtoms int [] frac : ℚ) = amount int frac * 10 ^ 8 := by
  have hpow : (10 : ℚ) ^ 8 = 10 ^ frac.length * 10 ^ (8 - frac.length) := by
    rw [← pow_add, Nat.add_sub_cancel' hlen]
  unfold signedAtoms amount
  push_cast
  rw [add_mul, List.nil_append]
  congr 1
  rw [hpow]
  field_simp

theorem readExactly_iff (s : String) : ReadExactly s ↔ ¬ PlusSigned (trim s.toList) := by
  constructor
  · rintro hexact ⟨plus, int, plus', frac, hsigned, hsign, hfits⟩
    -- The text is read as an amount, but it has a sign, and the grammar has none.
    have hok : txmToAtoms s = .ok (UInt64.ofNat (signedAtoms int plus' frac)) :=
      txmToAtoms_eq_ok.mpr ⟨plus, int, plus', frac, hsigned, UInt64.toNat_ofNat_of_lt' hfits⟩
    obtain ⟨_, _, hdecimal, _⟩ := (hexact _).mp hok
    exact hdecimal.plus_not_mem (hsigned.plus_mem hsign)
  · intro hunsigned a
    rw [txmToAtoms_eq_ok]
    constructor
    · rintro ⟨plus, int, plus', frac, hsigned, ha⟩
      have hnone : ¬ (plus ≠ [] ∨ plus' ≠ []) := by
        intro hsign
        exact hunsigned ⟨plus, int, plus', frac, hsigned, hsign, ha ▸ a.toNat_lt⟩
      rw [not_or, not_not, not_not] at hnone
      obtain ⟨rfl, rfl⟩ := hnone
      have hdecimal := hsigned.decimal
      exact ⟨int, frac, hdecimal, by rw [ha, signedAtoms_eq_amount hdecimal.length_le]⟩
    · rintro ⟨int, frac, hdecimal, ha⟩
      refine ⟨[], int, [], frac, hdecimal.signed, ?_⟩
      rw [← signedAtoms_eq_amount hdecimal.length_le] at ha
      exact_mod_cast ha

/-! ## Rendering -/

theorem trim_eq_self {cs : List Char} (h : ∀ c ∈ cs, isWhitespace c = false) :
    trim cs = cs := by
  have hdrop : cs.dropWhile isWhitespace = cs := by
    rw [List.dropWhile_eq_self_iff]
    intro hl
    rw [h _ (List.getElem_mem hl)]
    decide
  unfold trim
  rw [hdrop, List.rdropWhile_eq_self_iff]
  intro hl
  rw [h _ (List.getLast_mem hl)]
  decide

theorem digit_not_space {c : Char} (h : c.isDigit) : isWhitespace c = false := by
  have hdigit : 48 ≤ c.toNat ∧ c.toNat ≤ 57 := Char.isDigit_iff_toNat.mp h
  unfold isWhitespace
  simp only [Bool.or_eq_false_iff, Bool.and_eq_false_iff, decide_eq_false_iff_not]
  omega

theorem Decimal.trim_eq {text int frac : List Char} (h : Decimal text int frac) :
    trim text = text := by
  apply trim_eq_self
  intro c hc
  cases h with
  | whole _ hint => exact digit_not_space (hint c hc)
  | fraction _ hint hfrac _ =>
    rcases List.mem_append.mp hc with hc | hc
    · exact digit_not_space (hint c hc)
    · rcases List.mem_cons.mp hc with rfl | hc
      · decide
      · exact digit_not_space (hfrac c hc)

theorem digits_toDigits (n : Nat) : Digits (Nat.toDigits 10 n) := by
  intro c hc
  exact Nat.isDigit_of_mem_toDigits (by decide) (by decide) hc

theorem txmToAtoms_atomsToTxmStr (a : UInt64) : txmToAtoms (atomsToTxmStr a) = .ok a := by
  have hrem : (a % SAT).toNat < 10 ^ 8 := by
    rw [UInt64.toNat_mod, toNat_SAT]
    exact Nat.mod_lt _ (by decide)
  have hlen : (Nat.toDigits 10 (a % SAT).toNat).length ≤ 8 :=
    (Nat.length_toDigits_le_iff (by decide) (by decide)).mpr hrem
  have hpadded : ((Nat.toDigits 10 (a % SAT).toNat).leftpad 8 '0').length = 8 := by
    rw [List.leftpad, List.length_append, List.length_replicate]
    omega
  have hdecimal : Decimal (Nat.toDigits 10 (a / SAT).toNat ++
      '.' :: (Nat.toDigits 10 (a % SAT).toNat).leftpad 8 '0') _ _ :=
    Decimal.fraction Nat.toDigits_ne_nil (digits_toDigits _)
      (Digits.append_iff.mpr ⟨digits_zeros _, digits_toDigits _⟩) hpadded.le
  have htext : (atomsToTxmStr a).toList = Nat.toDigits 10 (a / SAT).toNat ++
      '.' :: (Nat.toDigits 10 (a % SAT).toNat).leftpad 8 '0' := by
    unfold atomsToTxmStr
    rw [String.toList_append, String.toList_append, Nat.toString_eq_ofList_toDigits]
    simp only [String.toList_ofList, List.append_assoc]
    rfl
  rw [txmToAtoms_eq_ok, htext, hdecimal.trim_eq]
  refine ⟨[], _, [], _, hdecimal.signed, ?_⟩
  unfold signedAtoms
  rw [List.nil_append, hpadded, Nat.ofDigitChars_ten_toDigits, List.leftpad,
    Nat.ofDigitChars_append, Nat.ofDigitChars_replicate_zero, Nat.mul_zero,
    Nat.ofDigitChars_ten_toDigits, UInt64.toNat_div, UInt64.toNat_mod, toNat_SAT,
    Nat.sub_self, Nat.pow_zero, Nat.mul_one, Nat.div_add_mod']

/-- An amount is read exactly unless it has a plus sign, and what is rendered is read
    back. -/
theorem amounts_exact_iff (s : String) (a : UInt64) :
    (ReadExactly s ↔ ¬ PlusSigned (trim s.toList)) ∧ txmToAtoms (atomsToTxmStr a) = .ok a :=
  ⟨readExactly_iff s, txmToAtoms_atomsToTxmStr a⟩

/-- The text `1.+5` is read as 1.05. -/
theorem sign_after_dot : ¬ ∀ s, ReadExactly s := by
  intro hall
  have hok : txmToAtoms "1.+5" = .ok 105000000 := by decide
  obtain ⟨_, _, hdecimal, _⟩ := (hall "1.+5" 105000000).mp hok
  exact hdecimal.plus_not_mem (by decide)

end Adapter

end Tensorium
