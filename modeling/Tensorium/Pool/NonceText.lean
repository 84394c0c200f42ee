import Tensorium.Assets.Lossy
import Tensorium.Miner.SameHeader

/-! # Nonces as clients send them

    `le_hex_to_u64` slices the text of a client two bytes at a time. A slice panics if it
    ends inside a character, so what counts are the characters that take more than one
    byte, and where they stand.
-/

namespace Tensorium

open ByteCodec Assets Miner

/-! ## The bytes of a character -/

/-- A continuation byte, which no character begins with. -/
def Continues (b : UInt8) : Prop := 128 ≤ b ∧ b < 192

theorem continues_byte (n : Nat) : Continues (UInt8.ofNat (n % 0x40 + 0x80)) := by
  unfold Continues
  rw [UInt8.le_iff_toNat_le, UInt8.lt_iff_toNat_lt, toNat_byte (by omega)]
  exact ⟨show 128 ≤ _ by omega, show _ < 192 by omega⟩

/-- The bytes of a character: one that is its code, or a first byte of 192 or more and
    continuation bytes. -/
structure CharBytes (c : Char) (b : UInt8) (tail : Bytes) : Prop where
  bytes : String.utf8EncodeChar c = b :: tail
  first : tail = [] ∧ b = UInt8.ofNat c.toNat ∧ c.toNat ≤ 0x7f ∨ tail ≠ [] ∧ 192 ≤ b
  later : ∀ t ∈ tail, Continues t

theorem charBytes (c : Char) : ∃ b tail, CharBytes c b tail := by
  have hhigh : ∀ n, 0xc0 ≤ n → n < 256 → 192 ≤ UInt8.ofNat n := by
    intro n hlow hlt
    rw [UInt8.le_iff_toNat_le, toNat_byte hlt]
    exact hlow
  by_cases hone : c.toNat ≤ 0x7f
  · exact ⟨_, _, (reads_one hone).bytes, Or.inl ⟨rfl, rfl, hone⟩, by simp⟩
  · by_cases htwo : c.toNat ≤ 0x7ff
    · exact ⟨_, _, (reads_two (by omega) htwo).bytes,
        Or.inr ⟨List.cons_ne_nil _ _, hhigh _ (by omega) (by omega)⟩,
        List.forall_mem_singleton.mpr (continues_byte _)⟩
    · by_cases hthree : c.toNat ≤ 0xffff
      · exact ⟨_, _, (reads_three (by omega) hthree).bytes,
          Or.inr ⟨List.cons_ne_nil _ _, hhigh _ (by omega) (by omega)⟩,
          List.forall_mem_cons.mpr ⟨continues_byte _,
            List.forall_mem_singleton.mpr (continues_byte _)⟩⟩
      · exact ⟨_, _, (reads_four (by omega)).bytes,
          Or.inr ⟨List.cons_ne_nil _ _, hhigh _ (by omega) (by omega)⟩,
          List.forall_mem_cons.mpr ⟨continues_byte _, List.forall_mem_cons.mpr ⟨continues_byte _,
            List.forall_mem_singleton.mpr (continues_byte _)⟩⟩⟩

theorem CharBytes.not_continues {c : Char} {b : UInt8} {tail : Bytes} (h : CharBytes c b tail) :
    b < 128 ∨ 192 ≤ b := by
  rcases h.first with ⟨_, rfl, hascii⟩ | ⟨_, hlead⟩
  · left
    rw [UInt8.lt_iff_toNat_lt, toNat_byte (by omega)]
    exact Nat.lt_succ_of_le hascii
  · exact Or.inr hlead

theorem CharBytes.size {c : Char} {b : UInt8} {tail : Bytes} (h : CharBytes c b tail) :
    c.utf8Size = tail.length + 1 := by
  rw [← String.length_utf8EncodeChar, h.bytes, List.length_cons]

/-- Characters begin at boundaries. -/
theorem isCharBoundary_start (pre : Bytes) (cs : List Char) :
    isCharBoundary (pre ++ utf8 cs) pre.length = true := by
  unfold isCharBoundary
  cases cs with
  | nil => simp
  | cons c cs =>
    obtain ⟨b, tail, hchar⟩ := charBytes c
    rw [utf8_cons, hchar.bytes, List.getElem?_append_right le_rfl, Nat.sub_self]
    have hb := hchar.not_continues
    simp [hb]

/-- Inside a character there is none. -/
theorem isCharBoundary_inside (pre rest : Bytes) (c : Char) {k : Nat} (hk : 0 < k)
    (hlt : k < c.utf8Size) :
    isCharBoundary (pre ++ (String.utf8EncodeChar c ++ rest)) (pre.length + k) = false := by
  obtain ⟨b, tail, hchar⟩ := charBytes c
  rw [hchar.size] at hlt
  obtain ⟨j, rfl⟩ := Nat.exists_eq_succ_of_ne_zero hk.ne'
  have hj : j < tail.length := by omega
  have hget : (pre ++ (String.utf8EncodeChar c ++ rest))[pre.length + (j + 1)]? = some tail[j] := by
    rw [List.getElem?_append_right (by omega), Nat.add_sub_cancel_left, hchar.bytes,
      List.cons_append, List.getElem?_cons_succ, List.getElem?_append_left hj,
      List.getElem?_eq_getElem hj]
  have hcontinues := hchar.later _ (List.getElem_mem hj)
  have hnot : ¬ (tail[j] < 128 ∨ 192 ≤ tail[j]) := by
    rw [UInt8.lt_iff_toNat_lt, UInt8.le_iff_toNat_le]
    have hlow : 128 ≤ tail[j].toNat := UInt8.le_iff_toNat_le.mp hcontinues.1
    have hupper : tail[j].toNat < 192 := UInt8.lt_iff_toNat_lt.mp hcontinues.2
    rintro (hlt | hle)
    · exact absurd hlt (Nat.not_lt.mpr hlow)
    · exact absurd hupper (Nat.not_lt.mpr hle)
  unfold isCharBoundary
  rw [hget]
  simp only [decide_eq_false hnot, Bool.or_false, beq_eq_false_iff_ne]
  omega

theorem size_one {c : Char} (h : c.utf8Size = 1) :
    String.utf8EncodeChar c = [UInt8.ofNat c.toNat] ∧ c.toNat ≤ 0x7f := by
  obtain ⟨b, tail, hchar⟩ := charBytes c
  rcases hchar.first with ⟨hnil, hb, hascii⟩ | ⟨hne, _⟩
  · exact ⟨by rw [hchar.bytes, hnil, hb], hascii⟩
  · have hsize := hchar.size
    exact absurd (List.length_eq_zero_iff.mp (by omega)) hne

/-! ## Pairs of digits -/

/-- `from_str_radix` makes a byte of the two characters. -/
def ReadsAsByte (c d : Char) : Prop :=
  ((hexValue c).isSome ∨ c = '+') ∧ (hexValue d).isSome

theorem hexValue_ascii {c : Char} (h : (hexValue c).isSome) : c.utf8Size = 1 := by
  have hle : c ≤ 'f' := by
    unfold hexValue at h
    split_ifs at h with hdigit hlower hupper
    · exact hdigit.2.trans (by decide)
    · exact hlower.2
    · exact hupper.2.trans (by decide)
    · cases h
  unfold Char.utf8Size
  exact if_pos (UInt32.le_trans hle (by decide))

theorem ReadsAsByte.ascii {c d : Char} (h : ReadsAsByte c d) :
    c.utf8Size = 1 ∧ d.utf8Size = 1 := by
  refine ⟨?_, hexValue_ascii h.2⟩
  rcases h.1 with hc | rfl
  · exact hexValue_ascii hc
  · rfl

theorem fromStrRadix16_chars {c d : Char} (hc : c.toNat ≤ 0x7f) (hd : d.toNat ≤ 0x7f) :
    (fromStrRadix16 [UInt8.ofNat c.toNat, UInt8.ofNat d.toNat]).isSome = true ↔
      ReadsAsByte c d := by
  have hplus : UInt8.ofNat c.toNat = 43 ↔ c = '+' := by
    rw [← UInt8.toNat_inj, toNat_byte (by omega)]
    constructor
    · intro h
      rw [← Char.ofNat_toNat c, h]
      rfl
    · rintro rfl
      rfl
  unfold fromStrRadix16 ReadsAsByte
  simp only [hplus, toNat_byte (show c.toNat < 256 by omega),
    toNat_byte (show d.toNat < 256 by omega), Char.ofNat_toNat]
  cases hexValue d with
  | none => simp
  | some l =>
    by_cases hsign : c = '+'
    · simp [hsign]
    · cases hexValue c <;> simp [hsign]

/-- The first slice of two bytes ends inside a character: the text begins with a
    character of three bytes or more, or a longer one is behind one of a byte. -/
inductive CutAhead : List Char → Prop
  | first {c : Char} {cs : List Char} : 3 ≤ c.utf8Size → CutAhead (c :: cs)
  | second {c d : Char} {cs : List Char} : c.utf8Size = 1 → 2 ≤ d.utf8Size → CutAhead (c :: d :: cs)

/-- One of the first `n` slices of two bytes ends inside a character, and all before it
    are read. -/
inductive Cut : Nat → List Char → Prop
  | ahead {n : Nat} {cs : List Char} : CutAhead cs → Cut (n + 1) cs
  | behind {n : Nat} {c d : Char} {cs : List Char} : ReadsAsByte c d → Cut n cs →
      Cut (n + 1) (c :: d :: cs)

theorem not_cut_short {n : Nat} {cs : List Char} (h : (utf8 cs).length < 2) : ¬ Cut n cs := by
  rintro (hahead | ⟨hreads, _⟩)
  · cases hahead with
    | first hsize =>
      rw [utf8_cons, List.length_append, String.length_utf8EncodeChar] at h
      omega
    | second _ hsize =>
      rw [utf8_cons, utf8_cons, List.length_append, List.length_append,
        String.length_utf8EncodeChar, String.length_utf8EncodeChar] at h
      omega
  · obtain ⟨hc, hd⟩ := hreads.ascii
    rw [utf8_cons, utf8_cons, List.length_append, List.length_append,
      String.length_utf8EncodeChar, String.length_utf8EncodeChar] at h
    omega

theorem not_cut_two {n : Nat} {c : Char} {cs : List Char} (hc : c.utf8Size = 2) :
    ¬ Cut n (c :: cs) := by
  rintro (⟨hwide | hone⟩ | ⟨hreads, _⟩)
  · omega
  · omega
  · have hone := hreads.ascii.1
    omega

theorem cut_pair_iff {n : Nat} {c d : Char} {cs : List Char} (hc : c.utf8Size = 1)
    (hd : d.utf8Size = 1) : Cut (n + 1) (c :: d :: cs) ↔ ReadsAsByte c d ∧ Cut n cs := by
  constructor
  · rintro (⟨hwide | ⟨_, hwide⟩⟩ | ⟨hreads, hcut⟩)
    · omega
    · omega
    · exact ⟨hreads, hcut⟩
  · rintro ⟨hreads, hcut⟩
    exact .behind hreads hcut

/-! ## The loop -/

/-- A continuation byte is no digit. -/
theorem fromStrRadix16_continues (b : UInt8) {t : UInt8} (ht : Continues t) :
    fromStrRadix16 [b, t] = none := by
  have hnone : ∀ n < 256, 128 ≤ n → hexValue (Char.ofNat n) = none := by decide +kernel
  have hlow : 128 ≤ t.toNat := UInt8.le_iff_toNat_le.mp ht.1
  unfold fromStrRadix16
  dsimp only
  rw [hnone t.toNat t.toNat_lt hlow]
  rfl

/-- The slice of a character of two bytes is no number, and nothing is cut. -/
theorem leHexLoop_two {pre : Bytes} {c : Char} {cs : List Char} {i : Nat} (k : Nat)
    (parsed : Bytes) (hpre : pre.length = i * 2) (hc : c.utf8Size = 2) :
    leHexLoop (pre ++ utf8 (c :: cs)) (k + 1) i parsed = some none := by
  obtain ⟨b, tail, hchar⟩ := charBytes c
  have hsize := hchar.size
  obtain ⟨t, rfl⟩ : ∃ t, tail = [t] := List.length_eq_one_iff.mp (by omega)
  have hstart := isCharBoundary_start pre (c :: cs)
  have hend := isCharBoundary_start (pre ++ [b, t]) cs
  rw [List.length_append, hpre] at hend
  rw [hpre] at hstart
  rw [utf8_cons, hchar.bytes] at hstart ⊢
  have hslice : ((pre ++ ([b, t] ++ utf8 cs)).drop (i * 2)).take 2 = [b, t] := by
    rw [← hpre, List.drop_left]
    rfl
  rw [List.append_assoc] at hend
  rw [leHexLoop, hstart, show i * 2 + 2 = i * 2 + [b, t].length from rfl, hend, hslice,
    fromStrRadix16_continues b (hchar.later t List.mem_cons_self)]
  rfl

/-- The slice of two characters of one byte. -/
theorem leHexLoop_pair {pre : Bytes} {c d : Char} {cs : List Char} {i : Nat} (k : Nat)
    (parsed : Bytes) (hpre : pre.length = i * 2) (hc : c.utf8Size = 1) (hd : d.utf8Size = 1) :
    leHexLoop (pre ++ utf8 (c :: d :: cs)) (k + 1) i parsed
      = match fromStrRadix16 [UInt8.ofNat c.toNat, UInt8.ofNat d.toNat] with
        | none => some none
        | some b => leHexLoop ((pre ++ [UInt8.ofNat c.toNat, UInt8.ofNat d.toNat]) ++ utf8 cs) k
            (i + 1) (parsed ++ [b]) := by
  have hstart := isCharBoundary_start pre (c :: d :: cs)
  have hend := isCharBoundary_start (pre ++ [UInt8.ofNat c.toNat, UInt8.ofNat d.toNat]) cs
  rw [List.length_append, hpre] at hend
  rw [hpre] at hstart
  have hbytes : utf8 (c :: d :: cs) = [UInt8.ofNat c.toNat, UInt8.ofNat d.toNat] ++ utf8 cs := by
    rw [utf8_cons, utf8_cons, (size_one hc).1, (size_one hd).1]
    rfl
  rw [hbytes] at hstart ⊢
  rw [← List.append_assoc] at hstart ⊢
  have hslice :
      (((pre ++ [UInt8.ofNat c.toNat, UInt8.ofNat d.toNat]) ++ utf8 cs).drop (i * 2)).take 2
      = [UInt8.ofNat c.toNat, UInt8.ofNat d.toNat] := by
    rw [List.append_assoc, ← hpre, List.drop_left]
    rfl
  rw [leHexLoop, hstart, show i * 2 + 2
    = i * 2 + [UInt8.ofNat c.toNat, UInt8.ofNat d.toNat].length from rfl, hend, hslice]
  rfl

/-- The loop panics exactly at a cut. Behind `i` pairs it has `n` pairs to go, or as many
    as there are. -/
theorem leHexLoop_eq_none_iff (n : Nat) {pre : Bytes} {cs : List Char} {i : Nat} (parsed : Bytes)
    (hpre : pre.length = i * 2) :
    leHexLoop (pre ++ utf8 cs) (min ((utf8 cs).length / 2) n) i parsed = none ↔ Cut n cs := by
  induction n generalizing pre cs i parsed with
  | zero =>
    rw [Nat.min_zero]
    exact ⟨fun h => (Option.some_ne_none _ h).elim, fun h => by cases h⟩
  | succ n ih =>
    by_cases hshort : (utf8 cs).length < 2
    · have hzero : min ((utf8 cs).length / 2) (n + 1) = 0 := by omega
      rw [hzero]
      exact ⟨fun h => (Option.some_ne_none _ h).elim, fun h => (not_cut_short hshort h).elim⟩
    · have hsucc : min ((utf8 cs).length / 2) (n + 1)
          = min (((utf8 cs).length - 2) / 2) n + 1 := by omega
      rw [hsucc]
      cases cs with
      | nil => exact absurd (by simp) hshort
      | cons c cs =>
        have hpos := c.utf8Size_pos
        obtain hwide | htwo | hone : 3 ≤ c.utf8Size ∨ c.utf8Size = 2 ∨ c.utf8Size = 1 := by omega
        · -- The slice ends inside the first character.
          have hinside := isCharBoundary_inside pre (utf8 cs) c (k := 2) (by omega) (by omega)
          rw [← utf8_cons, hpre] at hinside
          rw [leHexLoop, hinside, Bool.and_false]
          exact iff_of_true rfl (.ahead (.first hwide))
        · -- A character of two bytes fills the slice, and is no number.
          rw [leHexLoop_two _ _ hpre htwo]
          exact iff_of_false (Option.some_ne_none _) (not_cut_two htwo)
        · cases cs with
          | nil =>
            rw [utf8_cons, utf8_nil, List.append_nil, String.length_utf8EncodeChar] at hshort
            omega
          | cons d cs =>
            have hpos := d.utf8Size_pos
            by_cases hwide : 2 ≤ d.utf8Size
            · -- It ends inside the second one.
              have hinside := isCharBoundary_inside (pre ++ String.utf8EncodeChar c) (utf8 cs) d
                (k := 1) (by omega) (by omega)
              rw [List.append_assoc, ← utf8_cons, ← utf8_cons, List.length_append, hpre,
                String.length_utf8EncodeChar, hone] at hinside
              rw [leHexLoop, hinside, Bool.and_false]
              exact iff_of_true rfl (.ahead (.second hone hwide))
            · have hd : d.utf8Size = 1 := by omega
              have hlen : (utf8 (c :: d :: cs)).length - 2 = (utf8 cs).length := by
                rw [utf8_cons, utf8_cons, List.length_append, List.length_append,
                  String.length_utf8EncodeChar, String.length_utf8EncodeChar, hone, hd]
                omega
              have hreads := fromStrRadix16_chars (size_one hone).2 (size_one hd).2
              rw [leHexLoop_pair _ _ hpre hone hd, hlen, cut_pair_iff hone hd, ← hreads]
              cases hbyte : fromStrRadix16 [UInt8.ofNat c.toNat, UInt8.ofNat d.toNat] with
              | none => exact iff_of_false (Option.some_ne_none _) fun h => by cases h.1
              | some b =>
                have hnext : (pre ++ [UInt8.ofNat c.toNat, UInt8.ofNat d.toNat]).length
                    = (i + 1) * 2 := by
                  rw [List.length_append, hpre, Nat.succ_mul]
                  rfl
                dsimp only
                rw [ih _ hnext]
                exact (and_iff_right rfl).symm

/-! ## The whole text -/

/-- `trim_start_matches("0x")`, character by character. -/
def trimmed : List Char → List Char
  | '0' :: 'x' :: cs => trimmed cs
  | cs => cs

/-- A byte below 128 is a character. -/
theorem utf8_eq_cons {cs : List Char} {c : Char} {rest : Bytes} (hc : c.toNat ≤ 0x7f)
    (h : utf8 cs = UInt8.ofNat c.toNat :: rest) : ∃ ds, cs = c :: ds ∧ utf8 ds = rest := by
  cases cs with
  | nil => cases h
  | cons d ds =>
    obtain ⟨b, tail, hchar⟩ := charBytes d
    rw [utf8_cons, hchar.bytes, List.cons_append, List.cons.injEq] at h
    obtain ⟨hb, hrest⟩ := h
    have hbyte : b.toNat = c.toNat := by rw [hb, toNat_byte (by omega)]
    rcases hchar.first with ⟨rfl, hd, hascii⟩ | ⟨_, hlead⟩
    · have heq : d.toNat = c.toNat := by
        rw [← hbyte, hd, toNat_byte (by omega)]
      have hsame : d = c := by
        rw [← Char.ofNat_toNat d, heq, Char.ofNat_toNat]
      exact ⟨ds, by rw [hsame], hrest⟩
    · -- Any other first byte is 192 or more.
      have hlow : 192 ≤ b.toNat := UInt8.le_iff_toNat_le.mp hlead
      omega

theorem trimStart0x_utf8 (cs : List Char) : trimStart0x (utf8 cs) = utf8 (trimmed cs) := by
  fun_induction trimmed cs with
  | case1 cs ih => exact ih
  | case2 cs hnot =>
    unfold trimStart0x
    split
    · rename_i rest hbytes
      obtain ⟨ds, rfl, hds⟩ := utf8_eq_cons (c := '0') (by decide) hbytes
      obtain ⟨es, rfl, _⟩ := utf8_eq_cons (c := 'x') (by decide) hds
      exact absurd rfl (hnot es)
    · rfl

theorem leHexToU64_eq_none_iff (s : String) :
    leHexToU64 s = none ↔ Cut 8 (trimmed s.toList) := by
  unfold leHexToU64
  dsimp only
  rw [Option.map_eq_none_iff, asBytes_eq_utf8, trimStart0x_utf8]
  exact @leHexLoop_eq_none_iff 8 [] (trimmed s.toList) 0 [] rfl

/-- **A nonce is parsed unless a slice cuts a character.** Behind any number of `0x`, none
    of the first eight pairs of bytes may end inside a character, if all pairs before it
    are hexadecimal. What the miner writes is read back, also behind a `0x`. -/
theorem leHexToU64_total_iff (s : String) (nonce : UInt64) :
    ((∃ parsed, leHexToU64 s = some parsed) ↔ ¬ Cut 8 (trimmed s.toList)) ∧
      leHexToU64 (nonceToHex nonce) = some (some nonce) ∧
      leHexToU64 ("0x" ++ nonceToHex nonce) = some (some nonce) := by
  have htrim : trimStart0x (asBytes ("0x" ++ nonceToHex nonce))
      = trimStart0x (asBytes (nonceToHex nonce)) := by
    rw [asBytes_eq_utf8, asBytes_eq_utf8, String.toList_append]
    rfl
  have hprefixed : leHexToU64 ("0x" ++ nonceToHex nonce) = leHexToU64 (nonceToHex nonce) := by
    unfold leHexToU64
    rw [htrim]
  have hread := leHexToU64_nonceToHex nonce
  refine ⟨?_, hread, hprefixed.trans hread⟩
  rw [← leHexToU64_eq_none_iff, ← Option.ne_none_iff_exists']

/-- A character of three bytes. -/
theorem euro_sign_cut : leHexToU64 "€" = none ∧ Cut 8 (trimmed "€".toList) := by
  have hpanic : leHexToU64 "€" = none := by decide
  exact ⟨hpanic, (leHexToU64_eq_none_iff _).mp hpanic⟩

end Tensorium
