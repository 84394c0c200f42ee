import Tensorium.Core.Assets

/-! # What lossy decoding keeps

    `String::from_utf8_lossy` gives back the text whose bytes it reads. Of bytes
    that were cut off at a limit it gives back the whole characters, and one
    replacement for the part of a character that is left.
-/

namespace Tensorium

open ByteCodec

namespace Assets

/-- The bytes of some characters. -/
def utf8 (cs : List Char) : Bytes := cs.flatMap String.utf8EncodeChar

/-- `U+FFFD`. -/
def replacement : Char := Char.ofNat 0xfffd

@[simp] theorem utf8_nil : utf8 [] = [] := rfl

@[simp] theorem utf8_cons (c : Char) (cs : List Char) :
    utf8 (c :: cs) = String.utf8EncodeChar c ++ utf8 cs :=
  List.flatMap_cons

@[simp] theorem utf8_append (cs ds : List Char) : utf8 (cs ++ ds) = utf8 cs ++ utf8 ds :=
  List.flatMap_append

theorem asBytes_eq_utf8 (s : String) : asBytes s = utf8 s.toList := by
  have htext := String.toByteArray_ofList (l := s.toList)
  rw [String.ofList_toList] at htext
  unfold asBytes utf8
  rw [String.toUTF8_eq_toByteArray, htext, List.utf8Encode, List.data_toByteArray,
    List.toList_toArray]

/-! ## One character -/

/-- The width of a sequence, by the value of its first byte. -/
theorem utf8CharWidth_byte {n : Nat} (h : n < 256) : utf8CharWidth (UInt8.ofNat n)
    = if n < 0x80 then 1 else if 0xc2 ≤ n ∧ n ≤ 0xdf then 2
      else if 0xe0 ≤ n ∧ n ≤ 0xef then 3 else if 0xf0 ≤ n ∧ n ≤ 0xf4 then 4 else 0 := by
  unfold utf8CharWidth
  simp only [UInt8.lt_iff_toNat_lt, UInt8.le_iff_toNat_le, toNat_byte h, Bool.and_eq_true,
    decide_eq_true_eq]
  rfl

theorem isContinuation_byte {n : Nat} (hlow : 0x80 ≤ n) (hhigh : n ≤ 0xbf) :
    isContinuation (UInt8.ofNat n) = true := by
  unfold isContinuation
  simp only [UInt8.le_iff_toNat_le, toNat_byte (show n < 256 by omega), Bool.and_eq_true,
    decide_eq_true_eq]
  exact ⟨hlow, hhigh⟩

/-- The second byte of a sequence, by the values of the first two. -/
theorem secondByteOk_byte {m n : Nat} (hm : m < 256) (hlow : 0x80 ≤ n) (hhigh : n ≤ 0xbf)
    (he0 : m = 0xe0 → 0xa0 ≤ n) (hed : m = 0xed → n ≤ 0x9f) (hf0 : m = 0xf0 → 0x90 ≤ n)
    (hf4 : m = 0xf4 → n ≤ 0x8f) : secondByteOk (UInt8.ofNat m) (UInt8.ofNat n) = true := by
  have hbyte : ∀ k : Nat, k < 256 → (UInt8.ofNat m = UInt8.ofNat k ↔ m = k) := by
    intro k hk
    rw [← UInt8.toNat_inj, toNat_byte hm, toNat_byte hk]
  have hn : (UInt8.ofNat n).toNat = n := toNat_byte (by omega)
  -- Only four first bytes restrict the second one further.
  unfold secondByteOk
  split_ifs with h h h h
  · have := he0 ((hbyte 0xe0 (by omega)).mp h)
    simp only [UInt8.le_iff_toNat_le, hn, Bool.and_eq_true, decide_eq_true_eq]
    exact ⟨this, hhigh⟩
  · have := hed ((hbyte 0xed (by omega)).mp h)
    simp only [UInt8.le_iff_toNat_le, hn, Bool.and_eq_true, decide_eq_true_eq]
    exact ⟨hlow, this⟩
  · have := hf0 ((hbyte 0xf0 (by omega)).mp h)
    simp only [UInt8.le_iff_toNat_le, hn, Bool.and_eq_true, decide_eq_true_eq]
    exact ⟨this, hhigh⟩
  · have := hf4 ((hbyte 0xf4 (by omega)).mp h)
    simp only [UInt8.le_iff_toNat_le, hn, Bool.and_eq_true, decide_eq_true_eq]
    exact ⟨hlow, this⟩
  · exact isContinuation_byte hlow hhigh

theorem sixBits_byte {n : Nat} (h : n < 64) : sixBits (UInt8.ofNat (n + 0x80)) = n := by
  unfold sixBits
  rw [toNat_byte (by omega)]
  omega

/-- A character, and what is left of it after fewer bytes than it has. -/
structure Reads (c : Char) (b : UInt8) (tail : Bytes) : Prop where
  bytes : String.utf8EncodeChar c = b :: tail
  whole : ∀ rest, lossyChar b (tail ++ rest) = (c, tail.length + 1)
  cut : ∀ k < tail.length, lossyChar b (tail.take k) = (replacement, k + 1)

theorem reads_one {c : Char} (h : c.toNat ≤ 0x7f) : Reads c (UInt8.ofNat c.toNat) [] where
  bytes := by
    unfold String.utf8EncodeChar
    exact if_pos h
  whole rest := by
    have hwidth : utf8CharWidth (UInt8.ofNat c.toNat) = 1 := by
      rw [utf8CharWidth_byte (by omega), if_pos (by omega)]
    unfold lossyChar
    rw [hwidth]
    show (Char.ofNat (UInt8.ofNat c.toNat).toNat, 1) = (c, 1)
    rw [toNat_byte (by omega), Char.ofNat_toNat]
  cut k hk := absurd hk (Nat.not_lt_zero k)

theorem reads_two {c : Char} (hlow : 0x7f < c.toNat) (hhigh : c.toNat ≤ 0x7ff) :
    Reads c (UInt8.ofNat (c.toNat / 64 % 0x20 + 0xc0))
      [UInt8.ofNat (c.toNat % 0x40 + 0x80)] := by
  have hwidth : utf8CharWidth (UInt8.ofNat (c.toNat / 64 % 0x20 + 0xc0)) = 2 := by
    rw [utf8CharWidth_byte (by omega), if_neg (by omega), if_pos (by omega)]
  constructor
  · unfold String.utf8EncodeChar
    dsimp only
    exact (if_neg (by change ¬ c.toNat ≤ 0x7f; omega)).trans (if_pos hhigh)
  · intro rest
    unfold lossyChar
    rw [hwidth]
    show (if isContinuation (UInt8.ofNat (c.toNat % 0x40 + 0x80)) = true then
        (Char.ofNat ((UInt8.ofNat (c.toNat / 64 % 0x20 + 0xc0)).toNat % 32 * 64
          + sixBits (UInt8.ofNat (c.toNat % 0x40 + 0x80))), 2) else _) = (c, 2)
    rw [if_pos (isContinuation_byte (by omega) (by omega)), sixBits_byte (by omega),
      toNat_byte (by omega),
      show (c.toNat / 64 % 0x20 + 0xc0) % 32 * 64 + c.toNat % 0x40 = c.toNat by omega,
      Char.ofNat_toNat]
  · intro k hk
    obtain rfl : k = 0 := by simpa using hk
    unfold lossyChar
    rw [hwidth]
    rfl

theorem reads_three {c : Char} (hlow : 0x7ff < c.toNat) (hhigh : c.toNat ≤ 0xffff) :
    Reads c (UInt8.ofNat (c.toNat / 4096 % 0x10 + 0xe0))
      [UInt8.ofNat (c.toNat / 64 % 0x40 + 0x80), UInt8.ofNat (c.toNat % 0x40 + 0x80)] := by
  -- No character is a surrogate.
  have hvalid : c.toNat < 0xd800 ∨ 0xdfff < c.toNat ∧ c.toNat < 0x110000 := c.valid
  have hwidth : utf8CharWidth (UInt8.ofNat (c.toNat / 4096 % 0x10 + 0xe0)) = 3 := by
    rw [utf8CharWidth_byte (by omega), if_neg (by omega), if_neg (by omega), if_pos (by omega)]
  have hsecond : secondByteOk (UInt8.ofNat (c.toNat / 4096 % 0x10 + 0xe0))
      (UInt8.ofNat (c.toNat / 64 % 0x40 + 0x80)) = true :=
    secondByteOk_byte (by omega) (by omega) (by omega) (by omega) (by omega) (by omega) (by omega)
  constructor
  · unfold String.utf8EncodeChar
    dsimp only
    exact (if_neg (by change ¬ c.toNat ≤ 0x7f; omega)).trans
      ((if_neg (by change ¬ c.toNat ≤ 0x7ff; omega)).trans (if_pos hhigh))
  · intro rest
    unfold lossyChar
    rw [hwidth]
    show (if secondByteOk (UInt8.ofNat (c.toNat / 4096 % 0x10 + 0xe0))
          (UInt8.ofNat (c.toNat / 64 % 0x40 + 0x80)) = true then
        if isContinuation (UInt8.ofNat (c.toNat % 0x40 + 0x80)) = true then
          (Char.ofNat (((UInt8.ofNat (c.toNat / 4096 % 0x10 + 0xe0)).toNat % 16 * 64
            + sixBits (UInt8.ofNat (c.toNat / 64 % 0x40 + 0x80))) * 64
            + sixBits (UInt8.ofNat (c.toNat % 0x40 + 0x80))), 3) else _ else _) = (c, 3)
    rw [if_pos hsecond, if_pos (isContinuation_byte (by omega) (by omega)),
      sixBits_byte (by omega), sixBits_byte (by omega), toNat_byte (by omega),
      show ((c.toNat / 4096 % 0x10 + 0xe0) % 16 * 64 + c.toNat / 64 % 0x40) * 64
        + c.toNat % 0x40 = c.toNat by omega, Char.ofNat_toNat]
  · intro k hk
    unfold lossyChar
    rw [hwidth]
    -- One byte, or two of which the second is good.
    obtain rfl | rfl : k = 0 ∨ k = 1 := by simp at hk; omega
    · rfl
    · show (if secondByteOk _ (UInt8.ofNat (c.toNat / 64 % 0x40 + 0x80)) = true then _ else _) = _
      rw [if_pos hsecond]
      rfl

theorem reads_four {c : Char} (h : 0xffff < c.toNat) :
    Reads c (UInt8.ofNat (c.toNat / 262144 % 0x08 + 0xf0))
      [UInt8.ofNat (c.toNat / 4096 % 0x40 + 0x80), UInt8.ofNat (c.toNat / 64 % 0x40 + 0x80),
        UInt8.ofNat (c.toNat % 0x40 + 0x80)] := by
  have hvalid : c.toNat < 0xd800 ∨ 0xdfff < c.toNat ∧ c.toNat < 0x110000 := c.valid
  have hwidth : utf8CharWidth (UInt8.ofNat (c.toNat / 262144 % 0x08 + 0xf0)) = 4 := by
    rw [utf8CharWidth_byte (by omega), if_neg (by omega), if_neg (by omega), if_neg (by omega),
      if_pos (by omega)]
  have hsecond : secondByteOk (UInt8.ofNat (c.toNat / 262144 % 0x08 + 0xf0))
      (UInt8.ofNat (c.toNat / 4096 % 0x40 + 0x80)) = true :=
    secondByteOk_byte (by omega) (by omega) (by omega) (by omega) (by omega) (by omega) (by omega)
  have hthird : isContinuation (UInt8.ofNat (c.toNat / 64 % 0x40 + 0x80)) = true :=
    isContinuation_byte (by omega) (by omega)
  constructor
  · unfold String.utf8EncodeChar
    dsimp only
    exact (if_neg (by change ¬ c.toNat ≤ 0x7f; omega)).trans
      ((if_neg (by change ¬ c.toNat ≤ 0x7ff; omega)).trans
        (if_neg (by change ¬ c.toNat ≤ 0xffff; omega)))
  · -- Read as a whole: all three checks hold, and the bits give the code again.
    intro rest
    unfold lossyChar
    rw [hwidth]
    show (if secondByteOk (UInt8.ofNat (c.toNat / 262144 % 0x08 + 0xf0))
          (UInt8.ofNat (c.toNat / 4096 % 0x40 + 0x80)) = true then
        if isContinuation (UInt8.ofNat (c.toNat / 64 % 0x40 + 0x80)) = true then
          if isContinuation (UInt8.ofNat (c.toNat % 0x40 + 0x80)) = true then
            (Char.ofNat ((((UInt8.ofNat (c.toNat / 262144 % 0x08 + 0xf0)).toNat % 8 * 64
              + sixBits (UInt8.ofNat (c.toNat / 4096 % 0x40 + 0x80))) * 64
              + sixBits (UInt8.ofNat (c.toNat / 64 % 0x40 + 0x80))) * 64
              + sixBits (UInt8.ofNat (c.toNat % 0x40 + 0x80))), 4) else _ else _ else _) = (c, 4)
    rw [if_pos hsecond, if_pos hthird, if_pos (isContinuation_byte (by omega) (by omega)),
      sixBits_byte (by omega), sixBits_byte (by omega), sixBits_byte (by omega),
      toNat_byte (by omega),
      show (((c.toNat / 262144 % 0x08 + 0xf0) % 8 * 64 + c.toNat / 4096 % 0x40) * 64
        + c.toNat / 64 % 0x40) * 64 + c.toNat % 0x40 = c.toNat by omega, Char.ofNat_toNat]
  · -- Cut off behind the first, second or third byte.
    intro k hk
    unfold lossyChar
    rw [hwidth]
    obtain rfl | rfl | rfl : k = 0 ∨ k = 1 ∨ k = 2 := by simp at hk; omega
    · rfl
    · show (if secondByteOk _ (UInt8.ofNat (c.toNat / 4096 % 0x40 + 0x80)) = true then _ else _) = _
      rw [if_pos hsecond]
      rfl
    · show (if secondByteOk _ (UInt8.ofNat (c.toNat / 4096 % 0x40 + 0x80)) = true then
        if isContinuation (UInt8.ofNat (c.toNat / 64 % 0x40 + 0x80)) = true then _ else _ else _) = _
      rw [if_pos hsecond, if_pos hthird]
      rfl

theorem reads (c : Char) : ∃ b tail, Reads c b tail := by
  by_cases hone : c.toNat ≤ 0x7f
  · exact ⟨_, _, reads_one hone⟩
  · by_cases htwo : c.toNat ≤ 0x7ff
    · exact ⟨_, _, reads_two (by omega) htwo⟩
    · by_cases hthree : c.toNat ≤ 0xffff
      · exact ⟨_, _, reads_three (by omega) hthree⟩
      · exact ⟨_, _, reads_four (by omega)⟩

/-! ## A text -/

/-- The loop reads a character and goes on behind it. -/
theorem fromUtf8LossyLoop_char (c : Char) (rest : Bytes) {fuel : Nat}
    (hfuel : (String.utf8EncodeChar c ++ rest).length ≤ fuel) :
    ∃ fuel', rest.length ≤ fuel' ∧ fromUtf8LossyLoop fuel (String.utf8EncodeChar c ++ rest)
      = c :: fromUtf8LossyLoop fuel' rest := by
  obtain ⟨b, tail, hreads⟩ := reads c
  rw [hreads.bytes, List.cons_append, List.length_cons, List.length_append] at hfuel
  obtain ⟨fuel', rfl⟩ : ∃ fuel', fuel = fuel' + 1 := ⟨fuel - 1, by omega⟩
  refine ⟨fuel', by omega, ?_⟩
  rw [hreads.bytes, List.cons_append]
  show (lossyChar b (tail ++ rest)).1
      :: fromUtf8LossyLoop fuel' ((tail ++ rest).drop ((lossyChar b (tail ++ rest)).2 - 1)) = _
  rw [hreads.whole rest, Nat.add_sub_cancel, List.drop_left]

theorem fromUtf8LossyLoop_chars (cs : List Char) (rest : Bytes) {fuel : Nat}
    (hfuel : (utf8 cs ++ rest).length ≤ fuel) :
    ∃ fuel', rest.length ≤ fuel' ∧
      fromUtf8LossyLoop fuel (utf8 cs ++ rest) = cs ++ fromUtf8LossyLoop fuel' rest := by
  induction cs generalizing fuel with
  | nil => exact ⟨fuel, hfuel, rfl⟩
  | cons c cs ih =>
    rw [utf8_cons, List.append_assoc] at hfuel ⊢
    obtain ⟨fuel₁, hfuel₁, hchar⟩ := fromUtf8LossyLoop_char c (utf8 cs ++ rest) hfuel
    obtain ⟨fuel₂, hfuel₂, hchars⟩ := ih hfuel₁
    exact ⟨fuel₂, hfuel₂, by rw [hchar, hchars, List.cons_append]⟩

/-- The loop has nothing left to read. -/
theorem fromUtf8LossyLoop_nil (fuel : Nat) : fromUtf8LossyLoop fuel [] = [] := by
  unfold fromUtf8LossyLoop
  rfl

/-- Valid bytes are read as the text they encode. -/
theorem fromUtf8Lossy_utf8 (cs : List Char) : fromUtf8Lossy (utf8 cs) = String.ofList cs := by
  have hfuel : (utf8 cs ++ []).length ≤ (utf8 cs).length := by simp
  obtain ⟨fuel, _, hloop⟩ := fromUtf8LossyLoop_chars cs [] hfuel
  rw [List.append_nil, fromUtf8LossyLoop_nil, List.append_nil] at hloop
  unfold fromUtf8Lossy
  rw [hloop]

theorem fromUtf8Lossy_asBytes (s : String) : fromUtf8Lossy (asBytes s) = s := by
  rw [asBytes_eq_utf8, fromUtf8Lossy_utf8, String.ofList_toList]

/-- The part of a character that is left at the end is read as the replacement. -/
theorem fromUtf8Lossy_cut (cs : List Char) (c : Char) {k : Nat} (hpos : 0 < k)
    (hcut : k < (String.utf8EncodeChar c).length) :
    fromUtf8Lossy (utf8 cs ++ (String.utf8EncodeChar c).take k)
      = String.ofList (cs ++ [replacement]) := by
  obtain ⟨b, tail, hreads⟩ := reads c
  -- The first byte announces more than there is: one replacement for all of it.
  obtain ⟨j, rfl⟩ : ∃ j, k = j + 1 := ⟨k - 1, by omega⟩
  rw [hreads.bytes, List.length_cons] at hcut
  have hlast : (String.utf8EncodeChar c).take (j + 1) = b :: tail.take j := by
    rw [hreads.bytes, List.take_succ_cons]
  obtain ⟨fuel, hfuel, hloop⟩ := fromUtf8LossyLoop_chars cs (b :: tail.take j) le_rfl
  obtain ⟨fuel, rfl⟩ : ∃ fuel', fuel = fuel' + 1 := by
    rw [List.length_cons] at hfuel
    exact ⟨fuel - 1, by omega⟩
  have hpart : fromUtf8LossyLoop (fuel + 1) (b :: tail.take j) = [replacement] := by
    show (lossyChar b (tail.take j)).1
      :: fromUtf8LossyLoop fuel ((tail.take j).drop ((lossyChar b (tail.take j)).2 - 1)) = _
    rw [hreads.cut j (by omega), Nat.add_sub_cancel, List.drop_take_self, fromUtf8LossyLoop_nil]
  unfold fromUtf8Lossy
  rw [hlast, hloop, hpart]

/-! ## A text that was cut off -/

/-- Cutting the bytes of a text leaves all of it, or whole characters and a part of
    the next one. -/
theorem take_utf8 (cs : List Char) (k : Nat) :
    (utf8 cs).length ≤ k ∨ ∃ kept c dropped j, cs = kept ++ c :: dropped ∧
      k = (utf8 kept).length + j ∧ j < (String.utf8EncodeChar c).length ∧
      (utf8 cs).take k = utf8 kept ++ (String.utf8EncodeChar c).take j := by
  induction cs generalizing k with
  | nil => exact Or.inl (Nat.zero_le k)
  | cons c cs ih =>
    by_cases hin : k < (String.utf8EncodeChar c).length
    · -- The cut goes through the first character, or is in front of it.
      refine Or.inr ⟨[], c, cs, k, rfl, by simp, hin, ?_⟩
      rw [utf8_cons, List.take_append_of_le_length (le_of_lt hin)]
      rfl
    · rcases ih (k - (String.utf8EncodeChar c).length) with hall | ⟨kept, d, dropped, j, hsplit, hk,
        hj, htake⟩
      · left
        rw [utf8_cons, List.length_append]
        omega
      · refine Or.inr ⟨c :: kept, d, dropped, j, by rw [hsplit, List.cons_append], ?_, hj, ?_⟩
        · rw [utf8_cons, List.length_append]
          omega
        · rw [utf8_cons, List.take_append, List.take_of_length_le (by omega), htake, utf8_cons,
            List.append_assoc]

/-- A text that a cut at a limit leaves readable as it was: it fits, or it ends in a
    replacement that the limit goes through. -/
def ReadsBack (limit : Nat) (s : String) : Prop :=
  (asBytes s).length ≤ limit ∨
    (asBytes s).length ≤ limit + 2 ∧ s.toList.getLast? = some replacement

instance (limit : Nat) (s : String) : Decidable (ReadsBack limit s) :=
  inferInstanceAs (Decidable (_ ∨ _))

theorem length_replacement : (String.utf8EncodeChar replacement).length = 3 := by decide

/-- What is read back of a text that does not fit ends in a replacement. -/
theorem readsBack_of_take {limit : Nat} {s : String}
    (h : fromUtf8Lossy ((asBytes s).take limit) = s) : ReadsBack limit s := by
  rw [asBytes_eq_utf8] at h
  unfold ReadsBack
  rw [asBytes_eq_utf8]
  rcases take_utf8 s.toList limit with hfits | ⟨kept, c, dropped, j, hsplit, hlimit, hj, htake⟩
  · exact Or.inl hfits
  · right
    rw [htake] at h
    by_cases hwhole : j = 0
    · -- Cut between two characters, the text has become shorter.
      rw [hwhole, List.take_zero, List.append_nil, fromUtf8Lossy_utf8] at h
      rw [← h, String.toList_ofList] at hsplit
      have hlength := congrArg List.length hsplit
      rw [List.length_append, List.length_cons] at hlength
      omega
    · -- Cut through a character, the text ends in the replacement for its part.
      rw [fromUtf8Lossy_cut kept c (by omega) hj] at h
      have htext : s.toList = kept ++ [replacement] := by
        rw [← h, String.toList_ofList]
      rw [htext, utf8_append, List.length_append]
      have hthree : (utf8 [replacement]).length = 3 := by
        rw [utf8_cons, utf8_nil, List.append_nil, length_replacement]
      exact ⟨by omega, List.getLast?_concat⟩

theorem fromUtf8Lossy_take_iff (limit : Nat) (s : String) :
    fromUtf8Lossy ((asBytes s).take limit) = s ↔ ReadsBack limit s := by
  constructor
  · exact readsBack_of_take
  · intro h
    by_cases hfits : (asBytes s).length ≤ limit
    · rw [List.take_of_length_le hfits]
      exact fromUtf8Lossy_asBytes s
    · obtain ⟨hshort, hlast⟩ := h.resolve_left hfits
      -- The limit goes through the last character, which is a replacement already.
      obtain ⟨front, hfront⟩ := List.getLast?_eq_some_iff.mp hlast
      have hlength : (asBytes s).length = (utf8 front).length + 3 := by
        rw [asBytes_eq_utf8, hfront, utf8_append, List.length_append, utf8_cons, utf8_nil,
          List.append_nil, length_replacement]
      have htake : (asBytes s).take limit
          = utf8 front ++ (String.utf8EncodeChar replacement).take (limit - (utf8 front).length) := by
        rw [asBytes_eq_utf8, hfront, utf8_append, utf8_cons, utf8_nil, List.append_nil,
          List.take_append, List.take_of_length_le (by omega)]
      rw [htake, fromUtf8Lossy_cut front replacement (by omega) (by rw [length_replacement]; omega),
        ← hfront, String.ofList_toList]

end Assets

end Tensorium
