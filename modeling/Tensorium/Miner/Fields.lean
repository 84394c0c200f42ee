import Mathlib.Data.List.TakeWhile
import Tensorium.Miner.Notify
import Tensorium.Pool.Notify

/-! # Reading a field of a serialized message

    The extractors of the miner look for a quoted key anywhere in the text. On an
    object of numbers, flags and plain strings, none of which is the key, they
    find the member with that key, and read off its value.
-/

namespace Tensorium.Miner

open ByteCodec Quoted

/-! ## Texts of ASCII characters -/

theorem asBytes_ofList {cs : List Char} (h : ∀ c ∈ cs, c.toNat ≤ 0x7f) :
    asBytes (String.ofList cs) = cs.map fun c => UInt8.ofNat c.toNat := by
  have hencode : ∀ c ∈ cs, String.utf8EncodeChar c = [UInt8.ofNat c.toNat] := by
    intro c hc
    unfold String.utf8EncodeChar
    exact if_pos (h c hc)
  unfold asBytes
  rw [String.toUTF8_eq_toByteArray, String.toByteArray_ofList, List.utf8Encode,
    List.data_toByteArray, List.toList_toArray, List.flatMap_congr hencode, List.map_eq_flatMap]

theorem toNat_of_mem_toDigits {n : Nat} {c : Char} (h : c ∈ Nat.toDigits 10 n) :
    48 ≤ c.toNat ∧ c.toNat ≤ 57 :=
  Char.isDigit_iff_toNat.mp (Nat.isDigit_of_mem_toDigits (by omega) (by omega) h)

/-- The digits of a number in decimal. -/
theorem asBytes_toString (n : Nat) :
    asBytes (toString n) = (Nat.toDigits 10 n).map fun c => UInt8.ofNat c.toNat := by
  rw [Nat.toString_eq_ofList_toDigits]
  apply asBytes_ofList
  intro c hc
  exact (toNat_of_mem_toDigits hc).2.trans (by omega)

theorem digit_of_mem {n : Nat} {b : UInt8} (h : b ∈ asBytes (toString n)) :
    0x30 ≤ b ∧ b ≤ 0x39 := by
  rw [asBytes_toString, List.mem_map] at h
  obtain ⟨c, hc, rfl⟩ := h
  have hdigit := toNat_of_mem_toDigits hc
  rw [UInt8.le_iff_toNat_le, UInt8.le_iff_toNat_le, toNat_byte (by omega)]
  exact hdigit

theorem decimalValue_toString (n : Nat) : decimalValue (asBytes (toString n)) = n := by
  have hfold : ∀ v, ((Nat.toDigits 10 n).map fun c => UInt8.ofNat c.toNat).foldl
        (fun v c => 10 * v + (c.toNat - 48)) v = Nat.ofDigitChars 10 (Nat.toDigits 10 n) v := by
    intro v
    rw [Nat.ofDigitChars_eq_foldl, List.foldl_map]
    apply List.foldl_ext
    intro v c hc
    have hdigit := toNat_of_mem_toDigits hc
    rw [toNat_byte (by omega)]
    rfl
  unfold decimalValue
  rw [asBytes_toString, hfold]
  exact Nat.ofDigitChars_toDigits (by omega) (by omega)

theorem length_toString_le {n : Nat} (h : n < 2 ^ 64) : (asBytes (toString n)).length ≤ 20 := by
  rw [asBytes_toString, List.length_map, Nat.length_toDigits_le_iff (by omega) (by omega)]
  omega

theorem toString_ne_nil (n : Nat) : asBytes (toString n) ≠ [] := by
  intro hnil
  rw [asBytes_toString, List.map_eq_nil_iff] at hnil
  exact Nat.toDigits_ne_nil hnil

/-- `strtoull` of a number that fits. -/
theorem strtoull_toString {n : Nat} (h : n < 2 ^ 64) :
    strtoull (asBytes (toString n)) = UInt64.ofNat n := by
  have htake : (asBytes (toString n)).takeWhile (fun c => 0x30 ≤ c && c ≤ 0x39)
      = asBytes (toString n) := by
    rw [List.takeWhile_eq_self_iff]
    intro b hb
    simpa using digit_of_mem hb
  cases htext : asBytes (toString n) with
  | nil => exact absurd htext (toString_ne_nil n)
  | cons b bs =>
    have hb : 0x30 ≤ b ∧ b ≤ 0x39 := digit_of_mem (htext ▸ List.mem_cons_self)
    have hspace : isSpace b = false := by
      unfold isSpace
      simp only [Bool.or_eq_false_iff, Bool.and_eq_false_iff, decide_eq_false_iff_not]
      grind
    have hplus : b ≠ 0x2b := by grind
    have hminus : b ≠ 0x2d := by grind
    unfold strtoull
    rw [List.dropWhile_cons_of_neg (by rw [hspace]; decide)]
    simp only [List.head?_cons, Option.some.injEq, hplus, hminus, decide_false, Bool.or_self]
    simp only [Bool.false_eq_true, if_false]
    rw [← htext, htake, decimalValue_toString, if_neg (by omega)]

/-! ## Keys and plain strings -/

/-- Printable ASCII without quotes and backslashes, which the serializer writes as it is. -/
def Plain (s : String) : Prop :=
  ∀ b ∈ asBytes s, 0x20 ≤ b ∧ b ≤ 0x7e ∧ b ≠ 0x22 ∧ b ≠ 0x5c

instance (s : String) : Decidable (Plain s) := inferInstanceAs (Decidable (∀ b ∈ asBytes s, _))

/-- A few small letters and underscores, as the keys of the message are. -/
def IsKey (key : String) : Prop :=
  (asBytes key).length ≤ 32 ∧ ∀ b ∈ asBytes key, (0x61 ≤ b ∧ b ≤ 0x7a) ∨ b = 0x5f

instance (key : String) : Decidable (IsKey key) :=
  inferInstanceAs (Decidable (_ ∧ ∀ b ∈ asBytes key, _))

theorem toNat_ofNat_char {c : Char} (h : c.toNat ≤ 0x7f) : (UInt8.ofNat c.toNat).toNat = c.toNat :=
  UInt8.toNat_ofNat_of_lt' (lt_of_le_of_lt h (by decide))

/-- A literal is a key if its characters say so. -/
theorem IsKey.ofList {cs : List Char} (hlen : cs.length ≤ 32)
    (hall : cs.all fun c => (97 ≤ c.toNat ∧ c.toNat ≤ 122) ∨ c.toNat = 95) :
    IsKey (String.ofList cs) := by
  have hcs : ∀ c ∈ cs, (97 ≤ c.toNat ∧ c.toNat ≤ 122) ∨ c.toNat = 95 := by
    simpa using hall
  have hascii : ∀ c ∈ cs, c.toNat ≤ 0x7f := by
    intro c hc
    have hletter := hcs c hc
    omega
  unfold IsKey
  rw [asBytes_ofList hascii, List.length_map]
  refine ⟨hlen, ?_⟩
  intro b hb
  obtain ⟨c, hc, rfl⟩ := List.mem_map.mp hb
  rw [UInt8.le_iff_toNat_le, UInt8.le_iff_toNat_le, ← UInt8.toNat_inj,
    toNat_ofNat_char (hascii c hc)]
  exact hcs c hc

/-- So with plain strings. -/
theorem Plain.ofList {cs : List Char}
    (hall : cs.all fun c => 32 ≤ c.toNat ∧ c.toNat ≤ 126 ∧ c.toNat ≠ 34 ∧ c.toNat ≠ 92) :
    Plain (String.ofList cs) := by
  have hcs : ∀ c ∈ cs, 32 ≤ c.toNat ∧ c.toNat ≤ 126 ∧ c.toNat ≠ 34 ∧ c.toNat ≠ 92 := by
    simpa using hall
  have hascii : ∀ c ∈ cs, c.toNat ≤ 0x7f := fun c hc => (hcs c hc).2.1.trans (by decide)
  unfold Plain
  rw [asBytes_ofList hascii]
  intro b hb
  obtain ⟨c, hc, rfl⟩ := List.mem_map.mp hb
  rw [UInt8.le_iff_toNat_le, UInt8.le_iff_toNat_le, Ne, Ne, ← UInt8.toNat_inj, ← UInt8.toNat_inj,
    toNat_ofNat_char (hascii c hc)]
  exact hcs c hc

theorem asBytes_injective : Function.Injective asBytes := by
  intro s t h
  apply String.toByteArray_inj.mp
  unfold asBytes at h
  rw [String.toUTF8_eq_toByteArray, String.toUTF8_eq_toByteArray] at h
  exact ByteArray.ext (Array.toList_inj.mp h)

theorem IsKey.notMem {key : String} (h : IsKey key) {c : UInt8} (hc : c < 0x5f) :
    c ∉ asBytes key := by
  intro hmem
  have hletter := h.2 c hmem
  grind

theorem IsKey.plain {key : String} (h : IsKey key) : Plain key := by
  intro b hb
  have hletter := h.2 b hb
  grind

theorem Plain.quote_notMem {s : String} (h : Plain s) : 0x22 ∉ asBytes s :=
  fun hmem => (h _ hmem).2.2.1 rfl

/-- The serializer escapes nothing in a plain string. -/
theorem flatMap_escapeByte_plain {s : String} (h : Plain s) :
    (asBytes s).flatMap JsonValue.escapeByte = asBytes s := by
  have hescape : ∀ b ∈ asBytes s, JsonValue.escapeByte b = [b] := by
    intro b hb
    have hb := h b hb
    unfold JsonValue.escapeByte
    rw [if_neg (by grind), if_neg (by grind), if_neg (by grind), if_neg (by grind),
      if_neg (by grind), if_neg (by grind), if_neg (by grind), if_neg (by grind)]
  rw [List.flatMap_congr hescape, List.flatMap_singleton']

theorem stringBytes_plain {s : String} (h : Plain s) :
    JsonValue.stringBytes s = quoted 0x22 (asBytes s) := by
  unfold JsonValue.stringBytes quoted
  rw [flatMap_escapeByte_plain h]

/-! ## The member with a key -/

/-- What a search for `key` runs past. -/
def PassedBy (key : String) : JsonValue → Prop
  | .object _ => False
  | .string s => Plain s ∧ s ≠ key
  | _ => True

theorem findPast_value {key : String} (hkey : IsKey key) {value : JsonValue}
    (hvalue : PassedBy key value) {c : UInt8} (hc : c ∉ asBytes key) (hcq : c ≠ 0x22)
    (text : Bytes) :
    findPast (quoted 0x22 (asBytes key)) (value.toBytes ++ (c :: text))
      = findPast (quoted 0x22 (asBytes key)) (c :: text) := by
  have hname := hkey.plain.quote_notMem
  cases value with
  | null =>
    apply findPast_skip
    decide
  | bool b =>
    apply findPast_skip
    cases b <;> decide
  | number n =>
    apply findPast_skip
    intro hmem
    exact absurd (digit_of_mem hmem).1 (by decide)
  | string s =>
    have hne : asBytes key ≠ asBytes s := fun h => hvalue.2 (asBytes_injective h).symm
    rw [JsonValue.toBytes, stringBytes_plain hvalue.1]
    exact findPast_quoted_ne hname hvalue.1.quote_notMem hne hc hcq
  | object members => exact hvalue.elim

/-- Past the members before it, the search stops at the member with the key. -/
theorem findPast_members {key : String} (hkey : IsKey key)
    {before : List (String × JsonValue)}
    (hbefore : ∀ m ∈ before, IsKey m.1 ∧ m.1 ≠ key ∧ PassedBy key m.2) (value : JsonValue)
    (after : List (String × JsonValue)) (tail : Bytes) (first : Bool) :
    findPast (quoted 0x22 (asBytes key))
        (JsonValue.membersToBytes first (before ++ (key, value) :: after) ++ tail)
      = some (0x3a :: (value.toBytes ++ (JsonValue.membersToBytes false after ++ tail))) := by
  have hcomma : ∀ (first : Bool) (text : Bytes),
      findPast (quoted 0x22 (asBytes key)) ((if first then [] else [0x2c]) ++ text)
        = findPast (quoted 0x22 (asBytes key)) text := by
    intro first text
    apply findPast_skip
    cases first <;> decide
  induction before generalizing first with
  | nil =>
    rw [List.nil_append, JsonValue.membersToBytes, List.append_assoc, hcomma,
      stringBytes_plain hkey.plain, List.append_assoc, findPast_quoted]
    simp
  | cons m before ih =>
    obtain ⟨hm, hne, hpassed⟩ := hbefore m List.mem_cons_self
    have hname : asBytes key ≠ asBytes m.1 := fun h => hne (asBytes_injective h).symm
    have hquote := hkey.plain.quote_notMem
    have hrest := ih (fun m hm => hbefore m (List.mem_cons_of_mem _ hm)) false
    -- The rest begins with a comma, which no key does.
    have hhead : ∃ text, JsonValue.membersToBytes false (before ++ (key, value) :: after) ++ tail
        = 0x2c :: text := by
      cases before <;> exact ⟨_, rfl⟩
    obtain ⟨text, htext⟩ := hhead
    have hbytes : JsonValue.membersToBytes first ((m :: before) ++ (key, value) :: after) ++ tail
        = (if first then [] else [0x2c]) ++ (quoted 0x22 (asBytes m.1)
          ++ (0x3a :: (m.2.toBytes ++ (0x2c :: text)))) := by
      rw [List.cons_append, JsonValue.membersToBytes, ← htext, stringBytes_plain hm.plain]
      simp
    have hcolon : findPast (quoted 0x22 (asBytes key)) (0x3a :: (m.2.toBytes ++ (0x2c :: text)))
        = findPast (quoted 0x22 (asBytes key)) (m.2.toBytes ++ (0x2c :: text)) :=
      findPast_skip (by decide : (0x22 : UInt8) ∉ [0x3a])
    rw [hbytes, hcomma, findPast_quoted_ne hquote hm.plain.quote_notMem hname
      (hkey.notMem (by decide)) (by decide), hcolon,
      findPast_value hkey hpassed (hkey.notMem (by decide)) (by decide), ← htext, hrest]

/-- The text has `value` under `key`: this is what a search for the key stops before. -/
def FieldAt (json : Bytes) (key : String) (value : JsonValue) : Prop :=
  ∃ c rest, (c = 0x2c ∨ c = 0x7d) ∧
    findPast (quoted 0x22 (asBytes key)) json = some (0x3a :: (value.toBytes ++ (c :: rest)))

theorem fieldAt_of_mem {key : String} (hkey : IsKey key) {members : List (String × JsonValue)}
    (hmembers : ∀ m ∈ members, IsKey m.1 ∧ PassedBy key m.2)
    (hnodup : (members.map Prod.fst).Nodup) {value : JsonValue} (hmem : (key, value) ∈ members)
    (tail : Bytes) : FieldAt ((JsonValue.object members).toBytes ++ tail) key value := by
  obtain ⟨before, after, rfl⟩ := List.append_of_mem hmem
  have hbefore : ∀ m ∈ before, IsKey m.1 ∧ m.1 ≠ key ∧ PassedBy key m.2 := by
    intro m hm
    have hmember := hmembers m (List.mem_append_left _ hm)
    refine ⟨hmember.1, ?_, hmember.2⟩
    intro heq
    rw [List.map_append, List.map_cons, List.nodup_append] at hnodup
    exact hnodup.2.2 m.1 (List.mem_map_of_mem hm) key List.mem_cons_self heq
  have hfound := findPast_members hkey hbefore value after tail true
  have hbrace : findPast (quoted 0x22 (asBytes key))
        ((JsonValue.object (before ++ (key, value) :: after)).toBytes ++ tail)
      = findPast (quoted 0x22 (asBytes key))
        (JsonValue.membersToBytes true (before ++ (key, value) :: after) ++ tail) :=
    findPast_skip (by decide : (0x22 : UInt8) ∉ [0x7b])
  have hend : ∃ c rest, (c = 0x2c ∨ c = 0x7d) ∧
      JsonValue.membersToBytes false after ++ tail = c :: rest := by
    cases after with
    | nil => exact ⟨_, _, Or.inr rfl, rfl⟩
    | cons m after => exact ⟨_, _, Or.inl rfl, rfl⟩
  obtain ⟨c, rest, hc, hrest⟩ := hend
  refine ⟨c, rest, hc, ?_⟩
  rw [hbrace, hfound, hrest]

/-! ## Reading off the value -/

section FieldAt

variable {json : Bytes} {key : String}

theorem take_search (hkey : IsKey key) :
    (quoted 0x22 (asBytes key)).take 127 = quoted 0x22 (asBytes key) := by
  apply List.take_of_length_le
  have hlen := hkey.1
  simp only [quoted, List.length_cons, List.length_append, List.length_nil]
  omega

theorem FieldAt.jstr_string {s : String} (h : FieldAt json key (.string s)) (hkey : IsKey key)
    (hs : Plain s) (len : Nat) : jstr json key len = some (true, (asBytes s).take (len - 1)) := by
  obtain ⟨c, rest, _, hfound⟩ := h
  have hskip : skipColon (0x3a :: ((JsonValue.string s).toBytes ++ (c :: rest)))
      = 0x22 :: (asBytes s ++ (0x22 :: (c :: rest))) := by
    rw [JsonValue.toBytes, stringBytes_plain hs]
    simp [skipColon, quoted]
  have htake : (asBytes s ++ (0x22 :: (c :: rest))).takeWhile (fun b => b ≠ 0x22)
      = asBytes s := by
    rw [List.takeWhile_append_of_pos]
    · simp
    · intro b hb
      simpa using (hs b hb).2.2.1
  unfold jstr
  rw [take_search hkey]
  dsimp only
  rw [hfound]
  dsimp only
  rw [hskip]
  split
  · rename_i heq
    rw [← (List.cons.inj heq).2, htake]
  · rename_i hnot
    exact absurd rfl (hnot _)

theorem FieldAt.jstr_number {n : Nat} (h : FieldAt json key (.number n)) (hkey : IsKey key)
    {len : Nat} (hlen : 20 < len) (hn : n < 2 ^ 64) :
    jstr json key len = some (true, asBytes (toString n)) := by
  obtain ⟨c, rest, hc, hfound⟩ := h
  have hshort : (asBytes (toString n)).take (len - 1) = asBytes (toString n) :=
    List.take_of_length_le ((length_toString_le hn).trans (by omega))
  have htake : (asBytes (toString n) ++ (c :: rest)).takeWhile
      (fun b => b ≠ 0x2c && b ≠ 0x7d && b ≠ 0x5d) = asBytes (toString n) := by
    rw [List.takeWhile_append_of_pos]
    · rcases hc with rfl | rfl <;> simp
    · intro b hb
      have hdigit := digit_of_mem hb
      simp only [Bool.and_eq_true, decide_eq_true_eq]
      grind
  unfold jstr
  rw [take_search hkey]
  dsimp only
  rw [hfound]
  -- The first byte decides how the value is read: a digit is no quote.
  cases htext : asBytes (toString n) with
  | nil => exact absurd htext (toString_ne_nil n)
  | cons b bs =>
    have hb : 0x30 ≤ b ∧ b ≤ 0x39 := digit_of_mem (htext ▸ List.mem_cons_self)
    have hquote : b ≠ 0x22 := by grind
    have hskip : skipColon (0x3a :: ((JsonValue.number n).toBytes ++ (c :: rest)))
        = b :: (bs ++ (c :: rest)) := by
      rw [JsonValue.toBytes, htext]
      have hspace : b ≠ 0x20 := by grind
      have hcolon : b ≠ 0x3a := by grind
      simp [skipColon, hspace, hcolon]
    rw [htext, List.cons_append] at htake
    rw [htext] at hshort
    dsimp only
    rw [hskip]
    split
    · rename_i heq
      exact absurd (List.cons.inj heq).1 hquote
    · rw [htake, hshort]
      rfl

theorem FieldAt.jnum {n : Nat} (h : FieldAt json key (.number n)) (hkey : IsKey key)
    (hn : n < 2 ^ 64) : Miner.jnum json key = UInt64.ofNat n := by
  unfold Miner.jnum
  rw [h.jstr_number hkey (by omega) hn, Option.map_some, Option.getD_some,
    if_neg (toString_ne_nil n), strtoull_toString hn]

end FieldAt

/-! ## Hexadecimal fields -/

/-- The byte of a hexadecimal digit. -/
def hexByte (n : Nat) : UInt8 := UInt8.ofNat (Nat.digitChar n).toNat

theorem hexByte_plain : ∀ n < 16, 0x30 ≤ hexByte n ∧ hexByte n ≤ 0x66 ∧ hexByte n ≠ 0x5c := by
  decide

theorem hexNibble_hexByte : ∀ n < 16, hexNibble (hexByte n) = UInt8.ofNat n := by decide

/-- The digits of a byte. -/
def hexPair (b : UInt8) : Bytes := [hexByte (b.toNat / 16), hexByte (b.toNat % 16)]

theorem asBytes_hexEncode (bs : Bytes) : asBytes (hexEncode bs) = bs.flatMap hexPair := by
  have hascii : ∀ n < 16, (Nat.digitChar n).toNat ≤ 0x7f := by decide
  unfold hexEncode
  rw [asBytes_ofList, hexDigits, List.map_flatMap]
  · rfl
  · intro c hc
    rw [hexDigits, List.mem_flatMap] at hc
    obtain ⟨b, _, hb⟩ := hc
    have hlt := b.toNat_lt
    rw [List.mem_cons, List.mem_singleton] at hb
    rcases hb with rfl | rfl
    · exact hascii _ (by omega)
    · exact hascii _ (by omega)

theorem mem_hexEncode {bs : Bytes} {c : UInt8} (h : c ∈ asBytes (hexEncode bs)) :
    ∃ n < 16, c = hexByte n := by
  rw [asBytes_hexEncode, List.mem_flatMap] at h
  obtain ⟨b, _, hb⟩ := h
  have hlt := b.toNat_lt
  rw [hexPair, List.mem_cons, List.mem_singleton] at hb
  rcases hb with rfl | rfl
  · exact ⟨_, by omega, rfl⟩
  · exact ⟨_, by omega, rfl⟩

theorem plain_hexEncode (bs : Bytes) : Plain (hexEncode bs) := by
  intro c hc
  obtain ⟨n, hn, rfl⟩ := mem_hexEncode hc
  have hplain := hexByte_plain n hn
  grind

@[simp] theorem length_hexEncode (bs : Bytes) :
    (asBytes (hexEncode bs)).length = 2 * bs.length := by
  rw [asBytes_hexEncode]
  induction bs with
  | nil => rfl
  | cons b bs ih =>
    rw [List.flatMap_cons, List.length_append, ih, List.length_cons]
    show 2 + 2 * bs.length = 2 * (bs.length + 1)
    omega

/-- The digits of a byte read back, high half first. -/
theorem byte_of_nibbles (b : UInt8) :
    (hexNibble (hexByte (b.toNat / 16)) <<< 4) ||| hexNibble (hexByte (b.toNat % 16)) = b := by
  have hround : ∀ n < 256, (UInt8.ofNat (n / 16) <<< 4) ||| UInt8.ofNat (n % 16)
      = UInt8.ofNat n := by decide +kernel
  have hlt := b.toNat_lt
  rw [hexNibble_hexByte _ (by omega), hexNibble_hexByte _ (by omega), hround _ hlt,
    UInt8.ofNat_toNat]

theorem pairs_hexEncode (bs : Bytes) :
    (List.range bs.length).map (fun i =>
      (hexNibble ((bs.flatMap hexPair).getD (i * 2) 0) <<< 4)
        ||| hexNibble ((bs.flatMap hexPair).getD (i * 2 + 1) 0)) = bs := by
  induction bs with
  | nil => rfl
  | cons b bs ih =>
    rw [List.length_cons, List.range_succ_eq_map, List.map_cons, List.map_map]
    have hhead : (hexNibble (((b :: bs).flatMap hexPair).getD (0 * 2) 0) <<< 4)
        ||| hexNibble (((b :: bs).flatMap hexPair).getD (0 * 2 + 1) 0) = b :=
      byte_of_nibbles b
    -- Two digits on, the text is the one of the remaining bytes.
    have htail : ∀ i d, ((b :: bs).flatMap hexPair).getD (Nat.succ i * 2 + d) 0
        = (bs.flatMap hexPair).getD (i * 2 + d) 0 := by
      intro i d
      have hindex : Nat.succ i * 2 + d = (i * 2 + d) + 1 + 1 := by omega
      rw [hindex, List.flatMap_cons]
      rfl
    rw [hhead]
    congr 1
    conv_rhs => rw [← ih]
    apply List.map_congr_left
    intro i _
    exact congrArg₂ (fun h l => (hexNibble h <<< 4) ||| hexNibble l) (htail i 0) (htail i 1)

theorem hex64ToBytes_hexEncode (h : Hash256) : hex64ToBytes (asBytes (hexEncode h.bytes)) = h := by
  apply Hash256.ext
  have hpairs := pairs_hexEncode h.bytes
  rw [h.size, ← asBytes_hexEncode] at hpairs
  exact hpairs

theorem FieldAt.jhash {json : Bytes} {key : String} {h : Hash256}
    (hfield : FieldAt json key (.string (bytesToHex h.bytes))) (hkey : IsKey key) :
    Miner.jhash json key = some h := by
  have hlen : (asBytes (hexEncode h.bytes)).length = 64 := by
    rw [length_hexEncode, h.size]
  have htake : (asBytes (hexEncode h.bytes)).take (128 - 1) = asBytes (hexEncode h.bytes) :=
    List.take_of_length_le (by omega)
  unfold Miner.jhash
  rw [hfield.jstr_string hkey (plain_hexEncode _) 128]
  unfold bytesToHex
  rw [htake]
  dsimp only
  rw [if_pos hlen, hex64ToBytes_hexEncode]

end Tensorium.Miner
