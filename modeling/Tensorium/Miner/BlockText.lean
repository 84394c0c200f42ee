import Tensorium.Miner.Fields
import Tensorium.Node.Handlers

/-! # The template as text

    The node answers `/getblocktemplate` with indented JSON, in which byte strings are
    arrays of numbers and the members of an object are in the order of their keys. The
    nonce is one number in it, and the only string of a block is the chain id.
-/

namespace Tensorium.Miner

open ByteCodec Quoted

/-! ## Indented JSON -/

/-- `serde_json::Value`, with the kinds of values a block consists of. -/
inductive Json where
  | number (n : Nat)
  | string (s : String)
  | array (values : List Json)
  | object (members : List (String × Json))

/-- The end of a line, and the indentation of the next. -/
def newline (level : Nat) : Bytes := 0x0a :: List.replicate (2 * level) 0x20

/-- What stands between an element and the one before it. -/
def separator (first : Bool) : Bytes := if first then [] else [0x2c]

mutual

/-- `to_string_pretty`, within so many arrays and objects. -/
def Json.pretty (level : Nat) : Json → Bytes
  | .number n => asBytes (toString n)
  | .string s => JsonValue.stringBytes s
  | .array values =>
    0x5b :: (elementsText (level + 1) true values ++
      ((if values.isEmpty then [] else newline level) ++ [0x5d]))
  | .object members =>
    0x7b :: (membersText (level + 1) true members ++
      ((if members.isEmpty then [] else newline level) ++ [0x7d]))

def elementsText (level : Nat) : Bool → List Json → Bytes
  | _, [] => []
  | first, value :: values =>
    separator first ++ (newline level ++ (value.pretty level ++ elementsText level false values))

def membersText (level : Nat) : Bool → List (String × Json) → Bytes
  | _, [] => []
  | first, (key, value) :: members =>
    separator first ++ (newline level ++ (JsonValue.stringBytes key ++
      (0x3a :: 0x20 :: (value.pretty level ++ membersText level false members))))

end

/-! ## Blocks -/

/-- A `Vec<u8>`, and an array of bytes. -/
def Json.bytes (bs : Bytes) : Json := .array (bs.map fun b => .number b.toNat)

/-- The members are in the order of their keys, as in a `BTreeMap`. -/
def inputJson (input : TxInput) : Json :=
  .object [
    ("previous_output", .object [
      ("output_index", .number input.previousOutput.outputIndex.toNat),
      ("txid", .bytes input.previousOutput.txid.bytes)]),
    ("signature_script", .bytes input.signatureScript)]

def outputJson (output : TxOutput) : Json :=
  .object [
    ("script_pubkey", .bytes output.scriptPubkey),
    ("value_atoms", .number output.valueAtoms.toNat)]

def transactionJson (tx : Transaction) : Json :=
  .object [
    ("id", .bytes tx.id.bytes),
    ("inputs", .array (tx.inputs.map inputJson)),
    ("outputs", .array (tx.outputs.map outputJson)),
    ("payload", .bytes tx.payload)]

def headerJson (header : BlockHeader) : Json :=
  .object [
    ("chain_id", .string header.chainId),
    ("height", .number header.height),
    ("leading_zero_bits", .number header.leadingZeroBits.toNat),
    ("merkle_root", .bytes header.merkleRoot.bytes),
    ("nonce", .number header.nonce.toNat),
    ("previous_hash", .bytes header.previousHash.bytes),
    ("timestamp_seconds", .number header.timestampSeconds),
    ("version", .number header.version.toNat)]

def blockJson (block : Block) : Json :=
  .object [
    ("header", headerJson block.header),
    ("transactions", .array (block.transactions.map transactionJson))]

/-- The reply of `GET /getblocktemplate`. -/
def replyJson (reply : Node.BlockTemplate) : Json :=
  .object [
    ("chain_id", .string reply.template.header.chainId),
    ("epoch_seed", .bytes reply.epochSeed.bytes),
    ("height", .number reply.template.header.height),
    ("leading_zero_bits", .number reply.template.header.leadingZeroBits.toNat),
    ("previous_hash", .bytes reply.template.header.previousHash.bytes),
    ("template", blockJson reply.template),
    ("tx_count", .number reply.template.transactions.length)]

def replyText (reply : Node.BlockTemplate) : Bytes := (replyJson reply).pretty 0

/-- A block as it stands in the reply. -/
def blockText (block : Block) : Bytes := (blockJson block).pretty 1

/-- The header as it stands in the block. -/
def headerText (header : BlockHeader) : Bytes := (headerJson header).pretty 2

/-! ## Members -/

theorem membersText_append (level : Nat) (first : Bool) (ms ms' : List (String × Json)) :
    membersText level first (ms ++ ms')
      = membersText level first ms ++ membersText level (first && ms.isEmpty) ms' := by
  induction ms generalizing first with
  | nil => simp [membersText]
  | cons member ms ih =>
    obtain ⟨key, value⟩ := member
    simp only [List.cons_append, membersText, ih, List.isEmpty_cons, Bool.and_false,
      Bool.false_and, List.append_assoc]

/-- An object, split at one of its members: what stands before the value and behind it. -/
theorem pretty_object_split (level : Nat) (before after : List (String × Json)) (key : String)
    (value : Json) :
    (Json.object (before ++ (key, value) :: after)).pretty level
      = (0x7b :: (membersText (level + 1) true before ++ (separator before.isEmpty ++
          (newline (level + 1) ++ (JsonValue.stringBytes key ++ [0x3a, 0x20])))))
        ++ (value.pretty (level + 1) ++
          (membersText (level + 1) false after ++ (newline level ++ [0x7d]))) := by
  have hsome : (before ++ (key, value) :: after).isEmpty = false := by
    cases before <;> rfl
  rw [Json.pretty, hsome, membersText_append]
  simp only [membersText, Bool.true_and, Bool.false_eq_true, if_false, List.append_assoc,
    List.cons_append, List.nil_append]

/-! ## The nonce -/

/-- The members of a header before the nonce. -/
def earlierMembers (header : BlockHeader) : List (String × Json) :=
  [("chain_id", .string header.chainId),
    ("height", .number header.height),
    ("leading_zero_bits", .number header.leadingZeroBits.toNat),
    ("merkle_root", .bytes header.merkleRoot.bytes)]

/-- And those behind it. -/
def laterMembers (header : BlockHeader) : List (String × Json) :=
  [("previous_hash", .bytes header.previousHash.bytes),
    ("timestamp_seconds", .number header.timestampSeconds),
    ("version", .number header.version.toNat)]

/-- The header up to the nonce. -/
def headerBefore (header : BlockHeader) : Bytes :=
  0x7b :: (membersText 3 true (earlierMembers header) ++
    (separator false ++ (newline 3 ++ (JsonValue.stringBytes "nonce" ++ [0x3a, 0x20]))))

/-- The header from the nonce on. -/
def headerAfter (header : BlockHeader) : Bytes :=
  membersText 3 false (laterMembers header) ++ (newline 2 ++ [0x7d])

theorem headerText_eq (header : BlockHeader) :
    headerText header
      = headerBefore header ++ (asBytes (toString header.nonce.toNat) ++ headerAfter header) := by
  have hsplit := pretty_object_split 2 (earlierMembers header) (laterMembers header) "nonce"
    (.number header.nonce.toNat)
  rw [Json.pretty.eq_1] at hsplit
  exact hsplit

/-- The block up to its header. -/
def blockBefore : Bytes :=
  0x7b :: (newline 2 ++ (JsonValue.stringBytes "header" ++ [0x3a, 0x20]))

/-- The block behind its header. -/
def blockAfter (block : Block) : Bytes :=
  membersText 2 false [("transactions", .array (block.transactions.map transactionJson))]
    ++ (newline 1 ++ [0x7d])

theorem blockText_eq (block : Block) :
    blockText block = blockBefore ++ (headerText block.header ++ blockAfter block) := by
  have hsplit := pretty_object_split 1 []
    [("transactions", .array (block.transactions.map transactionJson))] "header"
    (headerJson block.header)
  rw [membersText.eq_1] at hsplit
  exact hsplit

/-- Only the digits of the nonce depend on it. -/
theorem blockText_withNonce (block : Block) (nonce : UInt64) :
    blockText (block.withNonce nonce)
      = (blockBefore ++ headerBefore block.header) ++ (asBytes (toString nonce.toNat) ++
          (headerAfter block.header ++ blockAfter block)) := by
  rw [blockText_eq, headerText_eq]
  simp only [List.append_assoc]
  rfl

/-! ## Where a key is found -/

/-- In the text of the string the name stands between two quotes: the string is the name,
    or ends in a quote and the name. -/
def Shows (name s : String) : Prop :=
  asBytes s = asBytes name ∨ 0x22 :: asBytes name <:+ asBytes s

instance (name s : String) : Decidable (Shows name s) :=
  inferInstanceAs (Decidable (_ ∨ _))

theorem escapeByte_cases (b : UInt8) :
    JsonValue.escapeByte b = [b] ∨ 0x5c ∈ JsonValue.escapeByte b := by
  unfold JsonValue.escapeByte
  split_ifs
  all_goals first
    | exact Or.inl rfl
    | exact Or.inr (by decide)
    | exact Or.inr (List.mem_append_left _ (by decide))

theorem quote_notMem_escapeByte {b : UInt8} (h : b ≠ 0x22) :
    0x22 ∉ JsonValue.escapeByte b := by
  have hhex : 0x22 ∉ asBytes (hexEncode [b]) := (plain_hexEncode [b]).quote_notMem
  unfold JsonValue.escapeByte
  rw [if_neg h]
  split_ifs
  all_goals first
    | decide
    | exact fun hmem => (List.mem_append.mp hmem).elim (by decide) hhex
    | exact fun hmem => h (List.mem_singleton.mp hmem).symm

/-- A key comes out of escaping only as itself. -/
theorem flatMap_escapeByte_eq_iff {name : String} (hname : IsKey name) {bs : Bytes} :
    bs.flatMap JsonValue.escapeByte = asBytes name ↔ bs = asBytes name := by
  constructor
  · intro h
    have hsame : ∀ b ∈ bs, JsonValue.escapeByte b = [b] := by
      intro b hb
      rcases escapeByte_cases b with hsame | hslash
      · exact hsame
      · have hmem : 0x5c ∈ asBytes name := h ▸ List.mem_flatMap.mpr ⟨b, hb, hslash⟩
        exact absurd hmem (hname.notMem (by decide))
    rw [← h, List.flatMap_congr hsame, List.flatMap_singleton']
  · rintro rfl
    exact flatMap_escapeByte_plain hname.plain

variable {name : String} {c : UInt8} {text : Bytes}

theorem quote_notMem_flatMap {bs : Bytes} (h : 0x22 ∉ bs) :
    0x22 ∉ bs.flatMap JsonValue.escapeByte := by
  intro hmem
  obtain ⟨b, hb, hquote⟩ := List.mem_flatMap.mp hmem
  exact quote_notMem_escapeByte (fun heq => h (heq ▸ hb)) hquote

/-- Behind the first quote in a string, the name is at the end if it is at the end of all. -/
theorem suffix_behind_quote {name u bs : Bytes} (hname : 0x22 ∉ name) :
    0x22 :: name <:+ u ++ 0x22 :: bs ↔ bs = name ∨ 0x22 :: name <:+ bs := by
  constructor
  · intro h
    rcases List.suffix_or_suffix_of_suffix h (List.suffix_append u (0x22 :: bs)) with hin | hin
    · rcases List.suffix_cons_iff.mp hin with heq | hin
      · exact Or.inl (List.cons.inj heq).2.symm
      · exact Or.inr hin
    · rcases List.suffix_cons_iff.mp hin with heq | hin
      · exact Or.inl (List.cons.inj heq).2
      · exact absurd (hin.subset List.mem_cons_self) hname
  · rintro (rfl | h)
    · exact List.suffix_append u _
    · exact (h.trans (List.suffix_cons _ _)).trans (List.suffix_append u _)

/-- A search runs past a string that does not show the name, and ends in one that does. -/
theorem findPast_escaped (hname : IsKey name) (hc : c ∉ asBytes name) (hcq : c ≠ 0x22) :
    ∀ bs : Bytes, findPast (quoted 0x22 (asBytes name))
        (0x22 :: (bs.flatMap JsonValue.escapeByte ++ 0x22 :: c :: text))
      = if bs = asBytes name ∨ 0x22 :: asBytes name <:+ bs then some (c :: text)
        else findPast (quoted 0x22 (asBytes name)) (c :: text) := by
  have hquote := hname.plain.quote_notMem
  intro bs
  induction hlen : bs.length using Nat.strong_induction_on generalizing bs with
  | _ n ih =>
    by_cases hmem : 0x22 ∈ bs
    · -- The string goes on behind an escaped quote.
      obtain ⟨u, rest, rfl, hu⟩ := List.eq_append_cons_of_mem hmem
      have htext : (u ++ 0x22 :: rest).flatMap JsonValue.escapeByte ++ 0x22 :: c :: text
          = (u.flatMap JsonValue.escapeByte ++ [0x5c]) ++
            0x22 :: (rest.flatMap JsonValue.escapeByte ++ 0x22 :: c :: text) := by
        have hescaped : JsonValue.escapeByte 0x22 = [0x5c, 0x22] := by decide
        simp only [List.flatMap_append, List.flatMap_cons, hescaped, List.append_assoc,
          List.cons_append, List.nil_append]
      have hpart : 0x22 ∉ u.flatMap JsonValue.escapeByte ++ [0x5c] := by
        rw [List.mem_append, not_or]
        exact ⟨quote_notMem_flatMap hu, by decide⟩
      have hne : u.flatMap JsonValue.escapeByte ++ [0x5c] ≠ asBytes name := by
        intro heq
        have hslash : 0x5c ∈ asBytes name := heq ▸ List.mem_append_right _ List.mem_cons_self
        exact hname.notMem (by decide) hslash
      have hshort : rest.length < n := by
        rw [← hlen, List.length_append, List.length_cons]
        omega
      have hwhole : u ++ 0x22 :: rest ≠ asBytes name := fun heq => hquote (heq ▸ hmem)
      rw [htext, findPast_part hquote hpart, if_neg hne, ih _ hshort rest rfl]
      simp only [suffix_behind_quote hquote, hwhole, false_or]
    · have hsuffix : ¬ 0x22 :: asBytes name <:+ bs := fun h => hmem (h.subset List.mem_cons_self)
      rw [findPast_part hquote (quote_notMem_flatMap hmem), findPast_closing hc hcq]
      simp only [flatMap_escapeByte_eq_iff hname, hsuffix, or_false]

theorem findPast_string (hname : IsKey name) (hc : c ∉ asBytes name) (hcq : c ≠ 0x22)
    (s : String) :
    findPast (quoted 0x22 (asBytes name)) (JsonValue.stringBytes s ++ c :: text)
      = if Shows name s then some (c :: text)
        else findPast (quoted 0x22 (asBytes name)) (c :: text) := by
  unfold JsonValue.stringBytes Shows
  rw [List.cons_append, List.append_assoc]
  exact findPast_escaped hname hc hcq (asBytes s)

/-! ## Searching the members -/

/-- A text that cannot continue the name. -/
def Breaks (name : String) (rest : Bytes) : Prop :=
  ∃ c text, rest = c :: text ∧ c ∉ asBytes name ∧ c ≠ 0x22

/-- A search for the name runs past the value. -/
def PassedOver (name : String) (value : Json) : Prop :=
  ∀ level rest, Breaks name rest →
    findPast (quoted 0x22 (asBytes name)) (value.pretty level ++ rest)
      = findPast (quoted 0x22 (asBytes name)) rest

theorem breaks_separated (hname : IsKey name) (first : Bool) (level : Nat) (rest : Bytes) :
    Breaks name (separator first ++ (newline level ++ rest)) := by
  cases first
  · exact ⟨0x2c, _, rfl, hname.notMem (by decide), by decide⟩
  · exact ⟨0x0a, _, rfl, hname.notMem (by decide), by decide⟩

theorem breaks_members (hname : IsKey name) (level : Nat) (members : List (String × Json))
    {rest : Bytes} (hrest : Breaks name rest) :
    Breaks name (membersText level false members ++ rest) := by
  cases members with
  | nil => rwa [membersText, List.nil_append]
  | cons member members =>
    obtain ⟨key, value⟩ := member
    rw [membersText, List.append_assoc, List.append_assoc]
    exact breaks_separated hname false level _

theorem quote_notMem_separated (first : Bool) (level : Nat) :
    0x22 ∉ separator first ++ newline level := by
  have hseparator : 0x22 ∉ separator first := by
    cases first <;> decide
  unfold newline
  rw [List.mem_append, List.mem_cons, List.mem_replicate, not_or, not_or]
  exact ⟨hseparator, by decide, fun h => absurd h.2 (by decide)⟩

theorem quote_notMem_number (n : Nat) : 0x22 ∉ asBytes (toString n) := by
  intro hmem
  exact absurd (digit_of_mem hmem) (by decide)

theorem passedOver_number (n : Nat) : PassedOver name (.number n) := by
  intro level rest _
  rw [Json.pretty]
  exact findPast_skip (quote_notMem_number n)

theorem quote_notMem_elements (level : Nat) (first : Bool) (bs : Bytes) :
    0x22 ∉ elementsText level first (bs.map fun b => .number b.toNat) := by
  induction bs generalizing first with
  | nil => rw [List.map_nil, elementsText]; exact List.not_mem_nil
  | cons b bs ih =>
    rw [List.map_cons, elementsText, Json.pretty, ← List.append_assoc]
    intro hmem
    rcases List.mem_append.mp hmem with hmem | hmem
    · exact quote_notMem_separated first level hmem
    rcases List.mem_append.mp hmem with hmem | hmem
    · exact quote_notMem_number _ hmem
    · exact ih false hmem

theorem passedOver_bytes (bs : Bytes) : PassedOver name (.bytes bs) := by
  intro level rest _
  unfold Json.bytes
  rw [Json.pretty]
  apply findPast_skip
  rw [List.mem_cons, List.mem_append, List.mem_append, not_or, not_or, not_or]
  refine ⟨by decide, quote_notMem_elements _ _ bs, ?_, by decide⟩
  split_ifs
  · exact List.not_mem_nil
  · exact quote_notMem_separated true level

theorem passedOver_string (hname : IsKey name) {s : String} (h : ¬ Shows name s) :
    PassedOver name (.string s) := by
  rintro level rest ⟨c, text, rfl, hc, hcq⟩
  rw [Json.pretty, findPast_string hname hc hcq, if_neg h]

/-- Past a separator, another key and the colon. -/
theorem findPast_key (hname : IsKey name) {key : String} (hkey : IsKey key) (hne : key ≠ name)
    (first : Bool) (level : Nat) (text : Bytes) :
    findPast (quoted 0x22 (asBytes name)) (separator first ++ (newline level ++
        (JsonValue.stringBytes key ++ (0x3a :: 0x20 :: text))))
      = findPast (quoted 0x22 (asBytes name)) text := by
  have hbytes : asBytes name ≠ asBytes key := fun h => hne (asBytes_injective h).symm
  have hcolon : 0x22 ∉ ([0x3a, 0x20] : Bytes) := by decide
  rw [← List.append_assoc, findPast_skip (quote_notMem_separated first level),
    stringBytes_plain hkey.plain,
    findPast_quoted_ne hname.plain.quote_notMem hkey.plain.quote_notMem hbytes
      (hname.notMem (by decide)) (by decide)]
  exact findPast_skip hcolon

/-- Members that a search for the name runs past. -/
def AllPassedOver (name : String) (members : List (String × Json)) : Prop :=
  ∀ member ∈ members, IsKey member.1 ∧ member.1 ≠ name ∧ PassedOver name member.2

theorem findPast_members_skip (hname : IsKey name) (level : Nat) {members : List (String × Json)}
    (hmembers : AllPassedOver name members) (first : Bool) {rest : Bytes}
    (hrest : Breaks name rest) :
    findPast (quoted 0x22 (asBytes name)) (membersText level first members ++ rest)
      = findPast (quoted 0x22 (asBytes name)) rest := by
  induction members generalizing first with
  | nil => rw [membersText, List.nil_append]
  | cons member members ih =>
    obtain ⟨key, value⟩ := member
    obtain ⟨⟨hkey, hne, hvalue⟩, hlater⟩ := List.forall_mem_cons.mp hmembers
    rw [membersText]
    simp only [List.append_assoc, List.cons_append]
    rw [findPast_key hname hkey hne, hvalue level _ (breaks_members hname level members hrest),
      ih hlater]

/-- The key that is searched for. -/
theorem findPast_self (hname : IsKey name) (first : Bool) (level : Nat) (rest : Bytes) :
    findPast (quoted 0x22 (asBytes name)) (separator first ++ (newline level ++
        (JsonValue.stringBytes name ++ rest))) = some rest := by
  rw [← List.append_assoc, findPast_skip (quote_notMem_separated first level),
    stringBytes_plain hname.plain, findPast_quoted]

/-- In an object whose first members are run past, a search for a key ends at it. -/
theorem findPast_object (hname : IsKey name) (level : Nat) {before : List (String × Json)}
    (hbefore : AllPassedOver name before) (value : Json) (after : List (String × Json))
    (rest : Bytes) :
    findPast (quoted 0x22 (asBytes name))
        ((Json.object (before ++ (name, value) :: after)).pretty level ++ rest)
      = some (0x3a :: 0x20 :: (value.pretty (level + 1) ++
          (membersText (level + 1) false after ++ (newline level ++ 0x7d :: rest)))) := by
  have hbrace : 0x22 ∉ ([0x7b] : Bytes) := by decide
  rw [pretty_object_split]
  simp only [List.cons_append, List.append_assoc, List.nil_append]
  rw [← List.singleton_append, findPast_skip hbrace, findPast_members_skip hname _ hbefore _
    (breaks_separated hname _ _ _), findPast_self hname]

/-- If the first member is a string that shows the name, it ends behind that string. -/
theorem findPast_shown (hname : IsKey name) (level : Nat) {key s : String} (hkey : IsKey key)
    (hne : key ≠ name) (hshows : Shows name s) (member : String × Json)
    (after : List (String × Json)) (rest : Bytes) :
    ∃ text, findPast (quoted 0x22 (asBytes name))
      ((Json.object ((key, .string s) :: member :: after)).pretty level ++ rest)
        = some (0x2c :: text) := by
  have hbrace : 0x22 ∉ ([0x7b] : Bytes) := by decide
  have hcomma : (0x2c : UInt8) ∉ asBytes name := hname.notMem (by decide)
  obtain ⟨key', value'⟩ := member
  rw [Json.pretty, membersText, membersText, Json.pretty]
  simp only [List.cons_append, List.append_assoc]
  rw [← List.singleton_append, findPast_skip hbrace, findPast_key hname hkey hne]
  exact ⟨_, (findPast_string hname hcomma (by decide) s).trans (if_pos hshows)⟩

end Tensorium.Miner
