import Tensorium.Miner.BlockText

/-! # Putting the nonce into the template

    `solo_client.cpp`: the block is cut out of the reply to `/getblocktemplate`, and the
    digits of its nonce are replaced, by searching for keys and counting braces in the
    text. A key is searched for as a quoted text, and the chain id is searched too.
-/

namespace Tensorium.Miner

open ByteCodec Quoted

/-! ## The search in the text

    A C string is the list of its bytes before the first zero, and a pointer into it is
    what is left from there on. -/

/-- `RPC_BUF`. -/
def rpcBuf : Nat := 2 ^ 20

/-- `sizeof(header_buf)`. -/
def headerBufSize : Nat := 8192

/-- `skip_ws_colon`. -/
def skipWsColon (p : Bytes) : Bytes :=
  p.dropWhile fun c => c = 0x20 || c = 0x09 || c = 0x0d || c = 0x0a || c = 0x3a

/-- `find_json_key`, and the pointer behind what it has found. -/
def findJsonKey (json : Bytes) (key : String) : Option Bytes :=
  findPast ((quoted 0x22 (asBytes key)).take 127) json

/-- The loop of `json_object_span`: how many bytes are left up to the closing brace. -/
def spanLoop (depth : Nat) (inStr escaped : Bool) : Bytes → Option Nat
  | [] => none
  | c :: p =>
    if inStr then
      if escaped then (spanLoop depth true false p).map (· + 1)
      else if c = 0x5c then (spanLoop depth true true p).map (· + 1)
      else if c = 0x22 then (spanLoop depth false false p).map (· + 1)
      else (spanLoop depth true false p).map (· + 1)
    else if c = 0x22 then (spanLoop depth true escaped p).map (· + 1)
    else if c = 0x7b then (spanLoop (depth + 1) false escaped p).map (· + 1)
    else if c = 0x7d then
      if depth - 1 = 0 then some 1 else (spanLoop (depth - 1) false escaped p).map (· + 1)
    else (spanLoop depth false escaped p).map (· + 1)

/-- `json_object_span`, as the length of the object. -/
def jsonObjectSpan (start : Bytes) : Option Nat :=
  if start.head? ≠ some 0x7b then none else spanLoop 0 false false start

/-- `extract_template_object`. -/
def extractTemplateObject (json : Bytes) (outLen : Nat) : Option Bytes := do
  let start := skipWsColon (← findJsonKey json "template")
  if start.head? ≠ some 0x7b then none
  else
    let len ← jsonObjectSpan start
    if len = 0 ∨ len ≥ outLen then none else some (start.take len)

/-- `*p >= '0' && *p <= '9'`. -/
def isDigitByte (c : UInt8) : Bool := 0x30 ≤ c && c ≤ 0x39

/-- `replace_header_nonce`. -/
def replaceHeaderNonce (blockJson : Bytes) (nonce : UInt64) (outLen : Nat) : Option Bytes := do
  let headerStart := skipWsColon (← findJsonKey blockJson "header")
  if headerStart.head? ≠ some 0x7b then none
  else
    let headerLen ← jsonObjectSpan headerStart
    if headerLen = 0 ∨ headerLen ≥ headerBufSize then none
    else
      let headerBuf := headerStart.take headerLen
      let valueStart := skipWsColon (← findJsonKey headerBuf "nonce")
      let unsigned := if valueStart.head? = some 0x2d then valueStart.tail else valueStart
      let valueEnd := unsigned.dropWhile isDigitByte
      -- The offsets in the copy are those in the original.
      let headerAt := blockJson.length - headerStart.length
      let prefixLen := headerAt + (headerBuf.length - valueStart.length)
      let tail := blockJson.drop (headerAt + (headerBuf.length - valueEnd.length))
      let out := blockJson.take prefixLen ++ (asBytes (toString nonce.toNat) ++ tail)
      if 0 < out.length ∧ out.length < outLen then some out else none

/-- `fetch_template` and `submit_block`: the text that is posted. -/
def postedText (reply : Bytes) (nonce : UInt64) : Option Bytes :=
  (extractTemplateObject reply rpcBuf).bind fun template =>
    replaceHeaderNonce template nonce rpcBuf

/-! ## Counting braces -/

/-- Outside of strings, and inside of an object, the text makes no difference but for its
    length. -/
def Neutral (text : Bytes) : Prop :=
  ∀ depth, 0 < depth → ∀ rest,
    spanLoop depth false false (text ++ rest)
      = (spanLoop depth false false rest).map (· + text.length)

theorem neutral_nil : Neutral [] := by
  intro depth _ rest
  rw [List.nil_append]
  exact Option.map_id'.symm

theorem map_add_add (span : Option Nat) (m n : Nat) :
    (span.map (· + m)).map (· + n) = span.map (· + (m + n)) := by
  rw [Option.map_map]
  congr 1
  funext k
  exact Nat.add_assoc k m n

theorem map_add_eq {m n : Nat} (h : m = n) (span : Option Nat) :
    span.map (· + m) = span.map (· + n) := by
  rw [h]

theorem Neutral.append {a b : Bytes} (ha : Neutral a) (hb : Neutral b) : Neutral (a ++ b) := by
  intro depth hdepth rest
  rw [List.append_assoc, ha depth hdepth, hb depth hdepth, map_add_add, List.length_append,
    Nat.add_comm]

/-- A byte outside of strings that is no quote and no brace. -/
theorem spanLoop_plain {c : UInt8} (hquote : c ≠ 0x22) (hopen : c ≠ 0x7b) (hclose : c ≠ 0x7d)
    (depth : Nat) (rest : Bytes) :
    spanLoop depth false false (c :: rest) = (spanLoop depth false false rest).map (· + 1) := by
  rw [spanLoop]
  simp [hquote, hopen, hclose]

theorem neutral_plain {text : Bytes} (h : ∀ c ∈ text, c ≠ 0x22 ∧ c ≠ 0x7b ∧ c ≠ 0x7d) :
    Neutral text := by
  intro depth hdepth rest
  induction text with
  | nil => exact neutral_nil depth hdepth rest
  | cons c text ih =>
    obtain ⟨hquote, hopen, hclose⟩ := h c List.mem_cons_self
    rw [List.cons_append, spanLoop_plain hquote hopen hclose,
      ih fun c' hc' => h c' (List.mem_cons_of_mem _ hc'), map_add_add, List.length_cons]

/-- What the serializer makes of a byte: itself, or a backslash and bytes behind it of
    which only the first may be a quote or a backslash. -/
theorem escapeByte_shape (b : UInt8) :
    (JsonValue.escapeByte b = [b] ∧ b ≠ 0x22 ∧ b ≠ 0x5c) ∨
      ∃ c tail, JsonValue.escapeByte b = 0x5c :: c :: tail ∧
        ∀ t ∈ tail, t ≠ 0x22 ∧ t ≠ 0x5c := by
  have hzeros : Plain "00" := Plain.ofList (by decide)
  have hhex : ∀ t ∈ asBytes "00" ++ asBytes (hexEncode [b]), t ≠ 0x22 ∧ t ≠ 0x5c := by
    intro t ht
    rcases List.mem_append.mp ht with ht | ht
    · exact (hzeros t ht).2.2
    · exact (plain_hexEncode [b] t ht).2.2
  by_cases hquote : b = 0x22
  · exact Or.inr ⟨0x22, [], by rw [hquote]; decide, by simp⟩
  by_cases hslash : b = 0x5c
  · exact Or.inr ⟨0x5c, [], by rw [hslash]; decide, by simp⟩
  unfold JsonValue.escapeByte
  rw [if_neg hquote, if_neg hslash]
  split_ifs
  · exact Or.inr ⟨0x62, [], by decide, by simp⟩
  · exact Or.inr ⟨0x74, [], by decide, by simp⟩
  · exact Or.inr ⟨0x6e, [], by decide, by simp⟩
  · exact Or.inr ⟨0x66, [], by decide, by simp⟩
  · exact Or.inr ⟨0x72, [], by decide, by simp⟩
  · exact Or.inr ⟨0x75, _, rfl, hhex⟩
  · exact Or.inl ⟨rfl, hquote, hslash⟩

/-- Bytes of a string that are no quote and no backslash. -/
theorem spanLoop_inStr (depth : Nat) (rest : Bytes) {text : Bytes}
    (h : ∀ c ∈ text, c ≠ 0x22 ∧ c ≠ 0x5c) :
    spanLoop depth true false (text ++ rest)
      = (spanLoop depth true false rest).map (· + text.length) := by
  induction text with
  | nil => exact Option.map_id'.symm
  | cons c text ih =>
    obtain ⟨hquote, hslash⟩ := h c List.mem_cons_self
    rw [List.cons_append, spanLoop]
    simp only [hquote, hslash, if_true, if_false, Bool.false_eq_true]
    rw [ih fun c' hc' => h c' (List.mem_cons_of_mem _ hc'), map_add_add, List.length_cons]

/-- The inside of a string. -/
theorem spanLoop_escaped (depth : Nat) (rest bs : Bytes) :
    spanLoop depth true false (bs.flatMap JsonValue.escapeByte ++ rest)
      = (spanLoop depth true false rest).map (· + (bs.flatMap JsonValue.escapeByte).length) := by
  induction bs with
  | nil => exact Option.map_id'.symm
  | cons b bs ih =>
    rw [List.flatMap_cons, List.append_assoc, List.length_append]
    rcases escapeByte_shape b with ⟨hsame, hplain⟩ | ⟨c, tail, hescape, htail⟩
    · rw [hsame, spanLoop_inStr depth _ (List.forall_mem_singleton.mpr hplain), ih, map_add_add,
        Nat.add_comm]
    · -- The byte behind the backslash is skipped, whatever it is.
      have hskip : ∀ text, spanLoop depth true false (0x5c :: c :: text)
          = (spanLoop depth true false text).map (· + 2) := by
        intro text
        have hslash : spanLoop depth true false (0x5c :: c :: text)
            = (spanLoop depth true true (c :: text)).map (· + 1) := by
          rw [spanLoop]
          simp
        have hescaped : spanLoop depth true true (c :: text)
            = (spanLoop depth true false text).map (· + 1) := by
          rw [spanLoop]
          simp
        rw [hslash, hescaped, map_add_add]
      rw [hescape, List.cons_append, List.cons_append, hskip, spanLoop_inStr depth _ htail, ih,
        map_add_add, map_add_add]
      apply map_add_eq
      simp only [List.length_cons]
      omega

theorem neutral_string (s : String) : Neutral (JsonValue.stringBytes s) := by
  intro depth hdepth rest
  have hopening : ∀ text, spanLoop depth false false (0x22 :: text)
      = (spanLoop depth true false text).map (· + 1) := by
    intro text
    rw [spanLoop]
    simp
  have hclosing : spanLoop depth true false (0x22 :: rest)
      = (spanLoop depth false false rest).map (· + 1) := by
    rw [spanLoop]
    simp
  unfold JsonValue.stringBytes
  rw [List.cons_append, hopening, List.append_assoc, spanLoop_escaped, List.singleton_append,
    hclosing, map_add_add, map_add_add, List.length_cons, List.length_append,
    List.length_singleton]
  apply map_add_eq
  omega

/-- Between braces. -/
theorem spanLoop_object {body : Bytes} (h : Neutral body) (depth : Nat) (rest : Bytes) :
    spanLoop depth false false (0x7b :: (body ++ [0x7d]) ++ rest)
      = if depth = 0 then some (body.length + 2)
        else (spanLoop depth false false rest).map (· + (body.length + 2)) := by
  have hopening : ∀ text, spanLoop depth false false (0x7b :: text)
      = (spanLoop (depth + 1) false false text).map (· + 1) := by
    intro text
    rw [spanLoop]
    simp
  have hclosing : spanLoop (depth + 1) false false (0x7d :: rest)
      = if depth = 0 then some 1 else (spanLoop depth false false rest).map (· + 1) := by
    rw [spanLoop]
    simp
  rw [List.cons_append, hopening, List.append_assoc, h (depth + 1) (Nat.succ_pos _),
    List.singleton_append, hclosing, map_add_add]
  split_ifs
  · rw [Option.map_some, Option.some.injEq]
    omega
  · rw [map_add_add]
    apply map_add_eq
    omega

theorem neutral_object {body : Bytes} (h : Neutral body) : Neutral (0x7b :: (body ++ [0x7d])) := by
  intro depth hdepth rest
  rw [spanLoop_object h, if_neg hdepth.ne', List.length_cons, List.length_append]
  rfl

theorem neutral_newline (level : Nat) : Neutral (newline level) := by
  apply neutral_plain
  intro c hc
  rcases List.mem_cons.mp hc with rfl | hc
  · decide
  · rw [List.eq_of_mem_replicate hc]
    decide

theorem neutral_separator (first : Bool) : Neutral (separator first) := by
  apply neutral_plain
  cases first <;> simp [separator]

theorem neutral_number (n : Nat) : Neutral (asBytes (toString n)) := by
  apply neutral_plain
  intro c hc
  have hdigit := digit_of_mem hc
  grind

theorem neutral_ending (level : Nat) (empty : Bool) :
    Neutral (if empty then [] else newline level) := by
  cases empty
  · exact neutral_newline level
  · exact neutral_nil

mutual

/-- The text of a value has its braces in pairs. -/
theorem neutral_pretty (level : Nat) : (value : Json) → Neutral (value.pretty level)
  | .number n => by
    rw [Json.pretty]
    exact neutral_number n
  | .string s => by
    rw [Json.pretty]
    exact neutral_string s
  | .array values => by
    rw [Json.pretty]
    have hbracket : ∀ c : UInt8, c ≠ 0x22 ∧ c ≠ 0x7b ∧ c ≠ 0x7d → Neutral [c] :=
      fun c hc => neutral_plain (List.forall_mem_singleton.mpr hc)
    exact (hbracket 0x5b (by decide)).append ((neutral_elements (level + 1) true values).append
      ((neutral_ending level _).append (hbracket 0x5d (by decide))))
  | .object members => by
    rw [Json.pretty, ← List.append_assoc]
    exact neutral_object ((neutral_members (level + 1) true members).append
      (neutral_ending level _))

theorem neutral_elements (level : Nat) (first : Bool) :
    (values : List Json) → Neutral (elementsText level first values)
  | [] => by
    rw [elementsText]
    exact neutral_nil
  | value :: values => by
    rw [elementsText]
    exact (neutral_separator first).append ((neutral_newline level).append
      ((neutral_pretty level value).append (neutral_elements level false values)))

theorem neutral_members (level : Nat) (first : Bool) :
    (members : List (String × Json)) → Neutral (membersText level first members)
  | [] => by
    rw [membersText]
    exact neutral_nil
  | (key, value) :: members => by
    rw [membersText]
    have hcolon : Neutral [0x3a, 0x20] := neutral_plain (by simp)
    exact (neutral_separator first).append ((neutral_newline level).append
      ((neutral_string key).append (hcolon.append
        ((neutral_pretty level value).append (neutral_members level false members)))))

end

/-- The span of an object is its text. -/
theorem jsonObjectSpan_pretty (level : Nat) (members : List (String × Json)) (rest : Bytes) :
    jsonObjectSpan ((Json.object members).pretty level ++ rest)
      = some ((Json.object members).pretty level).length := by
  have hbody : Neutral (membersText (level + 1) true members ++
      if members.isEmpty then [] else newline level) :=
    (neutral_members (level + 1) true members).append (neutral_ending level _)
  rw [Json.pretty, ← List.append_assoc]
  unfold jsonObjectSpan
  rw [if_neg (by simp), spanLoop_object hbody, if_pos rfl]
  simp [Nat.add_assoc]

/-! ## An object behind its key -/

theorem findJsonKey_eq {key : String} (hkey : IsKey key) (json : Bytes) :
    findJsonKey json key = findPast (quoted 0x22 (asBytes key)) json := by
  unfold findJsonKey
  rw [take_search hkey]

theorem skipWsColon_colon {c : UInt8} (text : Bytes)
    (h : c ≠ 0x20 ∧ c ≠ 0x09 ∧ c ≠ 0x0d ∧ c ≠ 0x0a ∧ c ≠ 0x3a) :
    skipWsColon (0x3a :: 0x20 :: c :: text) = c :: text := by
  obtain ⟨hspace, htab, hreturn, hline, hcolon⟩ := h
  unfold skipWsColon
  rw [List.dropWhile_cons_of_pos (by decide), List.dropWhile_cons_of_pos (by decide),
    List.dropWhile_cons_of_neg (by simp [hspace, htab, hreturn, hline, hcolon])]

theorem skipWsColon_comma (text : Bytes) : skipWsColon (0x2c :: text) = 0x2c :: text := by
  unfold skipWsColon
  exact List.dropWhile_cons_of_neg (by decide)

theorem pretty_object_cons (level : Nat) (members : List (String × Json)) :
    ∃ text, (Json.object members).pretty level = 0x7b :: text := by
  rw [Json.pretty]
  exact ⟨_, rfl⟩

theorem skipWsColon_object (level : Nat) (members : List (String × Json)) (rest : Bytes) :
    skipWsColon (0x3a :: 0x20 :: ((Json.object members).pretty level ++ rest))
      = (Json.object members).pretty level ++ rest := by
  obtain ⟨text, htext⟩ := pretty_object_cons level members
  rw [htext, List.cons_append]
  exact skipWsColon_colon _ (by decide)

theorem head?_object (level : Nat) (members : List (String × Json)) (rest : Bytes) :
    ((Json.object members).pretty level ++ rest).head? = some 0x7b := by
  obtain ⟨text, htext⟩ := pretty_object_cons level members
  rw [htext]
  rfl

theorem length_object_pos (level : Nat) (members : List (String × Json)) :
    ((Json.object members).pretty level).length ≠ 0 := by
  obtain ⟨text, htext⟩ := pretty_object_cons level members
  rw [htext, List.length_cons]
  exact Nat.succ_ne_zero _

/-! ## Cutting out the block -/

/-- The members of the reply before the template. -/
def replyMembers (reply : Node.BlockTemplate) : List (String × Json) :=
  [("chain_id", .string reply.template.header.chainId),
    ("epoch_seed", .bytes reply.epochSeed.bytes),
    ("height", .number reply.template.header.height),
    ("leading_zero_bits", .number reply.template.header.leadingZeroBits.toNat),
    ("previous_hash", .bytes reply.template.header.previousHash.bytes)]

theorem replyJson_eq (reply : Node.BlockTemplate) :
    replyJson reply = .object (replyMembers reply ++ ("template", blockJson reply.template) ::
      [("tx_count", .number reply.template.transactions.length)]) :=
  rfl

theorem isKey_template : IsKey "template" := IsKey.ofList (by decide) (by decide)

theorem isKey_header : IsKey "header" := IsKey.ofList (by decide) (by decide)

theorem isKey_nonce : IsKey "nonce" := IsKey.ofList (by decide) (by decide)

theorem isKey_chainId : IsKey "chain_id" := IsKey.ofList (by decide) (by decide)

variable {reply : Node.BlockTemplate} {block : Block} {nonce : UInt64} {outLen : Nat}

theorem allPassedOver_replyMembers
    (h : ¬ Shows "template" reply.template.header.chainId) :
    AllPassedOver "template" (replyMembers reply) := by
  intro member hmem
  simp only [replyMembers, List.mem_cons, List.not_mem_nil, or_false] at hmem
  rcases hmem with rfl | rfl | rfl | rfl | rfl
  · exact ⟨isKey_chainId, by simp, passedOver_string isKey_template h⟩
  · exact ⟨IsKey.ofList (by decide) (by decide), by simp, passedOver_bytes _⟩
  · exact ⟨IsKey.ofList (by decide) (by decide), by simp, passedOver_number _⟩
  · exact ⟨IsKey.ofList (by decide) (by decide), by simp, passedOver_number _⟩
  · exact ⟨IsKey.ofList (by decide) (by decide), by simp, passedOver_bytes _⟩

/-- If the chain id does not show the key, the block is cut out of the reply. -/
theorem extractTemplateObject_replyText
    (h : ¬ Shows "template" reply.template.header.chainId)
    (hlen : (blockText reply.template).length < outLen) :
    extractTemplateObject (replyText reply) outLen = some (blockText reply.template) := by
  have hfound := findPast_object isKey_template 0 (allPassedOver_replyMembers h)
    (blockJson reply.template)
    [("tx_count", .number reply.template.transactions.length)] []
  rw [← replyJson_eq, List.append_nil] at hfound
  have hsize : ¬ ((blockText reply.template).length = 0 ∨
      (blockText reply.template).length ≥ outLen) := by
    rw [not_or]
    exact ⟨length_object_pos 1 _, by omega⟩
  unfold extractTemplateObject replyText
  rw [findJsonKey_eq isKey_template, hfound]
  simp only [Option.bind_eq_bind, Option.bind_some]
  unfold blockJson
  rw [skipWsColon_object, head?_object, if_neg (by simp), jsonObjectSpan_pretty, Option.bind_some]
  exact (if_neg hsize).trans (congrArg some List.take_left)

/-- If it does, no block is found. -/
theorem extractTemplateObject_shown (h : Shows "template" reply.template.header.chainId) :
    extractTemplateObject (replyText reply) outLen = none := by
  obtain ⟨text, hfound⟩ := findPast_shown isKey_template 0 isKey_chainId (by decide) h
    ("epoch_seed", .bytes reply.epochSeed.bytes)
    ((replyMembers reply).drop 2 ++ ("template", blockJson reply.template) ::
      [("tx_count", .number reply.template.transactions.length)]) []
  rw [List.append_nil] at hfound
  have hreply : findPast (quoted 0x22 (asBytes "template")) (replyText reply)
      = some (0x2c :: text) := hfound
  unfold extractTemplateObject
  rw [findJsonKey_eq isKey_template, hreply]
  simp only [Option.bind_eq_bind, Option.bind_some]
  -- What stands there is the comma behind the chain id.
  rw [skipWsColon_comma, if_pos (by simp)]

/-! ## Replacing the digits -/

theorem findJsonKey_header (block : Block) :
    findJsonKey (blockText block) "header"
      = some (0x3a :: 0x20 :: (headerText block.header ++ blockAfter block)) := by
  have hnone : AllPassedOver "header" [] := fun member hmem => absurd hmem List.not_mem_nil
  have hfound := findPast_object isKey_header 1 hnone (headerJson block.header)
    [("transactions", .array (block.transactions.map transactionJson))] []
  rw [List.append_nil] at hfound
  rw [findJsonKey_eq isKey_header]
  exact hfound

/-- What is replaced are the digits that stand where the search in the header ends. -/
theorem replaceHeaderNonce_eq (nonce : UInt64) (outLen : Nat)
    (hheader : (headerText block.header).length < headerBufSize) {found before digits after : Bytes}
    (hfound : findJsonKey (headerText block.header) "nonce" = some found)
    (hstart : skipWsColon found = digits ++ 0x2c :: after)
    (htext : headerText block.header = before ++ (digits ++ 0x2c :: after))
    (hdigits : ∀ c ∈ digits, isDigitByte c = true) :
    replaceHeaderNonce (blockText block) nonce outLen
      = (let out := (blockBefore ++ before) ++
          (asBytes (toString nonce.toNat) ++ (0x2c :: after ++ blockAfter block));
        if 0 < out.length ∧ out.length < outLen then some out else none) := by
  have hsize : ¬ ((headerText block.header).length = 0 ∨
      (headerText block.header).length ≥ headerBufSize) := by
    rw [not_or]
    exact ⟨length_object_pos 2 _, by omega⟩
  have hskip : skipWsColon (0x3a :: 0x20 :: (headerText block.header ++ blockAfter block))
      = headerText block.header ++ blockAfter block := skipWsColon_object 2 _ _
  have hhead : (headerText block.header ++ blockAfter block).head? = some 0x7b :=
    head?_object 2 _ _
  have hspan : jsonObjectSpan (headerText block.header ++ blockAfter block)
      = some (headerText block.header).length := jsonObjectSpan_pretty 2 _ _
  have hsign : (digits ++ 0x2c :: after).head? ≠ some 0x2d := by
    cases digits with
    | nil => simp
    | cons c digits =>
      rw [List.cons_append, List.head?_cons, Ne, Option.some.injEq]
      rintro rfl
      exact absurd (hdigits 0x2d List.mem_cons_self) (by decide)
  have hend : (digits ++ 0x2c :: after).dropWhile isDigitByte = 0x2c :: after := by
    rw [List.dropWhile_append_of_pos hdigits, List.dropWhile_cons_of_neg (by decide)]
  -- The offsets of the digits in the copied header, counted from the start of the block.
  have hblock : blockText block
      = (blockBefore ++ before) ++ ((digits ++ 0x2c :: after) ++ blockAfter block) := by
    rw [blockText_eq, htext]
    simp only [List.append_assoc]
  have hprefix : (blockText block).length - (headerText block.header ++ blockAfter block).length
      + ((headerText block.header).length - (digits ++ 0x2c :: after).length)
      = (blockBefore ++ before).length := by
    rw [blockText_eq, htext]
    simp only [List.length_append]
    omega
  have hsuffix : (blockText block).length - (headerText block.header ++ blockAfter block).length
      + ((headerText block.header).length - (0x2c :: after).length)
      = ((blockBefore ++ before) ++ digits).length := by
    rw [blockText_eq, htext]
    simp only [List.length_append]
    omega
  have hdrop : (blockText block).drop ((blockBefore ++ before) ++ digits).length
      = 0x2c :: after ++ blockAfter block := by
    rw [hblock, List.append_assoc digits, ← List.append_assoc _ digits, List.drop_left]
  have htake : (blockText block).take (blockBefore ++ before).length = blockBefore ++ before := by
    rw [hblock, List.take_left]
  unfold replaceHeaderNonce
  rw [findJsonKey_header]
  simp only [Option.bind_eq_bind, Option.bind_some]
  rw [hskip, if_neg (by simp [hhead]), hspan, Option.bind_some, if_neg hsize, List.take_left,
    hfound, Option.bind_some]
  simp only [hstart, if_neg hsign, hend, hprefix, hsuffix, hdrop, htake]

theorem allPassedOver_earlierMembers {header : BlockHeader} (h : ¬ Shows "nonce" header.chainId) :
    AllPassedOver "nonce" (earlierMembers header) := by
  intro member hmem
  simp only [earlierMembers, List.mem_cons, List.not_mem_nil, or_false] at hmem
  rcases hmem with rfl | rfl | rfl | rfl
  · exact ⟨isKey_chainId, by simp, passedOver_string isKey_nonce h⟩
  · exact ⟨IsKey.ofList (by decide) (by decide), by simp, passedOver_number _⟩
  · exact ⟨IsKey.ofList (by decide) (by decide), by simp, passedOver_number _⟩
  · exact ⟨IsKey.ofList (by decide) (by decide), by simp, passedOver_bytes _⟩

theorem headerJson_eq (header : BlockHeader) :
    headerJson header = .object (earlierMembers header ++ ("nonce", .number header.nonce.toNat) ::
      laterMembers header) :=
  rfl

theorem findJsonKey_nonce {header : BlockHeader} (h : ¬ Shows "nonce" header.chainId) :
    findJsonKey (headerText header) "nonce"
      = some (0x3a :: 0x20 :: (asBytes (toString header.nonce.toNat) ++ headerAfter header)) := by
  have hfound := findPast_object isKey_nonce 2 (allPassedOver_earlierMembers h)
    (.number header.nonce.toNat) (laterMembers header) []
  rw [← headerJson_eq, List.append_nil, Json.pretty.eq_1] at hfound
  rw [findJsonKey_eq isKey_nonce]
  exact hfound

theorem headerAfter_cons (header : BlockHeader) : ∃ text, headerAfter header = 0x2c :: text :=
  ⟨_, rfl⟩

theorem isDigitByte_toString (n : Nat) : ∀ c ∈ asBytes (toString n), isDigitByte c = true := by
  intro c hc
  have hdigit := digit_of_mem hc
  unfold isDigitByte
  simpa using hdigit

theorem skipWsColon_toString (n : Nat) (text : Bytes) :
    skipWsColon (0x3a :: 0x20 :: (asBytes (toString n) ++ text))
      = asBytes (toString n) ++ text := by
  obtain ⟨c, digits, hcons⟩ := List.exists_cons_of_ne_nil (toString_ne_nil n)
  have hdigit : 0x30 ≤ c ∧ c ≤ 0x39 := digit_of_mem (hcons ▸ List.mem_cons_self)
  rw [hcons, List.cons_append]
  apply skipWsColon_colon
  grind

theorem length_blockText_withNonce (block : Block) (nonce : UInt64) :
    (blockText (block.withNonce nonce)).length
        + (asBytes (toString block.header.nonce.toNat)).length
      = (blockText block).length + (asBytes (toString nonce.toNat)).length := by
  have hblock : blockText block = blockText (block.withNonce block.header.nonce) := rfl
  rw [hblock, blockText_withNonce, blockText_withNonce]
  simp only [List.length_append]
  omega

/-- If the chain id does not show the key, the text becomes that of the block with the
    nonce put in. -/
theorem replaceHeaderNonce_blockText (h : ¬ Shows "nonce" block.header.chainId)
    (hheader : (headerText block.header).length < headerBufSize)
    (hlen : (blockText block).length + 20 < outLen) :
    replaceHeaderNonce (blockText block) nonce outLen
      = some (blockText (block.withNonce nonce)) := by
  obtain ⟨text, hafter⟩ := headerAfter_cons block.header
  have hfound := findJsonKey_nonce h
  have htext := headerText_eq block.header
  rw [hafter] at hfound htext
  have hedit := replaceHeaderNonce_eq nonce outLen hheader hfound
    (skipWsColon_toString _ _) htext (isDigitByte_toString _)
  have hout : (blockBefore ++ headerBefore block.header) ++
      (asBytes (toString nonce.toNat) ++ (0x2c :: text ++ blockAfter block))
      = blockText (block.withNonce nonce) := by
    rw [blockText_withNonce, hafter]
  have hdigits := length_toString_le nonce.toNat_lt
  have hsize := length_blockText_withNonce block nonce
  have hpos : (blockText (block.withNonce nonce)).length ≠ 0 := length_object_pos 1 _
  rw [hedit, hout]
  exact if_pos ⟨by omega, by omega⟩

/-- If it does, the digits are put in behind the chain id, and nothing is taken out. -/
theorem length_replaceHeaderNonce_shown (h : Shows "nonce" block.header.chainId)
    (hheader : (headerText block.header).length < headerBufSize) {out : Bytes}
    (hout : replaceHeaderNonce (blockText block) nonce outLen = some out) :
    out.length = (blockText block).length + (asBytes (toString nonce.toNat)).length := by
  obtain ⟨text, hfound⟩ := findPast_shown isKey_nonce 2 isKey_chainId (by decide) h
    ("height", .number block.header.height)
    ((earlierMembers block.header).drop 2 ++ ("nonce", .number block.header.nonce.toNat) ::
      laterMembers block.header) []
  rw [List.append_nil] at hfound
  have hheaderFound : findPast (quoted 0x22 (asBytes "nonce")) (headerText block.header)
      = some (0x2c :: text) := hfound
  obtain ⟨before, hsplit⟩ := findPast_suffix hheaderFound
  have hkey : findJsonKey (headerText block.header) "nonce" = some (0x2c :: text) := by
    rw [findJsonKey_eq isKey_nonce, hheaderFound]
  -- No digit stands in front of the comma.
  have hstart : skipWsColon (0x2c :: text) = [] ++ 0x2c :: text := skipWsColon_comma text
  have hedit := replaceHeaderNonce_eq nonce outLen hheader hkey hstart hsplit.symm
    (fun c hc => absurd hc List.not_mem_nil)
  rw [hedit] at hout
  obtain ⟨-, hsame⟩ := Option.ite_none_right_eq_some.mp hout
  rw [← Option.some.inj hsame, blockText_eq, ← hsplit]
  simp only [List.length_append]
  omega

/-! ## The posted text -/

/-- What is posted parses to the block with the nonce put in, and is the text of the
    block but for the digits of the nonce. -/
def EditsNonce (parse : Bytes → Option Block) (reply : Node.BlockTemplate) (nonce : UInt64) :
    Prop :=
  ∃ out, postedText (replyText reply) nonce = some out ∧
    parse out = some (reply.template.withNonce nonce) ∧
    ∃ before after : Bytes,
      (∀ n, blockText (reply.template.withNonce n)
        = before ++ (asBytes (toString n.toNat) ++ after)) ∧
      out = before ++ (asBytes (toString nonce.toNat) ++ after)

theorem postedText_replyText (htemplate : ¬ Shows "template" reply.template.header.chainId)
    (hnonce : ¬ Shows "nonce" reply.template.header.chainId)
    (hheader : (headerText reply.template.header).length < headerBufSize)
    (hlen : (blockText reply.template).length + 20 < rpcBuf) (nonce : UInt64) :
    postedText (replyText reply) nonce = some (blockText (reply.template.withNonce nonce)) := by
  unfold postedText
  rw [extractTemplateObject_replyText htemplate (by omega), Option.bind_some,
    replaceHeaderNonce_blockText hnonce hheader hlen]

/-- The chain ids of the networks show neither key. -/
theorem postedText_network (params : ConsensusParams)
    (hparams : params = testnet ∨ params = mainnet)
    (hchain : reply.template.header.chainId = params.chainId)
    (hheader : (headerText reply.template.header).length < headerBufSize)
    (hlen : (blockText reply.template).length + 20 < rpcBuf) (nonce : UInt64) :
    postedText (replyText reply) nonce = some (blockText (reply.template.withNonce nonce)) := by
  have hhidden : ¬ Shows "template" params.chainId ∧ ¬ Shows "nonce" params.chainId := by
    rcases hparams with rfl | rfl <;> decide
  rw [← hchain] at hhidden
  exact postedText_replyText hhidden.1 hhidden.2 hheader hlen nonce

/-- An edit leaves the length to the digits, so the searches have not ended in the chain id. -/
theorem not_shows_of_editsNonce {parse : Bytes → Option Block}
    (hheader : (headerText reply.template.header).length < headerBufSize)
    (hlen : (blockText reply.template).length + 20 < rpcBuf)
    (hedits : EditsNonce parse reply nonce) :
    ¬ Shows "template" reply.template.header.chainId ∧
      ¬ Shows "nonce" reply.template.header.chainId := by
  obtain ⟨out, hposted, -, before, after, hblocks, hout⟩ := hedits
  unfold postedText at hposted
  have htemplate : ¬ Shows "template" reply.template.header.chainId := by
    intro h
    rw [extractTemplateObject_shown h] at hposted
    exact absurd hposted nofun
  refine ⟨htemplate, ?_⟩
  intro h
  rw [extractTemplateObject_replyText htemplate (by omega), Option.bind_some] at hposted
  have hlong := length_replaceHeaderNonce_shown h hheader hposted
  have hblock : blockText reply.template = before ++
      (asBytes (toString reply.template.header.nonce.toNat) ++ after) :=
    hblocks reply.template.header.nonce
  have hdigits := List.length_pos_of_ne_nil
    (toString_ne_nil reply.template.header.nonce.toNat)
  -- The old digits are counted in `hlong`, and there is at least one.
  rw [hout, hblock] at hlong
  simp only [List.length_append] at hlong
  omega

/-- The nonce is edited, and nothing else, exactly if no search for a key ends in the
    chain id. -/
theorem nonce_edited_iff (parse : Bytes → Option Block) (reply : Node.BlockTemplate)
    (hparse : ∀ n, parse (blockText (reply.template.withNonce n))
      = some (reply.template.withNonce n))
    (hheader : (headerText reply.template.header).length < headerBufSize)
    (hlen : (blockText reply.template).length + 20 < rpcBuf) (nonce : UInt64) :
    EditsNonce parse reply nonce ↔
      ¬ Shows "template" reply.template.header.chainId ∧
        ¬ Shows "nonce" reply.template.header.chainId := by
  constructor
  · exact not_shows_of_editsNonce hheader hlen
  · rintro ⟨htemplate, hnonce⟩
    exact ⟨_, postedText_replyText htemplate hnonce hheader hlen nonce, hparse nonce, _, _,
      blockText_withNonce reply.template, blockText_withNonce reply.template nonce⟩

/-! ## A template -/

/-- A reader of the texts of one block that differ in the nonce. -/
def readNonce (block : Block) (text : Bytes) : Option Block :=
  some (block.withNonce (UInt64.ofNat (decimalValue
    ((text.drop (blockBefore ++ headerBefore block.header).length).takeWhile isDigitByte))))

theorem readNonce_blockText (block : Block) (nonce : UInt64) :
    readNonce block (blockText (block.withNonce nonce)) = some (block.withNonce nonce) := by
  obtain ⟨text, hafter⟩ := headerAfter_cons block.header
  unfold readNonce
  rw [blockText_withNonce, List.drop_left,
    List.takeWhile_append_of_pos (isDigitByte_toString _), hafter, List.cons_append,
    List.takeWhile_cons_of_neg (by decide), List.append_nil, decimalValue_toString,
    UInt64.ofNat_toNat]

/-- A reply for the first block of a chain, with its coinbase transaction. -/
def firstTemplate (chainId : String) : Node.BlockTemplate where
  epochSeed := .zero
  template :=
    { header :=
        { version := 1
          chainId := chainId
          height := 1
          previousHash := .zero
          merkleRoot := .zero
          timestampSeconds := 1700000000
          leadingZeroBits := 42
          nonce := 0 }
      transactions :=
        [{ id := .zero
           inputs := []
           outputs := [{ valueAtoms := 1523557865, scriptPubkey := [0x74, 0x78, 0x6d] }]
           payload := [1, 0, 0, 0, 0, 0, 0, 0] }] }

theorem nonce_edited_mainnet :
    EditsNonce (readNonce (firstTemplate "tensorium-mainnet").template)
        (firstTemplate "tensorium-mainnet") 81985529216486895 ↔
      ¬ Shows "template" "tensorium-mainnet" ∧ ¬ Shows "nonce" "tensorium-mainnet" :=
  nonce_edited_iff _ (firstTemplate "tensorium-mainnet") (readNonce_blockText _)
    (by decide +kernel) (by decide +kernel) 81985529216486895

/-- **A chain id can be taken for a key.** The digits are put in behind a chain id
    `nonce`, and the nonce stays as it was. -/
theorem chain_id_taken_for_nonce :
    (∀ n, readNonce (firstTemplate "nonce").template
        (blockText ((firstTemplate "nonce").template.withNonce n))
      = some ((firstTemplate "nonce").template.withNonce n)) ∧
      (headerText (firstTemplate "nonce").template.header).length < headerBufSize ∧
      (blockText (firstTemplate "nonce").template).length + 20 < rpcBuf ∧
      ¬ EditsNonce (readNonce (firstTemplate "nonce").template) (firstTemplate "nonce") 7 := by
  have hheader : (headerText (firstTemplate "nonce").template.header).length < headerBufSize := by
    decide +kernel
  have hlen : (blockText (firstTemplate "nonce").template).length + 20 < rpcBuf := by
    decide +kernel
  refine ⟨readNonce_blockText _, hheader, hlen, ?_⟩
  intro hedits
  exact (not_shows_of_editsNonce hheader hlen hedits).2 (Or.inl rfl)

end Tensorium.Miner
