import Tensorium.Miner.Fields
import Tensorium.Miner.PowHash
import Tensorium.Pool.WinningNonce

/-! # Pool and miner on the same header

    The line the pool sends for a job is read back by the miner as a job with the
    same header, seed and bits, and a nonce survives the way back. The two judge a
    nonce alike unless its hash is all zeros, which the pool counts in a byte.
-/

namespace Tensorium.Miner

open ByteCodec Quoted

/-! ## The fields of the message -/

/-- The names in a `mining.notify` message. -/
def fieldNames : List String :=
  ["id", "method", "params", "job_id", "chain_id", "height", "previous_hash", "merkle_root",
    "epoch_seed", "timestamp", "difficulty_bits", "share_difficulty", "clean_jobs"]

theorem isKey_fieldNames : ∀ key ∈ fieldNames, IsKey key := by
  intro key hkey
  simp only [fieldNames, List.mem_cons, List.not_mem_nil, or_false] at hkey
  rcases hkey with rfl | rfl | rfl | rfl | rfl | rfl | rfl | rfl | rfl | rfl | rfl | rfl | rfl <;>
    exact IsKey.ofList (by decide) (by decide)

/-- The parameters, in the order the serializer writes them. -/
def notifyParams (job : StratumJob) (workerDiff : UInt64) : List (String × JsonValue) :=
  [("chain_id", .string job.chainId),
    ("clean_jobs", .bool true),
    ("difficulty_bits", .number job.difficultyBits.toNat),
    ("epoch_seed", .string (bytesToHex job.epochSeed.bytes)),
    ("height", .number job.height),
    ("job_id", .string job.jobId),
    ("merkle_root", .string (bytesToHex job.merkleRoot.bytes)),
    ("previous_hash", .string (bytesToHex job.previousHash.bytes)),
    ("share_difficulty", .number workerDiff.toNat),
    ("timestamp", .number job.timestamp)]

theorem notifyMsg_eq (job : StratumJob) (workerDiff : UInt64) :
    notifyMsg job workerDiff
      = .object ([("id", .null), ("method", .string "mining.notify")]
          ++ ("params", .object (notifyParams job workerDiff)) :: []) := by
  simp [notifyMsg, JsonValue.ofMembers, notifyParams, List.insertionSort, List.orderedInsert]

/-- A job as the pool publishes it: version 1, a chain id and a job id that fit the
    buffers of the miner, plain and not a field name, and words that are words. -/
structure Sendable (job : StratumJob) : Prop where
  version : job.version = 1
  height : job.height < 2 ^ 64
  timestamp : job.timestamp < 2 ^ 64
  chainId : Plain job.chainId ∧ job.chainId ∉ fieldNames
  chainId_length : 0 < (asBytes job.chainId).length ∧ (asBytes job.chainId).length ≤ 63
  jobId : Plain job.jobId ∧ job.jobId ∉ fieldNames
  jobId_length : (asBytes job.jobId).length ≤ 47

variable {job : StratumJob} {workerDiff : UInt64}

/-- A text of hexadecimal digits is too long for a key. -/
theorem bytesToHex_ne_key (h : Hash256) {key : String} (hkey : IsKey key) :
    bytesToHex h.bytes ≠ key := by
  intro heq
  have hlen := hkey.1
  rw [← heq, bytesToHex, length_hexEncode, h.size] at hlen
  omega

theorem passedBy_params (hjob : Sendable job) {key : String} (hkey : key ∈ fieldNames) :
    ∀ m ∈ notifyParams job workerDiff, IsKey m.1 ∧ PassedBy key m.2 := by
  have hnames := isKey_fieldNames
  have hchain : job.chainId ≠ key := fun heq => hjob.chainId.2 (heq ▸ hkey)
  have hjobId : job.jobId ≠ key := fun heq => hjob.jobId.2 (heq ▸ hkey)
  have hhash : ∀ h : Hash256, PassedBy key (.string (bytesToHex h.bytes)) := fun h =>
    ⟨plain_hexEncode _, bytesToHex_ne_key h (hnames key hkey)⟩
  intro m hm
  constructor
  · apply hnames
    have hmem : m.1 ∈ (notifyParams job workerDiff).map Prod.fst := List.mem_map_of_mem hm
    simp only [notifyParams, List.map_cons, List.map_nil] at hmem
    revert hmem
    generalize m.1 = name
    revert name
    decide
  · simp only [notifyParams, List.mem_cons, List.not_mem_nil, or_false] at hm
    rcases hm with rfl | rfl | rfl | rfl | rfl | rfl | rfl | rfl | rfl | rfl
    · exact ⟨hjob.chainId.1, hchain⟩
    · trivial
    · trivial
    · exact hhash _
    · trivial
    · exact ⟨hjob.jobId.1, hjobId⟩
    · exact hhash _
    · exact hhash _
    · trivial
    · trivial

/-- The miner finds the parameters, with the two closing braces behind them. -/
theorem findParams_notify (job : StratumJob) (workerDiff : UInt64) :
    findParams (notifyMsg job workerDiff).toBytes
      = some ((JsonValue.object (notifyParams job workerDiff)).toBytes ++ [0x7d]) := by
  have hkey : IsKey "params" := isKey_fieldNames _ (by simp [fieldNames])
  have hbefore : ∀ m ∈ [("id", JsonValue.null), ("method", .string "mining.notify")],
      IsKey m.1 ∧ m.1 ≠ "params" ∧ PassedBy "params" m.2 := by
    intro m hm
    simp only [List.mem_cons, List.not_mem_nil, or_false] at hm
    rcases hm with rfl | rfl
    · exact ⟨isKey_fieldNames _ (by simp [fieldNames]), by simp, trivial⟩
    · exact ⟨isKey_fieldNames _ (by simp [fieldNames]), by simp, Plain.ofList (by decide), by simp⟩
  have hfound := findPast_members hkey hbefore (.object (notifyParams job workerDiff)) [] [] true
  have hbrace : findPast (quoted 0x22 (asBytes "params")) (notifyMsg job workerDiff).toBytes
      = findPast (quoted 0x22 (asBytes "params"))
        (JsonValue.membersToBytes true ([("id", .null), ("method", .string "mining.notify")]
          ++ ("params", .object (notifyParams job workerDiff)) :: []) ++ []) := by
    rw [notifyMsg_eq, List.append_nil, JsonValue.toBytes, ← List.singleton_append]
    apply findPast_skip
    decide
  unfold findParams
  rw [hbrace, hfound, Option.map_some]
  rfl

theorem field_notify (hjob : Sendable job) {key : String} (hkey : key ∈ fieldNames)
    {value : JsonValue} (hmem : (key, value) ∈ notifyParams job workerDiff) :
    FieldAt ((JsonValue.object (notifyParams job workerDiff)).toBytes ++ [0x7d]) key value := by
  apply fieldAt_of_mem (isKey_fieldNames key hkey) (passedBy_params hjob hkey) _ hmem
  simp only [notifyParams, List.map_cons, List.map_nil]
  decide

/-- What the miner reads off the line. -/
def readJob (job : StratumJob) (workerDiff : UInt64) : JobDesc where
  jobId := asBytes job.jobId
  chainId := asBytes job.chainId
  height := UInt64.ofNat job.height
  previousHash := job.previousHash
  merkleRoot := job.merkleRoot
  epochSeed := job.epochSeed
  timestamp := UInt64.ofNat job.timestamp
  difficultyBits := job.difficultyBits
  shareBits := shareBitsFromDiff workerDiff
  version := 1
  valid := true

/-- Reading the message gives the job back, field by field. -/
theorem parseNotify_notifyMsg (hjob : Sendable job) (hdiff : workerDiff > 0) (earlier : JobDesc)
    (shareDiff : UInt64) :
    parseNotify (notifyMsg job workerDiff).toBytes earlier shareDiff
      = some (readJob job workerDiff) := by
  have hstring : ∀ (key s : String) (len : Nat), key ∈ fieldNames → Plain s →
      (key, .string s) ∈ notifyParams job workerDiff → jstr
        ((JsonValue.object (notifyParams job workerDiff)).toBytes ++ [0x7d]) key len
      = some (true, (asBytes s).take (len - 1)) := fun key s len hkey hs hmem =>
    (field_notify hjob hkey hmem).jstr_string (isKey_fieldNames key hkey) hs len
  have hnumber : ∀ (key : String) (n : Nat), key ∈ fieldNames → n < 2 ^ 64 →
      (key, .number n) ∈ notifyParams job workerDiff → jnum
        ((JsonValue.object (notifyParams job workerDiff)).toBytes ++ [0x7d]) key
      = UInt64.ofNat n := fun key n hkey hn hmem =>
    (field_notify hjob hkey hmem).jnum (isKey_fieldNames key hkey) hn
  have hhash : ∀ (key : String) (h : Hash256), key ∈ fieldNames →
      (key, .string (bytesToHex h.bytes)) ∈ notifyParams job workerDiff → jhash
        ((JsonValue.object (notifyParams job workerDiff)).toBytes ++ [0x7d]) key = some h :=
    fun key h hkey hmem => (field_notify hjob hkey hmem).jhash (isKey_fieldNames key hkey)
  -- The nine fields, by the kind of their values.
  have hchainId := hstring "chain_id" job.chainId chainIdLen (by decide) hjob.chainId.1
    (by simp [notifyParams])
  have hjobId := hstring "job_id" job.jobId jobIdLen (by decide) hjob.jobId.1
    (by simp [notifyParams])
  have hheight := hnumber "height" job.height (by decide) hjob.height (by simp [notifyParams])
  have htimestamp := hnumber "timestamp" job.timestamp (by decide) hjob.timestamp
    (by simp [notifyParams])
  have hbits := hnumber "difficulty_bits" job.difficultyBits.toNat (by decide)
    (by have := job.difficultyBits.toNat_lt; omega) (by simp [notifyParams])
  have hshare := hnumber "share_difficulty" workerDiff.toNat (by decide) workerDiff.toNat_lt
    (by simp [notifyParams])
  have hprevious := hhash "previous_hash" job.previousHash (by decide) (by simp [notifyParams])
  have hmerkle := hhash "merkle_root" job.merkleRoot (by decide) (by simp [notifyParams])
  have hseed := hhash "epoch_seed" job.epochSeed (by decide) (by simp [notifyParams])
  -- The strings fit the buffers, and the bits fit a byte.
  have hchainTake : (asBytes job.chainId).take (chainIdLen - 1) = asBytes job.chainId :=
    List.take_of_length_le hjob.chainId_length.2
  have hjobTake : (asBytes job.jobId).take (jobIdLen - 1) = asBytes job.jobId :=
    List.take_of_length_le hjob.jobId_length
  have hbyte : (UInt64.ofNat job.difficultyBits.toNat).toUInt8 = job.difficultyBits := by
    apply UInt8.toNat_inj.mp
    simp
  unfold parseNotify readJob
  rw [findParams_notify]
  dsimp only
  rw [hjobId, hchainId, hheight, htimestamp, hbits, hshare, hprevious, hmerkle, hseed, hchainTake,
    hjobTake, hbyte, UInt64.ofNat_toNat]
  dsimp only
  rw [if_pos hdiff]
  rfl

/-! ## Share bits -/

theorem toNat_bitsToDiff {bits : UInt8} (h : bits.toNat ≤ 63) :
    (bitsToDiff bits).toNat = 2 ^ bits.toNat := by
  have hlt : 2 ^ bits.toNat < 2 ^ 64 := Nat.pow_lt_pow_right (by omega) (by omega)
  have hmod : bits.toNat % 64 = bits.toNat := Nat.mod_eq_of_lt (by omega)
  unfold bitsToDiff
  rw [UInt64.toNat_shiftLeft, UInt8.toNat_toUInt64, hmod, UInt64.toNat_one, Nat.one_shiftLeft,
    Nat.mod_eq_of_lt hlt]

/-- Halving a power of two counts its exponent. -/
theorem shareBitsLoop_two_pow (k : Nat) {n : Nat} (hk : k ≤ n) (hn : n ≤ 64) {diff : UInt64}
    (hdiff : diff.toNat = 2 ^ k) (bits : UInt8) :
    shareBitsLoop n diff bits = bits + UInt8.ofNat k := by
  induction k generalizing n diff bits with
  | zero =>
    have hone : ¬ diff > 1 := by
      rw [gt_iff_lt, UInt64.lt_iff_toNat_lt, hdiff]
      decide
    cases n with
    | zero => simp [shareBitsLoop]
    | succ n =>
      rw [shareBitsLoop, if_neg hone]
      simp
  | succ k ih =>
    obtain ⟨n, rfl⟩ : ∃ m, n = m + 1 := ⟨n - 1, by omega⟩
    have hpos : 0 < 2 ^ k := Nat.two_pow_pos k
    have hmore : diff > 1 := by
      rw [gt_iff_lt, UInt64.lt_iff_toNat_lt, hdiff, UInt64.toNat_one, Nat.pow_succ]
      omega
    have hhalf : (diff >>> 1).toNat = 2 ^ k := by
      rw [UInt64.toNat_shiftRight, hdiff, Nat.shiftRight_eq_div_pow, Nat.pow_succ]
      exact Nat.mul_div_cancel _ (by decide)
    have hsum : bits + 1 + UInt8.ofNat k = bits + UInt8.ofNat (k + 1) := by
      rw [UInt8.ofNat_add, UInt8.add_assoc, UInt8.add_comm 1]
      rfl
    rw [shareBitsLoop, if_pos hmore, ih (by omega) (by omega) hhalf, hsum]

theorem shareBitsFromDiff_bitsToDiff {bits : UInt8} (h : bits.toNat ≤ 63) :
    shareBitsFromDiff (bitsToDiff bits) = bits := by
  unfold shareBitsFromDiff
  rw [shareBitsLoop_two_pow bits.toNat (by omega) (Nat.le_refl _) (toNat_bitsToDiff h)]
  simp

/-! ## The header -/

theorem buildHeader_readJob (hjob : Sendable job) (nonce : UInt64) :
    buildHeader (readJob job workerDiff) nonce
      = (jobHeader job nonce).powPrefixBytes ++ leBytes 8 nonce.toNat := by
  have hlength := hjob.chainId_length
  have hheight : (UInt64.ofNat job.height).toNat = job.height :=
    UInt64.toNat_ofNat_of_lt' hjob.height
  have htimestamp : (UInt64.ofNat job.timestamp).toNat = job.timestamp :=
    UInt64.toNat_ofNat_of_lt' hjob.timestamp
  have hversion : le32Bytes 4 (1 : UInt64).toUInt32 = leBytes 4 (1 : UInt32).toNat := by decide
  unfold buildHeader readJob
  dsimp only
  rw [if_neg (by omega), if_neg (by rw [headerMax]; omega), hversion, le64Bytes_eq, le64Bytes_eq,
    le64Bytes_eq, hheight, htimestamp]
  unfold jobHeader BlockHeader.powPrefixBytes
  rw [hjob.version]

theorem length_powPrefixBytes (header : BlockHeader) :
    header.powPrefixBytes.length = (asBytes header.chainId).length + 85 := by
  unfold BlockHeader.powPrefixBytes
  simp only [List.length_append, length_leBytes, Hash256.size, List.length_singleton]
  omega

/-! ## The nonce -/

theorem isCharBoundary_ascii {bytes : Bytes} (h : ∀ b ∈ bytes, b < 128) {i : Nat}
    (hi : i ≤ bytes.length) : isCharBoundary bytes i = true := by
  unfold isCharBoundary
  cases hget : bytes[i]? with
  | none =>
    have hlen := List.getElem?_eq_none_iff.mp hget
    simp
    omega
  | some b =>
    have hb := h b (List.mem_of_getElem? hget)
    simp [hb]

theorem fromStrRadix16_hexPair (b : UInt8) : fromStrRadix16 (hexPair b) = some b := by
  have hread : ∀ n < 256, fromStrRadix16 [hexByte (n / 16), hexByte (n % 16)]
      = some (UInt8.ofNat n) := by decide +kernel
  have hb := hread b.toNat b.toNat_lt
  rwa [UInt8.ofNat_toNat] at hb

/-- The loop reads the digits pair by pair. -/
theorem leHexLoop_hexPairs (passed bs parsed : Bytes) :
    leHexLoop ((passed ++ bs).flatMap hexPair) bs.length passed.length parsed
      = some (some (parsed ++ bs)) := by
  induction bs generalizing passed parsed with
  | nil => simp [leHexLoop]
  | cons b bs ih =>
    have hascii : ∀ c ∈ (passed ++ b :: bs).flatMap hexPair, c < 128 := by
      intro c hc
      rw [← asBytes_hexEncode] at hc
      obtain ⟨n, hn, rfl⟩ := mem_hexEncode hc
      have hplain := hexByte_plain n hn
      grind
    have hlen : ((passed ++ b :: bs).flatMap hexPair).length
        = 2 * (passed.length + (bs.length + 1)) := by
      rw [← asBytes_hexEncode, length_hexEncode, List.length_append, List.length_cons]
    have hpassed : (passed.flatMap hexPair).length = passed.length * 2 := by
      rw [← asBytes_hexEncode, length_hexEncode, Nat.mul_comm]
    have hpair : (((passed ++ b :: bs).flatMap hexPair).drop (passed.length * 2)).take 2
        = hexPair b := by
      rw [List.flatMap_append, ← hpassed, List.drop_left]
      rfl
    rw [List.length_cons, leHexLoop, isCharBoundary_ascii hascii (by omega),
      isCharBoundary_ascii hascii (by omega), hpair, fromStrRadix16_hexPair]
    have hstep := ih (passed ++ [b]) (parsed ++ [b])
    simpa using hstep

/-- No hexadecimal digit is an `x`, so nothing is trimmed. -/
theorem trimStart0x_hexPairs (bs : Bytes) :
    trimStart0x (bs.flatMap hexPair) = bs.flatMap hexPair := by
  cases bs with
  | nil => rfl
  | cons b bs =>
    have hlt := b.toNat_lt
    have hplain := hexByte_plain (b.toNat % 16) (by omega)
    have hx : hexByte (b.toNat % 16) ≠ 120 := by grind
    rw [List.flatMap_cons, hexPair, List.cons_append, List.cons_append]
    unfold trimStart0x
    split
    · rename_i heq
      exact absurd (List.cons.inj (List.cons.inj heq).2).1 hx
    · rfl

theorem leHexToU64_nonceToHex (nonce : UInt64) :
    leHexToU64 (nonceToHex nonce) = some (some nonce) := by
  have hloop := leHexLoop_hexPairs [] (leBytes 8 nonce.toNat) []
  rw [length_leBytes, List.nil_append, List.length_nil] at hloop
  have hlength : ((leBytes 8 nonce.toNat).flatMap hexPair).length = 16 := by
    rw [← asBytes_hexEncode, length_hexEncode, length_leBytes]
  have hvalue : UInt64.ofNat (leNat (leBytes 8 nonce.toNat)) = nonce := by
    have hlt : nonce.toNat < 256 ^ 8 := nonce.toNat_lt
    rw [leNat_leBytes, Nat.mod_eq_of_lt hlt, UInt64.ofNat_toNat]
  unfold leHexToU64 nonceToHex
  rw [le64Bytes_eq, asBytes_hexEncode, trimStart0x_hexPairs]
  dsimp only
  rw [hlength, show min (16 / 2) 8 = 8 from rfl, hloop, Option.map_some, Option.map_some, hvalue]

/-! ## Leading zeros -/

theorem byteZerosLoop_add (n : Nat) (x : UInt32) (bits : Nat) :
    byteZerosLoop n x bits = bits + byteZerosLoop n x 0 := by
  induction n generalizing x bits with
  | zero => rfl
  | succ n ih =>
    unfold byteZerosLoop
    split_ifs
    · rw [ih, ih (x <<< 1) (0 + 1)]
      omega
    · rfl

/-- The inner loop of the host counts what `leading_zeros` counts. -/
theorem byteZerosLoop_eq {b : UInt8} (hb : b ≠ 0) (bits : Nat) :
    byteZerosLoop 7 b.toUInt32 bits = bits + Hash256.byteLeadingZeros b := by
  have hbytes : ∀ n < 256, n ≠ 0 → byteZerosLoop 7 (UInt8.ofNat n).toUInt32 0
      = Hash256.byteLeadingZeros (UInt8.ofNat n) := by decide +kernel
  have hne : b.toNat ≠ 0 := fun h => hb (UInt8.toNat_inj.mp h)
  have heq := hbytes b.toNat b.toNat_lt hne
  rw [UInt8.ofNat_toNat] at heq
  rw [byteZerosLoop_add, heq]

theorem hostLeadingZeroBits_eq (h : Hash256) :
    hostLeadingZeroBits h.bytes = h.leadingZeroBits := by
  have hloop : ∀ (bs : Bytes) (bits : Nat),
      hostLeadingZeroBitsLoop bs bits = Hash256.leadingZeroBitsLoop bs bits := by
    intro bs
    induction bs with
    | nil => intro bits; rfl
    | cons b bs ih =>
      intro bits
      unfold hostLeadingZeroBitsLoop Hash256.leadingZeroBitsLoop
      split_ifs with hb
      · exact ih (bits + 8)
      · exact byteZerosLoop_eq hb bits
  exact hloop h.bytes 0

theorem leadingZeroBitsLoop_lt {bs : Bytes} (h : ∃ b ∈ bs, b ≠ 0) (bits : Nat) :
    Hash256.leadingZeroBitsLoop bs bits < bits + 8 * bs.length := by
  induction bs generalizing bits with
  | nil =>
    obtain ⟨b, hb, _⟩ := h
    cases hb
  | cons b bs ih =>
    unfold Hash256.leadingZeroBitsLoop
    rw [List.length_cons]
    split_ifs with hb
    · have hrest : ∃ c ∈ bs, c ≠ 0 := by
        obtain ⟨c, hc, hne⟩ := h
        rcases List.mem_cons.mp hc with rfl | hc
        · exact absurd hb hne
        · exact ⟨c, hc, hne⟩
      have hlt := ih hrest (bits + 8)
      omega
    · unfold Hash256.byteLeadingZeros
      rw [if_neg hb]
      omega

/-- Only the hash of zeros has as many leading zeros as bits. -/
theorem leadingZeroBits_lt {h : Hash256} (hne : h ≠ .zero) : h.leadingZeroBits < 256 := by
  have hbyte : ∃ b ∈ h.bytes, b ≠ 0 := by
    by_contra hall
    push Not at hall
    apply hne
    apply Hash256.ext
    rw [Hash256.zero, List.eq_replicate_iff]
    exact ⟨h.size, hall⟩
  have hlt := leadingZeroBitsLoop_lt hbyte 0
  rwa [h.size] at hlt

theorem leadingZeroBits_zero : Hash256.zero.leadingZeroBits = 256 := by decide

/-! ## The verdicts -/

/-- The host hashes what the node hashes, on every prefix that fits its buffers. -/
def HashAgrees (P : Primitives) (hostHash : Bytes → UInt64 → Bytes → Bytes) : Prop :=
  ∀ headerBytes : Bytes, headerBytes.length ≤ thPrefixMax → ∀ (nonce : UInt64) (seed : Hash256),
    hostHash headerBytes nonce seed.bytes = (TensorHash.powHash P headerBytes nonce seed).bytes

/-- So does `host_pow_hash`. -/
theorem hashAgrees_hostPowHash {P : Primitives}
    (hP : ∀ data, (P.blake2b256 data).bytes = Blake2b.hash 32 data)
    (buf : Vector UInt8 (thPrefixMax + 8 + 32)) (ibuf elementBuf : Vector UInt8 40) :
    HashAgrees P (hostPowHash buf ibuf elementBuf) :=
  fun _ hheader nonce seed => hostPowHash_eq hP hheader nonce seed buf ibuf elementBuf

/-- The job of the miner works on the header of the pool's job, with its seed and
    bits, and a nonce found for it comes back to the pool as the same nonce. -/
structure SameWork (job : StratumJob) (bits : UInt8) (desc : JobDesc) (nonce : UInt64) :
    Prop where
  header : buildHeader desc nonce
    = (jobHeader job nonce).powPrefixBytes ++ leBytes 8 nonce.toNat
  shareBits : desc.shareBits = bits
  epochSeed : desc.epochSeed = job.epochSeed
  difficultyBits : desc.difficultyBits = job.difficultyBits
  nonceHex : leHexToU64 (nonceToHex nonce) = some (some nonce)
  jobId : ∀ hostHash share, shareOf hostHash desc nonce = some share →
    share.jobId = asBytes job.jobId ∧ share.nonce = nonce

/-- `validate_share` finds a share or a block exactly where the host found one. -/
def JudgedAlike (P : Primitives) (hostHash : Bytes → UInt64 → Bytes → Bytes) (job : StratumJob)
    (bits : UInt8) (desc : JobDesc) (nonce : UInt64) : Prop :=
  ∃ zeros, validateShare P job (nonceToHex nonce) bits
    = some (some (zeros, (judge hostHash desc nonce).1, (judge hostHash desc nonce).2))

section Verdict

variable {P : Primitives} {hostHash : Bytes → UInt64 → Bytes → Bytes}

theorem verifyShare_readJob (hhash : HashAgrees P hostHash) (hjob : Sendable job)
    (nonce : UInt64) :
    verifyShare hostHash (readJob job workerDiff) nonce
      = ((jobHeader job nonce).powHash P job.epochSeed).leadingZeroBits := by
  have hlength : (jobHeader job nonce).powPrefixBytes.length ≤ thPrefixMax := by
    rw [length_powPrefixBytes]
    have hchain := hjob.chainId_length.2
    have hid : (jobHeader job nonce).chainId = job.chainId := rfl
    rw [hid, thPrefixMax]
    omega
  have htotal : ((jobHeader job nonce).powPrefixBytes ++ leBytes 8 nonce.toNat).length
      = (jobHeader job nonce).powPrefixBytes.length + 8 := by
    rw [List.length_append, length_leBytes]
  have hpos : 0 < (jobHeader job nonce).powPrefixBytes.length := by
    rw [length_powPrefixBytes]
    omega
  unfold verifyShare
  rw [buildHeader_readJob hjob]
  dsimp only
  rw [if_neg (by omega), htotal, Nat.add_sub_cancel, List.take_left]
  have hagree := hhash _ hlength nonce job.epochSeed
  rw [show (readJob job workerDiff).epochSeed = job.epochSeed from rfl, hagree,
    hostLeadingZeroBits_eq]
  rfl

theorem sameWork_readJob (hjob : Sendable job) {bits : UInt8} (hbits : bits.toNat ≤ 63)
    (nonce : UInt64) : SameWork job bits (readJob job (bitsToDiff bits)) nonce where
  header := buildHeader_readJob hjob nonce
  shareBits := shareBitsFromDiff_bitsToDiff hbits
  epochSeed := rfl
  difficultyBits := rfl
  nonceHex := leHexToU64_nonceToHex nonce
  jobId := by
    intro hostHash share h
    have hspec := shareOf_spec h
    refine ⟨hspec.1.trans ?_, hspec.2⟩
    exact List.take_of_length_le hjob.jobId_length

/-- A count in a byte passes the same bounds as the count, unless the hash is zero
    and the bound is not. -/
theorem byteCount_ge_iff (h : Hash256) (bound : UInt8) :
    (decide (poolLeadingZeroBits h ≥ bound) = decide (h.leadingZeroBits ≥ bound.toNat)) ↔
      h ≠ .zero ∨ bound = 0 := by
  have hbound := bound.toNat_lt
  rw [decide_eq_decide, ge_iff_le, ge_iff_le, UInt8.le_iff_toNat_le, toNat_poolLeadingZeroBits]
  by_cases hzero : h = .zero
  · have hbyte : bound = 0 ↔ bound.toNat = 0 := UInt8.toNat_inj.symm
    rw [hzero, leadingZeroBits_zero, hbyte]
    simp only [ne_eq, not_true_eq_false, false_or]
    omega
  · have hlt := leadingZeroBits_lt hzero
    rw [Nat.mod_eq_of_lt hlt]
    simp [hzero]

theorem judgedAlike_iff (hhash : HashAgrees P hostHash) (hjob : Sendable job) {bits : UInt8}
    (hbits : bits.toNat ≤ 63) (nonce : UInt64) :
    JudgedAlike P hostHash job bits (readJob job (bitsToDiff bits)) nonce ↔
      (jobHeader job nonce).powHash P job.epochSeed ≠ .zero ∨
        bits = 0 ∧ job.difficultyBits = 0 := by
  have hwork := sameWork_readJob hjob hbits nonce
  have hpool : validateShare P job (nonceToHex nonce) bits = _ :=
    World.validateShare_of_parsed hwork.nonceHex bits
  unfold JudgedAlike judge
  dsimp only
  rw [hpool, verifyShare_readJob hhash hjob, hwork.shareBits, hwork.difficultyBits]
  have hshare := byteCount_ge_iff ((jobHeader job nonce).powHash P job.epochSeed) bits
  have hblock := byteCount_ge_iff ((jobHeader job nonce).powHash P job.epochSeed)
    job.difficultyBits
  constructor
  · rintro ⟨zeros, heq⟩
    have hpair := (Prod.mk.inj (Option.some.inj (Option.some.inj heq))).2
    have hsame := Prod.mk.inj hpair
    have h1 := hshare.mp hsame.1
    have h2 := hblock.mp hsame.2
    by_cases hzero : (jobHeader job nonce).powHash P job.epochSeed = .zero
    · exact Or.inr ⟨h1.resolve_left (not_not_intro hzero), h2.resolve_left (not_not_intro hzero)⟩
    · exact Or.inl hzero
  · intro hcond
    refine ⟨poolLeadingZeroBits ((jobHeader job nonce).powHash P job.epochSeed), ?_⟩
    have h1 := hshare.mpr (hcond.imp_right And.left)
    have h2 := hblock.mpr (hcond.imp_right And.right)
    rw [h1, h2]

/-- **Pool and miner on the same header.** From the line the pool sends for a job the
    miner reads a job with the same header bytes under every nonce, the same seed and
    bits and the share bits of the worker, and nonce and job id come back unchanged.
    The two then judge the nonce alike if and only if its hash is not all zeros, or
    nothing is asked of it. -/
theorem pool_miner_same_header (P : Primitives) (hostHash : Bytes → UInt64 → Bytes → Bytes)
    (hhash : HashAgrees P hostHash) (job : StratumJob) (hjob : Sendable job) (bits : UInt8)
    (hbits : bits.toNat ≤ 63) (earlier : JobDesc) (shareDiff nonce : UInt64) :
    ∃ desc, parseNotify (notifyMsg job (bitsToDiff bits)).toBytes earlier shareDiff = some desc ∧
      SameWork job bits desc nonce ∧
      (JudgedAlike P hostHash job bits desc nonce ↔
        (jobHeader job nonce).powHash P job.epochSeed ≠ .zero ∨
          bits = 0 ∧ job.difficultyBits = 0) := by
  have hpositive : bitsToDiff bits > 0 := by
    rw [gt_iff_lt, UInt64.lt_iff_toNat_lt, toNat_bitsToDiff hbits]
    exact Nat.two_pow_pos _
  exact ⟨readJob job (bitsToDiff bits), parseNotify_notifyMsg hjob hpositive earlier shareDiff,
    sameWork_readJob hjob hbits nonce, judgedAlike_iff hhash hjob hbits nonce⟩

end Verdict

/-! ## The hash of zeros -/

/-- A job of the main network. -/
def mainnetJob : StratumJob where
  jobId := "h1-0"
  chainId := "tensorium-mainnet"
  height := 1
  previousHash := .zero
  merkleRoot := .zero
  epochSeed := .zero
  timestamp := 1700000000
  difficultyBits := 42
  version := 1

theorem mainnetJob_sendable : Sendable mainnetJob where
  version := rfl
  height := by decide
  timestamp := by decide
  chainId := ⟨Plain.ofList (by decide), by simp [fieldNames, mainnetJob]⟩
  chainId_length := by decide
  jobId := ⟨Plain.ofList (by decide), by simp [fieldNames, mainnetJob]⟩
  jobId_length := by decide

/-- With the BLAKE2b of both sides, at 20 share bits. -/
theorem pool_miner_same_header_mainnet :
    ∃ desc, parseNotify (notifyMsg mainnetJob (bitsToDiff 20)).toBytes .cleared 1 = some desc ∧
      SameWork mainnetJob 20 desc 7 ∧
      (JudgedAlike rfc7693
          (hostPowHash (Vector.replicate _ 0) (Vector.replicate _ 0) (Vector.replicate _ 0))
          mainnetJob 20 desc 7 ↔
        (jobHeader mainnetJob 7).powHash rfc7693 mainnetJob.epochSeed ≠ .zero ∨
          (20 : UInt8) = 0 ∧ mainnetJob.difficultyBits = 0) :=
  pool_miner_same_header rfc7693 _
    (hashAgrees_hostPowHash (fun _ => rfl) (Vector.replicate _ 0) (Vector.replicate _ 0)
      (Vector.replicate _ 0)) mainnetJob mainnetJob_sendable 20 (by decide) .cleared 1 7

/-- Primitives for which every proof-of-work hash is zero. -/
def zeroPow : Primitives := { Primitives.sample with blake2b256 := fun _ => .zero }

/-- **A hash of zeros is a block to the miner and nothing to the pool.** The host counts
    256 leading zeros, the pool's byte wraps around to none. -/
theorem zero_hash_judged_differently :
    HashAgrees zeroPow (fun _ _ _ => Hash256.zero.bytes) ∧ Sendable mainnetJob ∧
      ∃ desc, parseNotify (notifyMsg mainnetJob (bitsToDiff 20)).toBytes .cleared 1 = some desc ∧
        judge (fun _ _ _ => Hash256.zero.bytes) desc 7 = (true, true) ∧
        validateShare zeroPow mainnetJob (nonceToHex 7) 20 = some (some (0, false, false)) ∧
        ¬ JudgedAlike zeroPow (fun _ _ _ => Hash256.zero.bytes) mainnetJob 20 desc 7 := by
  have hhash : HashAgrees zeroPow (fun _ _ _ => Hash256.zero.bytes) := fun _ _ _ _ => rfl
  have hparse : parseNotify (notifyMsg mainnetJob (bitsToDiff 20)).toBytes .cleared 1 = _ :=
    parseNotify_notifyMsg mainnetJob_sendable (by decide) .cleared 1
  have hjudge : judge (fun _ _ _ => Hash256.zero.bytes) (readJob mainnetJob (bitsToDiff 20)) 7
      = (true, true) := by decide
  have hpool : validateShare zeroPow mainnetJob (nonceToHex 7) 20
      = some (some (0, false, false)) := by decide
  refine ⟨hhash, mainnetJob_sendable, _, hparse, hjudge, hpool, ?_⟩
  rw [judgedAlike_iff hhash mainnetJob_sendable (by decide)]
  decide

end Tensorium.Miner
