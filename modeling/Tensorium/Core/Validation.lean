import Tensorium.Core.Block
import Tensorium.Core.Params

/-! # Proof of work and contextual validation

    `pow.rs` and `validation.rs`: what a block must satisfy against its parent,
    the required difficulty and the epoch seed, before its transactions are
    looked at.
-/

namespace Tensorium

/-! ## Proof of work -/

/-- `hash_meets_work`. -/
def hashMeetsWork (hash : Hash256) (leadingZeroBits : UInt8) : Bool :=
  decide (leadingZeroBits.toNat ≤ hash.leadingZeroBits)

/-- `header_meets_work`. -/
def headerMeetsWork (P : Primitives) (header : BlockHeader) (epochSeed : Hash256) : Bool :=
  hashMeetsWork (header.powHash P epochSeed) header.leadingZeroBits

/-- The nonce search of `mine_header` over `nonce, nonce + 1, …`, `tries` of
    them. -/
def mineHeaderFrom (P : Primitives) (header : BlockHeader) (epochSeed : Hash256) :
    Nat → Nat → Option BlockHeader
  | _, 0 => none
  | nonce, tries + 1 =>
    let header := { header with nonce := UInt64.ofNat nonce }
    if headerMeetsWork P header epochSeed then some header
    else mineHeaderFrom P header epochSeed (nonce + 1) tries

/-- `mine_header`: the first nonce in `0..=max_nonce` that meets the work. -/
def mineHeader (P : Primitives) (header : BlockHeader) (epochSeed : Hash256)
    (maxNonce : UInt64) : Option BlockHeader :=
  mineHeaderFrom P header epochSeed 0 (maxNonce.toNat + 1)

/-- Mining changes the nonce and nothing else, and what it returns meets the
    work. -/
theorem mineHeader_some {P : Primitives} {header mined : BlockHeader} {epochSeed : Hash256}
    {maxNonce : UInt64} (h : mineHeader P header epochSeed maxNonce = some mined) :
    (∃ nonce, mined = { header with nonce := nonce }) ∧
      headerMeetsWork P mined epochSeed = true := by
  unfold mineHeader at h
  -- The search is the same from every nonce on and for every number of tries.
  generalize maxNonce.toNat + 1 = tries at h
  generalize (0 : Nat) = nonce at h
  induction tries generalizing nonce header with
  | zero => cases h
  | succ tries ih =>
    unfold mineHeaderFrom at h
    dsimp only at h
    split at h
    next hwork =>
      cases h
      exact ⟨⟨_, rfl⟩, hwork⟩
    next =>
      obtain ⟨⟨n, hn⟩, hwork⟩ := ih _ h
      exact ⟨⟨n, hn⟩, hwork⟩

/-! ## Contextual validation -/

/-- `ValidationError`. -/
inductive ValidationError where
  | wrongChainId
  | wrongHeight
  | wrongPreviousHash
  | futureTimestamp
  | invalidMerkleRoot
  | invalidProofOfWork
  | unexpectedDifficulty
  | missingCoinbase
  | firstTransactionNotCoinbase
  deriving DecidableEq, Repr

/-- `validate_coinbase`. -/
def validateCoinbase (block : Block) : Except ValidationError Unit :=
  match block.transactions.head? with
  | none => .error .missingCoinbase
  | some coinbase =>
    if coinbase.isCoinbase then .ok () else .error .firstTransactionNotCoinbase

/-- `validate_block`. -/
def validateBlock (P : Primitives) (params : ConsensusParams) (parent : Option Block)
    (block : Block) (nowSeconds : Nat) (expectedLeadingZeroBits : UInt8)
    (epochSeed : Hash256) : Except ValidationError Unit :=
  if block.header.chainId ≠ params.chainId then .error .wrongChainId
  else if block.header.height ≠ parent.elim 0 (fun p => p.header.height + 1) then
    .error .wrongHeight
  else if parent.any fun p => decide (block.header.previousHash ≠ p.hash P) then
    .error .wrongPreviousHash
  else if block.header.timestampSeconds > nowSeconds + params.maxFutureBlockTimeSeconds then
    .error .futureTimestamp
  else if block.header.merkleRoot ≠ merkleRoot P block.transactions then
    .error .invalidMerkleRoot
  else if block.header.leadingZeroBits ≠ expectedLeadingZeroBits then
    .error .unexpectedDifficulty
  else if !headerMeetsWork P block.header epochSeed then .error .invalidProofOfWork
  else validateCoinbase block

/-- What `validate_block` has checked when it succeeds. -/
structure Validated (P : Primitives) (params : ConsensusParams) (parent : Option Block)
    (block : Block) (nowSeconds : Nat) (bits : UInt8) (epochSeed : Hash256) : Prop where
  chainId : block.header.chainId = params.chainId
  height : block.header.height = parent.elim 0 (fun p => p.header.height + 1)
  previousHash : ∀ p ∈ parent, block.header.previousHash = p.hash P
  timestamp : block.header.timestampSeconds ≤ nowSeconds + params.maxFutureBlockTimeSeconds
  merkleRoot : block.header.merkleRoot = merkleRoot P block.transactions
  bits : block.header.leadingZeroBits = bits
  work : headerMeetsWork P block.header epochSeed = true
  coinbase : ∃ tx txs, block.transactions = tx :: txs ∧ tx.isCoinbase = true

theorem validateCoinbase_ok {block : Block} :
    validateCoinbase block = .ok () ↔
      ∃ tx txs, block.transactions = tx :: txs ∧ tx.isCoinbase = true := by
  unfold validateCoinbase
  cases htxs : block.transactions with
  | nil => simp
  | cons tx txs =>
    simp only [List.head?_cons, List.cons.injEq]
    constructor
    · intro h
      split at h
      next hcb => exact ⟨tx, txs, ⟨rfl, rfl⟩, hcb⟩
      next => cases h
    · rintro ⟨tx', txs', ⟨rfl, rfl⟩, hcb⟩
      rw [if_pos hcb]

/-- Of a valid block, what `validate_block` says under another epoch seed turns on
    the work alone. -/
theorem Validated.validateBlock_eq {P : Primitives} {params : ConsensusParams}
    {parent : Option Block} {block : Block} {nowSeconds : Nat} {bits : UInt8} {epochSeed : Hash256}
    (h : Validated P params parent block nowSeconds bits epochSeed) (seed : Hash256) :
    validateBlock P params parent block nowSeconds bits seed
      = if headerMeetsWork P block.header seed then .ok () else .error .invalidProofOfWork := by
  have hprev : ¬ (parent.any fun p => decide (block.header.previousHash ≠ p.hash P)) = true := by
    cases parent with
    | none => simp
    | some p => simpa using h.previousHash p rfl
  unfold validateBlock
  rw [if_neg (not_not.mpr h.chainId), if_neg (not_not.mpr h.height), if_neg hprev,
    if_neg (not_lt.mpr h.timestamp), if_neg (not_not.mpr h.merkleRoot),
    if_neg (not_not.mpr h.bits), validateCoinbase_ok.mpr h.coinbase]
  cases headerMeetsWork P block.header seed with
  | true => rfl
  | false => rfl

/-- `validate_block` accepts exactly the blocks that satisfy `Validated`. -/
theorem validateBlock_ok {P : Primitives} {params : ConsensusParams} {parent : Option Block}
    {block : Block} {nowSeconds : Nat} {bits : UInt8} {epochSeed : Hash256} :
    validateBlock P params parent block nowSeconds bits epochSeed = .ok () ↔
      Validated P params parent block nowSeconds bits epochSeed := by
  constructor
  · intro h
    unfold validateBlock at h
    split_ifs at h with h₁ h₂ h₃ h₄ h₅ h₆ h₇
    exact
      { chainId := not_not.mp h₁
        height := not_not.mp h₂
        previousHash := by
          rintro p rfl
          simpa using h₃
        timestamp := not_lt.mp h₄
        merkleRoot := not_not.mp h₅
        bits := not_not.mp h₆
        work := by simpa using h₇
        coinbase := validateCoinbase_ok.mp h }
  · intro h
    rw [h.validateBlock_eq, if_pos h.work]

end Tensorium
