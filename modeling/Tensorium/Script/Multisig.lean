import Tensorium.Lib.OrderedMatching
import Tensorium.Script.Step

/-! # Multisig

    `OP_CHECKMULTISIG` goes through the keys once and gives every signature the
    first key left that verifies it. That finds an assignment of signatures to
    keys, both in order, whenever there is one.
-/

namespace Tensorium.Script

open ByteCodec OrderedMatching

variable {P : Primitives} {sigHash : Hash256} {ctx : ScriptContext}

/-! ## The matching -/

/-- Signature and key parse, and the key verifies the signature. -/
def Verifies (P : Primitives) (sigHash : Hash256) (sigBytes pk : Bytes) : Prop :=
  ∃ sig vk, P.fromDer sigBytes = some sig ∧ P.fromSec1Bytes pk = some vk ∧
    P.verify vk sigHash.bytes sig = true

theorem verifies_iff {sigBytes pk : Bytes} {sig : P.Signature} {vk : P.VerifyingKey}
    (hsig : P.fromDer sigBytes = some sig) (hkey : P.fromSec1Bytes pk = some vk) :
    Verifies P sigHash sigBytes pk ↔ P.verify vk sigHash.bytes sig = true := by
  unfold Verifies
  rw [hsig, hkey]
  simp

theorem not_verifies_of_key {sigBytes pk : Bytes} (hkey : P.fromSec1Bytes pk = none) :
    ¬ Verifies P sigHash sigBytes pk := by
  rintro ⟨_, _, _, hvk, _⟩
  rw [hkey] at hvk
  cases hvk

theorem not_verifies_of_sig {sigBytes : Bytes} (hsig : P.fromDer sigBytes = none) (pk : Bytes) :
    ¬ Verifies P sigHash sigBytes pk := by
  rintro ⟨_, _, hs, _⟩
  rw [hsig] at hs
  cases hs

/-- The search for a key passes over those that do not verify the signature, and
    takes the first that does: the rest is matched behind it. -/
theorem matches_scanKeys {sigBytes : Bytes} {sig : P.Signature}
    (hsig : P.fromDer sigBytes = some sig) (sigs keys : List Bytes) :
    Matches (Verifies P sigHash) (sigBytes :: sigs) keys
      ↔ ∃ rest, scanKeys P sigHash sig keys = some rest ∧
          Matches (Verifies P sigHash) sigs rest := by
  induction keys with
  | nil => simp [not_matches_nil, scanKeys]
  | cons pk keys ih =>
    rw [scanKeys]
    cases hkey : P.fromSec1Bytes pk with
    | none =>
      rw [matches_cons_of_not_rel (not_verifies_of_key hkey)]
      exact ih
    | some vk =>
      dsimp only
      by_cases hverify : P.verify vk sigHash.bytes sig = true
      · rw [matches_cons_of_rel ((verifies_iff hsig hkey).mpr hverify), if_pos hverify]
        simp
      · rw [matches_cons_of_not_rel (mt (verifies_iff hsig hkey).mp hverify), if_neg hverify]
        exact ih

theorem matchSigs_iff (sigs keys : List Bytes) :
    matchSigs P sigHash sigs keys = true ↔ Matches (Verifies P sigHash) sigs keys := by
  induction sigs generalizing keys with
  | nil => simp [matchSigs, matches_nil]
  | cons sigBytes sigs ih =>
    rw [matchSigs]
    cases hsig : P.fromDer sigBytes with
    | none => simp [not_matches_of_not_rel (not_verifies_of_sig hsig)]
    | some sig =>
      rw [matches_scanKeys hsig]
      dsimp only
      cases scanKeys P sigHash sig keys with
      | none => simp
      | some rest => simp [ih]

/-! ## The opcodes -/

/-- What the opcode expects on the stack: the number of keys, the keys, the number
    of signatures and the signatures. Only the first byte of a number counts. -/
def multisigItems (nTail mTail : Bytes) (keys sigs : List Bytes) : Stack :=
  (UInt8.ofNat keys.length :: nTail) :: keys.reverse
    ++ (UInt8.ofNat sigs.length :: mTail) :: sigs.reverse

theorem length_multisigItems (nTail mTail : Bytes) (keys sigs : List Bytes) :
    (multisigItems nTail mTail keys sigs).length = keys.length + sigs.length + 2 := by
  simp only [multisigItems, List.length_append, List.length_cons, List.length_reverse]
  omega

theorem popMultisig_items {op : UInt8} {nTail mTail : Bytes} {keys sigs : List Bytes}
    (hkeys : keys.length ≤ 16) (hsigs : sigs.length ≤ keys.length) (rest : Stack) :
    popMultisig P ctx op (multisigItems nTail mTail keys sigs ++ rest)
      = .ok (matchSigs P ctx.sigHash sigs keys, rest) := by
  have hn : (UInt8.ofNat keys.length).toNat = keys.length := toNat_byte (by omega)
  have hm : (UInt8.ofNat sigs.length).toNat = sigs.length := toNat_byte (by omega)
  have hlen : ∀ (l : List Bytes) (tail : Stack), ¬ (l.reverse ++ tail).length < l.length := by
    intro l tail
    rw [List.length_append, List.length_reverse]
    omega
  unfold popMultisig multisigItems
  simp only [List.cons_append, List.append_assoc, pop, countItem, hn, bind, Except.bind]
  rw [if_neg (by omega), if_neg (hlen _ _), List.drop_left' List.length_reverse,
    List.take_left' List.length_reverse]
  simp only [pure, Except.pure, hm]
  rw [if_neg (by omega), if_neg (hlen _ _), List.drop_left' List.length_reverse,
    List.take_left' List.length_reverse, List.reverse_reverse, List.reverse_reverse]

/-- On these items the opcode leaves whether the signatures match. -/
theorem execOp_checkMultisig_items {nTail mTail : Bytes} {keys sigs : List Bytes}
    (hkeys : keys.length ≤ 16) (hsigs : sigs.length ≤ keys.length) {rest : Stack}
    (hroom : rest.length < maxStackDepth) :
    execOp P ctx true 0xae (multisigItems nTail mTail keys sigs ++ rest)
      = .ok (boolItem (matchSigs P ctx.sigHash sigs keys) :: rest) := by
  rw [execOp_checkMultisig (popMultisig_items hkeys hsigs rest), pushChecked,
    if_neg (not_le.mpr hroom)]

/-- **Signatures are matched whenever they can be.** On the items the opcode
    expects, `OP_CHECKMULTISIG` pushes true exactly when every signature parses and
    the signatures can be assigned, in order, to keys that parse and verify them;
    it removes these items and nothing else, and `OP_CHECKMULTISIGVERIFY` succeeds
    in the same case. -/
theorem checkMultisig_finds_matching (P : Primitives) (ctx : ScriptContext) (nTail mTail : Bytes)
    (keys sigs : List Bytes) (rest : Stack) (hkeys : keys.length ≤ 16)
    (hsigs : sigs.length ≤ keys.length)
    (hdepth : (multisigItems nTail mTail keys sigs ++ rest).length ≤ maxStackDepth) :
    (multisigItems nTail mTail keys sigs).length = keys.length + sigs.length + 2 ∧
    ∃ allMatched : Bool,
      (allMatched = true ↔ (∀ sigBytes ∈ sigs, (P.fromDer sigBytes).isSome) ∧
        ∃ f : Fin sigs.length → Fin keys.length, StrictMono f ∧
          ∀ i, Verifies P ctx.sigHash (sigs.get i) (keys.get (f i))) ∧
      execOp P ctx true 0xae (multisigItems nTail mTail keys sigs ++ rest)
        = .ok (boolItem allMatched :: rest) ∧
      execOp P ctx true 0xaf (multisigItems nTail mTail keys sigs ++ rest)
        = if allMatched then .ok rest else .error .verifyFailed := by
  have hroom : rest.length < maxStackDepth := by
    rw [List.length_append, length_multisigItems] at hdepth
    omega
  refine ⟨length_multisigItems _ _ _ _, matchSigs P ctx.sigHash sigs keys, ?_,
    execOp_checkMultisig_items hkeys hsigs hroom, ?_⟩
  · rw [matchSigs_iff, matches_iff_strictMono]
    constructor
    · rintro ⟨f, hmono, hf⟩
      refine ⟨?_, f, hmono, hf⟩
      intro sigBytes hmem
      obtain ⟨i, rfl⟩ := List.mem_iff_get.mp hmem
      obtain ⟨sig, _, hsig, _⟩ := hf i
      rw [hsig]
      rfl
    · rintro ⟨_, hf⟩
      exact hf
  · exact execOp_checkMultisigVerify (popMultisig_items hkeys hsigs rest)

/-! ## On the computable instance -/

/-- A key of the computable instance, and its signature of the zero hash. -/
def sampleKey (b : UInt8) : Bytes := List.replicate 33 b

def sampleSig (b : UInt8) : Bytes := sampleKey b ++ Hash256.zero.bytes

theorem verifies_sample (b : UInt8) :
    Verifies Primitives.sample Hash256.zero (sampleSig b) (sampleKey b) :=
  ⟨sampleSig b, sampleKey b, rfl, rfl, beq_self_eq_true (sampleSig b)⟩

/-- One signature of the second of two keys, above an item that stays. -/
theorem checkMultisig_finds_matching_secondKey :
    execOp Primitives.sample ⟨Hash256.zero, 0⟩ true 0xae
        (multisigItems [] [] [sampleKey 2, sampleKey 3] [sampleSig 3] ++ [[7]])
      = .ok [[0x01], [7]] := by
  obtain ⟨_, allMatched, hmatched, hrun, _⟩ := checkMultisig_finds_matching Primitives.sample
    ⟨Hash256.zero, 0⟩ [] [] [sampleKey 2, sampleKey 3] [sampleSig 3] [[7]] (by decide) (by decide)
    (by decide)
  have hparses : ∀ sigBytes ∈ [sampleSig 3], (Primitives.sample.fromDer sigBytes).isSome := by
    simp only [List.mem_singleton]
    rintro sigBytes rfl
    rfl
  have hall : allMatched = true :=
    hmatched.mpr ⟨hparses, exists_strictMono_singleton ⟨1, by decide⟩ (verifies_sample 3)⟩
  rw [hrun, hall]
  rfl

end Tensorium.Script
