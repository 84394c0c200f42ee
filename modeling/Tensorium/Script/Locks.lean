import Tensorium.Core.Script.Contracts
import Tensorium.Script.Evaluate
import Tensorium.Script.Multisig
import Tensorium.Script.P2pkh

/-! # P2PKH, time-locked and HTLC outputs

    The locking scripts as syntax trees, what they make of the stack a scriptSig
    leaves, and from that who can spend the outputs. The scriptSig may be any
    program: all that matters is the stack it leaves.
-/

namespace Tensorium.Script

open ByteCodec Panicking

variable {P : Primitives} {ctx : ScriptContext}

/-! ## Lock times -/

theorem minimalLen_le (bytes : Bytes) (len : Nat) : minimalLen bytes len ≤ len := by
  induction len with
  | zero => exact Nat.le_refl 0
  | succ len ih =>
    rw [minimalLen]
    split_ifs
    · omega
    · exact Nat.le_refl _

theorem one_le_minimalLen (bytes : Bytes) {len : Nat} (h : 1 ≤ len) :
    1 ≤ minimalLen bytes len := by
  induction len with
  | zero => exact h
  | succ len ih =>
    rw [minimalLen]
    split_ifs with hzero
    · exact ih (by omega)
    · exact h

/-- The zeros that are left out count for nothing. -/
theorem leNat_take_minimalLen {bytes : Bytes} {len : Nat} (h : len ≤ bytes.length) :
    leNat (bytes.take (minimalLen bytes len)) = leNat (bytes.take len) := by
  induction len with
  | zero => rfl
  | succ len ih =>
    rw [minimalLen]
    split_ifs with hzero
    · rw [ih (by omega), List.take_add_one, hzero.2, leNat_append]
      simp [leNat]
    · rfl

theorem length_encodeLocktime (locktime : UInt64) :
    1 ≤ (encodeLocktime locktime).length ∧ (encodeLocktime locktime).length ≤ 8 := by
  have hle := minimalLen_le (leBytes 8 locktime.toNat) 8
  have hpos : 1 ≤ minimalLen (leBytes 8 locktime.toNat) 8 := one_le_minimalLen _ (by omega)
  unfold encodeLocktime
  rw [List.length_take, length_leBytes]
  omega

@[simp] theorem leNat_encodeLocktime (locktime : UInt64) :
    leNat (encodeLocktime locktime) = locktime.toNat := by
  have hbytes : (leBytes 8 locktime.toNat).length = 8 := length_leBytes 8 _
  unfold encodeLocktime
  rw [leNat_take_minimalLen hbytes.ge, List.take_of_length_le hbytes.le, leNat_leBytes]
  exact Nat.mod_eq_of_lt locktime.toNat_lt

/-! ## Syntax trees -/

namespace Code

/-- `DUP HASH160 <hash> EQUALVERIFY CHECKSIG`. -/
def p2pkh (hash : ByteVec 20) : Code :=
  .op 0x76 (by decide) (.op 0xa9 (by decide) (.push hash.1 (by simp [hash.2])
    (.op 0x88 (by decide) (.op 0xac (by decide) .done))))

/-- `<lt> CHECKLOCKTIMEVERIFY DROP` and a P2PKH script. -/
def timeLocked (lt : Bytes) (hlt : 1 ≤ lt.length ∧ lt.length ≤ 8) (hash : ByteVec 20) : Code :=
  .push lt ⟨hlt.1, hlt.2.trans (by decide)⟩
    (.op 0xb1 (by decide) (.op 0x75 (by decide) (p2pkh hash)))

/-- `SHA256 <hash> EQUALVERIFY` and a P2PKH script. -/
def hashLocked (hash : ByteVec 32) (recipientHash : ByteVec 20) : Code :=
  .op 0xa8 (by decide) (.push hash.1 (by simp [hash.2]) (.op 0x88 (by decide) (p2pkh recipientHash)))

/-- Both, as the branches of a conditional. -/
def htlc (hash : ByteVec 32) (recipientHash refundHash : ByteVec 20) (lt : Bytes)
    (hlt : 1 ≤ lt.length ∧ lt.length ≤ 8) : Code :=
  .ifElse (hashLocked hash recipientHash) (timeLocked lt hlt refundHash) .done

theorem render_p2pkh (hash : ByteVec 20) : (p2pkh hash).render = p2pkhScript hash.1 := by
  simp only [p2pkh, render, p2pkhScript, hash.2]
  rfl

theorem render_timeLocked (lt : Bytes) (hlt : 1 ≤ lt.length ∧ lt.length ≤ 8)
    (hash : ByteVec 20) :
    (timeLocked lt hlt hash).render
      = [UInt8.ofNat lt.length] ++ lt ++ [0xb1, 0x75, 0x76, 0xa9, 0x14] ++ hash.1
        ++ [0x88, 0xac] := by
  simp only [timeLocked, render, render_p2pkh, p2pkhScript, List.append_assoc]
  rfl

theorem render_htlc (hash : ByteVec 32) (recipientHash refundHash : ByteVec 20) (lt : Bytes)
    (hlt : 1 ≤ lt.length ∧ lt.length ≤ 8) :
    (htlc hash recipientHash refundHash lt hlt).render
      = [0x63, 0xa8, 0x20] ++ hash.1 ++ [0x88, 0x76, 0xa9, 0x14] ++ recipientHash.1
        ++ [0x88, 0xac] ++ [0x67, UInt8.ofNat lt.length] ++ lt ++ [0xb1, 0x75, 0x76, 0xa9, 0x14]
        ++ refundHash.1 ++ [0x88, 0xac, 0x68] := by
  simp [htlc, hashLocked, render, render_timeLocked, render_p2pkh, p2pkhScript, hash.2]

theorem elseOutside_p2pkh (hash : ByteVec 20) : (p2pkh hash).ElseOutside := trivial

theorem elseOutside_timeLocked (lt : Bytes) (hlt : 1 ≤ lt.length ∧ lt.length ≤ 8)
    (hash : ByteVec 20) : (timeLocked lt hlt hash).ElseOutside := trivial

theorem elseOutside_htlc (hash : ByteVec 32) (recipientHash refundHash : ByteVec 20) (lt : Bytes)
    (hlt : 1 ≤ lt.length ∧ lt.length ≤ 8) :
    (htlc hash recipientHash refundHash lt hlt).ElseOutside :=
  ⟨trivial, trivial, trivial⟩

/-! ## What they compute -/

theorem eval_p2pkh_nil (hash : ByteVec 20) :
    (p2pkh hash).eval P ctx true [] = .error .stackUnderflow := rfl

theorem eval_p2pkh_cons (hash : ByteVec 20) (pubkey : Bytes) (stack : Stack) :
    (p2pkh hash).eval P ctx true (pubkey :: stack)
      = if stack.length ≥ 98 then .error .stackOverflow
        else if (P.sha256 pubkey).bytes.take 20 ≠ hash.1 then .error .verifyFailed
        else execOp P ctx true 0xac (pubkey :: stack) := by
  -- The five operations on a stack with a key on top, each by computation.
  have hdup : execOp P ctx true 0x76 (pubkey :: stack)
      = if stack.length + 1 ≥ maxStackDepth then .error .stackOverflow
        else .ok (pubkey :: pubkey :: stack) := rfl
  have hhash : execOp P ctx true 0xa9 (pubkey :: pubkey :: stack)
      = .ok ((P.sha256 pubkey).bytes.take 20 :: pubkey :: stack) := rfl
  have hpush : pushChecked hash.1 ((P.sha256 pubkey).bytes.take 20 :: pubkey :: stack)
      = if stack.length + 1 + 1 ≥ maxStackDepth then .error .stackOverflow
        else .ok (hash.1 :: (P.sha256 pubkey).bytes.take 20 :: pubkey :: stack) := rfl
  have hequal : execOp P ctx true 0x88
        (hash.1 :: (P.sha256 pubkey).bytes.take 20 :: pubkey :: stack)
      = if (P.sha256 pubkey).bytes.take 20 ≠ hash.1 then .error .verifyFailed
        else .ok (pubkey :: stack) := by
    show (if _ then _ else _) = _
    split_ifs
    · rfl
    · rfl
  have hlast : ∀ x : Except ScriptError Stack,
      (x >>= fun stack => done.eval P ctx true stack) = x := by
    intro x
    cases x with
    | error e => rfl
    | ok stack' => rfl
  unfold maxStackDepth at hdup hpush
  unfold p2pkh
  rw [eval_op, hdup]
  -- Two items more have to fit: either the copy or the hash overflows.
  by_cases hfull : stack.length ≥ 98
  · rw [if_pos hfull]
    split_ifs
    · rfl
    · rw [ok_bind, eval_op, hhash, ok_bind, eval_push, hpush, if_pos (by omega)]
      rfl
  · rw [if_neg hfull, if_neg (by omega), ok_bind, eval_op, hhash, ok_bind, eval_push, hpush,
      if_neg (by omega), ok_bind, eval_op, hequal]
    split_ifs
    · rfl
    · rw [ok_bind, eval_op, hlast]

/-- The lock time enters through the number it stands for, not through its bytes. -/
theorem eval_timeLocked (lt : Bytes) (hlt : 1 ≤ lt.length ∧ lt.length ≤ 8) (hash : ByteVec 20)
    (stack : Stack) :
    (timeLocked lt hlt hash).eval P ctx true stack
      = if stack.length ≥ maxStackDepth then .error .stackOverflow
        else if ctx.blockHeight < leNat lt then .error .lockTimeNotMet
        else (p2pkh hash).eval P ctx true stack := by
  have hlock : execOp P ctx true 0xb1 (lt :: stack)
      = if lt.length > 8 then .error .lockTimeNotMet
        else if ctx.blockHeight < leNat lt then .error .lockTimeNotMet
        else .ok (lt :: stack) := by
    show (if _ then _ else _) = _
    split_ifs <;> rfl
  have hdrop : execOp P ctx true 0x75 (lt :: stack) = .ok stack := rfl
  unfold timeLocked
  rw [eval_push, pushChecked]
  split_ifs with hfull hheight
  · rfl
  · rw [ok_bind, eval_op, hlock, if_neg (not_lt.mpr hlt.2), if_pos hheight]
    rfl
  · rw [ok_bind, eval_op, hlock, if_neg (not_lt.mpr hlt.2), if_neg hheight, ok_bind, eval_op,
      hdrop, ok_bind]

theorem eval_hashLocked_cons (hash : ByteVec 32) (recipientHash : ByteVec 20) (preimage : Bytes)
    (stack : Stack) :
    (hashLocked hash recipientHash).eval P ctx true (preimage :: stack)
      = if stack.length + 1 ≥ maxStackDepth then .error .stackOverflow
        else if (P.sha256 preimage).bytes ≠ hash.1 then .error .verifyFailed
        else (p2pkh recipientHash).eval P ctx true stack := by
  have hhash : execOp P ctx true 0xa8 (preimage :: stack)
      = .ok ((P.sha256 preimage).bytes :: stack) := rfl
  have hpush : pushChecked hash.1 ((P.sha256 preimage).bytes :: stack)
      = if stack.length + 1 ≥ maxStackDepth then .error .stackOverflow
        else .ok (hash.1 :: (P.sha256 preimage).bytes :: stack) := rfl
  have hequal : execOp P ctx true 0x88 (hash.1 :: (P.sha256 preimage).bytes :: stack)
      = if (P.sha256 preimage).bytes ≠ hash.1 then .error .verifyFailed else .ok stack := by
    show (if _ then _ else _) = _
    split_ifs
    · rfl
    · rfl
  unfold hashLocked
  rw [eval_op, hhash, ok_bind, eval_push, hpush]
  split_ifs with hfull hpre
  · rfl
  · rw [ok_bind, eval_op, hequal, if_pos hpre]
    rfl
  · rw [ok_bind, eval_op, hequal, if_neg hpre, ok_bind]

theorem eval_hashLocked_nil (hash : ByteVec 32) (recipientHash : ByteVec 20) :
    (hashLocked hash recipientHash).eval P ctx true [] = .error .stackUnderflow := rfl

theorem eval_htlc_nil (hash : ByteVec 32) (recipientHash refundHash : ByteVec 20) (lt : Bytes)
    (hlt : 1 ≤ lt.length ∧ lt.length ≤ 8) :
    (htlc hash recipientHash refundHash lt hlt).eval P ctx true [] = .error .stackUnderflow := rfl

end Code

/-! ## Who can spend -/

/-- A key that hashes to `hash` on top, and below it a signature that the key
    verifies. -/
def SignedFor (P : Primitives) (sigHash : Hash256) (hash : Bytes) (stack : Stack) : Prop :=
  ∃ pubkey sigBytes rest, stack = pubkey :: sigBytes :: rest ∧
    (P.sha256 pubkey).bytes.take 20 = hash ∧ Verifies P sigHash sigBytes pubkey

theorem accepts_checkSig (pubkey : Bytes) (stack : Stack) :
    Accepts (execOp P ctx true 0xac (pubkey :: stack))
      ↔ ∃ sigBytes rest, stack = sigBytes :: rest ∧ Verifies P ctx.sigHash sigBytes pubkey := by
  cases stack with
  | nil =>
    have hnil : execOp P ctx true 0xac [pubkey] = .error .stackUnderflow := rfl
    simp [hnil, Accepts]
  | cons sigBytes rest =>
    cases hkey : P.fromSec1Bytes pubkey with
    | none =>
      rw [execOp_checkSig_key hkey]
      simp [Accepts, not_verifies_of_key hkey]
    | some vk =>
      cases hsig : P.fromDer sigBytes with
      | none =>
        rw [execOp_checkSig_sig hkey hsig]
        simp [Accepts, not_verifies_of_sig hsig]
      | some sig =>
        rw [execOp_checkSig hkey hsig]
        simp [Accepts, verdict, verifies_iff hsig hkey]

theorem accepts_p2pkh (hash : ByteVec 20) (stack : Stack) :
    Accepts ((Code.p2pkh hash).eval P ctx true stack)
      ↔ stack.length ≤ 98 ∧ SignedFor P ctx.sigHash hash.1 stack := by
  cases stack with
  | nil => simp [Code.eval_p2pkh_nil, Accepts, SignedFor]
  | cons pubkey stack =>
    rw [Code.eval_p2pkh_cons, List.length_cons]
    split_ifs with hfull hhash
    · simp [Accepts]
      omega
    · simp [Accepts, SignedFor, hhash]
    · rw [accepts_checkSig]
      constructor
      · rintro ⟨sigBytes, rest, rfl, hverifies⟩
        exact ⟨by omega, pubkey, sigBytes, rest, rfl, not_not.mp hhash, hverifies⟩
      · rintro ⟨_, pubkey', sigBytes, rest, heq, _, hverifies⟩
        obtain ⟨rfl, rfl⟩ := List.cons.inj heq
        exact ⟨sigBytes, rest, rfl, hverifies⟩

theorem accepts_timeLocked (lt : Bytes) (hlt : 1 ≤ lt.length ∧ lt.length ≤ 8) (hash : ByteVec 20)
    (stack : Stack) :
    Accepts ((Code.timeLocked lt hlt hash).eval P ctx true stack)
      ↔ stack.length ≤ 98 ∧ leNat lt ≤ ctx.blockHeight ∧ SignedFor P ctx.sigHash hash.1 stack := by
  rw [Code.eval_timeLocked]
  unfold maxStackDepth
  split_ifs with hfull hheight
  · simp [Accepts]
    omega
  · simp [Accepts]
    omega
  · rw [accepts_p2pkh]
    simp [not_lt.mp hheight]

/-! ## P2PKH and time-locked outputs -/

theorem isP2sh_of_length {spk : Bytes} (h : spk.length ≠ 23) : isP2sh spk = false := by
  simp [isP2sh, h]

theorem isP2sh_p2pkh (hash : ByteVec 20) : isP2sh (Code.p2pkh hash).render = false := by
  apply isP2sh_of_length
  simp [Code.render_p2pkh, p2pkhScript, hash.2]

theorem isP2sh_timeLocked (lt : Bytes) (hlt : 1 ≤ lt.length ∧ lt.length ≤ 8) (hash : ByteVec 20) :
    isP2sh (Code.timeLocked lt hlt hash).render = false := by
  apply isP2sh_of_length
  simp only [Code.render_timeLocked, List.length_append, List.length_cons, List.length_nil, hash.2]
  omega

theorem isP2sh_htlc (hash : ByteVec 32) (recipientHash refundHash : ByteVec 20) (lt : Bytes)
    (hlt : 1 ≤ lt.length ∧ lt.length ≤ 8) :
    isP2sh (Code.htlc hash recipientHash refundHash lt hlt).render = false := by
  apply isP2sh_of_length
  simp only [Code.render_htlc, List.length_append, List.length_cons, List.length_nil, hash.2,
    recipientHash.2, refundHash.2]
  omega

theorem cltvP2pkhScript_eq_render (locktime : UInt64) (hash20 : ByteVec 20) :
    cltvP2pkhScript locktime hash20
      = (Code.timeLocked (encodeLocktime locktime) (length_encodeLocktime locktime)
          hash20).render :=
  (Code.render_timeLocked _ _ _).symm

/-- **Only its key opens a P2PKH output, and it always does**: whatever program the
    scriptSig is, it spends the output exactly when it leaves at most 98 items with
    the key on top and a signature of it below. For a time-locked output the height
    must have been reached as well. -/
theorem spendable_by_key_iff (P : Primitives) (ctx : ScriptContext) (hash : ByteVec 20)
    (locktime : UInt64) (scriptSig : Bytes) :
    (scriptSig.length + (p2pkhScript hash.1).length ≤ maxScriptSize →
      (execute P scriptSig (p2pkhScript hash.1) ctx = .ok true
        ↔ ∃ stack, run P [] scriptSig ctx false = .ok stack ∧ stack.length ≤ 98 ∧
            SignedFor P ctx.sigHash hash.1 stack)) ∧
    (scriptSig.length + (cltvP2pkhScript locktime hash).length ≤ maxScriptSize →
      (execute P scriptSig (cltvP2pkhScript locktime hash) ctx = .ok true
        ↔ locktime.toNat ≤ ctx.blockHeight ∧
            ∃ stack, run P [] scriptSig ctx false = .ok stack ∧ stack.length ≤ 98 ∧
              SignedFor P ctx.sigHash hash.1 stack)) := by
  constructor
  · intro hsize
    rw [← Code.render_p2pkh] at hsize ⊢
    rw [execute_render_iff (Code.elseOutside_p2pkh hash) (isP2sh_p2pkh hash) hsize]
    simp only [accepts_p2pkh]
  · intro hsize
    have hlt := length_encodeLocktime locktime
    rw [cltvP2pkhScript_eq_render] at hsize ⊢
    rw [execute_render_iff (Code.elseOutside_timeLocked _ hlt hash) (isP2sh_timeLocked _ hlt hash)
      hsize]
    simp only [accepts_timeLocked, leNat_encodeLocktime]
    constructor
    · rintro ⟨stack, hrun, hroom, hheight, hsigned⟩
      exact ⟨hheight, stack, hrun, hroom, hsigned⟩
    · rintro ⟨hheight, stack, hrun, hroom, hsigned⟩
      exact ⟨stack, hrun, hroom, hheight, hsigned⟩

/-- The sample key, and its hash on the computable instance. -/
def sampleHash (b : UInt8) : ByteVec 20 :=
  ⟨(Primitives.sample.sha256 (sampleKey b)).bytes.take 20, by
    rw [List.length_take, (Primitives.sample.sha256 (sampleKey b)).size]
    rfl⟩

/-- A scriptSig of two pushes, at the height of the lock time. -/
theorem spendable_by_key_iff_twoPushes :
    execute Primitives.sample (p2pkhScriptSig (sampleSig 2) (sampleKey 2))
      (cltvP2pkhScript 300 (sampleHash 2)) ⟨Hash256.zero, 300⟩ = .ok true := by
  have hrun : run Primitives.sample [] (p2pkhScriptSig (sampleSig 2) (sampleKey 2))
      ⟨Hash256.zero, 300⟩ false = .ok [sampleKey 2, sampleSig 2] :=
    run_p2pkhScriptSig (by decide) (by decide)
  exact ((spendable_by_key_iff Primitives.sample ⟨Hash256.zero, 300⟩ (sampleHash 2) 300
    (p2pkhScriptSig (sampleSig 2) (sampleKey 2))).2 (by decide)).mpr
    ⟨by decide, _, hrun, by decide, sampleKey 2, sampleSig 2, [], rfl, rfl, verifies_sample 2⟩

/-! ## HTLC outputs -/

theorem htlcScript_eq_render (hash : ByteVec 32) (recipientHash refundHash : ByteVec 20)
    (locktime : UInt64) :
    htlcScript hash recipientHash refundHash locktime
      = (Code.htlc hash recipientHash refundHash (encodeLocktime locktime)
          (length_encodeLocktime locktime)).render :=
  (Code.render_htlc _ _ _ _ _).symm

/-- What opens a hash lock. -/
theorem accepts_hashLocked (hash : ByteVec 32) (recipientHash : ByteVec 20) (stack : Stack) :
    Accepts ((Code.hashLocked hash recipientHash).eval P ctx true stack)
      ↔ ∃ preimage rest, stack = preimage :: rest ∧ (P.sha256 preimage).bytes = hash.1 ∧
          rest.length ≤ 98 ∧ SignedFor P ctx.sigHash recipientHash.1 rest := by
  cases stack with
  | nil =>
    simp [Code.eval_hashLocked_nil, Accepts]
  | cons preimage rest =>
    rw [Code.eval_hashLocked_cons]
    unfold maxStackDepth
    split_ifs with hfull hhash
    · simp [Accepts]
      omega
    · simp [Accepts, hhash]
    · simp [accepts_p2pkh, not_not.mp hhash]

/-- What opens an HTLC, by the branch that the item on top selects. -/
theorem accepts_htlc (hash : ByteVec 32) (recipientHash refundHash : ByteVec 20) (lt : Bytes)
    (hlt : 1 ≤ lt.length ∧ lt.length ≤ 8) (stack : Stack) :
    Accepts ((Code.htlc hash recipientHash refundHash lt hlt).eval P ctx true stack)
      ↔ ∃ branch rest, stack = branch :: rest ∧
          if isTruthy branch then
            ∃ preimage below, rest = preimage :: below ∧ (P.sha256 preimage).bytes = hash.1 ∧
              below.length ≤ 98 ∧ SignedFor P ctx.sigHash recipientHash.1 below
          else rest.length ≤ 98 ∧ leNat lt ≤ ctx.blockHeight ∧
            SignedFor P ctx.sigHash refundHash.1 rest := by
  cases stack with
  | nil =>
    simp [Code.eval_htlc_nil, Accepts]
  | cons branch rest =>
    rw [Code.htlc, Code.eval_ifElse]
    split_ifs with hbranch
    · rw [accepts_hashLocked]
      simp [hbranch]
    · rw [accepts_timeLocked]
      simp [hbranch]

theorem run_htlcClaim {derSig pubkey preimage : Bytes} (hsig : derSig.length ≤ 0x4b)
    (hkey : pubkey.length ≤ 0x4b) (hpre : preimage.length ≤ 0x4b) :
    run P [] (lengthPrefixed derSig ++ lengthPrefixed pubkey ++ lengthPrefixed preimage ++ [0x51])
        ctx false
      = .ok [[0x01], preimage, pubkey, derSig] := by
  have hitems : ∀ data ∈ [derSig, pubkey, preimage], data.length ≤ 0x4b := by
    simp [hsig, hkey, hpre]
  have hrest : (Code.op 0x51 (by decide) .done).ElseOutside := trivial
  have hbytes : lengthPrefixed derSig ++ lengthPrefixed pubkey ++ lengthPrefixed preimage ++ [0x51]
      = [derSig, pubkey, preimage].flatMap (fun data => UInt8.ofNat data.length :: data)
        ++ (Code.op 0x51 (by decide) .done).render := by
    simp [Code.render, lengthPrefixed]
  rw [hbytes, Code.run_items hitems hrest (by simp [maxStackDepth])]
  rfl

theorem run_htlcRefund {derSig pubkey : Bytes} (hsig : derSig.length ≤ 0x4b)
    (hkey : pubkey.length ≤ 0x4b) :
    run P [] (htlcRefundScriptSig derSig pubkey) ctx false = .ok [[], pubkey, derSig] := by
  have hitems : ∀ data ∈ [derSig, pubkey, []], data.length ≤ 0x4b := by
    simp [hsig, hkey]
  have hrest : Code.done.ElseOutside := trivial
  have hbytes : htlcRefundScriptSig derSig pubkey
      = [derSig, pubkey, []].flatMap (fun data => UInt8.ofNat data.length :: data)
        ++ Code.done.render := by
    simp [Code.render, lengthPrefixed, htlcRefundScriptSig]
  rw [hbytes, Code.run_items hitems hrest (by simp [maxStackDepth])]
  rfl

/-- **An HTLC output is taken as intended only, and can be.** Whatever the scriptSig
    is, it leaves a preimage of the hash with a signature of the recipient, or a
    signature of the refund key once the lock time has come; and the scriptSigs of the
    library that carry these spend the output. -/
theorem htlc_taken_as_intended (P : Primitives) (ctx : ScriptContext) (hash : ByteVec 32)
    (recipientHash refundHash : ByteVec 20) (locktime : UInt64) :
    (∀ scriptSig,
      execute P scriptSig (htlcScript hash recipientHash refundHash locktime) ctx = .ok true →
      ∃ branch rest, run P [] scriptSig ctx false = .ok (branch :: rest) ∧
        ((∃ preimage below, rest = preimage :: below ∧ (P.sha256 preimage).bytes = hash.1 ∧
            SignedFor P ctx.sigHash recipientHash.1 below) ∨
          (locktime.toNat ≤ ctx.blockHeight ∧ SignedFor P ctx.sigHash refundHash.1 rest))) ∧
    (∀ derSig pubkey preimage : Bytes, 1 ≤ derSig.length ∧ derSig.length ≤ 75 →
      1 ≤ pubkey.length ∧ pubkey.length ≤ 75 → preimage.length ≤ 75 →
      Verifies P ctx.sigHash derSig pubkey →
      (P.sha256 pubkey).bytes.take 20 = recipientHash.1 → (P.sha256 preimage).bytes = hash.1 →
      ∃ scriptSig, htlcClaimScriptSig derSig pubkey preimage = .ok scriptSig ∧
        execute P scriptSig (htlcScript hash recipientHash refundHash locktime) ctx = .ok true) ∧
    (∀ derSig pubkey : Bytes, 1 ≤ derSig.length ∧ derSig.length ≤ 75 →
      1 ≤ pubkey.length ∧ pubkey.length ≤ 75 → Verifies P ctx.sigHash derSig pubkey →
      (P.sha256 pubkey).bytes.take 20 = refundHash.1 → locktime.toNat ≤ ctx.blockHeight →
      execute P (htlcRefundScriptSig derSig pubkey)
        (htlcScript hash recipientHash refundHash locktime) ctx = .ok true) := by
  have hlt := length_encodeLocktime locktime
  have hside := Code.elseOutside_htlc hash recipientHash refundHash _ hlt
  have hp2sh := isP2sh_htlc hash recipientHash refundHash _ hlt
  have hlen : (Code.htlc hash recipientHash refundHash _ hlt).render.length ≤ 99 := by
    simp only [Code.render_htlc, List.length_append, List.length_cons, List.length_nil, hash.2,
      recipientHash.2, refundHash.2]
    omega
  rw [htlcScript_eq_render]
  refine ⟨?_, ?_, ?_⟩
  · intro scriptSig hspend
    -- A script that is too long is an error, and spends nothing.
    have hsize : scriptSig.length + (Code.htlc hash recipientHash refundHash _ hlt).render.length
        ≤ maxScriptSize := by
      by_contra hlarge
      rw [execute_render hside hp2sh, if_pos (not_le.mp hlarge)] at hspend
      cases hspend
    obtain ⟨stack, hrun, haccepts⟩ := (execute_render_iff hside hp2sh hsize).mp hspend
    obtain ⟨branch, rest, rfl, hopen⟩ := (accepts_htlc _ _ _ _ hlt stack).mp haccepts
    refine ⟨branch, rest, hrun, ?_⟩
    split_ifs at hopen
    · obtain ⟨preimage, below, rfl, hhash, _, hsigned⟩ := hopen
      exact .inl ⟨preimage, below, rfl, hhash, hsigned⟩
    · obtain ⟨_, hheight, hsigned⟩ := hopen
      rw [leNat_encodeLocktime] at hheight
      exact .inr ⟨hheight, hsigned⟩
  · intro derSig pubkey preimage hsig hkey hpre hverifies hrecipient hhash
    refine ⟨_, by rw [htlcClaimScriptSig, assert, if_pos hpre, ok_bind, pure_eq_ok], ?_⟩
    rw [execute_render_iff hside hp2sh]
    · refine ⟨_, run_htlcClaim hsig.2 hkey.2 hpre, (accepts_htlc _ _ _ _ hlt _).mpr ?_⟩
      exact ⟨[0x01], _, rfl, preimage, _, rfl, hhash, by simp, pubkey, derSig, [], rfl, hrecipient,
        hverifies⟩
    · simp only [lengthPrefixed, List.length_append, List.length_cons, List.length_nil,
        maxScriptSize]
      omega
  · intro derSig pubkey hsig hkey hverifies hrefund hheight
    rw [execute_render_iff hside hp2sh]
    · refine ⟨_, run_htlcRefund hsig.2 hkey.2, (accepts_htlc _ _ _ _ hlt _).mpr ?_⟩
      refine ⟨[], _, rfl, by simp, ?_, pubkey, derSig, [], rfl, hrefund, hverifies⟩
      rw [leNat_encodeLocktime]
      exact hheight
    · simp only [htlcRefundScriptSig, lengthPrefixed, List.length_append, List.length_cons,
        List.length_nil, maxScriptSize]
      omega

/-- A claim with a preimage of one byte. -/
theorem htlc_taken_as_intended_claim :
    ∃ scriptSig, htlcClaimScriptSig (sampleSig 2) (sampleKey 2) [7] = .ok scriptSig ∧
      execute Primitives.sample scriptSig
        (htlcScript ⟨(Primitives.sample.sha256 [7]).bytes, (Primitives.sample.sha256 [7]).size⟩
          (sampleHash 2) (sampleHash 3) 300) ⟨Hash256.zero, 0⟩ = .ok true :=
  (htlc_taken_as_intended Primitives.sample ⟨Hash256.zero, 0⟩ _ (sampleHash 2) (sampleHash 3)
    300).2.1 (sampleSig 2) (sampleKey 2) [7] (by decide) (by decide) (by decide)
    (verifies_sample 2) rfl rfl

end Tensorium.Script
