import Tensorium.Core.Script.Standard
import Tensorium.Script.Step

/-! # Executing a P2PKH script

    What the interpreter does on the two scripts of a P2PKH spend: the
    scriptSig pushes the signature and the key, the locking script compares
    the key's hash and verifies the signature.
-/

namespace Tensorium.Script

variable {P : Primitives} {ctx : ScriptContext} {allow : Bool} {fuel : Nat}

/-- A direct push puts its data on the stack. -/
theorem runLoop_push {n : Nat} (hn : 1 ≤ n ∧ n ≤ 75) {data : Bytes} (hdata : data.length = n)
    (rest : Bytes) {stack : Stack} (hstack : stack.length < maxStackDepth) :
    runLoop P ctx allow (fuel + 1) (UInt8.ofNat n :: (data ++ rest)) stack []
      = runLoop P ctx allow fuel rest (data :: stack) [] := by
  have hpush : pushChecked data stack = .ok (data :: stack) := by
    unfold pushChecked
    exact if_neg (not_le.mpr hstack)
  subst hdata
  rw [runLoop_cons, step.eq_def, decodeOp_push hn]
  dsimp only
  rw [readPush_append (by omega), hpush]
  rfl

/-- Opcodes that are neither pushes nor conditionals run on the stack. -/
theorem runLoop_exec {byte : UInt8} (hop : decodeOp byte ∈ [Opcode.opDup, .opHash160,
      .opEqualVerify, .opCheckSig]) (rest : Bytes) {stack stack' : Stack}
    (hexec : execOp P ctx allow byte stack = .ok stack') :
    runLoop P ctx allow (fuel + 1) (byte :: rest) stack []
      = runLoop P ctx allow fuel rest stack' [] := by
  rw [runLoop.eq_def]
  dsimp only
  simp only [List.mem_cons, List.not_mem_nil, or_false] at hop
  rcases hop with hop | hop | hop | hop
  all_goals
    rw [hop]
    show (do let stack ← execOp P ctx allow byte stack; _) = _
    rw [hexec]
    rfl

/-- The scriptSig of a P2PKH spend leaves the key on top of the signature. -/
theorem run_p2pkhScriptSig {sig pubkey : Bytes} (hsig : 1 ≤ sig.length ∧ sig.length ≤ 75)
    (hkey : 1 ≤ pubkey.length ∧ pubkey.length ≤ 75) :
    run P [] (p2pkhScriptSig sig pubkey) ctx allow = .ok [pubkey, sig] := by
  unfold run
  obtain ⟨fuel, hfuel⟩ : ∃ fuel, (p2pkhScriptSig sig pubkey).length = fuel + 1 + 1 :=
    ⟨sig.length + pubkey.length, by simp [p2pkhScriptSig]; omega⟩
  rw [hfuel]
  unfold p2pkhScriptSig
  rw [List.cons_append, runLoop_push hsig rfl _ (by decide)]
  have hone : [sig].length < maxStackDepth := by simp [maxStackDepth]
  have hpush : runLoop P ctx allow (fuel + 1) (UInt8.ofNat pubkey.length :: (pubkey ++ [])) [sig] []
      = runLoop P ctx allow fuel [] [pubkey, sig] [] := runLoop_push hkey rfl [] hone
  rw [List.append_nil, runLoop_nil] at hpush
  exact hpush

/-- The locking script of a key, run on the key and a signature that decode:
    it leaves the verdict of the signature. -/
theorem run_p2pkhFromPubkey {sig pubkey : Bytes} {vk : P.VerifyingKey} {s : P.Signature}
    (hvk : P.fromSec1Bytes pubkey = some vk) (hs : P.fromDer sig = some s) :
    run P [pubkey, sig] (p2pkhFromPubkey P pubkey) ctx true
      = .ok [boolItem (P.verify vk ctx.sigHash.bytes s)] := by
  generalize hhash : (P.sha256 pubkey).bytes.take 20 = hash20
  have hlen : hash20.length = 20 := by
    rw [← hhash, List.length_take, (P.sha256 pubkey).size]
    rfl
  have hscript : p2pkhFromPubkey P pubkey
      = 0x76 :: 0xa9 :: UInt8.ofNat 20 :: (hash20 ++ [0x88, 0xac]) := by
    unfold p2pkhFromPubkey p2pkhScript
    rw [hhash]
    rfl
  unfold run
  have hfuel : (p2pkhFromPubkey P pubkey).length = 20 + 1 + 1 + 1 + 1 + 1 := by
    rw [hscript]
    simp [hlen]
  rw [hfuel, hscript]
  have hthree : [hash20, pubkey, sig].length < maxStackDepth := by simp [maxStackDepth]
  have hdup : execOp P ctx true 0x76 [pubkey, sig] = .ok [pubkey, pubkey, sig] := rfl
  have hhash160 : execOp P ctx true 0xa9 [pubkey, pubkey, sig] = .ok [hash20, pubkey, sig] := by
    rw [← hhash]
    rfl
  have hequal : execOp P ctx true 0x88 [hash20, hash20, pubkey, sig] = .ok [pubkey, sig] := by
    show (if hash20 ≠ hash20 then _ else _) = _
    rw [if_neg (by simp)]
    rfl
  have hcheck : execOp P ctx true 0xac [pubkey, sig]
      = .ok [boolItem (P.verify vk ctx.sigHash.bytes s)] := execOp_checkSig hvk hs []
  -- Duplicate the key, hash the copy, push the hash, compare, verify.
  rw [runLoop_exec (by decide) _ hdup, runLoop_exec (by decide) _ hhash160,
    runLoop_push (by omega) hlen _ hthree, runLoop_exec (by decide) _ hequal,
    runLoop_exec (by decide) _ hcheck, runLoop_nil]

@[simp] theorem isTruthy_boolItem (b : Bool) : isTruthy (boolItem b) = b := by
  cases b with
  | false => rfl
  | true => rfl

/-- **A P2PKH spend succeeds exactly when the signature verifies**, for a key
    and a signature that decode and fit direct pushes. -/
theorem execute_p2pkh {sig pubkey : Bytes} {vk : P.VerifyingKey} {s : P.Signature}
    (hsig : 1 ≤ sig.length ∧ sig.length ≤ 75) (hkey : 1 ≤ pubkey.length ∧ pubkey.length ≤ 75)
    (hvk : P.fromSec1Bytes pubkey = some vk) (hs : P.fromDer sig = some s) :
    execute P (p2pkhScriptSig sig pubkey) (p2pkhFromPubkey P pubkey) ctx
      = .ok (P.verify vk ctx.sigHash.bytes s) := by
  have hlen : (p2pkhFromPubkey P pubkey).length = 25 := by
    simp [p2pkhFromPubkey, p2pkhScript, (P.sha256 pubkey).size]
  have hsize : ¬ (p2pkhScriptSig sig pubkey).length + (p2pkhFromPubkey P pubkey).length
      > maxScriptSize := by
    rw [hlen]
    simp only [p2pkhScriptSig, List.length_append, List.length_cons, maxScriptSize]
    omega
  have hp2sh : isP2sh (p2pkhFromPubkey P pubkey) = false := by
    unfold isP2sh
    rw [hlen]
    rfl
  unfold execute
  rw [if_neg hsize]
  show (do let stack ← run P [] (p2pkhScriptSig sig pubkey) ctx false; _) = _
  rw [run_p2pkhScriptSig hsig hkey]
  simp only [bind, Except.bind, hp2sh, Bool.false_eq_true, if_false, run_p2pkhFromPubkey hvk hs]
  show Except.ok (isTruthy (boolItem (P.verify vk ctx.sigHash.bytes s))) = _
  rw [isTruthy_boolItem]

end Tensorium.Script
