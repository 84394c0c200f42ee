import Tensorium.Core.Script.Vm

/-! # One round of the script machine

    The loop of `run` taken apart: what one opcode does to the rest of the
    script, the stack and the open conditionals, and that the loop repeats it.
    Every round uses up at least one byte, so the fuel of the loop does not
    matter as long as it covers the script.
-/

namespace Tensorium.Script

open ByteCodec

variable {P : Primitives} {ctx : ScriptContext} {allow : Bool}

/-- What `byte` makes of the script behind it, the stack and the open
    conditionals. -/
def step (P : Primitives) (ctx : ScriptContext) (allowChecksig : Bool) (byte : UInt8)
    (rest : Bytes) (stack : Stack) (ifStack : List Bool) :
    Except ScriptError (Bytes × Stack × List Bool) :=
  match decodeOp byte with
  | .push n =>
    (readPush (executing ifStack) n rest stack).map fun r => (r.1, r.2, ifStack)
  | .pushData1 =>
    match rest with
    | [] => .error .unexpectedEndOfScript
    | n :: rest =>
      (readPush (executing ifStack) n.toNat rest stack).map fun r => (r.1, r.2, ifStack)
  | .opIf =>
    if executing ifStack then
      (pop stack).map fun r => (rest, r.2, isTruthy r.1 :: ifStack)
    else .ok (rest, stack, false :: ifStack)
  | .opElse =>
    match ifStack with
    | [] => .ok (rest, stack, [])
    | last :: outer => .ok (rest, stack, (!last) :: outer)
  | .opEndif => .ok (rest, stack, ifStack.tail)
  | _ =>
    if executing ifStack then
      (execOp P ctx allowChecksig byte stack).map fun stack => (rest, stack, ifStack)
    else .ok (rest, stack, ifStack)

@[simp] theorem runLoop_nil (fuel : Nat) (stack : Stack) (ifStack : List Bool) :
    runLoop P ctx allow fuel [] stack ifStack = .ok stack := by
  cases fuel with
  | zero => rfl
  | succ fuel => rfl

/-- The loop is its first round and then the loop again. -/
theorem runLoop_cons (fuel : Nat) (byte : UInt8) (rest : Bytes) (stack : Stack)
    (ifStack : List Bool) :
    runLoop P ctx allow (fuel + 1) (byte :: rest) stack ifStack
      = step P ctx allow byte rest stack ifStack >>= fun r =>
          runLoop P ctx allow fuel r.1 r.2.1 r.2.2 := by
  unfold step
  rw [runLoop.eq_def]
  dsimp only
  cases decodeOp byte with
  | push n =>
    dsimp only
    cases readPush (executing ifStack) n rest stack <;> rfl
  | pushData1 =>
    cases rest with
    | nil => rfl
    | cons n rest =>
      dsimp only
      cases readPush (executing ifStack) n.toNat rest stack <;> rfl
  | opIf =>
    dsimp only
    cases executing ifStack
    · rfl
    · cases stack <;> rfl
  | opElse => cases ifStack <;> rfl
  | opEndif => rfl
  | _ =>
    dsimp only
    cases executing ifStack
    · rfl
    · cases execOp P ctx allow byte stack <;> rfl

/-- A length byte in the range of the direct pushes. -/
theorem decodeOp_push {n : Nat} (h : 1 ≤ n ∧ n ≤ 0x4b) : decodeOp (UInt8.ofNat n) = .push n := by
  have hn : (UInt8.ofNat n).toNat = n := toNat_byte (by omega)
  have hrange : 0x01 ≤ UInt8.ofNat n ∧ UInt8.ofNat n ≤ 0x4b := by
    rw [UInt8.le_iff_toNat_le, UInt8.le_iff_toNat_le, hn]
    exact h
  rw [decodeOp, if_pos hrange, hn]

/-- A push of data that are there. -/
theorem readPush_append {data : Bytes} (h : data.length ≤ 0xff) (exec : Bool) (k : Bytes)
    (stack : Stack) :
    readPush exec data.length (data ++ k) stack
      = if exec then (pushChecked data stack).map fun stack => (k, stack)
        else .ok (k, stack) := by
  have hsize : ¬ data.length > maxElementSize := by
    unfold maxElementSize
    omega
  simp [readPush, hsize]

/-- What a push leaves of the script. -/
theorem readPush_rest {exec : Bool} {n : Nat} {rest : Bytes} {stack : Stack} {r : Bytes × Stack}
    (h : readPush exec n rest stack = .ok r) : n ≤ rest.length ∧ r.1 = rest.drop n := by
  unfold readPush at h
  split_ifs at h with hn hexec hsize
  · cases hpush : pushChecked (rest.take n) stack with
    | error e => simp [hpush, Except.map] at h
    | ok stack' =>
      simp only [hpush, Except.map, Except.ok.injEq] at h
      exact ⟨Nat.le_of_not_lt hn, by rw [← h]⟩
  · cases h
    exact ⟨Nat.le_of_not_lt hn, rfl⟩

/-! ## Opcodes that check signatures -/

/-- `OP_CHECKSIG` on a key and a signature that parse. -/
theorem execOp_checkSig {pubkey sig : Bytes} {vk : P.VerifyingKey} {s : P.Signature}
    (hvk : P.fromSec1Bytes pubkey = some vk) (hs : P.fromDer sig = some s) (rest : Stack) :
    execOp P ctx true 0xac (pubkey :: sig :: rest)
      = .ok (boolItem (P.verify vk ctx.sigHash.bytes s) :: rest) := by
  have hop : decodeOp 0xac = .opCheckSig := rfl
  simp only [execOp, hop, pop, bind, Except.bind, Bool.not_true, Bool.false_eq_true, if_false,
    hvk, hs]
  rfl

theorem execOp_checkSig_key {pubkey : Bytes} (hvk : P.fromSec1Bytes pubkey = none) (sig : Bytes)
    (rest : Stack) : execOp P ctx true 0xac (pubkey :: sig :: rest) = .error .invalidKey := by
  have hop : decodeOp 0xac = .opCheckSig := rfl
  simp only [execOp, hop, pop, bind, Except.bind, Bool.not_true, Bool.false_eq_true, if_false,
    hvk]
  rfl

theorem execOp_checkSig_sig {pubkey sig : Bytes} {vk : P.VerifyingKey}
    (hvk : P.fromSec1Bytes pubkey = some vk) (hs : P.fromDer sig = none) (rest : Stack) :
    execOp P ctx true 0xac (pubkey :: sig :: rest) = .error .invalidSignature := by
  have hop : decodeOp 0xac = .opCheckSig := rfl
  simp only [execOp, hop, pop, bind, Except.bind, Bool.not_true, Bool.false_eq_true, if_false,
    hvk, hs]
  rfl

/-- The two multisig opcodes, behind what they share. -/
theorem execOp_checkMultisig {stack stack' : Stack} {allMatched : Bool}
    (h : popMultisig P ctx 0xae stack = .ok (allMatched, stack')) :
    execOp P ctx true 0xae stack = pushChecked (boolItem allMatched) stack' := by
  have hop : decodeOp 0xae = .opCheckMultisig := rfl
  simp only [execOp, hop, Bool.not_true, Bool.false_eq_true, if_false, h]
  rfl

theorem execOp_checkMultisigVerify {stack stack' : Stack} {allMatched : Bool}
    (h : popMultisig P ctx 0xaf stack = .ok (allMatched, stack')) :
    execOp P ctx true 0xaf stack
      = if allMatched then .ok stack' else .error .verifyFailed := by
  have hop : decodeOp 0xaf = .opCheckMultisigVerify := rfl
  simp only [execOp, hop, Bool.not_true, Bool.false_eq_true, if_false, h]
  cases allMatched with
  | false => rfl
  | true => rfl

/-! ## What is left of the script -/

/-- What a round leaves is an end of the script. -/
theorem step_suffix {byte : UInt8} {rest : Bytes} {stack : Stack} {ifStack : List Bool}
    {r : Bytes × Stack × List Bool} (h : step P ctx allow byte rest stack ifStack = .ok r) :
    r.1 <:+ rest := by
  -- A push takes its data off the front; everything else leaves `rest` as it is.
  unfold step at h
  split at h
  · rename_i n _
    cases hread : readPush (executing ifStack) n rest stack with
    | error e => simp [hread, Except.map] at h
    | ok r' =>
      simp only [hread, Except.map, Except.ok.injEq] at h
      rw [← h, (readPush_rest hread).2]
      exact List.drop_suffix n rest
  · cases rest with
    | nil => cases h
    | cons n rest =>
      dsimp only at h
      cases hread : readPush (executing ifStack) n.toNat rest stack with
      | error e => simp [hread, Except.map] at h
      | ok r' =>
        simp only [hread, Except.map, Except.ok.injEq] at h
        rw [← h, (readPush_rest hread).2]
        exact (List.drop_suffix n.toNat rest).trans (List.suffix_cons n rest)
  · split_ifs at h
    · cases stack with
      | nil => cases h
      | cons top stack =>
        cases h
        exact List.suffix_refl rest
    · cases h
      exact List.suffix_refl rest
  · cases ifStack <;> cases h <;> exact List.suffix_refl rest
  · cases h
    exact List.suffix_refl rest
  · split_ifs at h
    · cases hop : execOp P ctx allow byte stack with
      | error e => simp [hop, Except.map] at h
      | ok stack' =>
        simp only [hop, Except.map, Except.ok.injEq] at h
        rw [← h]
    · cases h
      exact List.suffix_refl rest

/-- Any two amounts of fuel that cover the script are as good as each other. -/
theorem runLoop_fuel {fuel fuel' : Nat} {script : Bytes} (hfuel : script.length ≤ fuel)
    (hfuel' : script.length ≤ fuel') (stack : Stack) (ifStack : List Bool) :
    runLoop P ctx allow fuel script stack ifStack
      = runLoop P ctx allow fuel' script stack ifStack := by
  induction fuel generalizing fuel' script stack ifStack with
  | zero =>
    obtain rfl : script = [] := List.length_eq_zero_iff.mp (Nat.le_zero.mp hfuel)
    rw [runLoop_nil, runLoop_nil]
  | succ fuel ih =>
    cases script with
    | nil => rw [runLoop_nil, runLoop_nil]
    | cons byte rest =>
      obtain ⟨fuel', rfl⟩ : ∃ k, fuel' = k + 1 :=
        Nat.exists_eq_add_one_of_ne_zero (by rintro rfl; cases hfuel')
      rw [runLoop_cons, runLoop_cons]
      cases hstep : step P ctx allow byte rest stack ifStack with
      | error e => rfl
      | ok r =>
        have hle : r.1.length ≤ rest.length := (step_suffix hstep).length_le
        exact ih (hle.trans (Nat.le_of_succ_le_succ hfuel))
          (hle.trans (Nat.le_of_succ_le_succ hfuel')) r.2.1 r.2.2

end Tensorium.Script
