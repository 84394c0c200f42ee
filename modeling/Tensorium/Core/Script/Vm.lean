import Tensorium.Core.Hash

/-! # The script virtual machine

    `script/mod.rs` and `script/vm.rs`. A stack is a list with its top first.
    `run` consumes at least one script byte per iteration, so its loop is
    structural on a fuel argument that starts at the length of the script.
-/

namespace Tensorium.Script

open ByteCodec

/-! ## Opcodes, limits and errors -/

/-- `OP_RETURN`, the opcode that marks an output as unspendable. -/
def opReturnByte : UInt8 := 0x6a

/-- `MAX_STACK_DEPTH`. -/
def maxStackDepth : Nat := 100

/-- `MAX_SCRIPT_SIZE`. -/
def maxScriptSize : Nat := 10000

/-- `MAX_ELEMENT_SIZE`. -/
def maxElementSize : Nat := 520

/-- `ScriptError`. -/
inductive ScriptError where
  | stackOverflow
  | stackUnderflow
  | scriptTooLarge
  | elementTooLarge
  | invalidOpcode (op : UInt8)
  | invalidSignature
  | invalidKey
  | invalidAddress
  | checkSigFailed
  | verifyFailed
  | unexpectedEndOfScript
  | scriptInSigContainsChecksig
  | lockTimeNotMet
  | p2shHashMismatch
  deriving DecidableEq, Repr

/-- What a script byte in opcode position means. -/
inductive Opcode where
  | push (n : Nat)
  | pushData1
  | opIf
  | opElse
  | opEndif
  | opReturn
  | opDup
  | opDrop
  | op2Drop
  | opSwap
  | opSha256
  | opHash160
  | opCheckSig
  | opEqual
  | opEqualVerify
  | opVerify
  | smallInt (n : UInt8)
  | opCheckMultisig
  | opCheckMultisigVerify
  | op0
  | opCheckLockTimeVerify
  | other (b : UInt8)
  deriving DecidableEq, Repr

/-- The opcode table of `script/mod.rs`. -/
def decodeOp (b : UInt8) : Opcode :=
  if 0x01 ≤ b ∧ b ≤ 0x4b then .push b.toNat
  else if b = 0x4c then .pushData1
  else if b = 0x63 then .opIf
  else if b = 0x67 then .opElse
  else if b = 0x68 then .opEndif
  else if b = opReturnByte then .opReturn
  else if b = 0x76 then .opDup
  else if b = 0x75 then .opDrop
  else if b = 0x6f then .op2Drop
  else if b = 0x7c then .opSwap
  else if b = 0xa8 then .opSha256
  else if b = 0xa9 then .opHash160
  else if b = 0xac then .opCheckSig
  else if b = 0x87 then .opEqual
  else if b = 0x88 then .opEqualVerify
  else if b = 0x69 then .opVerify
  else if 0x51 ≤ b ∧ b ≤ 0x60 then .smallInt (b - 0x50)
  else if b = 0xae then .opCheckMultisig
  else if b = 0xaf then .opCheckMultisigVerify
  else if b = 0x00 then .op0
  else if b = 0xb1 then .opCheckLockTimeVerify
  else .other b

/-- `ScriptContext`. -/
structure ScriptContext where
  sigHash : Hash256
  blockHeight : Nat

/-- The execution stack, top first. -/
abbrev Stack : Type := List Bytes

/-- `is_truthy`. -/
def isTruthy (item : Bytes) : Bool := !item.isEmpty && item.any (· != 0)

/-- The stack encoding of a Boolean result. -/
def boolItem (b : Bool) : Bytes := if b then [0x01] else []

/-! ## Stack operations -/

/-- `stack.pop().ok_or(StackUnderflow)`. -/
def pop : Stack → Except ScriptError (Bytes × Stack)
  | [] => .error .stackUnderflow
  | top :: rest => .ok (top, rest)

/-- A push guarded by `MAX_STACK_DEPTH`. -/
def pushChecked (item : Bytes) (stack : Stack) : Except ScriptError Stack :=
  if stack.length ≥ maxStackDepth then .error .stackOverflow else .ok (item :: stack)

/-- The data part of a push: `n` bytes are skipped, and put on the stack when
    the branch is executing. -/
def readPush (executing : Bool) (n : Nat) (script : Bytes) (stack : Stack) :
    Except ScriptError (Bytes × Stack) :=
  if n > script.length then .error .unexpectedEndOfScript
  else if executing then
    if (script.take n).length > maxElementSize then .error .elementTooLarge
    else (pushChecked (script.take n) stack).map fun stack => (script.drop n, stack)
  else .ok (script.drop n, stack)

/-! ## Multisig matching -/

/-- The inner loop of `OP_CHECKMULTISIG`: advance through the keys until one
    verifies the signature; what remains are the keys behind it. -/
def scanKeys (P : Primitives) (sigHash : Hash256) (sig : P.Signature) :
    List Bytes → Option (List Bytes)
  | [] => none
  | pk :: rest =>
    match P.fromSec1Bytes pk with
    | some vk => if P.verify vk sigHash.bytes sig then some rest else scanKeys P sigHash sig rest
    | none => scanKeys P sigHash sig rest

/-- The outer loop of `OP_CHECKMULTISIG`: every signature in turn consumes keys
    from the front. -/
def matchSigs (P : Primitives) (sigHash : Hash256) : List Bytes → List Bytes → Bool
  | [], _ => true
  | sigBytes :: sigs, keys =>
    match P.fromDer sigBytes with
    | none => false
    | some sig =>
      match scanKeys P sigHash sig keys with
      | none => false
      | some rest => matchSigs P sigHash sigs rest

/-- The first byte of a count item, `InvalidOpcode` when it is empty. -/
def countItem (op : UInt8) (item : Bytes) : Except ScriptError Nat :=
  match item with
  | [] => .error (.invalidOpcode op)
  | b :: _ => .ok b.toNat

/-- The shared part of `OP_CHECKMULTISIG` and `OP_CHECKMULTISIGVERIFY`: pops the
    counts, keys and signatures and reports whether all signatures matched. -/
def popMultisig (P : Primitives) (ctx : ScriptContext) (op : UInt8) (stack : Stack) :
    Except ScriptError (Bool × Stack) := do
  let (nItem, stack) ← pop stack
  let n ← countItem op nItem
  if n > 16 then throw (.invalidOpcode op)
  if stack.length < n then throw .stackUnderflow
  -- Keys and signatures are popped last to first and reversed afterwards.
  let pubkeys := (stack.take n).reverse
  let (mItem, stack) ← pop (stack.drop n)
  let m ← countItem op mItem
  if m > n then throw (.invalidOpcode op)
  if stack.length < m then throw .stackUnderflow
  let sigs := (stack.take m).reverse
  return (matchSigs P ctx.sigHash sigs pubkeys, stack.drop m)

/-! ## One executed opcode -/

/-- The second `match` of `run`: an opcode executed on the stack. Pushes and
    control opcodes never reach it. -/
def execOp (P : Primitives) (ctx : ScriptContext) (allowChecksig : Bool) (byte : UInt8)
    (stack : Stack) : Except ScriptError Stack :=
  match decodeOp byte with
  | .opReturn => throw .verifyFailed
  | .opDup => do
    let (top, _) ← pop stack
    pushChecked top stack
  | .opDrop => do
    let (_, stack) ← pop stack
    return stack
  | .op2Drop => do
    let (_, stack) ← pop stack
    let (_, stack) ← pop stack
    return stack
  | .opSwap =>
    match stack with
    | a :: b :: rest => return b :: a :: rest
    | _ => throw .stackUnderflow
  | .opSha256 => do
    let (top, stack) ← pop stack
    return (P.sha256 top).bytes :: stack
  | .opHash160 => do
    -- The first twenty bytes of SHA-256; there is no RIPEMD-160.
    let (top, stack) ← pop stack
    return (P.sha256 top).bytes.take 20 :: stack
  | .opCheckSig => do
    if !allowChecksig then throw .scriptInSigContainsChecksig
    let (pubkeyBytes, stack) ← pop stack
    let (sigBytes, stack) ← pop stack
    match P.fromSec1Bytes pubkeyBytes with
    | none => throw .invalidKey
    | some vk =>
      match P.fromDer sigBytes with
      | none => throw .invalidSignature
      | some sig => return boolItem (P.verify vk ctx.sigHash.bytes sig) :: stack
  | .opEqual => do
    let (b, stack) ← pop stack
    let (a, stack) ← pop stack
    return boolItem (a == b) :: stack
  | .opEqualVerify => do
    let (b, stack) ← pop stack
    let (a, stack) ← pop stack
    if a ≠ b then throw .verifyFailed
    return stack
  | .opVerify => do
    let (top, stack) ← pop stack
    if !isTruthy top then throw .verifyFailed
    return stack
  | .smallInt n => pushChecked [n] stack
  | .opCheckMultisig => do
    if !allowChecksig then throw .scriptInSigContainsChecksig
    let (allMatched, stack) ← popMultisig P ctx byte stack
    pushChecked (boolItem allMatched) stack
  | .opCheckMultisigVerify => do
    if !allowChecksig then throw .scriptInSigContainsChecksig
    let (allMatched, stack) ← popMultisig P ctx byte stack
    if !allMatched then throw .verifyFailed
    return stack
  | .op0 => pushChecked [] stack
  | .opCheckLockTimeVerify => do
    -- The lock time stays on the stack, as the source reads it with `last`.
    let (top, _) ← pop stack
    if top.length > 8 then throw .lockTimeNotMet
    if ctx.blockHeight < leNat top then throw .lockTimeNotMet
    return stack
  | .push _ | .pushData1 | .opIf | .opElse | .opEndif => throw (.invalidOpcode byte)
  | .other b => throw (.invalidOpcode b)

/-! ## The interpreter -/

/-- `executing!()`: no conditional is open, or the innermost branch is taken. -/
def executing (ifStack : List Bool) : Bool := ifStack.headD true

/-- The `while` loop of `run`. -/
def runLoop (P : Primitives) (ctx : ScriptContext) (allowChecksig : Bool) :
    Nat → Bytes → Stack → List Bool → Except ScriptError Stack
  | _, [], stack, _ => .ok stack
  -- Not reached from `run`: the fuel is at least the number of bytes left.
  | 0, _ :: _, stack, _ => .ok stack
  | fuel + 1, byte :: rest, stack, ifStack =>
    match decodeOp byte with
    | .push n => do
      let (rest, stack) ← readPush (executing ifStack) n rest stack
      runLoop P ctx allowChecksig fuel rest stack ifStack
    | .pushData1 =>
      match rest with
      | [] => .error .unexpectedEndOfScript
      | n :: rest => do
        let (rest, stack) ← readPush (executing ifStack) n.toNat rest stack
        runLoop P ctx allowChecksig fuel rest stack ifStack
    | .opIf =>
      -- In a branch that is not taken nothing is popped; the nested conditional
      -- is only counted.
      if executing ifStack then do
        let (top, stack) ← pop stack
        runLoop P ctx allowChecksig fuel rest stack (isTruthy top :: ifStack)
      else runLoop P ctx allowChecksig fuel rest stack (false :: ifStack)
    | .opElse =>
      -- Without an open conditional `OP_ELSE` and `OP_ENDIF` do nothing.
      match ifStack with
      | [] => runLoop P ctx allowChecksig fuel rest stack []
      | last :: outer => runLoop P ctx allowChecksig fuel rest stack ((!last) :: outer)
    | .opEndif => runLoop P ctx allowChecksig fuel rest stack ifStack.tail
    | _ =>
      if executing ifStack then do
        let stack ← execOp P ctx allowChecksig byte stack
        runLoop P ctx allowChecksig fuel rest stack ifStack
      else runLoop P ctx allowChecksig fuel rest stack ifStack

/-- `run`. -/
def run (P : Primitives) (stack : Stack) (script : Bytes) (ctx : ScriptContext)
    (allowChecksig : Bool) : Except ScriptError Stack :=
  runLoop P ctx allowChecksig script.length script stack []

/-- `is_p2sh`. -/
def isP2sh (spk : Bytes) : Bool :=
  spk.length == 23 && spk[0]? == some 0xa9 && spk[1]? == some 0x14 && spk[22]? == some 0x87

/-- `execute`. -/
def execute (P : Primitives) (scriptSig scriptPubkey : Bytes) (ctx : ScriptContext) :
    Except ScriptError Bool := do
  if scriptSig.length + scriptPubkey.length > maxScriptSize then throw .scriptTooLarge
  let stack ← run P [] scriptSig ctx false
  -- The redeem script takes the place of the output script.
  let stack ←
    if isP2sh scriptPubkey then do
      let (redeemScript, stack) ← pop stack
      if (P.sha256 redeemScript).bytes.take 20 ≠ (scriptPubkey.drop 2).take 20 then
        throw .p2shHashMismatch
      run P stack redeemScript ctx true
    else run P stack scriptPubkey ctx true
  return (stack.head?.map isTruthy).getD false

end Tensorium.Script
