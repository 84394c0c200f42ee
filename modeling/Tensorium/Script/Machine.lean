import Tensorium.Lib.ExceptFold
import Tensorium.Lib.Panicking
import Tensorium.Script.Step

/-! # The script machine, index by index

    `vm.rs` with its position in the script, its vectors that grow at the end,
    and every operation that could abort the process: indexing, slicing,
    `unwrap`, `swap`, subtraction and `copy_from_slice`. It never aborts, it
    comes to an end, it computes what `execute` computes, and its stack keeps to
    the limits at every step.
-/

namespace Tensorium.Script

open ByteCodec Panicking

variable {P : Primitives} {ctx : ScriptContext} {allow : Bool}

/-! ## Vectors -/

section vectors

variable {α : Type}

/-- A stack, top first, as a vector with its top at the end. -/
def bottomUp (l : List α) : Array α := l.reverse.toArray

@[simp] theorem size_bottomUp (l : List α) : (bottomUp l).size = l.length := by
  simp [bottomUp]

@[simp] theorem back?_bottomUp (l : List α) : (bottomUp l).back? = l.head? := by
  simp [bottomUp]

@[simp] theorem pop_bottomUp (l : List α) : (bottomUp l).pop = bottomUp l.tail := by
  cases l <;> simp [bottomUp]

@[simp] theorem push_bottomUp (l : List α) (a : α) : (bottomUp l).push a = bottomUp (a :: l) := by
  simp [bottomUp]

@[simp] theorem isEmpty_bottomUp (l : List α) : (bottomUp l).isEmpty = l.isEmpty := by
  cases l <;> simp [bottomUp]

theorem exists_bottomUp (v : Array α) : ∃ l, v = bottomUp l :=
  ⟨v.toList.reverse, by simp [bottomUp]⟩

theorem getElem?_bottomUp (l : List α) (i : Nat) : (bottomUp l)[i]? = l.reverse[i]? := by
  simp [bottomUp]

theorem swap_bottomUp {ε : Type} (a b : α) (l : List α) :
    (swap (bottomUp (a :: b :: l)) (l.length + 1) l.length : Except (Fault ε) (Array α))
      = .ok (bottomUp (b :: a :: l)) := by
  have hcons : ∀ (x y : α) (i : Nat), (bottomUp (x :: y :: l))[i]?
      = if i < l.length then l.reverse[i]? else [y, x][i - l.length]? := by
    intro x y i
    rw [getElem?_bottomUp, List.reverse_cons, List.reverse_cons, List.append_assoc,
      List.getElem?_append, List.length_reverse]
    rfl
  rw [swap_of_lt (by simp) (by simp)]
  congr 1
  refine Array.ext_getElem? fun i => ?_
  rw [Array.getElem?_swap, ← Array.getElem?_eq_getElem, ← Array.getElem?_eq_getElem, hcons, hcons,
    hcons, hcons]
  -- The place below the top, the top, those below both, and those outside.
  split_ifs with h₁ h₂ h₃ h₄ h₅ <;> first | omega | rfl | skip
  · simp [← h₁]
  · simp [← h₅]
  · obtain ⟨j, hj⟩ : ∃ j, i - l.length = j + 2 := ⟨i - l.length - 2, by omega⟩
    rw [hj]
    rfl

end vectors

namespace Machine

/-! ## The machine -/

/-- The result of a machine operation. -/
abbrev M (α : Type) : Type := Except (Fault ScriptError) α

/-- `return Err(e)`. -/
def fail {α : Type} (e : ScriptError) : M α := .error (.error e)

/-- The variables of the loop of `run`. -/
structure State where
  i : Nat
  stack : Array Bytes
  ifStack : Array Bool

/-- `stack.pop().ok_or(StackUnderflow)?`. -/
def popItem (stack : Array Bytes) : M (Bytes × Array Bytes) :=
  match stack.back? with
  | none => fail .stackUnderflow
  | some top => .ok (top, stack.pop)

/-- A push behind a check of `MAX_STACK_DEPTH`. -/
def pushItem (item : Bytes) (stack : Array Bytes) : M (Array Bytes) :=
  if stack.size ≥ maxStackDepth then fail .stackOverflow else .ok (stack.push item)

/-- `executing!()`. -/
def executing (ifStack : Array Bool) : M Bool :=
  if ifStack.isEmpty then .ok true else unwrap ifStack.back?

/-- `(0..n).map(|_| stack.pop().unwrap()).collect()`. -/
def popMany : Nat → Array Bytes → M (List Bytes × Array Bytes)
  | 0, stack => .ok ([], stack)
  | n + 1, stack => do
    let item ← unwrap stack.back?
    let (items, stack) ← popMany n stack.pop
    return (item :: items, stack)

/-- The inner loop of `OP_CHECKMULTISIG`: whether a key was found, and where the
    next search starts. -/
def scanFrom (P : Primitives) (sigHash : Hash256) (sig : P.Signature) (pubkeys : List Bytes)
    (pubIdx : Nat) : M (Bool × Nat) :=
  if pubIdx < pubkeys.length then do
    let pk ← index pubkeys pubIdx
    match P.fromSec1Bytes pk with
    | some vk =>
      if P.verify vk sigHash.bytes sig then return (true, pubIdx + 1)
      else scanFrom P sigHash sig pubkeys (pubIdx + 1)
    | none => scanFrom P sigHash sig pubkeys (pubIdx + 1)
  else return (false, pubIdx)
termination_by pubkeys.length - pubIdx

/-- The outer loop of `OP_CHECKMULTISIG`. -/
def matchFrom (P : Primitives) (sigHash : Hash256) (pubkeys : List Bytes) :
    List Bytes → Nat → M Bool
  | [], _ => return true
  | sigBytes :: sigs, pubIdx =>
    match P.fromDer sigBytes with
    | none => return false
    | some sig => do
      let (found, pubIdx) ← scanFrom P sigHash sig pubkeys pubIdx
      if found then matchFrom P sigHash pubkeys sigs pubIdx else return false

/-- The first byte of a count item behind a check that there is one. -/
def countItem (op : UInt8) (item : Bytes) : M Nat :=
  if item.isEmpty then fail (.invalidOpcode op)
  else do
    let b ← index item 0
    return b.toNat

/-- The shared part of `OP_CHECKMULTISIG` and `OP_CHECKMULTISIGVERIFY`. -/
def popMultisig (P : Primitives) (ctx : ScriptContext) (op : UInt8) (stack : Array Bytes) :
    M (Bool × Array Bytes) := do
  let (nItem, stack) ← popItem stack
  let n ← countItem op nItem
  if n > 16 then fail (.invalidOpcode op)
  if stack.size < n then fail .stackUnderflow
  let (keys, stack) ← popMany n stack
  let (mItem, stack) ← popItem stack
  let m ← countItem op mItem
  if m > n then fail (.invalidOpcode op)
  if stack.size < m then fail .stackUnderflow
  let (sigs, stack) ← popMany m stack
  let allMatched ← matchFrom P ctx.sigHash keys.reverse sigs.reverse 0
  return (allMatched, stack)

/-- The second `match` of `run`. -/
def execOp (P : Primitives) (ctx : ScriptContext) (allowChecksig : Bool) (op : UInt8)
    (stack : Array Bytes) : M (Array Bytes) :=
  match decodeOp op with
  | .opReturn => fail .verifyFailed
  | .opDup =>
    match stack.back? with
    | none => fail .stackUnderflow
    | some top => pushItem top stack
  | .opDrop => do
    let (_, stack) ← popItem stack
    return stack
  | .op2Drop => do
    let (_, stack) ← popItem stack
    let (_, stack) ← popItem stack
    return stack
  | .opSwap =>
    let len := stack.size
    if len < 2 then fail .stackUnderflow
    else do swap stack (← sub len 1) (← sub len 2)
  | .opSha256 => do
    let (top, stack) ← popItem stack
    return stack.push (P.sha256 top).bytes
  | .opHash160 => do
    let (top, stack) ← popItem stack
    let hash ← slice (P.sha256 top).bytes 0 20
    return stack.push hash
  | .opCheckSig =>
    if !allowChecksig then fail .scriptInSigContainsChecksig
    else do
      let (pubkeyBytes, stack) ← popItem stack
      let (sigBytes, stack) ← popItem stack
      match P.fromSec1Bytes pubkeyBytes with
      | none => fail .invalidKey
      | some vk =>
        match P.fromDer sigBytes with
        | none => fail .invalidSignature
        | some sig => return stack.push (boolItem (P.verify vk ctx.sigHash.bytes sig))
  | .opEqual => do
    let (b, stack) ← popItem stack
    let (a, stack) ← popItem stack
    return stack.push (boolItem (a == b))
  | .opEqualVerify => do
    let (b, stack) ← popItem stack
    let (a, stack) ← popItem stack
    if a ≠ b then fail .verifyFailed else return stack
  | .opVerify => do
    let (top, stack) ← popItem stack
    if !isTruthy top then fail .verifyFailed else return stack
  | .smallInt _ => do
    let n ← sub op.toNat 0x50
    pushItem [UInt8.ofNat n] stack
  | .opCheckMultisig =>
    if !allowChecksig then fail .scriptInSigContainsChecksig
    else do
      let (allMatched, stack) ← popMultisig P ctx op stack
      pushItem (boolItem allMatched) stack
  | .opCheckMultisigVerify =>
    if !allowChecksig then fail .scriptInSigContainsChecksig
    else do
      let (allMatched, stack) ← popMultisig P ctx op stack
      if !allMatched then fail .verifyFailed else return stack
  | .op0 => pushItem [] stack
  | .opCheckLockTimeVerify =>
    match stack.back? with
    | none => fail .stackUnderflow
    | some top =>
      if top.length > 8 then fail .lockTimeNotMet
      else do
        let buf ← copyToPrefix (List.replicate 8 0) top.length top
        if ctx.blockHeight < leNat buf then fail .lockTimeNotMet else return stack
  | .push _ | .pushData1 | .opIf | .opElse | .opEndif => fail (.invalidOpcode op)
  | .other b => fail (.invalidOpcode b)

/-- The data part of a push; `i` stands behind the length. -/
def pushData (script : Bytes) (i n : Nat) (st : State) : M State :=
  if i + n > script.length then fail .unexpectedEndOfScript
  else do
    if ← executing st.ifStack then
      let data ← slice script i (i + n)
      if data.length > maxElementSize then fail .elementTooLarge
      else
        let stack ← pushItem data st.stack
        return ⟨i + n, stack, st.ifStack⟩
    else return ⟨i + n, st.stack, st.ifStack⟩

/-- One round of the loop of `run`. -/
def step (P : Primitives) (ctx : ScriptContext) (allowChecksig : Bool) (script : Bytes)
    (st : State) : M State := do
  let op ← index script st.i
  let i := st.i + 1
  match decodeOp op with
  | .push n => pushData script i n st
  | .pushData1 =>
    if i ≥ script.length then fail .unexpectedEndOfScript
    else do
      let n ← index script i
      pushData script (i + 1) n.toNat st
  | .opIf => do
    if ← executing st.ifStack then
      let (top, stack) ← popItem st.stack
      return ⟨i, stack, st.ifStack.push (isTruthy top)⟩
    else return ⟨i, st.stack, st.ifStack.push false⟩
  | .opElse =>
    match st.ifStack.back? with
    | some last => return ⟨i, st.stack, st.ifStack.pop.push (!last)⟩
    | none => return ⟨i, st.stack, st.ifStack⟩
  | .opEndif => return ⟨i, st.stack, st.ifStack.pop⟩
  | _ => do
    if ← executing st.ifStack then
      let stack ← execOp P ctx allowChecksig op st.stack
      return ⟨i, stack, st.ifStack⟩
    else return ⟨i, st.stack, st.ifStack⟩

/-- The loop of `run`. -/
def runFrom (P : Primitives) (ctx : ScriptContext) (allowChecksig : Bool) (script : Bytes) :
    Nat → State → M (Array Bytes)
  | 0, st => if st.i < script.length then .error .outOfFuel else .ok st.stack
  | fuel + 1, st =>
    if st.i < script.length then do
      let st ← step P ctx allowChecksig script st
      runFrom P ctx allowChecksig script fuel st
    else .ok st.stack

/-- `run`. -/
def run (P : Primitives) (stack : Array Bytes) (script : Bytes) (ctx : ScriptContext)
    (allowChecksig : Bool) : M (Array Bytes) :=
  runFrom P ctx allowChecksig script script.length ⟨0, stack, #[]⟩

/-- `is_p2sh`; `&&` looks at a byte only behind the check of the length. -/
def isP2sh (spk : Bytes) : M Bool :=
  if spk.length ≠ 23 then return false
  else do
    if (← index spk 0) ≠ 0xa9 then return false
    else if (← index spk 1) ≠ 0x14 then return false
    else return (← index spk 22) == 0x87

/-- `execute`. -/
def execute (P : Primitives) (scriptSig scriptPubkey : Bytes) (ctx : ScriptContext) : M Bool :=
  if scriptSig.length + scriptPubkey.length > maxScriptSize then fail .scriptTooLarge
  else do
    let stack ← run P #[] scriptSig ctx false
    let stack ←
      if ← isP2sh scriptPubkey then do
        let (redeemScript, stack) ← popItem stack
        let computed ← slice (P.sha256 redeemScript).bytes 0 20
        let expected ← slice scriptPubkey 2 22
        if computed ≠ expected then fail .p2shHashMismatch
        else run P stack redeemScript ctx true
      else run P stack scriptPubkey ctx true
    return (stack.back?.map isTruthy).getD false

/-! ## It computes what `run` computes -/

/-- A result of the list machine, as one of this machine. -/
def lift (x : Except ScriptError Stack) : M (Array Bytes) := ofExcept (x.map bottomUp)

@[simp] theorem lift_ok (l : Stack) : lift (.ok l) = .ok (bottomUp l) := rfl

@[simp] theorem lift_error (e : ScriptError) : lift (.error e) = .error (.error e) := rfl

attribute [local simp] ok_bind error_bind pure_eq_ok throw_eq_error map_ok map_error

@[simp] theorem fail_eq {α : Type} (e : ScriptError) : (fail e : M α) = .error (.error e) := rfl

@[simp] theorem popItem_nil : popItem (bottomUp []) = .error (.error .stackUnderflow) := rfl

@[simp] theorem popItem_cons (top : Bytes) (l : Stack) :
    popItem (bottomUp (top :: l)) = .ok (top, bottomUp l) := by
  simp [popItem]

@[simp] theorem pushItem_bottomUp (item : Bytes) (l : Stack) :
    pushItem item (bottomUp l) = lift (pushChecked item l) := by
  unfold pushItem pushChecked
  rw [size_bottomUp]
  split_ifs <;> simp

@[simp] theorem executing_bottomUp (ifStack : List Bool) :
    executing (bottomUp ifStack) = .ok (Script.executing ifStack) := by
  cases ifStack <;> simp [executing, Script.executing]

/-- Popping as many items as there are. -/
theorem popMany_bottomUp {n : Nat} {l : Stack} (h : n ≤ l.length) :
    popMany n (bottomUp l) = .ok (l.take n, bottomUp (l.drop n)) := by
  induction n generalizing l with
  | zero => rfl
  | succ n ih =>
    cases l with
    | nil => simp at h
    | cons a l => simp [popMany, ih (by simpa using h)]

/-- The search from a position goes through the keys that are left there and
    stops behind the one it found. -/
theorem scanFrom_eq (sigHash : Hash256) (sig : P.Signature) {pubkeys keys : List Bytes}
    {pubIdx : Nat} (h : pubkeys.drop pubIdx = keys) :
    ∃ next, scanFrom P sigHash sig pubkeys pubIdx
        = .ok ((scanKeys P sigHash sig keys).isSome, next) ∧
      ∀ rest, scanKeys P sigHash sig keys = some rest → pubkeys.drop next = rest := by
  induction keys generalizing pubIdx with
  | nil =>
    rw [scanFrom, if_neg (by simpa using List.drop_eq_nil_iff.mp h)]
    exact ⟨pubIdx, rfl, fun rest hrest => by cases hrest⟩
  | cons pk keys ih =>
    have hlt : pubIdx < pubkeys.length := by
      by_contra hge
      rw [List.drop_of_length_le (Nat.le_of_not_lt hge)] at h
      cases h
    have hnext : pubkeys.drop (pubIdx + 1) = keys := by
      rw [← List.tail_drop, h]
      rfl
    rw [scanFrom, if_pos hlt, index_drop h, ok_bind, scanKeys]
    cases P.fromSec1Bytes pk with
    | none => exact ih hnext
    | some vk =>
      by_cases hv : P.verify vk sigHash.bytes sig
      · simp only [hv, if_true]
        exact ⟨pubIdx + 1, rfl, fun rest hrest => hnext.trans (Option.some.inj hrest)⟩
      · simp only [hv, Bool.false_eq_true, if_false]
        exact ih hnext

/-- The signatures are matched against the keys that are left. -/
theorem matchFrom_eq (sigHash : Hash256) (pubkeys sigs : List Bytes) (pubIdx : Nat) :
    matchFrom P sigHash pubkeys sigs pubIdx
      = .ok (matchSigs P sigHash sigs (pubkeys.drop pubIdx)) := by
  induction sigs generalizing pubIdx with
  | nil => rfl
  | cons sigBytes sigs ih =>
    unfold matchFrom matchSigs
    cases P.fromDer sigBytes with
    | none => rfl
    | some sig =>
      have hleft : pubkeys.drop pubIdx = pubkeys.drop pubIdx := rfl
      obtain ⟨next, hscan, hrest⟩ := scanFrom_eq sigHash sig hleft
      simp only [hscan, ok_bind]
      cases hkeys : scanKeys P sigHash sig (pubkeys.drop pubIdx) with
      | none => rfl
      | some rest => exact (ih next).trans (by rw [hrest rest hkeys])

@[simp] theorem countItem_eq (op : UInt8) (item : Bytes) :
    countItem op item = ofExcept (Script.countItem op item) := by
  cases item <;> rfl

/-- The pops of a multisig opcode stay within the stack. -/
theorem popMultisig_bottomUp (op : UInt8) (l : Stack) :
    popMultisig P ctx op (bottomUp l)
      = ofExcept ((Script.popMultisig P ctx op l).map fun r => (r.1, bottomUp r.2)) := by
  unfold popMultisig Script.popMultisig
  rcases l with - | ⟨nItem, l⟩
  · simp [pop]
  rcases nItem with - | ⟨b, nTail⟩
  · simp [pop, Script.countItem]
  by_cases h16 : b.toNat > 16
  · simp [pop, Script.countItem, h16]
  by_cases hn : l.length < b.toNat
  · simp [pop, Script.countItem, h16, hn]
  simp only [popItem_cons, pop, Script.countItem, h16, hn, countItem_eq, ok_bind, ofExcept_ok,
    size_bottomUp, popMany_bottomUp (Nat.le_of_not_lt hn), if_false]
  -- The stack below the keys.
  generalize (l.take b.toNat).reverse = pubkeys
  rcases l.drop b.toNat with - | ⟨mItem, l'⟩
  · simp
  rcases mItem with - | ⟨b', mTail⟩
  · simp
  by_cases hm : b'.toNat > b.toNat
  · simp [hm]
  by_cases hm' : l'.length < b'.toNat
  · simp [hm, hm']
  simp [hm, hm', popMany_bottomUp (Nat.le_of_not_lt hm'), matchFrom_eq]

/-- What a small integer needs to be pushed, as a check of the opcode table. -/
def smallIntFits (op : UInt8) : Bool :=
  match decodeOp op with
  | .smallInt n => 0x50 ≤ op.toNat ∧ UInt8.ofNat (op.toNat - 0x50) = n
  | _ => true

theorem smallIntFits_table : ∀ b : Fin 256, smallIntFits (UInt8.ofFin b) = true := by
  decide +kernel

/-- A byte that decodes to a small integer is large enough for the subtraction. -/
theorem small_int_range {op n : UInt8} (h : decodeOp op = .smallInt n) :
    0x50 ≤ op.toNat ∧ UInt8.ofNat (op.toNat - 0x50) = n := by
  have hfits : smallIntFits op = true := smallIntFits_table op.toFin
  simpa [smallIntFits, h] using hfits

/-- Every opcode does on the vector what it does on the list. -/
theorem execOp_bottomUp (op : UInt8) (l : Stack) :
    execOp P ctx allow op (bottomUp l) = lift (Script.execOp P ctx allow op l) := by
  unfold execOp Script.execOp
  -- Underflow fails alike, so the stack is split as far as the opcode pops.
  cases hop : decodeOp op with
  | opReturn => simp
  | opDup => cases l <;> simp [pop]
  | opDrop => cases l <;> simp [pop]
  | op2Drop => rcases l with - | ⟨a, - | ⟨b, l⟩⟩ <;> simp [pop]
  | opSwap =>
    rcases l with - | ⟨a, - | ⟨b, l⟩⟩
    · simp
    · simp
    · simp [sub_of_le, swap_bottomUp]
  | opSha256 => cases l <;> simp [pop]
  | opHash160 =>
    cases l with
    | nil => simp [pop]
    | cons top l =>
      have hlen : 20 ≤ (P.sha256 top).bytes.length := by simp [(P.sha256 top).size]
      simp [pop, slice_of_le (Nat.zero_le 20) hlen]
  | opCheckSig =>
    cases allow
    · simp
    rcases l with - | ⟨a, - | ⟨b, l⟩⟩
    · simp [pop]
    · simp [pop]
    · simp only [popItem_cons, pop, ok_bind, Bool.not_true, Bool.false_eq_true, if_false]
      cases P.fromSec1Bytes a with
      | none => rfl
      | some vk =>
        cases P.fromDer b with
        | none => rfl
        | some sig => simp
  | opEqual => rcases l with - | ⟨a, - | ⟨b, l⟩⟩ <;> simp [pop]
  | opEqualVerify =>
    rcases l with - | ⟨a, - | ⟨b, l⟩⟩
    · simp [pop]
    · simp [pop]
    · by_cases hab : b = a <;> simp [pop, hab]
  | opVerify =>
    cases l with
    | nil => simp [pop]
    | cons top l => cases htop : isTruthy top <;> simp [pop, htop]
  | smallInt n =>
    obtain ⟨hle, hn⟩ := small_int_range hop
    simp [sub_of_le hle, hn]
  | opCheckMultisig =>
    cases allow
    · simp
    · rw [popMultisig_bottomUp]
      cases Script.popMultisig P ctx op l with
      | error e => simp
      | ok r => simp
  | opCheckMultisigVerify =>
    cases allow
    · simp
    · rw [popMultisig_bottomUp]
      cases Script.popMultisig P ctx op l with
      | error e => simp
      | ok r => cases hr : r.1 <;> simp [hr]
  | op0 => simp
  | opCheckLockTimeVerify =>
    cases l with
    | nil => simp [pop]
    | cons top l =>
      by_cases hlen : top.length > 8
      · simp [pop, hlen]
      · have hcopy : (copyToPrefix (List.replicate 8 0) top.length top : M Bytes)
            = .ok (top ++ List.replicate (8 - top.length) 0) := by
          rw [copyToPrefix_of_le (by simpa using hlen), List.drop_replicate]
        simp only [back?_bottomUp, List.head?_cons, pop, hlen, if_false, hcopy, ok_bind,
          leNat_padded]
        by_cases hmet : ctx.blockHeight < leNat top <;> simp [hmet]
  | push n => simp
  | pushData1 => simp
  | opIf => simp
  | opElse => simp
  | opEndif => simp
  | other b => simp

/-- The variables of the loop where `rest` is left of a script. -/
def State.at (script rest : Bytes) (l : Stack) (ifStack : List Bool) : State :=
  ⟨script.length - rest.length, bottomUp l, bottomUp ifStack⟩

/-- The data of a push is sliced out of what is left of the script. -/
theorem pushData_bottomUp {script rest : Bytes} {i : Nat} (h : script.drop i = rest)
    (hi : i ≤ script.length) (j n : Nat) (l : Stack) (ifStack : List Bool) :
    pushData script i n ⟨j, bottomUp l, bottomUp ifStack⟩
      = ofExcept ((readPush (Script.executing ifStack) n rest l).map fun r =>
          State.at script r.1 r.2 ifStack) := by
  have hrest : rest.length = script.length - i := by rw [← h, List.length_drop]
  unfold pushData readPush State.at
  by_cases hn : i + n > script.length
  · rw [if_pos hn, if_pos (by omega)]
    rfl
  have hpos : i + n = script.length - (rest.drop n).length := by
    rw [List.length_drop]
    omega
  rw [if_neg hn, if_neg (by omega), executing_bottomUp, ok_bind]
  cases Script.executing ifStack
  · simp [hpos]
  have hslice : (slice script i (i + n) : M Bytes) = .ok (rest.take n) := by
    rw [slice_of_le (by omega) (by omega), h, Nat.add_sub_cancel_left]
  simp only [hslice, ok_bind, if_true]
  split_ifs
  · rfl
  · rw [pushItem_bottomUp, hpos]
    cases pushChecked (rest.take n) l <;> rfl

/-- A round does on the vectors what it does on the lists. -/
theorem step_at {script rest : Bytes} {op : UInt8} (h : (op :: rest) <:+ script) (l : Stack)
    (ifStack : List Bool) :
    step P ctx allow script (State.at script (op :: rest) l ifStack)
      = ofExcept ((Script.step P ctx allow op rest l ifStack).map fun r =>
          State.at script r.1 r.2.1 r.2.2) := by
  have hle : rest.length + 1 ≤ script.length := h.length_le
  have hdrop : script.drop (script.length - (op :: rest).length) = op :: rest :=
    (List.suffix_iff_eq_drop.mp h).symm
  have hi : script.length - (op :: rest).length + 1 = script.length - rest.length := by
    rw [List.length_cons]
    omega
  have hnext : script.drop (script.length - rest.length) = rest := by
    rw [← hi, ← List.tail_drop, hdrop]
    rfl
  unfold step Script.step
  simp only [State.at, index_drop hdrop, ok_bind, hi]
  cases hop : decodeOp op with
  | push n =>
    dsimp only
    rw [pushData_bottomUp hnext (Nat.sub_le _ _)]
    cases readPush (Script.executing ifStack) n rest l <;> rfl
  -- One more byte is read, the length, and it may be missing.
  | pushData1 =>
    cases rest with
    | nil => simp
    | cons n rest =>
      have hlt : ¬ script.length - (n :: rest).length ≥ script.length := by
        rw [List.length_cons]
        omega
      have hi' : script.length - (n :: rest).length + 1 = script.length - rest.length := by
        rw [List.length_cons] at hle ⊢
        omega
      have hbehind : script.drop (script.length - rest.length) = rest := by
        rw [← hi', ← List.tail_drop, hnext]
        rfl
      dsimp only
      rw [if_neg hlt, index_drop hnext, ok_bind, hi',
        pushData_bottomUp hbehind (Nat.sub_le _ _)]
      cases readPush (Script.executing ifStack) n.toNat rest l <;> rfl
  | opIf =>
    simp only [executing_bottomUp, ok_bind]
    cases Script.executing ifStack
    · simp
    · cases l <;> simp [pop]
  | opElse => cases ifStack <;> simp
  | opEndif => simp
  -- All other opcodes leave the position to the loop.
  | _ =>
    simp only [executing_bottomUp, execOp_bottomUp, ok_bind]
    cases Script.executing ifStack
    · simp
    · cases Script.execOp P ctx allow op l <;> rfl

/-- The loop never leaves the range of an index, and its fuel covers the script. -/
theorem runFrom_at {fuel : Nat} {script rest : Bytes} (h : rest <:+ script)
    (hfuel : rest.length ≤ fuel) (l : Stack) (ifStack : List Bool) :
    runFrom P ctx allow script fuel (State.at script rest l ifStack)
      = lift (runLoop P ctx allow fuel rest l ifStack) := by
  induction fuel generalizing rest l ifStack with
  | zero =>
    obtain rfl : rest = [] := List.length_eq_zero_iff.mp (Nat.le_zero.mp hfuel)
    simp [runFrom, runLoop, State.at]
  | succ fuel ih =>
    cases rest with
    | nil => simp [runFrom, runLoop, State.at]
    | cons op rest =>
      have hlt : (State.at script (op :: rest) l ifStack).i < script.length := by
        have hle := h.length_le
        simp only [State.at, List.length_cons] at hle ⊢
        omega
      rw [runFrom, if_pos hlt, step_at h, runLoop_cons]
      cases hstep : Script.step P ctx allow op rest l ifStack with
      | error e => rfl
      | ok r =>
        have hsuffix := step_suffix hstep
        have hshorter : r.1.length ≤ fuel :=
          hsuffix.length_le.trans (Nat.le_of_succ_le_succ hfuel)
        exact ih (hsuffix.trans ((List.suffix_cons op rest).trans h)) hshorter r.2.1 r.2.2

theorem run_bottomUp (script : Bytes) (l : Stack) :
    run P (bottomUp l) script ctx allow = lift (Script.run P l script ctx allow) := by
  have hstart : (⟨0, bottomUp l, #[]⟩ : State) = State.at script script l [] := by
    rw [State.at, Nat.sub_self]
    rfl
  unfold run Script.run
  rw [hstart, runFrom_at (List.suffix_refl script) (Nat.le_refl _)]

theorem isP2sh_eq (spk : Bytes) : isP2sh spk = .ok (Script.isP2sh spk) := by
  unfold isP2sh Script.isP2sh
  by_cases hlen : spk.length = 23
  · have hget : ∀ i (h : i < 23), (index spk i : M UInt8) = .ok (spk.get ⟨i, by omega⟩) ∧
        spk[i]? = some (spk.get ⟨i, by omega⟩) := by
      intro i h
      have hi : spk[i]? = some (spk.get ⟨i, by omega⟩) := List.getElem?_eq_getElem (by omega)
      exact ⟨by rw [index, hi, unwrap_some], hi⟩
    simp only [hlen, (hget 0 (by omega)).1, (hget 0 (by omega)).2, (hget 1 (by omega)).1,
      (hget 1 (by omega)).2, (hget 22 (by omega)).1, (hget 22 (by omega)).2, ok_bind]
    split_ifs <;> simp_all
  · simp [hlen]

/-- The machine computes what `execute` computes. -/
theorem execute_eq (scriptSig scriptPubkey : Bytes) :
    execute P scriptSig scriptPubkey ctx
      = ofExcept (Script.execute P scriptSig scriptPubkey ctx) := by
  unfold execute Script.execute
  by_cases hsize : scriptSig.length + scriptPubkey.length > maxScriptSize
  · simp [hsize]
  rw [if_neg hsize, if_neg hsize]
  have hsig : run P #[] scriptSig ctx false = lift (Script.run P [] scriptSig ctx false) :=
    run_bottomUp scriptSig []
  rw [hsig, isP2sh_eq]
  cases Script.run P [] scriptSig ctx false with
  | error e => simp
  | ok l =>
    cases hp : Script.isP2sh scriptPubkey
    · simp only [lift_ok, ok_bind, run_bottomUp, Bool.false_eq_true, if_false]
      cases Script.run P l scriptPubkey ctx true <;> simp
    · cases l with
      | nil => simp [pop]
      | cons redeemScript l =>
        have hlen : 20 ≤ (P.sha256 redeemScript).bytes.length := by simp [Hash256.size]
        -- The slice of the hash is in range, since a P2SH script has 23 bytes.
        have hspk : 22 ≤ scriptPubkey.length := by
          have h23 : scriptPubkey.length = 23 := by
            simp only [Script.isP2sh, Bool.and_eq_true, beq_iff_eq] at hp
            exact hp.1.1.1
          omega
        simp only [lift_ok, ok_bind, if_true, popItem_cons, pop,
          slice_of_le (Nat.zero_le 20) hlen, slice_of_le (by omega : 2 ≤ 22) hspk, run_bottomUp,
          List.drop_zero, Nat.sub_zero]
        by_cases heq : (P.sha256 redeemScript).bytes.take 20 = (scriptPubkey.drop 2).take (22 - 2)
        · simp only [heq]
          cases Script.run P l redeemScript ctx true <;> simp
        · simp [heq]

/-! ## The limits of the stack -/

/-- A stack within `MAX_STACK_DEPTH` whose items are within `MAX_ELEMENT_SIZE`. -/
structure Fits (l : Stack) : Prop where
  depth : l.length ≤ maxStackDepth
  size : ∀ item ∈ l, item.length ≤ maxElementSize

theorem Fits.nil : Fits [] := ⟨Nat.zero_le _, by simp⟩

theorem Fits.drop {l : Stack} (h : Fits l) (n : Nat) : Fits (l.drop n) where
  depth := by
    rw [List.length_drop]
    exact (Nat.sub_le _ _).trans h.depth
  size := fun item hitem => h.size item (List.mem_of_mem_drop hitem)

theorem Fits.tail {a : Bytes} {l : Stack} (h : Fits (a :: l)) : Fits l := h.drop 1

/-- An item that took the place of the top needs no check of the depth. -/
theorem Fits.replace {a b : Bytes} {l : Stack} (h : Fits (a :: l))
    (hb : b.length ≤ maxElementSize) : Fits (b :: l) where
  depth := by simpa using h.depth
  size := by
    intro item hitem
    rcases List.mem_cons.mp hitem with rfl | hmem
    · exact hb
    · exact h.tail.size item hmem

theorem Fits.pushChecked {item : Bytes} {l l' : Stack} (h : Fits l)
    (hitem : item.length ≤ maxElementSize) (hpush : pushChecked item l = .ok l') : Fits l' := by
  unfold Script.pushChecked at hpush
  split_ifs at hpush with hfull
  cases hpush
  refine ⟨by simp only [List.length_cons]; omega, ?_⟩
  intro item' hmem
  rcases List.mem_cons.mp hmem with rfl | hmem
  · exact hitem
  · exact h.size item' hmem

theorem boolItem_length_le (b : Bool) : (boolItem b).length ≤ maxElementSize := by
  cases b <;> decide

/-- What a multisig opcode leaves is a part of the stack it found. -/
theorem Fits.popMultisig {op : UInt8} {l : Stack} {r : Bool × Stack} (h : Fits l)
    (hpop : Script.popMultisig P ctx op l = .ok r) : Fits r.2 := by
  unfold Script.popMultisig at hpop
  rcases l with - | ⟨nItem, l⟩
  · cases hpop
  rcases nItem with - | ⟨b, nTail⟩
  · cases hpop
  have hkeys := h.tail.drop b.toNat
  simp only [pop, Script.countItem, ok_bind] at hpop
  split_ifs at hpop <;> try cases hpop
  rcases hl : l.drop b.toNat with - | ⟨mItem, l'⟩
  · rw [hl] at hpop
    cases hpop
  rcases mItem with - | ⟨b', mTail⟩
  · rw [hl] at hpop
    cases hpop
  rw [hl] at hpop hkeys
  simp only [ok_bind] at hpop
  split_ifs at hpop <;> cases hpop
  exact hkeys.tail.drop b'.toNat

/-- Every opcode keeps the stack within the limits. -/
theorem Fits.execOp {op : UInt8} {l l' : Stack} (h : Fits l)
    (hop : Script.execOp P ctx allow op l = .ok l') : Fits l' := by
  -- What is pushed was popped before, or is a hash, a truth value or a small number.
  unfold Script.execOp at hop
  cases hdec : decodeOp op <;> simp only [hdec] at hop
  case opDup =>
    cases l with
    | nil => cases hop
    | cons top l => exact h.pushChecked (h.size top (by simp)) hop
  case opDrop =>
    cases l with
    | nil => cases hop
    | cons top l =>
      cases hop
      exact h.tail
  case op2Drop =>
    rcases l with - | ⟨a, - | ⟨b, l⟩⟩ <;> cases hop
    exact h.tail.tail
  case opSwap =>
    rcases l with - | ⟨a, - | ⟨b, l⟩⟩ <;> cases hop
    have ha := h.size a (by simp)
    have hb := h.size b (by simp)
    exact ⟨h.depth, by simpa [ha, hb] using fun item hmem => h.tail.tail.size item hmem⟩
  case opSha256 =>
    cases l with
    | nil => cases hop
    | cons top l =>
      cases hop
      exact h.replace (by simp [Hash256.size, maxElementSize])
  case opHash160 =>
    cases l with
    | nil => cases hop
    | cons top l =>
      cases hop
      exact h.replace (by simp [Hash256.size, maxElementSize])
  case opCheckSig =>
    cases allow
    · cases hop
    rcases l with - | ⟨a, - | ⟨b, l⟩⟩
    · cases hop
    · cases hop
    simp only [pop, ok_bind, Bool.not_true, Bool.false_eq_true, if_false] at hop
    split at hop
    · cases hop
    split at hop
    · cases hop
    cases hop
    exact h.tail.replace (boolItem_length_le _)
  case opEqual =>
    rcases l with - | ⟨a, - | ⟨b, l⟩⟩ <;> cases hop
    exact h.tail.replace (boolItem_length_le _)
  case opEqualVerify =>
    rcases l with - | ⟨b, - | ⟨a, l⟩⟩
    · cases hop
    · cases hop
    · simp only [pop, ok_bind] at hop
      split_ifs at hop <;> cases hop
      exact h.tail.tail
  case opVerify =>
    cases l with
    | nil => cases hop
    | cons top l =>
      simp only [pop, ok_bind] at hop
      split_ifs at hop <;> cases hop
      exact h.tail
  case smallInt n => exact h.pushChecked (by simp [maxElementSize]) hop
  case opCheckMultisig =>
    cases allow
    · cases hop
    obtain ⟨r, hpop, hpush⟩ := ExceptFold.bind_eq_ok.mp hop
    exact (h.popMultisig hpop).pushChecked (boolItem_length_le _) hpush
  case opCheckMultisigVerify =>
    cases allow
    · cases hop
    obtain ⟨r, hpop, hrest⟩ := ExceptFold.bind_eq_ok.mp hop
    split_ifs at hrest <;> cases hrest
    exact h.popMultisig hpop
  case op0 => exact h.pushChecked (by simp [maxElementSize]) hop
  case opCheckLockTimeVerify =>
    cases l with
    | nil => cases hop
    | cons top l =>
      simp only [pop, ok_bind] at hop
      split_ifs at hop <;> cases hop
      exact h
  all_goals cases hop

theorem Fits.readPush {exec : Bool} {n : Nat} {rest : Bytes} {l : Stack} {r : Bytes × Stack}
    (h : Fits l) (hread : readPush exec n rest l = .ok r) : Fits r.2 := by
  unfold Script.readPush at hread
  split_ifs at hread with hn hexec hsize
  · cases hpush : Script.pushChecked (rest.take n) l with
    | error e => simp [hpush, Except.map] at hread
    | ok l' =>
      simp only [hpush, Except.map, Except.ok.injEq] at hread
      rw [← hread]
      exact h.pushChecked (Nat.le_of_not_lt hsize) hpush
  · cases hread
    exact h

/-- A round keeps the stack within the limits. -/
theorem Fits.step {op : UInt8} {rest : Bytes} {l : Stack} {ifStack : List Bool}
    {r : Bytes × Stack × List Bool} (h : Fits l)
    (hstep : Script.step P ctx allow op rest l ifStack = .ok r) : Fits r.2.1 := by
  unfold Script.step at hstep
  split at hstep
  · rename_i n _
    cases hread : Script.readPush (Script.executing ifStack) n rest l with
    | error e => simp [hread, Except.map] at hstep
    | ok r' =>
      simp only [hread, Except.map, Except.ok.injEq] at hstep
      rw [← hstep]
      exact h.readPush hread
  · cases rest with
    | nil => cases hstep
    | cons n rest =>
      dsimp only at hstep
      cases hread : Script.readPush (Script.executing ifStack) n.toNat rest l with
      | error e => simp [hread, Except.map] at hstep
      | ok r' =>
        simp only [hread, Except.map, Except.ok.injEq] at hstep
        rw [← hstep]
        exact h.readPush hread
  · split_ifs at hstep
    · cases l <;> cases hstep
      exact h.tail
    · cases hstep
      exact h
  · cases ifStack <;> cases hstep <;> exact h
  · cases hstep
    exact h
  · split_ifs at hstep
    · cases hop : Script.execOp P ctx allow op l with
      | error e => simp [hop, Except.map] at hstep
      | ok l' =>
        simp only [hop, Except.map, Except.ok.injEq] at hstep
        rw [← hstep]
        exact h.execOp hop
    · cases hstep
      exact h

/-! ## Every step of an execution -/

/-- The states a run goes through, from its first to the one it ends in. -/
inductive Reached (P : Primitives) (ctx : ScriptContext) (allowChecksig : Bool) (script : Bytes)
    (stack : Array Bytes) : State → Prop
  | start : Reached P ctx allowChecksig script stack ⟨0, stack, #[]⟩
  | step {st st' : State} (h : Reached P ctx allowChecksig script stack st)
      (hlt : st.i < script.length) (hstep : step P ctx allowChecksig script st = .ok st') :
      Reached P ctx allowChecksig script stack st'

/-- The states `execute` goes through: of the run of the script of the input, and
    of the run of the output script or of the redeem script on the stack the
    first one leaves. -/
inductive Visited (P : Primitives) (scriptSig scriptPubkey : Bytes) (ctx : ScriptContext) :
    State → Prop
  | scriptSig {st : State} (h : Reached P ctx false scriptSig #[] st) :
      Visited P scriptSig scriptPubkey ctx st
  | scriptPubkey {st : State} {stack : Array Bytes}
      (hrun : run P #[] scriptSig ctx false = .ok stack)
      (h : Reached P ctx true scriptPubkey stack st) : Visited P scriptSig scriptPubkey ctx st
  | redeem {st : State} {stack stack' : Array Bytes} {redeemScript : Bytes}
      (hrun : run P #[] scriptSig ctx false = .ok stack)
      (hpop : popItem stack = .ok (redeemScript, stack'))
      (h : Reached P ctx true redeemScript stack' st) : Visited P scriptSig scriptPubkey ctx st

/-- The limits, of a vector. -/
def WithinLimits (stack : Array Bytes) : Prop :=
  stack.size ≤ maxStackDepth ∧ ∀ item ∈ stack, item.length ≤ maxElementSize

theorem withinLimits_bottomUp {l : Stack} : WithinLimits (bottomUp l) ↔ Fits l := by
  constructor
  · rintro ⟨hdepth, hsize⟩
    exact ⟨by simpa using hdepth, fun item hitem => hsize item (by simpa [bottomUp] using hitem)⟩
  · rintro ⟨hdepth, hsize⟩
    exact ⟨by simpa using hdepth, fun item hitem => hsize item (by simpa [bottomUp] using hitem)⟩

/-- Every state of a run is one of the list machine, and within the limits if the
    run starts within them. -/
theorem Reached.exists_at {script : Bytes} {l : Stack} {st : State} (hl : Fits l)
    (h : Reached P ctx allow script (bottomUp l) st) :
    ∃ rest l' ifStack, rest <:+ script ∧ st = State.at script rest l' ifStack ∧ Fits l' := by
  induction h with
  | start =>
    refine ⟨script, l, [], List.suffix_refl script, ?_, hl⟩
    rw [State.at, Nat.sub_self]
    rfl
  | step _ hlt hstep ih =>
    obtain ⟨rest, l', ifStack, hsuffix, rfl, hfits⟩ := ih
    cases rest with
    | nil => simp [State.at] at hlt
    | cons op rest =>
      rw [step_at hsuffix] at hstep
      cases hr : Script.step P ctx allow op rest l' ifStack with
      | error e =>
        rw [hr] at hstep
        cases hstep
      | ok r =>
        rw [hr] at hstep
        cases hstep
        exact ⟨r.1, r.2.1, r.2.2,
          (step_suffix hr).trans ((List.suffix_cons op rest).trans hsuffix), rfl, hfits.step hr⟩

/-- A run that succeeds ends in one of its states. -/
theorem runFrom_reached {script : Bytes} {stack stack' : Array Bytes} {fuel : Nat} {st : State}
    (hst : Reached P ctx allow script stack st)
    (h : runFrom P ctx allow script fuel st = .ok stack') :
    ∃ st', Reached P ctx allow script stack st' ∧ st'.stack = stack' := by
  induction fuel generalizing st with
  | zero =>
    unfold runFrom at h
    split_ifs at h
    cases h
    exact ⟨st, hst, rfl⟩
  | succ fuel ih =>
    unfold runFrom at h
    split_ifs at h with hlt
    · obtain ⟨st', hstep, hrest⟩ := ExceptFold.bind_eq_ok.mp h
      exact ih (hst.step hlt hstep) hrest
    · cases h
      exact ⟨st, hst, rfl⟩

theorem Reached.withinLimits {script : Bytes} {stack : Array Bytes} {st : State}
    (hstack : WithinLimits stack) (h : Reached P ctx allow script stack st) :
    WithinLimits st.stack := by
  obtain ⟨l, rfl⟩ := exists_bottomUp stack
  obtain ⟨rest, l', ifStack, _, rfl, hfits⟩ := h.exists_at (withinLimits_bottomUp.mp hstack)
  exact withinLimits_bottomUp.mpr hfits

/-- The stack the script of the input leaves is within the limits. -/
theorem run_withinLimits {script : Bytes} {stack : Array Bytes}
    (h : run P #[] script ctx allow = .ok stack) : WithinLimits stack := by
  obtain ⟨st, hst, rfl⟩ := runFrom_reached Reached.start h
  exact hst.withinLimits (withinLimits_bottomUp.mpr Fits.nil)

theorem popItem_withinLimits {stack stack' : Array Bytes} {item : Bytes}
    (h : popItem stack = .ok (item, stack')) (hstack : WithinLimits stack) :
    WithinLimits stack' := by
  obtain ⟨l, rfl⟩ := exists_bottomUp stack
  cases l with
  | nil => cases h
  | cons top l =>
    rw [popItem_cons] at h
    cases h
    exact withinLimits_bottomUp.mpr (withinLimits_bottomUp.mp hstack).tail

/-- `execute` never panics and comes to an end, whatever the scripts are, with the
    result of the list machine; at every step of its runs the stack is within the
    limits. -/
theorem execute_total_and_bounded (P : Primitives) (scriptSig scriptPubkey : Bytes)
    (ctx : ScriptContext) :
    execute P scriptSig scriptPubkey ctx
        = ofExcept (Script.execute P scriptSig scriptPubkey ctx) ∧
      execute P scriptSig scriptPubkey ctx ≠ .error .panic ∧
      execute P scriptSig scriptPubkey ctx ≠ .error .outOfFuel ∧
      ∀ st, Visited P scriptSig scriptPubkey ctx st →
        st.stack.size ≤ maxStackDepth ∧ ∀ item ∈ st.stack, item.length ≤ maxElementSize := by
  refine ⟨execute_eq scriptSig scriptPubkey, ?_, ?_, ?_⟩
  · intro hpanic
    rw [execute_eq] at hpanic
    obtain ⟨e, _, he⟩ := ofExcept_fault hpanic
    cases he
  · intro hfuel
    rw [execute_eq] at hfuel
    obtain ⟨e, _, he⟩ := ofExcept_fault hfuel
    cases he
  · intro st hst
    cases hst with
    | scriptSig h => exact h.withinLimits (withinLimits_bottomUp.mpr Fits.nil)
    | scriptPubkey hrun h => exact h.withinLimits (run_withinLimits hrun)
    | redeem hrun hpop h =>
      exact h.withinLimits (popItem_withinLimits hpop (run_withinLimits hrun))

end Machine

end Tensorium.Script
