import Tensorium.Lib.Traced
import Tensorium.Script.Step

/-! # Conditionals

    `run` decides from a stack of Booleans whether an opcode executes, and looks
    at the innermost only. Here the scripts whose conditionals nest properly are
    syntax trees with a structured interpreter, in which an opcode executes when
    every branch around it is taken, and the two are compared: their results, and
    the positions of the opcodes they execute.
-/

namespace Tensorium.Script

open ByteCodec Traced

variable {P : Primitives} {ctx : ScriptContext} {allow : Bool}

/-! ## The loop with the positions it executes -/

/-- `OP_ELSE` and `OP_ENDIF` end a branch; they do not execute. -/
def Opcode.endsBranch : Opcode → Bool
  | .opElse | .opEndif => true
  | _ => false

/-- Reports a position if there is something to report. -/
def report (b : Bool) (pos : Nat) : Traced ScriptError Nat Unit :=
  if b then emit pos else pure ()

/-- The loop of `run`; `pos` is the index of the first byte that is left. -/
def traceLoop (P : Primitives) (ctx : ScriptContext) (allowChecksig : Bool) :
    Nat → Nat → Bytes → Stack → List Bool → Traced ScriptError Nat Stack
  | _, _, [], stack, _ => pure stack
  | 0, _, _ :: _, stack, _ => pure stack
  | fuel + 1, pos, byte :: rest, stack, ifStack => do
    report (executing ifStack && !(decodeOp byte).endsBranch) pos
    let r ← silent (step P ctx allowChecksig byte rest stack ifStack)
    traceLoop P ctx allowChecksig fuel (pos + 1 + (rest.length - r.1.length)) r.1 r.2.1 r.2.2

/-- The loop on all that is left of a script. -/
def traceFrom (P : Primitives) (ctx : ScriptContext) (allowChecksig : Bool) (pos : Nat)
    (script : Bytes) (stack : Stack) (ifStack : List Bool) : Traced ScriptError Nat Stack :=
  traceLoop P ctx allowChecksig script.length pos script stack ifStack

/-- The indices of the opcodes `run` executes, in order. -/
def executed (P : Primitives) (stack : Stack) (script : Bytes) (ctx : ScriptContext)
    (allowChecksig : Bool) : List Nat :=
  (traceFrom P ctx allowChecksig 0 script stack []).trace

theorem traceLoop_result (fuel pos : Nat) (script : Bytes) (stack : Stack)
    (ifStack : List Bool) :
    (traceLoop P ctx allow fuel pos script stack ifStack).result
      = runLoop P ctx allow fuel script stack ifStack := by
  induction fuel generalizing pos script stack ifStack with
  | zero => cases script <;> rfl
  | succ fuel ih =>
    cases script with
    | nil => rfl
    | cons byte rest =>
      rw [traceLoop, runLoop_cons]
      have hreport : ∀ (b : Bool) (x : Traced ScriptError Nat Stack),
          (report b pos >>= fun _ => x).result = x.result := by
        rintro (- | -) x <;> rfl
      rw [hreport, result_bind]
      cases step P ctx allow byte rest stack ifStack with
      | error e => rfl
      | ok r => exact ih _ _ _ _

/-- The traced loop computes what `run` computes. -/
theorem traceFrom_result (stack : Stack) (script : Bytes) :
    (traceFrom P ctx allow 0 script stack []).result = run P stack script ctx allow :=
  traceLoop_result _ _ _ _ _

theorem traceLoop_fuel {fuel fuel' : Nat} {script : Bytes} (hfuel : script.length ≤ fuel)
    (hfuel' : script.length ≤ fuel') (pos : Nat) (stack : Stack) (ifStack : List Bool) :
    traceLoop P ctx allow fuel pos script stack ifStack
      = traceLoop P ctx allow fuel' pos script stack ifStack := by
  induction fuel generalizing fuel' pos script stack ifStack with
  | zero =>
    obtain rfl : script = [] := List.length_eq_zero_iff.mp (Nat.le_zero.mp hfuel)
    cases fuel' <;> rfl
  | succ fuel ih =>
    cases script with
    | nil => cases fuel' <;> rfl
    | cons byte rest =>
      obtain ⟨fuel', rfl⟩ : ∃ k, fuel' = k + 1 :=
        Nat.exists_eq_add_one_of_ne_zero (by rintro rfl; cases hfuel')
      rw [traceLoop, traceLoop]
      congr 1
      funext _
      cases hstep : step P ctx allow byte rest stack ifStack with
      | error e => rfl
      | ok r =>
        have hle : r.1.length ≤ rest.length := (step_suffix hstep).length_le
        exact ih (hle.trans (Nat.le_of_succ_le_succ hfuel))
          (hle.trans (Nat.le_of_succ_le_succ hfuel')) _ r.2.1 r.2.2

/-- The loop is its first round and then the loop again. -/
theorem traceFrom_cons (pos : Nat) (byte : UInt8) (rest : Bytes) (stack : Stack)
    (ifStack : List Bool) :
    traceFrom P ctx allow pos (byte :: rest) stack ifStack = (do
      report (executing ifStack && !(decodeOp byte).endsBranch) pos
      let r ← silent (step P ctx allow byte rest stack ifStack)
      traceFrom P ctx allow (pos + 1 + (rest.length - r.1.length)) r.1 r.2.1 r.2.2) := by
  rw [traceFrom, List.length_cons, traceLoop]
  congr 1
  funext _
  cases hstep : step P ctx allow byte rest stack ifStack with
  | error e => rfl
  | ok r => exact traceLoop_fuel (step_suffix hstep).length_le (Nat.le_refl _) _ _ _

/-! ## Properly nested scripts -/

/-- Opcodes that neither push data nor control the flow. -/
def Opcode.isPlain : Opcode → Bool
  | .push _ | .pushData1 | .opIf | .opElse | .opEndif => false
  | _ => true

/-- A script in which every `OP_IF` has its `OP_ENDIF` and at most one `OP_ELSE`. -/
inductive Code where
  | done
  | push (data : Bytes) (h : 1 ≤ data.length ∧ data.length ≤ 0x4b) (rest : Code)
  | pushData1 (data : Bytes) (h : data.length ≤ 0xff) (rest : Code)
  | op (byte : UInt8) (h : (decodeOp byte).isPlain = true) (rest : Code)
  | ifThen (thn rest : Code)
  | ifElse (thn els rest : Code)

namespace Code

/-- The bytes of a script. -/
def render : Code → Bytes
  | done => []
  | push data _ rest => UInt8.ofNat data.length :: (data ++ rest.render)
  | pushData1 data _ rest => 0x4c :: UInt8.ofNat data.length :: (data ++ rest.render)
  | op byte _ rest => byte :: rest.render
  | ifThen thn rest => 0x63 :: (thn.render ++ 0x68 :: rest.render)
  | ifElse thn els rest => 0x63 :: (thn.render ++ 0x67 :: (els.render ++ 0x68 :: rest.render))

/-- The number of bytes. -/
def size (c : Code) : Nat := c.render.length

/-- The structured interpreter: of a conditional it executes the branch that is
    taken and nothing of the other one. `pos` is the index of the first byte. -/
def exec (P : Primitives) (ctx : ScriptContext) (allowChecksig : Bool) :
    Code → Nat → Stack → Traced ScriptError Nat Stack
  | done, _, stack => pure stack
  | push data _ rest, pos, stack => do
    emit pos
    let stack ← silent (pushChecked data stack)
    rest.exec P ctx allowChecksig (pos + 1 + data.length) stack
  | pushData1 data _ rest, pos, stack => do
    emit pos
    let stack ← silent (pushChecked data stack)
    rest.exec P ctx allowChecksig (pos + 2 + data.length) stack
  | op byte _ rest, pos, stack => do
    emit pos
    let stack ← silent (execOp P ctx allowChecksig byte stack)
    rest.exec P ctx allowChecksig (pos + 1) stack
  | ifThen thn rest, pos, stack => do
    emit pos
    let (top, stack) ← silent (pop stack)
    let stack ←
      if isTruthy top then thn.exec P ctx allowChecksig (pos + 1) stack else pure stack
    rest.exec P ctx allowChecksig (pos + 1 + thn.size + 1) stack
  | ifElse thn els rest, pos, stack => do
    emit pos
    let (top, stack) ← silent (pop stack)
    let stack ←
      if isTruthy top then thn.exec P ctx allowChecksig (pos + 1) stack
      else els.exec P ctx allowChecksig (pos + 1 + thn.size + 1) stack
    rest.exec P ctx allowChecksig (pos + 1 + thn.size + 1 + els.size + 1) stack

/-- No conditional in the script has an `OP_ELSE` part with something in it. -/
def NoElse : Code → Prop
  | done => True
  | push _ _ rest => rest.NoElse
  | pushData1 _ _ rest => rest.NoElse
  | op _ _ rest => rest.NoElse
  | ifThen thn rest => thn.NoElse ∧ rest.NoElse
  | ifElse thn els rest => thn.NoElse ∧ els = done ∧ rest.NoElse

/-- Every branch that is not taken, as the structured interpreter goes, is without
    `OP_ELSE` parts of its own. -/
def SkipsNoElse (P : Primitives) (ctx : ScriptContext) (allowChecksig : Bool) :
    Code → Stack → Prop
  | done, _ => True
  | push data _ rest, stack =>
    ∀ stack', pushChecked data stack = .ok stack' → rest.SkipsNoElse P ctx allowChecksig stack'
  | pushData1 data _ rest, stack =>
    ∀ stack', pushChecked data stack = .ok stack' → rest.SkipsNoElse P ctx allowChecksig stack'
  | op byte _ rest, stack =>
    ∀ stack', execOp P ctx allowChecksig byte stack = .ok stack' →
      rest.SkipsNoElse P ctx allowChecksig stack'
  | ifThen thn rest, stack =>
    ∀ top stack', pop stack = .ok (top, stack') →
      if isTruthy top then
        thn.SkipsNoElse P ctx allowChecksig stack' ∧
          ∀ stack'', (thn.exec P ctx allowChecksig 0 stack').result = .ok stack'' →
            rest.SkipsNoElse P ctx allowChecksig stack''
      else thn.NoElse ∧ rest.SkipsNoElse P ctx allowChecksig stack'
  | ifElse thn els rest, stack =>
    ∀ top stack', pop stack = .ok (top, stack') →
      if isTruthy top then
        thn.SkipsNoElse P ctx allowChecksig stack' ∧
          ∀ stack'', (thn.exec P ctx allowChecksig 0 stack').result = .ok stack'' →
            els.NoElse ∧ rest.SkipsNoElse P ctx allowChecksig stack''
      else
        thn.NoElse ∧ els.SkipsNoElse P ctx allowChecksig stack' ∧
          ∀ stack'', (els.exec P ctx allowChecksig 0 stack').result = .ok stack'' →
            rest.SkipsNoElse P ctx allowChecksig stack''

/-! ## One element at a time -/

@[simp] theorem size_done : done.size = 0 := rfl

@[simp] theorem size_push (data : Bytes) (h : 1 ≤ data.length ∧ data.length ≤ 0x4b)
    (rest : Code) : (push data h rest).size = 1 + data.length + rest.size := by
  simp only [size, render, List.length_cons, List.length_append]
  omega

@[simp] theorem size_pushData1 (data : Bytes) (h : data.length ≤ 0xff) (rest : Code) :
    (pushData1 data h rest).size = 2 + data.length + rest.size := by
  simp only [size, render, List.length_cons, List.length_append]
  omega

@[simp] theorem size_op (byte : UInt8) (h : (decodeOp byte).isPlain = true) (rest : Code) :
    (op byte h rest).size = 1 + rest.size := by
  simp only [size, render, List.length_cons]
  omega

@[simp] theorem size_ifThen (thn rest : Code) :
    (ifThen thn rest).size = 1 + thn.size + 1 + rest.size := by
  simp only [size, render, List.length_cons, List.length_append]
  omega

@[simp] theorem size_ifElse (thn els rest : Code) :
    (ifElse thn els rest).size = 1 + thn.size + 1 + els.size + 1 + rest.size := by
  simp only [size, render, List.length_cons, List.length_append]
  omega

theorem step_plain {byte : UInt8} (h : (decodeOp byte).isPlain = true) (rest : Bytes)
    (stack : Stack) (ifStack : List Bool) :
    step P ctx allow byte rest stack ifStack
      = if executing ifStack then
          (execOp P ctx allow byte stack).map fun stack => (rest, stack, ifStack)
        else .ok (rest, stack, ifStack) := by
  unfold step
  cases hdec : decodeOp byte <;> first | rfl | simp [hdec, Opcode.isPlain] at h

theorem endsBranch_plain {byte : UInt8} (h : (decodeOp byte).isPlain = true) :
    (decodeOp byte).endsBranch = false := by
  cases hdec : decodeOp byte <;> first | rfl | simp [hdec, Opcode.isPlain] at h

/-- A plain opcode. -/
theorem traceFrom_plain {byte : UInt8} (h : (decodeOp byte).isPlain = true) (pos : Nat)
    (k : Bytes) (stack : Stack) (ifStack : List Bool) :
    traceFrom P ctx allow pos (byte :: k) stack ifStack
      = if executing ifStack then do
          emit pos
          let stack ← silent (execOp P ctx allow byte stack)
          traceFrom P ctx allow (pos + 1) k stack ifStack
        else traceFrom P ctx allow (pos + 1) k stack ifStack := by
  rw [traceFrom_cons, step_plain h, endsBranch_plain h]
  cases executing ifStack
  · simp [report]
  · cases execOp P ctx allow byte stack
    · simp [report, Except.map]
    · simp [report, Except.map]

/-- A push of either form, behind its length. -/
theorem traceFrom_push {data : Bytes} (h : 1 ≤ data.length ∧ data.length ≤ 0x4b) (pos : Nat)
    (k : Bytes) (stack : Stack) (ifStack : List Bool) :
    traceFrom P ctx allow pos (UInt8.ofNat data.length :: (data ++ k)) stack ifStack
      = if executing ifStack then do
          emit pos
          let stack ← silent (pushChecked data stack)
          traceFrom P ctx allow (pos + 1 + data.length) k stack ifStack
        else traceFrom P ctx allow (pos + 1 + data.length) k stack ifStack := by
  rw [traceFrom_cons, step.eq_def, decodeOp_push h]
  simp only [readPush_append (by omega : data.length ≤ 0xff)]
  cases executing ifStack
  · simp [report, Opcode.endsBranch, Except.map]
  · cases pushChecked data stack
    · simp [report, Opcode.endsBranch, Except.map]
    · simp [report, Opcode.endsBranch, Except.map]

theorem traceFrom_pushData1 {data : Bytes} (h : data.length ≤ 0xff) (pos : Nat)
    (k : Bytes) (stack : Stack) (ifStack : List Bool) :
    traceFrom P ctx allow pos (0x4c :: UInt8.ofNat data.length :: (data ++ k)) stack ifStack
      = if executing ifStack then do
          emit pos
          let stack ← silent (pushChecked data stack)
          traceFrom P ctx allow (pos + 2 + data.length) k stack ifStack
        else traceFrom P ctx allow (pos + 2 + data.length) k stack ifStack := by
  have hn : (UInt8.ofNat data.length).toNat = data.length :=
    toNat_byte (Nat.lt_succ_of_le h)
  have hdec : decodeOp 0x4c = .pushData1 := rfl
  have hpos : pos + 1 + (data.length + k.length + 1 - k.length) = pos + 2 + data.length := by
    omega
  rw [traceFrom_cons, step.eq_def, hdec]
  simp only [hn, readPush_append h]
  cases executing ifStack
  · simp [report, Opcode.endsBranch, Except.map, hpos]
  · cases pushChecked data stack
    · simp [report, Opcode.endsBranch, Except.map]
    · simp [report, Opcode.endsBranch, Except.map, hpos]

theorem traceFrom_if (pos : Nat) (k : Bytes) (stack : Stack) (ifStack : List Bool) :
    traceFrom P ctx allow pos (0x63 :: k) stack ifStack
      = if executing ifStack then do
          emit pos
          let (top, stack) ← silent (pop stack)
          traceFrom P ctx allow (pos + 1) k stack (isTruthy top :: ifStack)
        else traceFrom P ctx allow (pos + 1) k stack (false :: ifStack) := by
  have hdec : decodeOp 0x63 = .opIf := rfl
  rw [traceFrom_cons, step.eq_def, hdec]
  cases executing ifStack
  · simp [report, Opcode.endsBranch]
  · cases stack
    · simp [report, Opcode.endsBranch, pop, Except.map]
    · simp [report, Opcode.endsBranch, pop, Except.map]

theorem traceFrom_else (pos : Nat) (k : Bytes) (stack : Stack) (last : Bool)
    (outer : List Bool) :
    traceFrom P ctx allow pos (0x67 :: k) stack (last :: outer)
      = traceFrom P ctx allow (pos + 1) k stack ((!last) :: outer) := by
  have hdec : decodeOp 0x67 = .opElse := rfl
  rw [traceFrom_cons, step.eq_def, hdec]
  simp [report, Opcode.endsBranch]

theorem traceFrom_endif (pos : Nat) (k : Bytes) (stack : Stack) (last : Bool)
    (outer : List Bool) :
    traceFrom P ctx allow pos (0x68 :: k) stack (last :: outer)
      = traceFrom P ctx allow (pos + 1) k stack outer := by
  have hdec : decodeOp 0x68 = .opEndif := rfl
  rw [traceFrom_cons, step.eq_def, hdec]
  simp [report, Opcode.endsBranch]

/-! ## Branches that are not taken -/

/-- A branch that is not taken is passed over when it has no `OP_ELSE` parts. -/
theorem traceFrom_skip {c : Code} (h : c.NoElse) (pos : Nat) (k : Bytes) (stack : Stack)
    (outer : List Bool) :
    traceFrom P ctx allow pos (c.render ++ k) stack (false :: outer)
      = traceFrom P ctx allow (pos + c.size) k stack (false :: outer) := by
  have hskip : ∀ ifs, executing (false :: ifs) = false := fun _ => rfl
  induction c generalizing pos k outer with
  | done => rfl
  | push data hd rest ih =>
    rw [render, List.cons_append, List.append_assoc, traceFrom_push hd, hskip]
    simp only [Bool.false_eq_true, if_false, ih h, size_push]
    congr 1
    omega
  | pushData1 data hd rest ih =>
    rw [render, List.cons_append, List.cons_append, List.append_assoc, traceFrom_pushData1 hd,
      hskip]
    simp only [Bool.false_eq_true, if_false, ih h, size_pushData1]
    congr 1
    omega
  | op byte hb rest ih =>
    rw [render, List.cons_append, traceFrom_plain hb, hskip]
    simp only [Bool.false_eq_true, if_false, ih h, size_op]
    congr 1
    omega
  | ifThen thn rest iht ihr =>
    rw [render, List.cons_append, List.append_assoc, traceFrom_if, hskip]
    simp only [Bool.false_eq_true, if_false, iht h.1, List.cons_append, traceFrom_endif, ihr h.2,
      size_ifThen]
    congr 1
    omega
  | ifElse thn els rest iht ihe ihr =>
    obtain ⟨hthn, rfl, hrest⟩ := h
    -- The part between `OP_ELSE` and `OP_ENDIF` would execute, and is empty.
    rw [render, List.cons_append, List.append_assoc, traceFrom_if, hskip]
    simp only [Bool.false_eq_true, if_false, iht hthn, render, List.nil_append, List.cons_append,
      traceFrom_else, traceFrom_endif, ihr hrest, size_ifElse, size_done]
    congr 1
    omega

/-- The first element of a branch that is taken executes. -/
theorem traceFrom_first {c : Code} (h : c ≠ done) (pos : Nat) (k : Bytes) (stack : Stack)
    {ifStack : List Bool} (hexec : executing ifStack = true) :
    ∃ t, (traceFrom P ctx allow pos (c.render ++ k) stack ifStack).trace = pos :: t := by
  cases c with
  | done => exact absurd rfl h
  | push data hd rest =>
    rw [render, List.cons_append, List.append_assoc, traceFrom_push hd, if_pos hexec]
    exact ⟨_, rfl⟩
  | pushData1 data hd rest =>
    rw [render, List.cons_append, List.cons_append, List.append_assoc, traceFrom_pushData1 hd,
      if_pos hexec]
    exact ⟨_, rfl⟩
  | op byte hb rest =>
    rw [render, List.cons_append, traceFrom_plain hb, if_pos hexec]
    exact ⟨_, rfl⟩
  | ifThen thn rest =>
    rw [render, List.cons_append, traceFrom_if, if_pos hexec]
    exact ⟨_, rfl⟩
  | ifElse thn els rest =>
    rw [render, List.cons_append, traceFrom_if, if_pos hexec]
    exact ⟨_, rfl⟩

/-- With an `OP_ELSE` part, something in a branch that is not taken executes. -/
theorem traceFrom_skip_else {c : Code} (h : ¬ c.NoElse) (pos : Nat) (k : Bytes) (stack : Stack)
    (outer : List Bool) :
    ∃ p t, (traceFrom P ctx allow pos (c.render ++ k) stack (false :: outer)).trace = p :: t ∧
      p < pos + c.size := by
  have hskip : ∀ ifs, executing (false :: ifs) = false := fun _ => rfl
  induction c generalizing pos k outer with
  | done => exact absurd trivial h
  | push data hd rest ih =>
    obtain ⟨p, t, htrace, hp⟩ := ih h (pos + 1 + data.length) k outer
    refine ⟨p, t, ?_, by rw [size_push]; omega⟩
    rwa [render, List.cons_append, List.append_assoc, traceFrom_push hd, hskip]
  | pushData1 data hd rest ih =>
    obtain ⟨p, t, htrace, hp⟩ := ih h (pos + 2 + data.length) k outer
    refine ⟨p, t, ?_, by rw [size_pushData1]; omega⟩
    rwa [render, List.cons_append, List.cons_append, List.append_assoc, traceFrom_pushData1 hd,
      hskip]
  | op byte hb rest ih =>
    obtain ⟨p, t, htrace, hp⟩ := ih h (pos + 1) k outer
    refine ⟨p, t, ?_, by rw [size_op]; omega⟩
    rwa [render, List.cons_append, traceFrom_plain hb, hskip]
  | ifThen thn rest iht ihr =>
    rw [render, List.cons_append, List.append_assoc, traceFrom_if, hskip, size_ifThen]
    by_cases hthn : thn.NoElse
    · have hrest : ¬ rest.NoElse := fun hrest => h ⟨hthn, hrest⟩
      obtain ⟨p, t, htrace, hp⟩ := ihr hrest (pos + 1 + thn.size + 1) k outer
      refine ⟨p, t, ?_, by omega⟩
      simpa [traceFrom_skip hthn, traceFrom_endif] using htrace
    · obtain ⟨p, t, htrace, hp⟩ := iht hthn (pos + 1) (0x68 :: rest.render ++ k) (false :: outer)
      exact ⟨p, t, htrace, by omega⟩
  | ifElse thn els rest iht ihe ihr =>
    rw [render, List.cons_append, List.append_assoc, traceFrom_if, hskip, size_ifElse]
    by_cases hthn : thn.NoElse
    · by_cases hels : els = done
      · subst hels
        have hrest : ¬ rest.NoElse := fun hrest => h ⟨hthn, rfl, hrest⟩
        obtain ⟨p, t, htrace, hp⟩ := ihr hrest (pos + 1 + thn.size + 1 + 1) k outer
        refine ⟨p, t, ?_, by omega⟩
        simpa [traceFrom_skip hthn, traceFrom_else, traceFrom_endif, render] using htrace
      · -- The part behind `OP_ELSE` executes.
        have htaken : executing (true :: false :: outer) = true := rfl
        obtain ⟨t, htrace⟩ : ∃ t, (traceFrom P ctx allow (pos + 1 + thn.size + 1)
            (els.render ++ 0x68 :: (rest.render ++ k)) stack (true :: false :: outer)).trace
            = (pos + 1 + thn.size + 1) :: t := traceFrom_first hels _ _ _ htaken
        refine ⟨pos + 1 + thn.size + 1, t, ?_, by omega⟩
        simpa [traceFrom_skip hthn, traceFrom_else] using htrace
    · obtain ⟨p, t, htrace, hp⟩ := iht hthn (pos + 1)
        (0x67 :: (els.render ++ 0x68 :: rest.render) ++ k) (false :: outer)
      exact ⟨p, t, htrace, by omega⟩

/-! ## Branches that are taken -/

theorem exec_ifThen_cons (thn rest : Code) (pos : Nat) (top : Bytes) (stack : Stack) :
    (ifThen thn rest).exec P ctx allow pos (top :: stack) = emit pos >>= fun _ =>
      (if isTruthy top then thn.exec P ctx allow (pos + 1) stack else pure stack) >>=
        rest.exec P ctx allow (pos + 1 + thn.size + 1) := by
  rw [exec]
  cases htop : isTruthy top <;> simp [pop, htop]

theorem exec_ifElse_cons (thn els rest : Code) (pos : Nat) (top : Bytes) (stack : Stack) :
    (ifElse thn els rest).exec P ctx allow pos (top :: stack) = emit pos >>= fun _ =>
      (if isTruthy top then thn.exec P ctx allow (pos + 1) stack
        else els.exec P ctx allow (pos + 1 + thn.size + 1) stack) >>=
        rest.exec P ctx allow (pos + 1 + thn.size + 1 + els.size + 1) := by
  rw [exec]
  cases htop : isTruthy top <;> simp [pop, htop]

/-- The interpreter reports positions from its start on. -/
theorem le_of_mem_exec {c : Code} {pos p : Nat} {stack : Stack}
    (h : p ∈ (c.exec P ctx allow pos stack).trace) : pos ≤ p := by
  induction c generalizing pos stack with
  | done => cases h
  | push data hd rest ih =>
    rcases List.mem_cons.mp h with rfl | h
    · exact Nat.le_refl _
    rcases mem_trace_bind h with h | ⟨a, _, h⟩
    · cases h
    · exact Nat.le_trans (by omega) (ih h)
  | pushData1 data hd rest ih =>
    rcases List.mem_cons.mp h with rfl | h
    · exact Nat.le_refl _
    rcases mem_trace_bind h with h | ⟨a, _, h⟩
    · cases h
    · exact Nat.le_trans (by omega) (ih h)
  | op byte hb rest ih =>
    rcases List.mem_cons.mp h with rfl | h
    · exact Nat.le_refl _
    rcases mem_trace_bind h with h | ⟨a, _, h⟩
    · cases h
    · exact Nat.le_trans (by omega) (ih h)
  -- `OP_IF` is reported before it takes its operand from the stack.
  | ifThen thn rest iht ihr =>
    rcases List.mem_cons.mp h with rfl | hmem
    · exact Nat.le_refl _
    cases stack with
    | nil => cases hmem
    | cons top stack =>
      rw [exec_ifThen_cons] at h
      rcases List.mem_cons.mp h with rfl | h
      · exact Nat.le_refl _
      rcases mem_trace_bind h with h | ⟨stack', _, h⟩
      · split_ifs at h
        · exact Nat.le_trans (by omega) (iht h)
        · cases h
      · exact Nat.le_trans (by omega) (ihr h)
  | ifElse thn els rest iht ihe ihr =>
    rcases List.mem_cons.mp h with rfl | hmem
    · exact Nat.le_refl _
    cases stack with
    | nil => cases hmem
    | cons top stack =>
      rw [exec_ifElse_cons] at h
      rcases List.mem_cons.mp h with rfl | h
      · exact Nat.le_refl _
      rcases mem_trace_bind h with h | ⟨stack', _, h⟩
      · split_ifs at h
        · exact Nat.le_trans (by omega) (iht h)
        · exact Nat.le_trans (by omega) (ihe h)
      · exact Nat.le_trans (by omega) (ihr h)

/-- The result does not depend on where a script starts. -/
theorem exec_result (c : Code) (pos pos' : Nat) (stack : Stack) :
    (c.exec P ctx allow pos stack).result = (c.exec P ctx allow pos' stack).result := by
  induction c generalizing pos pos' stack with
  | done => rfl
  | push data hd rest ih =>
    simp only [exec, result_bind]
    cases pushChecked data stack with
    | error e => rfl
    | ok stack' => exact ih _ _ stack'
  | pushData1 data hd rest ih =>
    simp only [exec, result_bind]
    cases pushChecked data stack with
    | error e => rfl
    | ok stack' => exact ih _ _ stack'
  | op byte hb rest ih =>
    simp only [exec, result_bind]
    cases execOp P ctx allow byte stack with
    | error e => rfl
    | ok stack' => exact ih _ _ stack'
  | ifThen thn rest iht ihr =>
    cases stack with
    | nil => rfl
    | cons top stack =>
      rw [exec_ifThen_cons, exec_ifThen_cons, result_emit_bind, result_emit_bind, result_bind,
        result_bind]
      have hbranch : (if isTruthy top then thn.exec P ctx allow (pos + 1) stack
          else pure stack).result = (if isTruthy top then thn.exec P ctx allow (pos' + 1) stack
          else pure stack).result := by
        split_ifs
        · exact iht _ _ stack
        · rfl
      rw [hbranch]
      congr 1
      funext stack'
      exact ihr _ _ stack'
  | ifElse thn els rest iht ihe ihr =>
    cases stack with
    | nil => rfl
    | cons top stack =>
      rw [exec_ifElse_cons, exec_ifElse_cons, result_emit_bind, result_emit_bind, result_bind,
        result_bind]
      have hbranch : (if isTruthy top then thn.exec P ctx allow (pos + 1) stack
          else els.exec P ctx allow (pos + 1 + thn.size + 1) stack).result
          = (if isTruthy top then thn.exec P ctx allow (pos' + 1) stack
            else els.exec P ctx allow (pos' + 1 + thn.size + 1) stack).result := by
        split_ifs
        · exact iht _ _ stack
        · exact ihe _ _ stack
      rw [hbranch]
      congr 1
      funext stack'
      exact ihr _ _ stack'

/-- As long as the branches that are not taken have no `OP_ELSE` parts, the loop goes
    the way of the structured interpreter. -/
theorem traceFrom_exec {c : Code} {stack : Stack} (h : c.SkipsNoElse P ctx allow stack)
    (pos : Nat) (k : Bytes) {ifStack : List Bool} (hexec : executing ifStack = true) :
    traceFrom P ctx allow pos (c.render ++ k) stack ifStack
      = c.exec P ctx allow pos stack >>= fun stack' =>
          traceFrom P ctx allow (pos + c.size) k stack' ifStack := by
  -- Induction on the code; `k` is what follows it, `ifStack` what it stands in.
  induction c generalizing pos k stack ifStack with
  | done => rfl
  | push data hd rest ih =>
    rw [render, List.cons_append, List.append_assoc, traceFrom_push hd, if_pos hexec]
    have hpos : pos + (push data hd rest).size = pos + 1 + data.length + rest.size := by
      rw [size_push]
      omega
    rw [exec, hpos]
    cases hpush : pushChecked data stack with
    | error e => rfl
    | ok stack' => simp [ih (h stack' hpush) _ k hexec]
  | pushData1 data hd rest ih =>
    rw [render, List.cons_append, List.cons_append, List.append_assoc, traceFrom_pushData1 hd,
      if_pos hexec]
    have hpos : pos + (pushData1 data hd rest).size = pos + 2 + data.length + rest.size := by
      rw [size_pushData1]
      omega
    rw [exec, hpos]
    cases hpush : pushChecked data stack with
    | error e => rfl
    | ok stack' => simp [ih (h stack' hpush) _ k hexec]
  | op byte hb rest ih =>
    rw [render, List.cons_append, traceFrom_plain hb, if_pos hexec]
    have hpos : pos + (op byte hb rest).size = pos + 1 + rest.size := by
      rw [size_op]
      omega
    rw [exec, hpos]
    cases hop : execOp P ctx allow byte stack with
    | error e => rfl
    | ok stack' => simp [ih (h stack' hop) _ k hexec]
  | ifThen thn rest iht ihr =>
    rw [render, List.cons_append, List.append_assoc, traceFrom_if, if_pos hexec]
    cases stack with
    | nil => rfl
    | cons top stack =>
      have hpos : pos + (ifThen thn rest).size = pos + 1 + thn.size + 1 + rest.size := by
        rw [size_ifThen]
        omega
      have hcond := h top stack rfl
      rw [exec_ifThen_cons, hpos]
      -- A branch that is not taken reports nothing before `OP_ENDIF`.
      cases htop : isTruthy top
      · rw [htop, if_neg Bool.false_ne_true] at hcond
        simp [pop, htop, traceFrom_skip hcond.1, traceFrom_endif, ihr hcond.2 _ k hexec]
      · rw [htop, if_pos rfl] at hcond
        have htaken : executing (true :: ifStack) = true := rfl
        simp only [pop, htop, silent_ok_bind, if_true, List.cons_append, iht hcond.1 _ _ htaken,
          bind_assoc]
        congr 1
        funext _
        apply bind_congr_of_ok
        intro stack' hthn
        rw [traceFrom_endif, ihr (hcond.2 stack' ((exec_result _ _ _ _).trans hthn)) _ k hexec]
  | ifElse thn els rest iht ihe ihr =>
    rw [render, List.cons_append, List.append_assoc, traceFrom_if, if_pos hexec]
    cases stack with
    | nil => rfl
    | cons top stack =>
      have hpos : pos + (ifElse thn els rest).size
          = pos + 1 + thn.size + 1 + els.size + 1 + rest.size := by
        rw [size_ifElse]
        omega
      have hcond := h top stack rfl
      have htaken : executing (true :: ifStack) = true := rfl
      rw [exec_ifElse_cons, hpos]
      cases htop : isTruthy top
      · rw [htop, if_neg Bool.false_ne_true] at hcond
        simp only [pop, htop, silent_ok_bind, Bool.false_eq_true, if_false, List.cons_append,
          List.append_assoc, traceFrom_skip hcond.1, traceFrom_else, Bool.not_false,
          ihe hcond.2.1 _ _ htaken, bind_assoc]
        congr 1
        funext _
        apply bind_congr_of_ok
        intro stack' hels
        rw [traceFrom_endif, ihr (hcond.2.2 stack' ((exec_result _ _ _ _).trans hels)) _ k hexec]
      · rw [htop, if_pos rfl] at hcond
        simp only [pop, htop, silent_ok_bind, if_true, List.cons_append, List.append_assoc,
          iht hcond.1 _ _ htaken, bind_assoc]
        congr 1
        funext _
        apply bind_congr_of_ok
        intro stack' hthn
        -- Behind the branch that was taken, the other one is skipped.
        have hafter := hcond.2 stack' ((exec_result _ _ _ _).trans hthn)
        rw [traceFrom_else, Bool.not_true, traceFrom_skip hafter.1, traceFrom_endif,
          ihr hafter.2 _ k hexec]

/-- What executes there lies before everything that is reported later on. -/
theorem traceFrom_skip_else_ne {c : Code} (h : ¬ c.NoElse) {pos : Nat} {k : Bytes}
    {stack : Stack} {outer : List Bool} {y : Traced ScriptError Nat Stack}
    (hy : ∀ q ∈ y.trace, pos + c.size ≤ q) :
    (traceFrom P ctx allow pos (c.render ++ k) stack (false :: outer)).trace ≠ y.trace := by
  intro heq
  obtain ⟨p, t, htrace, hp⟩ := traceFrom_skip_else h pos k stack outer
  have hmem : p ∈ y.trace := by
    rw [← heq, htrace]
    exact List.mem_cons_self
  exact absurd (hy p hmem) (Nat.not_le.mpr hp)

/-- What follows the start of a script reports positions from there on. -/
theorem le_of_mem_exec_bind {c : Code} {pos : Nat} {g : Stack → Traced ScriptError Nat Stack}
    (hg : ∀ stack p, p ∈ (g stack).trace → pos + c.size ≤ p) (stack : Stack) (p : Nat)
    (h : p ∈ (c.exec P ctx allow pos stack >>= g).trace) : pos ≤ p := by
  rcases mem_trace_bind h with h | ⟨stack', _, h⟩
  · exact le_of_mem_exec h
  · exact (Nat.le_add_right _ _).trans (hg stack' p h)

/-- A branch that is taken goes another way than the structured interpreter if it does
    so itself, or what follows it does. -/
theorem traceFrom_branch_ne {c : Code} {stack : Stack} {pos : Nat} {k : Bytes}
    {ifStack : List Bool} (hexec : executing ifStack = true)
    {g : Stack → Traced ScriptError Nat Stack}
    (hin : ¬ c.SkipsNoElse P ctx allow stack →
      (traceFrom P ctx allow pos (c.render ++ k) stack ifStack).trace
        ≠ (c.exec P ctx allow pos stack >>= g).trace)
    (hout : c.SkipsNoElse P ctx allow stack →
      ∃ stack', (c.exec P ctx allow 0 stack).result = .ok stack' ∧
        (traceFrom P ctx allow (pos + c.size) k stack' ifStack).trace ≠ (g stack').trace) :
    (traceFrom P ctx allow pos (c.render ++ k) stack ifStack).trace
      ≠ (c.exec P ctx allow pos stack >>= g).trace := by
  by_cases hc : c.SkipsNoElse P ctx allow stack
  · obtain ⟨stack', hres, hne⟩ := hout hc
    rw [traceFrom_exec hc _ _ hexec]
    exact trace_bind_ne ((exec_result _ _ _ _).trans hres) hne
  · exact hin hc

/-- Otherwise it executes something the structured interpreter does not; `g` stands
    for what follows the script. -/
theorem traceFrom_ne_exec {c : Code} {stack : Stack} (h : ¬ c.SkipsNoElse P ctx allow stack)
    (pos : Nat) (k : Bytes) {ifStack : List Bool} (hexec : executing ifStack = true)
    {g : Stack → Traced ScriptError Nat Stack}
    (hg : ∀ stack' p, p ∈ (g stack').trace → pos + c.size ≤ p) :
    (traceFrom P ctx allow pos (c.render ++ k) stack ifStack).trace
      ≠ (c.exec P ctx allow pos stack >>= g).trace := by
  induction c generalizing pos k stack ifStack g with
  | done => exact absurd trivial h
  | push data hd rest ih =>
    rw [render, List.cons_append, List.append_assoc, traceFrom_push hd, if_pos hexec, exec]
    simp only [SkipsNoElse, not_forall] at h
    obtain ⟨stack', hpush, hrest⟩ := h
    simp only [hpush, silent_ok_bind, bind_assoc, trace_emit_bind, ne_eq, List.cons.injEq,
      true_and]
    refine ih hrest _ k hexec fun s p hp => ?_
    have hle := hg s p hp
    rw [size_push] at hle
    omega
  | pushData1 data hd rest ih =>
    rw [render, List.cons_append, List.cons_append, List.append_assoc, traceFrom_pushData1 hd,
      if_pos hexec, exec]
    simp only [SkipsNoElse, not_forall] at h
    obtain ⟨stack', hpush, hrest⟩ := h
    simp only [hpush, silent_ok_bind, bind_assoc, trace_emit_bind, ne_eq, List.cons.injEq,
      true_and]
    refine ih hrest _ k hexec fun s p hp => ?_
    have hle := hg s p hp
    rw [size_pushData1] at hle
    omega
  | op byte hb rest ih =>
    rw [render, List.cons_append, traceFrom_plain hb, if_pos hexec, exec]
    simp only [SkipsNoElse, not_forall] at h
    obtain ⟨stack', hop, hrest⟩ := h
    simp only [hop, silent_ok_bind, bind_assoc, trace_emit_bind, ne_eq, List.cons.injEq,
      true_and]
    refine ih hrest _ k hexec fun s p hp => ?_
    have hle := hg s p hp
    rw [size_op] at hle
    omega
  | ifThen thn rest iht ihr =>
    cases stack with
    | nil => exact absurd (fun top stack' hpop => by cases hpop) h
    | cons top stack =>
      have hcond : ¬ _ := fun hcond => h (by
        rintro _ _ ⟨⟩
        exact hcond)
      have hrest : ∀ s p, p ∈ (g s).trace → pos + 1 + thn.size + 1 + rest.size ≤ p := by
        intro s p hp
        have hle := hg s p hp
        rw [size_ifThen] at hle
        omega
      rw [render, List.cons_append, List.append_assoc, traceFrom_if, if_pos hexec,
        exec_ifThen_cons]
      simp only [pop, silent_ok_bind, bind_assoc, trace_emit_bind, ne_eq, List.cons.injEq,
        true_and, List.cons_append]
      cases htop : isTruthy top
      · rw [htop, if_neg Bool.false_ne_true, not_and_or] at hcond
        simp only [Bool.false_eq_true, if_false, pure_bind]
        by_cases hthn : thn.NoElse
        · rw [traceFrom_skip hthn, traceFrom_endif]
          exact ihr (hcond.resolve_left (not_not_intro hthn)) _ k hexec hrest
        · exact traceFrom_skip_else_ne hthn fun q hq =>
            (Nat.le_succ _).trans (le_of_mem_exec_bind hrest stack q hq)
      · rw [htop, if_pos rfl] at hcond
        have htaken : executing (true :: ifStack) = true := rfl
        simp only [if_true]
        apply traceFrom_branch_ne htaken
        · intro hthn
          exact iht hthn _ _ htaken fun s p hp =>
            (Nat.le_succ _).trans (le_of_mem_exec_bind hrest s p hp)
        · intro hthn
          simp only [hthn, true_and, not_forall] at hcond
          obtain ⟨stack', hres, hunclean⟩ := hcond
          refine ⟨stack', hres, ?_⟩
          rw [traceFrom_endif]
          exact ihr hunclean _ k hexec hrest
  | ifElse thn els rest iht ihe ihr =>
    cases stack with
    | nil => exact absurd (fun top stack' hpop => by cases hpop) h
    | cons top stack =>
      have hcond : ¬ _ := fun hcond => h (by
        rintro _ _ ⟨⟩
        exact hcond)
      have htaken : executing (true :: ifStack) = true := rfl
      have hrest : ∀ s p, p ∈ (g s).trace →
          pos + 1 + thn.size + 1 + els.size + 1 + rest.size ≤ p := by
        intro s p hp
        have hle := hg s p hp
        rw [size_ifElse] at hle
        omega
      have hafter : ∀ s p, p ∈ (rest.exec P ctx allow
          (pos + 1 + thn.size + 1 + els.size + 1) s >>= g).trace →
            pos + 1 + thn.size + 1 + els.size + 1 ≤ p := le_of_mem_exec_bind hrest
      rw [render, List.cons_append, List.append_assoc, traceFrom_if, if_pos hexec,
        exec_ifElse_cons]
      simp only [pop, silent_ok_bind, bind_assoc, trace_emit_bind, ne_eq, List.cons.injEq,
        true_and, List.cons_append, List.append_assoc]
      cases htop : isTruthy top
      · rw [htop, if_neg Bool.false_ne_true] at hcond
        simp only [Bool.false_eq_true, if_false]
        by_cases hthn : thn.NoElse
        · rw [traceFrom_skip hthn, traceFrom_else, Bool.not_false]
          apply traceFrom_branch_ne htaken
          · intro hels
            exact ihe hels _ _ htaken fun s p hp => (Nat.le_succ _).trans (hafter s p hp)
          · intro hels
            simp only [hthn, hels, true_and, not_forall] at hcond
            obtain ⟨stack', hres, hunclean⟩ := hcond
            refine ⟨stack', hres, ?_⟩
            rw [traceFrom_endif]
            exact ihr hunclean _ k hexec hrest
        · -- The part behind an `OP_ELSE` of a branch that is not taken executes.
          apply traceFrom_skip_else_ne hthn
          intro q hq
          refine (Nat.le_succ _).trans (le_of_mem_exec_bind ?_ stack q hq)
          exact fun s p hp => (Nat.le_succ _).trans (hafter s p hp)
      · rw [htop, if_pos rfl] at hcond
        simp only [if_true]
        apply traceFrom_branch_ne htaken
        · intro hthn
          refine iht hthn _ _ htaken fun s p hp => ?_
          have hle := hafter s p hp
          omega
        · intro hthn
          simp only [hthn, true_and, not_forall] at hcond
          obtain ⟨stack', hres, hunclean⟩ := hcond
          refine ⟨stack', hres, ?_⟩
          rw [traceFrom_else, Bool.not_true]
          by_cases hels : els.NoElse
          · rw [traceFrom_skip hels, traceFrom_endif]
            exact ihr (fun hclean => hunclean ⟨hels, hclean⟩) _ k hexec hrest
          · exact traceFrom_skip_else_ne hels fun q hq =>
              (Nat.le_succ _).trans (hafter stack' q hq)

/-! ## A condition on the script alone -/

/-- Conditionals with `OP_ELSE` parts do not stand within other conditionals. -/
def ElseOutside : Code → Prop
  | done => True
  | push _ _ rest => rest.ElseOutside
  | pushData1 _ _ rest => rest.ElseOutside
  | op _ _ rest => rest.ElseOutside
  | ifThen thn rest => thn.NoElse ∧ rest.ElseOutside
  | ifElse thn els rest => thn.NoElse ∧ els.NoElse ∧ rest.ElseOutside

theorem NoElse.elseOutside {c : Code} (h : c.NoElse) : c.ElseOutside := by
  induction c with
  | done => trivial
  | push data hd rest ih => exact ih h
  | pushData1 data hd rest ih => exact ih h
  | op byte hb rest ih => exact ih h
  | ifThen thn rest _ ihr => exact ⟨h.1, ihr h.2⟩
  | ifElse thn els rest _ _ ihr =>
    obtain ⟨hthn, rfl, hrest⟩ := h
    exact ⟨hthn, trivial, ihr hrest⟩

/-- Such a script goes wrong on no stack. -/
theorem ElseOutside.skipsNoElse {c : Code} (h : c.ElseOutside) (stack : Stack) :
    c.SkipsNoElse P ctx allow stack := by
  induction c generalizing stack with
  | done => trivial
  | push data hd rest ih => exact fun stack' _ => ih h stack'
  | pushData1 data hd rest ih => exact fun stack' _ => ih h stack'
  | op byte hb rest ih => exact fun stack' _ => ih h stack'
  | ifThen thn rest iht ihr =>
    intro top stack' _
    split_ifs
    · exact ⟨iht h.1.elseOutside stack', fun stack'' _ => ihr h.2 stack''⟩
    · exact ⟨h.1, ihr h.2 stack'⟩
  | ifElse thn els rest iht ihe ihr =>
    intro top stack' _
    split_ifs
    · exact ⟨iht h.1.elseOutside stack', fun stack'' _ => ⟨h.2.1, ihr h.2.2 stack''⟩⟩
    · exact ⟨h.1, ihe h.2.1.elseOutside stack', fun stack'' _ => ihr h.2.2 stack''⟩

end Code

/-! ## Whole scripts -/

/-- How a script ends behind its last complete element: not at all, or with a push
    whose data it does not have. -/
inductive Ending where
  | complete
  | push (n : UInt8) (hn : 0x01 ≤ n ∧ n ≤ 0x4b) (data : Bytes) (h : data.length < n.toNat)
  | pushData1
  | pushData1Of (n : UInt8) (data : Bytes) (h : data.length < n.toNat)

namespace Ending

def render : Ending → Bytes
  | complete => []
  | push n _ data _ => n :: data
  | pushData1 => [0x4c]
  | pushData1Of n data _ => 0x4c :: n :: data

def exec : Ending → Nat → Stack → Traced ScriptError Nat Stack
  | complete, _, stack => pure stack
  | _, pos, _ => do
    emit pos
    silent (.error .unexpectedEndOfScript)

end Ending

/-- A script whose conditionals nest properly. -/
structure Nested where
  code : Code
  ending : Ending

namespace Nested

def bytes (s : Nested) : Bytes := s.code.render ++ s.ending.render

/-- The structured interpreter. -/
def exec (P : Primitives) (ctx : ScriptContext) (allowChecksig : Bool) (s : Nested)
    (stack : Stack) : Traced ScriptError Nat Stack :=
  s.code.exec P ctx allowChecksig 0 stack >>= s.ending.exec s.code.size

theorem traceFrom_ending (e : Ending) (pos : Nat) (stack : Stack) :
    traceFrom P ctx allow pos e.render stack [] = e.exec pos stack := by
  cases e with
  | complete => rfl
  | push n hn data h =>
    have hdec : decodeOp n = .push n.toNat := if_pos hn
    have hread : readPush true n.toNat data stack = .error .unexpectedEndOfScript := if_pos h
    rw [Ending.render, traceFrom_cons, step.eq_def, hdec]
    simp [hread, report, executing, Opcode.endsBranch, Except.map, Ending.exec]
  | pushData1 =>
    have hdec : decodeOp 0x4c = .pushData1 := rfl
    rw [Ending.render, traceFrom_cons, step.eq_def, hdec]
    simp [report, executing, Opcode.endsBranch, Ending.exec]
  | pushData1Of n data h =>
    have hdec : decodeOp 0x4c = .pushData1 := rfl
    have hread : readPush true n.toNat data stack = .error .unexpectedEndOfScript := if_pos h
    rw [Ending.render, traceFrom_cons, step.eq_def, hdec]
    simp [hread, report, executing, Opcode.endsBranch, Except.map, Ending.exec]

theorem le_of_mem_ending {e : Ending} {pos p : Nat} {stack : Stack}
    (h : p ∈ (e.exec pos stack).trace) : pos ≤ p := by
  cases e with
  | complete => cases h
  | _ =>
    obtain rfl : p = pos := List.mem_singleton.mp h
    exact Nat.le_refl p

/-- A script read from left to right: `opened` says of each conditional that is open,
    innermost first, whether its `OP_ELSE` was read. The data of a push is skipped
    over, and a push whose data is missing ends the script. -/
inductive NestsFrom : List Bool → Bytes → Prop
  | complete : NestsFrom [] []
  | truncated {n : UInt8} {data : Bytes} (hn : 0x01 ≤ n ∧ n ≤ 0x4b)
      (h : data.length < n.toNat) : NestsFrom [] (n :: data)
  | withoutLength : NestsFrom [] [0x4c]
  | truncated1 {n : UInt8} {data : Bytes} (h : data.length < n.toNat) :
      NestsFrom [] (0x4c :: n :: data)
  | push {opened : List Bool} {data rest : Bytes}
      (hd : 1 ≤ data.length ∧ data.length ≤ 0x4b) (h : NestsFrom opened rest) :
      NestsFrom opened (UInt8.ofNat data.length :: (data ++ rest))
  | pushData1 {opened : List Bool} {data rest : Bytes} (hd : data.length ≤ 0xff)
      (h : NestsFrom opened rest) :
      NestsFrom opened (0x4c :: UInt8.ofNat data.length :: (data ++ rest))
  | plain {opened : List Bool} {byte : UInt8} {rest : Bytes}
      (hb : (decodeOp byte).isPlain = true) (h : NestsFrom opened rest) :
      NestsFrom opened (byte :: rest)
  | opIf {opened : List Bool} {rest : Bytes} (h : NestsFrom (false :: opened) rest) :
      NestsFrom opened (0x63 :: rest)
  | opElse {opened : List Bool} {rest : Bytes} (h : NestsFrom (true :: opened) rest) :
      NestsFrom (false :: opened) (0x67 :: rest)
  | opEndif {opened : List Bool} {b : Bool} {rest : Bytes} (h : NestsFrom opened rest) :
      NestsFrom (b :: opened) (0x68 :: rest)

theorem NestsFrom.render (c : Code) {opened : List Bool} {k : Bytes} (h : NestsFrom opened k) :
    NestsFrom opened (c.render ++ k) := by
  induction c generalizing opened k with
  | done => exact h
  | push data hd rest ih =>
    rw [Code.render, List.cons_append, List.append_assoc]
    exact .push hd (ih h)
  | pushData1 data hd rest ih =>
    rw [Code.render, List.cons_append, List.cons_append, List.append_assoc]
    exact .pushData1 hd (ih h)
  | op byte hb rest ih => exact .plain hb (ih h)
  | ifThen thn rest iht ihr =>
    rw [Code.render, List.cons_append, List.append_assoc]
    exact .opIf (iht (.opEndif (ihr h)))
  | ifElse thn els rest iht ihe ihr =>
    rw [Code.render, List.cons_append, List.append_assoc, List.cons_append, List.append_assoc]
    exact .opIf (iht (.opElse (ihe (.opEndif (ihr h)))))

/-- What is read up to the end of the innermost part that is open. -/
def Splits : List Bool → Bytes → Prop
  | [], script => ∃ (c : Code) (e : Ending), script = c.render ++ e.render
  | false :: outer, script => ∃ (c : Code) (rest : Bytes),
      script = c.render ++ 0x68 :: rest ∧ NestsFrom outer rest ∨
      script = c.render ++ 0x67 :: rest ∧ NestsFrom (true :: outer) rest
  | true :: outer, script => ∃ (c : Code) (rest : Bytes),
      script = c.render ++ 0x68 :: rest ∧ NestsFrom outer rest

/-- An element in front of what is read. -/
theorem Splits.cons {opened : List Bool} {rest : Bytes} (f : Code → Code) (bytes : Bytes)
    (hf : ∀ c k, (f c).render ++ k = bytes ++ (c.render ++ k)) (h : Splits opened rest) :
    Splits opened (bytes ++ rest) := by
  match opened, h with
  | [], ⟨c, e, hrest⟩ => exact ⟨f c, e, by rw [hrest, hf]⟩
  | false :: outer, ⟨c, k, .inl ⟨hrest, hk⟩⟩ => exact ⟨f c, k, .inl ⟨by rw [hrest, hf], hk⟩⟩
  | false :: outer, ⟨c, k, .inr ⟨hrest, hk⟩⟩ => exact ⟨f c, k, .inr ⟨by rw [hrest, hf], hk⟩⟩
  | true :: outer, ⟨c, k, hrest, hk⟩ => exact ⟨f c, k, by rw [hrest, hf], hk⟩

theorem NestsFrom.splits {n : Nat} {opened : List Bool} {script : Bytes}
    (hn : script.length ≤ n) (h : NestsFrom opened script) : Splits opened script := by
  induction n generalizing opened script with
  | zero =>
    obtain rfl : script = [] := List.length_eq_zero_iff.mp (Nat.le_zero.mp hn)
    cases h
    exact ⟨.done, .complete, rfl⟩
  | succ n ih =>
    cases h with
    | complete => exact ⟨.done, .complete, rfl⟩
    | truncated hb h => exact ⟨.done, .push _ hb _ h, rfl⟩
    | withoutLength => exact ⟨.done, .pushData1, rfl⟩
    | truncated1 h => exact ⟨.done, .pushData1Of _ _ h, rfl⟩
    | push hd h =>
      have hsplits := ih (by simp at hn; omega) h
      exact hsplits.cons (.push _ hd) (_ :: _) fun c k => by simp [Code.render]
    | pushData1 hd h =>
      have hsplits := ih (by simp at hn; omega) h
      exact hsplits.cons (.pushData1 _ hd) (_ :: _ :: _) fun c k => by simp [Code.render]
    | plain hb h =>
      have hsplits := ih (Nat.le_of_succ_le_succ hn) h
      exact hsplits.cons (.op _ hb) [_] fun c k => rfl
    -- The branch ends at an `OP_ENDIF`, or at an `OP_ELSE` with its own branch.
    | opIf h =>
      obtain ⟨thn, k, ⟨rfl, hk⟩ | ⟨rfl, hk⟩⟩ := ih (Nat.le_of_succ_le_succ hn) h
      · have hsplits := ih (by simp at hn; omega) hk
        have hrest := hsplits.cons (.ifThen thn) (0x63 :: (thn.render ++ [0x68])) fun c k => by
          simp [Code.render]
        simpa using hrest
      · obtain ⟨els, k', rfl, hk'⟩ := ih (by simp at hn; omega) hk
        have hsplits := ih (by simp at hn; omega) hk'
        have hrest := hsplits.cons (.ifElse thn els)
          (0x63 :: (thn.render ++ 0x67 :: (els.render ++ [0x68]))) fun c k => by
            simp [Code.render]
        simpa using hrest
    | opElse h => exact ⟨.done, _, .inr ⟨rfl, h⟩⟩
    | @opEndif outer b rest h =>
      cases b
      · exact ⟨.done, rest, .inl ⟨rfl, h⟩⟩
      · exact ⟨.done, rest, rfl, h⟩

/-- The syntax trees are exactly the scripts whose conditionals nest. -/
theorem nestsFrom_iff (script : Bytes) : NestsFrom [] script ↔ ∃ s : Nested, s.bytes = script := by
  constructor
  · intro h
    obtain ⟨c, e, hscript⟩ := h.splits (Nat.le_refl _)
    exact ⟨⟨c, e⟩, hscript.symm⟩
  · rintro ⟨⟨c, e⟩, rfl⟩
    refine NestsFrom.render c ?_
    cases e with
    | complete => exact .complete
    | push n hn data h => exact .truncated hn h
    | pushData1 => exact .withoutLength
    | pushData1Of n data h => exact .truncated1 h

/-- `run` gives the result of the structured interpreter and executes the same
    opcodes, exactly when no branch that is not taken has an `OP_ELSE` part with
    something in it: such a part executes, although the branch around it is not
    taken. -/
theorem run_eq_exec_iff (P : Primitives) (ctx : ScriptContext) (allowChecksig : Bool)
    (s : Nested) (stack : Stack) :
    (run P stack s.bytes ctx allowChecksig = (s.exec P ctx allowChecksig stack).result ∧
      executed P stack s.bytes ctx allowChecksig = (s.exec P ctx allowChecksig stack).trace) ↔
    s.code.SkipsNoElse P ctx allowChecksig stack := by
  have htop : executing [] = true := rfl
  rw [← traceFrom_result]
  constructor
  · rintro ⟨-, htrace⟩
    by_contra hunclean
    refine Code.traceFrom_ne_exec hunclean 0 s.ending.render htop ?_ htrace
    intro stack' p hp
    rw [Nat.zero_add]
    exact le_of_mem_ending hp
  · intro hclean
    have heq : traceFrom P ctx allowChecksig 0 s.bytes stack []
        = s.exec P ctx allowChecksig stack := by
      rw [bytes, Code.traceFrom_exec hclean 0 _ htop, Nat.zero_add]
      exact bind_congr_of_ok fun stack' _ => traceFrom_ending _ _ stack'
    exact ⟨congrArg Traced.result heq, congrArg Traced.trace heq⟩

/-- An `OP_RETURN` in an `OP_ELSE` part within a branch that is not taken:
    `0 IF 0 IF ELSE RETURN ENDIF ENDIF`. -/
def elseInUntaken : Nested where
  code := .op 0x00 rfl (.ifThen (.op 0x00 rfl (.ifElse .done (.op 0x6a rfl .done) .done)) .done)
  ending := .complete

/-- The `OP_RETURN` executes: the script fails, and would succeed. -/
theorem elseInUntaken_executes :
    ¬ ∀ (P : Primitives) (ctx : ScriptContext) (allowChecksig : Bool) (s : Nested) (stack : Stack),
      run P stack s.bytes ctx allowChecksig = (s.exec P ctx allowChecksig stack).result ∧
        executed P stack s.bytes ctx allowChecksig = (s.exec P ctx allowChecksig stack).trace := by
  intro h
  have hrun := (h Primitives.sample ⟨Hash256.zero, 0⟩ true elseInUntaken []).1
  have hfails : run Primitives.sample [] elseInUntaken.bytes ⟨Hash256.zero, 0⟩ true
      = .error .verifyFailed := by rfl
  have hsucceeds : (elseInUntaken.exec Primitives.sample ⟨Hash256.zero, 0⟩ true []).result
      = .ok [] := by rfl
  rw [hfails, hsucceeds] at hrun
  cases hrun

end Nested

end Tensorium.Script
