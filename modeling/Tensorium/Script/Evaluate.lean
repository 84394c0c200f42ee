import Tensorium.Script.Conditional

/-! # What a nested script makes of a stack

    A script whose conditionals nest properly and have no `OP_ELSE` parts within each
    other is run by its syntax tree. Here the positions are left aside: `eval` is the
    stack such a script leaves, computed element by element.
-/

namespace Tensorium.Script

open Traced

variable {P : Primitives} {ctx : ScriptContext} {allow : Bool}

namespace Code

/-- The stack a script leaves. -/
def eval (P : Primitives) (ctx : ScriptContext) (allowChecksig : Bool) (c : Code)
    (stack : Stack) : Except ScriptError Stack :=
  (c.exec P ctx allowChecksig 0 stack).result

@[simp] theorem eval_done (stack : Stack) : done.eval P ctx allow stack = .ok stack := rfl

theorem eval_push (data : Bytes) (h : 1 ≤ data.length ∧ data.length ≤ 0x4b) (rest : Code)
    (stack : Stack) :
    (push data h rest).eval P ctx allow stack
      = pushChecked data stack >>= fun stack => rest.eval P ctx allow stack := by
  simp only [eval, exec, result_bind]
  show (pushChecked data stack >>= _) = _
  exact congrArg _ (funext fun stack => exec_result rest _ _ stack)

theorem eval_pushData1 (data : Bytes) (h : data.length ≤ 0xff) (rest : Code) (stack : Stack) :
    (pushData1 data h rest).eval P ctx allow stack
      = pushChecked data stack >>= fun stack => rest.eval P ctx allow stack := by
  simp only [eval, exec, result_bind]
  show (pushChecked data stack >>= _) = _
  exact congrArg _ (funext fun stack => exec_result rest _ _ stack)

theorem eval_op (byte : UInt8) (h : (decodeOp byte).isPlain = true) (rest : Code)
    (stack : Stack) :
    (op byte h rest).eval P ctx allow stack
      = execOp P ctx allow byte stack >>= fun stack => rest.eval P ctx allow stack := by
  simp only [eval, exec, result_bind]
  show (execOp P ctx allow byte stack >>= _) = _
  exact congrArg _ (funext fun stack => exec_result rest _ _ stack)

/-- A conditional at the end of a script is the branch that is taken. -/
theorem eval_ifElse (thn els : Code) (top : Bytes) (stack : Stack) :
    (ifElse thn els done).eval P ctx allow (top :: stack)
      = if isTruthy top then thn.eval P ctx allow stack else els.eval P ctx allow stack := by
  have hend : ∀ x : Except ScriptError Stack, (x >>= fun stack' => .ok stack') = x := by
    intro x
    cases x with
    | error e => rfl
    | ok stack' => rfl
  rw [eval, exec_ifElse_cons, result_emit_bind, result_bind]
  show ((if isTruthy top then _ else _ : Traced ScriptError Nat Stack).result
    >>= fun stack' => .ok stack') = _
  rw [hend]
  split_ifs
  · exact exec_result thn _ _ stack
  · exact exec_result els _ _ stack

/-! ## Items -/

theorem isPlain_op0 : (decodeOp 0x00).isPlain = true := rfl

/-- Pushes an item that fits a direct push; the empty one is pushed by `OP_0`. -/
def item (data : Bytes) (h : data.length ≤ 0x4b) (rest : Code) : Code :=
  if hpos : 1 ≤ data.length then .push data ⟨hpos, h⟩ rest else .op 0x00 isPlain_op0 rest

theorem render_item (data : Bytes) (h : data.length ≤ 0x4b) (rest : Code) :
    (item data h rest).render = UInt8.ofNat data.length :: (data ++ rest.render) := by
  unfold item
  split_ifs with hpos
  · rfl
  · obtain rfl : data = [] := List.eq_nil_of_length_eq_zero (by omega)
    rfl

theorem eval_item (data : Bytes) (h : data.length ≤ 0x4b) (rest : Code) (stack : Stack) :
    (item data h rest).eval P ctx allow stack
      = pushChecked data stack >>= fun stack => rest.eval P ctx allow stack := by
  unfold item
  split_ifs with hpos
  · exact eval_push _ _ _ _
  · obtain rfl : data = [] := List.eq_nil_of_length_eq_zero (by omega)
    exact eval_op _ _ _ _

theorem elseOutside_item {data : Bytes} (h : data.length ≤ 0x4b) {rest : Code}
    (hrest : rest.ElseOutside) : (item data h rest).ElseOutside := by
  unfold item
  split_ifs with hpos
  · exact hrest
  · exact hrest

/-- Pushes a list of such items, the last one on top. -/
def items : (l : List Bytes) → (∀ data ∈ l, data.length ≤ 0x4b) → Code → Code
  | [], _, rest => rest
  | data :: l, h, rest =>
    item data (h data List.mem_cons_self)
      (items l (fun data' hmem => h data' (List.mem_cons_of_mem data hmem)) rest)

theorem render_items (l : List Bytes) (h : ∀ data ∈ l, data.length ≤ 0x4b) (rest : Code) :
    (items l h rest).render
      = l.flatMap (fun data => UInt8.ofNat data.length :: data) ++ rest.render := by
  induction l with
  | nil => rfl
  | cons data l ih => simp [items, render_item, ih]

/-- Pushes onto a stack with room. -/
theorem pushChecked_of_lt {data : Bytes} {stack : Stack} (h : stack.length < maxStackDepth) :
    pushChecked data stack = .ok (data :: stack) :=
  if_neg (not_le.mpr h)

theorem eval_items (l : List Bytes) (h : ∀ data ∈ l, data.length ≤ 0x4b) (rest : Code)
    {stack : Stack} (hroom : stack.length + l.length ≤ maxStackDepth) :
    (items l h rest).eval P ctx allow stack = rest.eval P ctx allow (l.reverse ++ stack) := by
  induction l generalizing stack with
  | nil => rfl
  | cons data l ih =>
    rw [List.length_cons] at hroom
    rw [items, eval_item, pushChecked_of_lt (by omega)]
    show (items l _ rest).eval P ctx allow (data :: stack) = _
    rw [ih _ (by rw [List.length_cons]; omega), List.reverse_cons, List.append_assoc]
    rfl

theorem elseOutside_items {l : List Bytes} (h : ∀ data ∈ l, data.length ≤ 0x4b) {rest : Code}
    (hrest : rest.ElseOutside) : (items l h rest).ElseOutside := by
  induction l with
  | nil => exact hrest
  | cons data l ih => exact elseOutside_item _ (ih _)

/-! ## Running the bytes -/

theorem run_render {c : Code} (h : c.ElseOutside) (stack : Stack) :
    run P stack c.render ctx allow = c.eval P ctx allow stack := by
  have hskip : c.SkipsNoElse P ctx allow stack := h.skipsNoElse stack
  have htop : executing [] = true := rfl
  rw [← traceFrom_result, ← List.append_nil c.render, traceFrom_exec hskip 0 [] htop, result_bind]
  unfold eval
  cases (c.exec P ctx allow 0 stack).result with
  | error e => rfl
  | ok stack' => rfl

/-- A scriptSig that pushes items first. -/
theorem run_items {l : List Bytes} (h : ∀ data ∈ l, data.length ≤ 0x4b) {rest : Code}
    (hrest : rest.ElseOutside) (hroom : l.length ≤ maxStackDepth) :
    run P [] (l.flatMap (fun data => UInt8.ofNat data.length :: data) ++ rest.render) ctx allow
      = rest.eval P ctx allow l.reverse := by
  have hempty : ([] : Stack).length + l.length ≤ maxStackDepth := by
    simpa using hroom
  rw [← render_items l h, run_render (elseOutside_items h hrest), eval_items l h rest hempty,
    List.append_nil]

end Code

/-! ## Locking scripts -/

/-- Whether the top of a stack is there and truthy. -/
def verdict (stack : Stack) : Bool := (stack.head?.map isTruthy).getD false

/-- A script that ends with a truthy item on top. -/
def Accepts (x : Except ScriptError Stack) : Prop := ∃ stack, x = .ok stack ∧ verdict stack = true

/-- A spend runs the scriptSig and, on the stack it leaves, the syntax tree of the
    locking script. -/
theorem execute_render {c : Code} (h : c.ElseOutside) (hp2sh : isP2sh c.render = false)
    (scriptSig : Bytes) :
    execute P scriptSig c.render ctx
      = if scriptSig.length + c.render.length > maxScriptSize then .error .scriptTooLarge
        else run P [] scriptSig ctx false >>= fun stack =>
          (c.eval P ctx true stack).map verdict := by
  unfold execute
  by_cases hsize : scriptSig.length + c.render.length > maxScriptSize
  · rw [if_pos hsize, if_pos hsize]
    rfl
  · rw [if_neg hsize, if_neg hsize]
    show (run P [] scriptSig ctx false >>= _) = _
    congr 1
    funext stack
    simp only [hp2sh, Bool.false_eq_true, if_false, Code.run_render h]
    cases c.eval P ctx true stack with
    | error e => rfl
    | ok stack' => rfl

theorem execute_render_iff {c : Code} (h : c.ElseOutside) (hp2sh : isP2sh c.render = false)
    {scriptSig : Bytes} (hsize : scriptSig.length + c.render.length ≤ maxScriptSize) :
    execute P scriptSig c.render ctx = .ok true
      ↔ ∃ stack, run P [] scriptSig ctx false = .ok stack ∧ Accepts (c.eval P ctx true stack) := by
  rw [execute_render h hp2sh, if_neg (not_lt.mpr hsize)]
  cases run P [] scriptSig ctx false with
  | error e =>
    constructor
    · intro heq
      cases heq
    · rintro ⟨_, heq, _⟩
      cases heq
  | ok stack =>
    show (c.eval P ctx true stack).map verdict = .ok true ↔ _
    cases hc : c.eval P ctx true stack with
    | error e => simp [Accepts, Except.map, hc]
    | ok stack' => simp [Accepts, Except.map, hc]

end Tensorium.Script
