import Mathlib.Tactic

/-! # Computations that leave a trace

    A computation that may fail and that reports, in order, what it did. What it
    has reported when it fails stays reported. Two computations are equal when
    they report the same and end the same way.
-/

/-- What was reported, and how it ended. -/
@[ext] structure Traced (ε ω α : Type) where
  trace : List ω
  result : Except ε α

namespace Traced

variable {ε ω α β γ : Type}

/-- One after the other; nothing follows an error. -/
def andThen (x : Traced ε ω α) (f : α → Traced ε ω β) : Traced ε ω β :=
  match x.result with
  | .ok a => ⟨x.trace ++ (f a).trace, (f a).result⟩
  | .error e => ⟨x.trace, .error e⟩

instance : Monad (Traced ε ω) where
  pure a := ⟨[], .ok a⟩
  bind := andThen

/-- A report. -/
def emit (w : ω) : Traced ε ω Unit := ⟨[w], .ok ()⟩

/-- A computation that reports nothing. -/
def silent (x : Except ε α) : Traced ε ω α := ⟨[], x⟩

@[simp] theorem pure_bind (a : α) (f : α → Traced ε ω β) : (pure a >>= f) = f a := rfl

theorem bind_of_ok {x : Traced ε ω α} {a : α} (h : x.result = .ok a) (f : α → Traced ε ω β) :
    (x >>= f) = ⟨x.trace ++ (f a).trace, (f a).result⟩ := by
  rcases x with ⟨t, r⟩
  cases h
  rfl

theorem bind_of_error {x : Traced ε ω α} {e : ε} (h : x.result = .error e)
    (f : α → Traced ε ω β) : (x >>= f) = ⟨x.trace, .error e⟩ := by
  rcases x with ⟨t, r⟩
  cases h
  rfl

@[simp] theorem bind_assoc (x : Traced ε ω α) (f : α → Traced ε ω β) (g : β → Traced ε ω γ) :
    (x >>= f >>= g) = x >>= fun a => f a >>= g := by
  rcases hx : x.result with e | a
  · rw [bind_of_error hx, bind_of_error hx, bind_of_error rfl]
  · rw [bind_of_ok hx, bind_of_ok hx]
    rcases hf : (f a).result with e | b
    · rw [bind_of_error hf, bind_of_error rfl]
    · rw [bind_of_ok hf, bind_of_ok rfl, List.append_assoc]

@[simp] theorem trace_emit_bind (w : ω) (x : Traced ε ω α) :
    (emit w >>= fun _ => x).trace = w :: x.trace := rfl

@[simp] theorem result_emit_bind (w : ω) (x : Traced ε ω α) :
    (emit w >>= fun _ => x).result = x.result := rfl

@[simp] theorem silent_ok_bind (a : α) (f : α → Traced ε ω β) :
    (silent (.ok a) >>= f) = f a := rfl

@[simp] theorem silent_error_bind (e : ε) (f : α → Traced ε ω β) :
    (silent (.error e) >>= f) = silent (.error e) := rfl

/-- The end of a sequence is the sequence of the ends. -/
theorem result_bind (x : Traced ε ω α) (f : α → Traced ε ω β) :
    (x >>= f).result = x.result >>= fun a => (f a).result := by
  rcases x with ⟨t, _ | a⟩ <;> rfl

/-- What a sequence reports comes from its parts. -/
theorem mem_trace_bind {x : Traced ε ω α} {f : α → Traced ε ω β} {w : ω}
    (h : w ∈ (x >>= f).trace) : w ∈ x.trace ∨ ∃ a, x.result = .ok a ∧ w ∈ (f a).trace := by
  rcases hx : x.result with e | a
  · rw [bind_of_error hx] at h
    exact .inl h
  · rw [bind_of_ok hx] at h
    rcases List.mem_append.mp h with h | h
    · exact .inl h
    · exact .inr ⟨a, rfl, h⟩

/-- Only the value that is reached matters to what follows. -/
theorem bind_congr_of_ok {x : Traced ε ω α} {f g : α → Traced ε ω β}
    (h : ∀ a, x.result = .ok a → f a = g a) : (x >>= f) = (x >>= g) := by
  rcases hx : x.result with e | a
  · rw [bind_of_error hx, bind_of_error hx]
  · rw [bind_of_ok hx, bind_of_ok hx, h a hx]

/-- Continuations that differ at the value reached make a difference. -/
theorem trace_bind_ne {x : Traced ε ω α} {a : α} (h : x.result = .ok a)
    {f g : α → Traced ε ω β} (hne : (f a).trace ≠ (g a).trace) :
    (x >>= f).trace ≠ (x >>= g).trace := by
  rw [bind_of_ok h, bind_of_ok h]
  intro heq
  exact hne (List.append_cancel_left heq)

end Traced
