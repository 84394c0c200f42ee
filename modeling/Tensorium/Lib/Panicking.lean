import Mathlib.Tactic

/-! # Operations that may panic

    Indexing, slicing, unwrapping and the like abort a program when their
    argument is out of range. Here they return a fault that is told apart from
    the errors the program returns itself, so that "never aborts" is a statement
    about the result. Each operation comes with the condition under which it
    succeeds, as a rewrite rule.
-/

namespace Panicking

/-- How a computation can fail: with an error of its own, by a panic, or by not
    coming to an end within its fuel. -/
inductive Fault (ε : Type*) where
  | error (e : ε)
  | panic
  | outOfFuel
  deriving DecidableEq

/-- The result of a computation that returns no errors of its own. -/
abbrev MayPanic (α : Type) : Type := Except (Fault Empty) α

variable {ε α β : Type}

/-! A `do` block whose steps are known runs by these rules. -/

theorem ok_bind (a : α) (f : α → Except ε β) : (Except.ok a >>= f) = f a := rfl

theorem error_bind (e : ε) (f : α → Except ε β) : (Except.error e >>= f) = .error e := rfl

theorem pure_eq_ok (a : α) : (pure a : Except ε α) = .ok a := rfl

theorem throw_eq_error (e : ε) : (throw e : Except ε α) = .error e := rfl

theorem map_ok (f : α → β) (a : α) : (Except.ok a : Except ε α).map f = .ok (f a) := rfl

theorem map_error (f : α → β) (e : ε) : (Except.error e : Except ε α).map f = .error e := rfl

/-- A result whose only faults are errors of its own. -/
def ofExcept (x : Except ε α) : Except (Fault ε) α := x.mapError .error

@[simp] theorem ofExcept_ok (a : α) : (ofExcept (.ok a) : Except (Fault ε) α) = .ok a := rfl

@[simp] theorem ofExcept_error (e : ε) :
    (ofExcept (.error e) : Except (Fault ε) α) = .error (.error e) := rfl

/-- A result of this form is neither a panic nor short of fuel. -/
theorem ofExcept_fault {x : Except ε α} {f : Fault ε} (h : ofExcept x = .error f) :
    ∃ e, x = .error e ∧ f = .error e := by
  cases x with
  | ok a => cases h
  | error e => exact ⟨e, rfl, (Except.error.inj h).symm⟩

/-! ## The operations -/

/-- `option.unwrap()`. -/
def unwrap : Option α → Except (Fault ε) α
  | some a => .ok a
  | none => .error .panic

/-- `xs[i]`. -/
def index (xs : List α) (i : Nat) : Except (Fault ε) α := unwrap xs[i]?

/-- `&xs[i..j]`. -/
def slice (xs : List α) (i j : Nat) : Except (Fault ε) (List α) :=
  if i ≤ j ∧ j ≤ xs.length then .ok ((xs.drop i).take (j - i)) else .error .panic

/-- `assert!(p)`. -/
def assert (p : Prop) [Decidable p] : Except (Fault ε) Unit :=
  if p then .ok () else .error .panic

/-- `a - b` of unsigned integers. -/
def sub (a b : Nat) : Except (Fault ε) Nat :=
  if b ≤ a then .ok (a - b) else .error .panic

/-- `xs.swap(i, j)`. -/
def swap (xs : Array α) (i j : Nat) : Except (Fault ε) (Array α) :=
  if h : i < xs.size ∧ j < xs.size then .ok (xs.swap i j h.1 h.2) else .error .panic

/-- `buf[..n].copy_from_slice(xs)`. -/
def copyToPrefix (buf : List α) (n : Nat) (xs : List α) : Except (Fault ε) (List α) :=
  if n ≤ buf.length ∧ xs.length = n then .ok (xs ++ buf.drop n) else .error .panic

@[simp] theorem unwrap_some (a : α) : (unwrap (some a) : Except (Fault ε) α) = .ok a := rfl

theorem index_drop {xs rest : List α} {i : Nat} {a : α} (h : xs.drop i = a :: rest) :
    (index xs i : Except (Fault ε) α) = .ok a := by
  have hget : xs[i]? = some a := by
    rw [← List.head?_drop, h]
    rfl
  unfold index
  rw [hget, unwrap_some]

theorem slice_of_le {xs : List α} {i j : Nat} (hij : i ≤ j) (hj : j ≤ xs.length) :
    (slice xs i j : Except (Fault ε) (List α)) = .ok ((xs.drop i).take (j - i)) :=
  if_pos ⟨hij, hj⟩

theorem sub_of_le {a b : Nat} (h : b ≤ a) : (sub a b : Except (Fault ε) Nat) = .ok (a - b) :=
  if_pos h

theorem swap_of_lt {xs : Array α} {i j : Nat} (hi : i < xs.size) (hj : j < xs.size) :
    (swap xs i j : Except (Fault ε) (Array α)) = .ok (xs.swap i j hi hj) :=
  dif_pos ⟨hi, hj⟩

theorem copyToPrefix_of_le {buf xs : List α} (h : xs.length ≤ buf.length) :
    (copyToPrefix buf xs.length xs : Except (Fault ε) (List α)) = .ok (xs ++ buf.drop xs.length) :=
  if_pos ⟨h, rfl⟩

end Panicking
