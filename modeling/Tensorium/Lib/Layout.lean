import Tensorium.Lib.Panicking

/-! # Reading at fixed places

    A program that recognises a format by its length reads bytes and slices at
    places it has computed. What such a read finds is said of the rest of the string:
    a read at `i` that ends at `j` splits what begins at `i` into what was read and
    what begins at `j`. Reads of a whole format then chain up to the string.
-/

namespace Panicking

variable {ε α β : Type} {xs ys rest : List α} {i j : Nat}

/-! ## Coming to a result -/

/-- A computation that gives a result. -/
def Returns (x : Except ε α) : Prop := ∃ a, x = .ok a

theorem returns_ok (a : α) : Returns (.ok a : Except ε α) := ⟨a, rfl⟩

theorem not_returns_error (e : ε) : ¬ Returns (.error e : Except ε α) := by
  rintro ⟨a, h⟩
  cases h

theorem Returns.bind {x : Except ε α} {f : α → Except ε β} (hx : Returns x)
    (hf : ∀ a, x = .ok a → Returns (f a)) : Returns (x >>= f) := by
  obtain ⟨a, rfl⟩ := hx
  exact hf a rfl

/-! ## Reads -/

/-- `xs[i] == p₀ && xs[i + 1] == p₁ && …`, up to the first that fails. -/
def matchesAt [DecidableEq α] (xs : List α) (i : Nat) : List α → Except (Fault ε) Bool
  | [] => .ok true
  | p :: ps => do
    let x ← index xs i
    if x = p then matchesAt xs (i + 1) ps else return false

/-- `let mut out = [0; n]; out.copy_from_slice(&xs[i..j])`. -/
def copyOut (n : Nat) (xs : List α) (i j : Nat) :
    Except (Fault ε) {out : List α // out.length = n} := do
  let part ← slice xs i j
  if h : part.length = n then return ⟨part, h⟩ else .error .panic

/-- What begins behind a part that was read. -/
theorem drop_of_append (h : xs.drop i = ys ++ rest) (hj : j = i + ys.length) :
    xs.drop j = rest := by
  rw [hj, ← List.drop_drop, h, List.drop_left]

theorem drop_of_cons {x : α} (h : xs.drop i = x :: rest) (hj : j = i + 1) : xs.drop j = rest := by
  rw [hj, ← List.drop_drop, h]
  rfl

theorem returns_index (h : i < xs.length) : Returns (index xs i : Except (Fault ε) α) :=
  ⟨xs[i], by rw [index, List.getElem?_eq_getElem h, unwrap_some]⟩

theorem drop_of_getElem? {x : α} (h : xs[i]? = some x) : xs.drop i = x :: xs.drop (i + 1) := by
  obtain ⟨hlt, hx⟩ := List.getElem?_eq_some_iff.mp h
  rw [List.drop_eq_getElem_cons hlt, hx]

theorem index_eq_ok {x : α} (h : (index xs i : Except (Fault ε) α) = .ok x) :
    xs.drop i = x :: xs.drop (i + 1) := by
  unfold index at h
  cases hget : xs[i]? with
  | none =>
    rw [hget] at h
    cases h
  | some y =>
    rw [hget, unwrap_some, Except.ok.injEq] at h
    rw [drop_of_getElem? hget, h]

theorem index_eq_panic (h : xs.length ≤ i) :
    (index xs i : Except (Fault ε) α) = .error .panic := by
  rw [index, List.getElem?_eq_none h]
  rfl

section matchesAt

variable [DecidableEq α]

theorem returns_matchesAt (ys : List α) (h : i + ys.length ≤ xs.length) :
    Returns (matchesAt xs i ys : Except (Fault ε) Bool) := by
  induction ys generalizing i with
  | nil => exact returns_ok true
  | cons y ys ih =>
    rw [List.length_cons] at h
    refine (returns_index (by omega)).bind ?_
    intro x _
    split_ifs
    · exact ih (by omega)
    · exact returns_ok false

theorem matchesAt_eq_true (h : (matchesAt xs i ys : Except (Fault ε) Bool) = .ok true) :
    xs.drop i = ys ++ xs.drop (i + ys.length) := by
  induction ys generalizing i with
  | nil => rfl
  | cons y ys ih =>
    rw [matchesAt] at h
    cases hx : (index xs i : Except (Fault ε) α) with
    | error e =>
      rw [hx] at h
      cases h
    | ok x =>
      rw [hx, ok_bind] at h
      split_ifs at h with hxy
      · rw [index_eq_ok hx, hxy, ih h, List.length_cons, List.cons_append]
        congr 3
        omega
      · cases h

theorem matchesAt_of_drop (h : xs.drop i = ys ++ rest) :
    (matchesAt xs i ys : Except (Fault ε) Bool) = .ok true := by
  induction ys generalizing i with
  | nil => rfl
  | cons y ys ih =>
    rw [matchesAt, index_drop h, ok_bind, if_pos rfl]
    exact ih (drop_of_cons h rfl)

end matchesAt

theorem returns_copyOut {n : Nat} (hij : j = i + n) (hj : j ≤ xs.length) :
    Returns (copyOut n xs i j : Except (Fault ε) _) := by
  have hlen : ((xs.drop i).take (j - i)).length = n := by
    rw [List.length_take, List.length_drop]
    omega
  rw [copyOut, slice_of_le (by omega) hj, ok_bind, dif_pos hlen]
  exact returns_ok _

theorem copyOut_eq_ok {n : Nat} {out : {out : List α // out.length = n}}
    (h : (copyOut n xs i j : Except (Fault ε) _) = .ok out) : xs.drop i = out.1 ++ xs.drop j := by
  unfold copyOut slice at h
  split_ifs at h with hin
  · rw [ok_bind] at h
    split_ifs at h with hlen
    · cases h
      show xs.drop i = (xs.drop i).take (j - i) ++ xs.drop j
      have hj : xs.drop j = (xs.drop i).drop (j - i) := by
        rw [List.drop_drop]
        congr 1
        omega
      rw [hj, List.take_append_drop]
  · cases h

theorem copyOut_of_drop {n : Nat} (hn : 0 < n) (out : {out : List α // out.length = n})
    (h : xs.drop i = out.1 ++ rest) (hj : j = i + n) :
    (copyOut n xs i j : Except (Fault ε) _) = .ok out := by
  have hlen := congrArg List.length h
  rw [List.length_drop, List.length_append, out.2] at hlen
  have hpart : (xs.drop i).take (j - i) = out.1 := by
    rw [h, hj, Nat.add_sub_cancel_left]
    exact List.take_left' out.2
  rw [copyOut, slice_of_le (by omega) (by omega), ok_bind]
  simp only [hpart]
  rw [dif_pos out.2]
  rfl

/-! ## Recognisers

    A recogniser returns `none` at the first place that does not look as it should. -/

section recognise

variable [DecidableEq α] {k : Except (Fault ε) (Option β)}

/-- A check of some places is harmless where these exist. -/
theorem returns_unless (hin : i + ys.length ≤ xs.length)
    (hk : xs.drop i = ys ++ xs.drop (i + ys.length) → Returns k) :
    Returns (do
      let b ← (matchesAt xs i ys : Except (Fault ε) Bool)
      if !b then return none else k) := by
  obtain ⟨b, hb⟩ : Returns (matchesAt xs i ys : Except (Fault ε) Bool) := returns_matchesAt ys hin
  rw [hb, ok_bind]
  cases b with
  | false => exact returns_ok none
  | true => exact hk (matchesAt_eq_true hb)

theorem unless_eq_some {r : β} :
    (do
      let b ← (matchesAt xs i ys : Except (Fault ε) Bool)
      if !b then return none else k) = .ok (some r)
      ↔ (matchesAt xs i ys : Except (Fault ε) Bool) = .ok true ∧ k = .ok (some r) := by
  cases (matchesAt xs i ys : Except (Fault ε) Bool) with
  | error e => simp [error_bind]
  | ok b =>
    rw [ok_bind]
    cases b with
    | false => simp [pure_eq_ok]
    | true => simp

/-- Where they look as they should, the recogniser goes on. -/
theorem unless_of_drop (h : xs.drop i = ys ++ rest) :
    (do
      let b ← (matchesAt xs i ys : Except (Fault ε) Bool)
      if !b then return none else k) = k := by
  rw [matchesAt_of_drop h, ok_bind]
  rfl

end recognise

end Panicking
