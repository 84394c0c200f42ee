import Mathlib.Tactic

/-! # Folds that may fail

    Inversion of `bind` in `Except`, and the rules a fold over a list in
    `Except` obeys: how it splits over the list, and when two step functions
    give the same fold.
-/

namespace ExceptFold

universe u

variable {ε α : Type*} {β γ : Type u}

theorem bind_eq_ok {x : Except ε β} {f : β → Except ε γ} {b : γ} :
    (x >>= f) = .ok b ↔ ∃ a, x = .ok a ∧ f a = .ok b := by
  cases x with
  | error e =>
    constructor
    · intro h
      cases h
    · rintro ⟨a, ha, _⟩
      cases ha
  | ok a =>
    constructor
    · intro h
      exact ⟨a, rfl, h⟩
    · rintro ⟨a', ha, h⟩
      cases ha
      exact h

theorem map_eq_ok {x : Except ε β} {f : β → γ} {b : γ} :
    x.map f = .ok b ↔ ∃ a, x = .ok a ∧ f a = b := by
  cases x with
  | error e =>
    constructor
    · intro h
      cases h
    · rintro ⟨a, ha, _⟩
      cases ha
  | ok a =>
    constructor
    · intro h
      exact ⟨a, rfl, Except.ok.inj h⟩
    · rintro ⟨a', ha, rfl⟩
      cases ha
      rfl

theorem foldlM_nil_ok {f : β → α → Except ε β} {b r : β} :
    ([] : List α).foldlM f b = .ok r ↔ b = r := by
  simp [pure, Except.pure]

theorem foldlM_cons_ok {f : β → α → Except ε β} {x : α} {l : List α} {b r : β} :
    (x :: l).foldlM f b = .ok r ↔ ∃ b', f b x = .ok b' ∧ l.foldlM f b' = .ok r := by
  rw [List.foldlM_cons, bind_eq_ok]

/-- A failing prefix makes the whole fold fail, with the same error. -/
theorem foldlM_append_error {f : β → α → Except ε β} {l₁ l₂ : List α} {b : β} {e : ε}
    (h : l₁.foldlM f b = .error e) : (l₁ ++ l₂).foldlM f b = .error e := by
  rw [List.foldlM_append, h]
  rfl

/-- Step functions that agree on the elements of the list fold alike. -/
theorem foldlM_congr {f g : β → α → Except ε β} {l : List α} (b : β)
    (h : ∀ x ∈ l, ∀ b, f b x = g b x) : l.foldlM f b = l.foldlM g b := by
  induction l generalizing b with
  | nil => rfl
  | cons x l ih =>
    rw [List.foldlM_cons, List.foldlM_cons, h x (by simp)]
    refine bind_congr fun b' => ?_
    exact ih b' fun y hy => h y (List.mem_cons_of_mem _ hy)

/-! ## Loops that only read

    A computation with a state and errors keeps the state it had reached when
    it fails. One that never writes is a function of the state it starts in. -/

/-- The result of a computation that leaves the state `s` as it is. -/
def keeping {ε σ β : Type u} (s : σ) : Except ε β → EStateM.Result ε σ β
  | .ok b => .ok b s
  | .error e => .error e s

section stateful

variable {ε σ β γ : Type u}

theorem bind_of_ok {x : EStateM ε σ β} {f : β → EStateM ε σ γ} {s s' : σ} {b : β}
    (h : x s = .ok b s') : (x >>= f) s = f b s' := by
  show EStateM.bind x f s = _
  unfold EStateM.bind
  rw [h]

theorem bind_of_error {x : EStateM ε σ β} {f : β → EStateM ε σ γ} {s s' : σ} {e : ε}
    (h : x s = .error e s') : (x >>= f) s = .error e s' := by
  show EStateM.bind x f s = _
  unfold EStateM.bind
  rw [h]

/-- A loop whose iterations only read. -/
theorem foldlM_keeping {f : β → α → EStateM ε σ β} {g : β → α → Except ε β} {s : σ}
    (h : ∀ b x, f b x s = keeping s (g b x)) (l : List α) (b : β) :
    l.foldlM f b s = keeping s (l.foldlM g b) := by
  induction l generalizing b with
  | nil => rfl
  | cons x l ih =>
    rw [List.foldlM_cons, List.foldlM_cons]
    have hx := h b x
    cases hg : g b x with
    | error e =>
      rw [hg] at hx
      exact bind_of_error hx
    | ok b' =>
      rw [hg] at hx
      exact (bind_of_ok hx).trans (ih b')

end stateful

/-- A loop whose every iteration succeeds and updates the state. -/
theorem forM_modify {σ : Type} {ε α : Type} (f : α → σ → σ) (l : List α) (s : σ) :
    (l.forM fun x => modify (f x) : EStateM ε σ PUnit) s
      = .ok PUnit.unit (l.foldl (fun s x => f x s) s) := by
  induction l generalizing s with
  | nil => rfl
  | cons x l ih => exact ih (f x s)

end ExceptFold
