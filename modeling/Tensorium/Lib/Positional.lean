import Mathlib.Tactic

/-! # Writes at positions

    A list whose positions are rewritten one after the other. When a position is
    rewritten to the same however often, neither the order nor the number of the
    writes matters, only which positions are among them.
-/

namespace Positional

variable {α : Type*}

/-- The list after the positions of `order` are rewritten in turn. -/
def writeAll (write : Nat → α → α) (l : List α) (order : List Nat) : List α :=
  order.foldl (fun l i => l.modify i (write i)) l

variable {write : Nat → α → α}

@[simp] theorem writeAll_nil (l : List α) : writeAll write l [] = l := rfl

theorem writeAll_concat (l : List α) (order : List Nat) (i : Nat) :
    writeAll write l (order ++ [i]) = (writeAll write l order).modify i (write i) := by
  unfold writeAll
  rw [List.foldl_append]
  rfl

@[simp] theorem length_writeAll (l : List α) (order : List Nat) :
    (writeAll write l order).length = l.length := by
  induction order using List.reverseRecOn with
  | nil => rfl
  | append_singleton order i ih => rw [writeAll_concat, List.length_modify, ih]

/-- What a position holds in the end. -/
theorem getElem?_writeAll (hidem : ∀ i x, write i (write i x) = write i x) (l : List α)
    (order : List Nat) (j : Nat) :
    (writeAll write l order)[j]? = l[j]?.map fun x => if j ∈ order then write j x else x := by
  induction order using List.reverseRecOn with
  | nil => simp
  | append_singleton order i ih =>
    rw [writeAll_concat, List.getElem?_modify, ih]
    cases l[j]? with
    | none => rfl
    | some x =>
      -- The last write is at `j` or it is not; if it is, an earlier one there is undone.
      by_cases hhere : i = j
      · by_cases hbefore : j ∈ order
        · simp [hhere, hbefore, hidem]
        · simp [hhere, hbefore]
      · simp [hhere, Ne.symm hhere]

/-- Only the positions that are rewritten count. -/
theorem writeAll_congr (hidem : ∀ i x, write i (write i x) = write i x) {l : List α}
    {order order' : List Nat} (h : ∀ i < l.length, i ∈ order ↔ i ∈ order') :
    writeAll write l order = writeAll write l order' := by
  apply List.ext_getElem?
  intro j
  rw [getElem?_writeAll hidem, getElem?_writeAll hidem]
  by_cases hj : j < l.length
  · simp only [h j hj]
  · rw [List.getElem?_eq_none (Nat.le_of_not_lt hj)]
    rfl

end Positional
