import Mathlib.Tactic

/-! # Ring buffers

    A queue of bounded length in an array: the index of the oldest element, the index
    the next is written to, and the number of elements between them. A push into a full
    buffer is dropped.
-/

namespace RingBuffer

/-- The array and its indices. -/
structure Buffer (α : Type*) where
  slots : Nat → α
  head : Nat
  tail : Nat
  count : Nat

namespace Buffer

variable {α : Type*} {capacity : Nat} {r : Buffer α}

/-- The buffer with nothing in it; the slots hold anything. -/
def empty (slots : Nat → α) : Buffer α := ⟨slots, 0, 0, 0⟩

def push (capacity : Nat) (r : Buffer α) (x : α) : Buffer α :=
  if r.count < capacity then
    { slots := Function.update r.slots r.tail x
      head := r.head
      tail := (r.tail + 1) % capacity
      count := r.count + 1 }
  else r

def pop (capacity : Nat) (r : Buffer α) : Option (α × Buffer α) :=
  if r.count = 0 then none
  else some (r.slots r.head,
    { r with head := (r.head + 1) % capacity, count := r.count - 1 })

/-- The elements, the oldest first. -/
def contents (capacity : Nat) (r : Buffer α) : List α :=
  (List.range r.count).map fun k => r.slots ((r.head + k) % capacity)

/-- The indices lie in the array, and the count is their distance. -/
structure Wf (capacity : Nat) (r : Buffer α) : Prop where
  head_lt : r.head < capacity
  count_le : r.count ≤ capacity
  tail_eq : r.tail = (r.head + r.count) % capacity

@[simp] theorem length_contents (capacity : Nat) (r : Buffer α) :
    (r.contents capacity).length = r.count := by
  simp [contents]

theorem Wf.tail_lt (h : r.Wf capacity) : r.tail < capacity := by
  rw [h.tail_eq]
  exact Nat.mod_lt _ (Nat.lt_of_le_of_lt (Nat.zero_le _) h.head_lt)

theorem wf_empty (hcapacity : 0 < capacity) (slots : Nat → α) : (empty slots).Wf capacity where
  head_lt := hcapacity
  count_le := Nat.zero_le _
  tail_eq := by simp [empty]

theorem Wf.push (h : r.Wf capacity) (x : α) : (r.push capacity x).Wf capacity := by
  unfold Buffer.push
  split_ifs with hroom
  · constructor
    · exact h.head_lt
    · exact hroom
    · show (r.tail + 1) % capacity = (r.head + (r.count + 1)) % capacity
      rw [h.tail_eq, Nat.mod_add_mod, Nat.add_assoc]
  · exact h

theorem Wf.pop (h : r.Wf capacity) {x : α} {r' : Buffer α} (hpop : r.pop capacity = some (x, r')) :
    r'.Wf capacity := by
  unfold Buffer.pop at hpop
  split_ifs at hpop with hempty
  obtain ⟨rfl, rfl⟩ := Prod.mk.inj (Option.some.inj hpop)
  constructor
  · exact Nat.mod_lt _ (Nat.lt_of_le_of_lt (Nat.zero_le _) h.head_lt)
  · exact (Nat.sub_le _ _).trans h.count_le
  · show r.tail = ((r.head + 1) % capacity + (r.count - 1)) % capacity
    rw [Nat.mod_add_mod, h.tail_eq]
    congr 1
    omega

/-- A push appends, unless the buffer is full. -/
theorem Wf.contents_push (h : r.Wf capacity) (x : α) :
    (r.push capacity x).contents capacity
      = if (r.contents capacity).length < capacity then r.contents capacity ++ [x]
        else r.contents capacity := by
  rw [length_contents]
  unfold Buffer.push
  split_ifs with hroom
  · unfold contents
    rw [List.range_succ, List.map_append]
    congr 1
    · apply List.map_congr_left
      intro k hk
      have hlt : k < r.count := by simpa using hk
      -- The slot that is written lies behind all that are in use.
      have hne : (r.head + k) % capacity ≠ r.tail := by
        rw [h.tail_eq]
        intro heq
        have hzero := Nat.sub_mod_eq_zero_of_mod_eq heq.symm
        rw [Nat.mod_eq_of_lt (by omega)] at hzero
        omega
      simp [hne]
    · simp [h.tail_eq]
  · rfl

/-- A pop takes the oldest element. -/
theorem contents_pop {x : α} {r' : Buffer α} (h : r.Wf capacity)
    (hpop : r.pop capacity = some (x, r')) :
    r.contents capacity = x :: r'.contents capacity := by
  unfold Buffer.pop at hpop
  split_ifs at hpop with hempty
  obtain ⟨rfl, rfl⟩ := Prod.mk.inj (Option.some.inj hpop)
  have hcount : r.count = r.count - 1 + 1 := by omega
  unfold contents
  rw [hcount, List.range_succ_eq_map, List.map_cons, List.map_map]
  congr 1
  · simp [Nat.mod_eq_of_lt h.head_lt]
  · apply List.map_congr_left
    intro k _
    simp only [Function.comp_apply, Nat.mod_add_mod]
    congr 2
    omega

theorem pop_eq_none : r.pop capacity = none ↔ r.contents capacity = [] := by
  rw [← List.length_eq_zero_iff, length_contents]
  unfold Buffer.pop
  split_ifs with hempty
  · simp [hempty]
  · simp [hempty]

end Buffer

end RingBuffer
