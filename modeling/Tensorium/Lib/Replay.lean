import Mathlib.Tactic

/-! # Replaying a list by position

    A partial function takes in the elements of a list in order, each with its
    position. `Upto apply init l n s` says that the first `n` elements of `l`
    lead from `init` to `s`.

    What is led to depends on those elements only, and is extended by one
    element at a time; so a reader that holds the outcome for a part of the list
    may go on from there instead of starting again.
-/

namespace Replay

variable {σ β : Type*} {apply : σ → Nat → β → Option σ} {init : σ}

/-- Take in a list in order, the first element at position `h`. -/
def feed (apply : σ → Nat → β → Option σ) : Nat → σ → List β → Option σ
  | _, s, [] => some s
  | h, s, b :: l => (apply s h b).bind fun s => feed apply (h + 1) s l

theorem feed_append (h : Nat) (s : σ) (l l' : List β) :
    feed apply h s (l ++ l')
      = (feed apply h s l).bind fun s => feed apply (h + l.length) s l' := by
  induction l generalizing h s with
  | nil => rfl
  | cons b l ih =>
    rw [List.cons_append, feed, feed, Option.bind_assoc]
    congr 1
    funext t
    rw [ih, List.length_cons, Nat.add_right_comm, Nat.add_assoc]

/-- The first `n` elements of a list lead from `init` to `s`. -/
structure Upto (apply : σ → Nat → β → Option σ) (init : σ) (l : List β) (n : Nat) (s : σ) :
    Prop where
  le : n ≤ l.length
  fed : feed apply 0 init (l.take n) = some s

namespace Upto

variable {l l' : List β} {n m : Nat} {s s' : σ} {b : β}

theorem zero (apply : σ → Nat → β → Option σ) (init : σ) (l : List β) :
    Upto apply init l 0 init :=
  ⟨Nat.zero_le _, rfl⟩

theorem eq_init (h : Upto apply init l 0 s) : s = init :=
  (Option.some.inj h.fed).symm

theorem unique (h : Upto apply init l n s) (h' : Upto apply init l n s') : s = s' :=
  Option.some.inj (h.fed.symm.trans h'.fed)

theorem all_iff : Upto apply init l l.length s ↔ feed apply 0 init l = some s := by
  constructor
  · intro h
    have hfed := h.fed
    rwa [List.take_length] at hfed
  · intro h
    refine ⟨le_rfl, ?_⟩
    rwa [List.take_length]

/-- Only the elements taken in matter. -/
theorem congr (h : Upto apply init l n s) (htake : l.take n = l'.take n) :
    Upto apply init l' n s := by
  refine ⟨?_, htake ▸ h.fed⟩
  have hlen := congrArg List.length htake
  rw [List.length_take, List.length_take, Nat.min_eq_left h.le] at hlen
  omega

theorem of_prefix (h : Upto apply init l n s) (hl : l <+: l') : Upto apply init l' n s := by
  obtain ⟨t, rfl⟩ := hl
  apply h.congr
  rw [List.take_append_of_le_length h.le]

theorem take (h : Upto apply init l n s) : Upto apply init (l.take n) n s := by
  apply h.congr
  rw [List.take_take, Nat.min_self]

/-- One more element is taken in. -/
theorem succ_iff :
    Upto apply init l (n + 1) s' ↔
      ∃ s b, Upto apply init l n s ∧ l[n]? = some b ∧ apply s n b = some s' := by
  constructor
  · intro h
    have hlt : n < l.length := h.le
    have hfed := h.fed
    rw [List.take_succ_eq_append_getElem hlt, feed_append, List.length_take,
      Nat.min_eq_left hlt.le, Nat.zero_add] at hfed
    obtain ⟨s, hs, hone⟩ := Option.bind_eq_some_iff.mp hfed
    obtain ⟨s'', hs'', hnil⟩ := Option.bind_eq_some_iff.mp hone
    obtain rfl := Option.some.inj hnil
    exact ⟨s, l[n], ⟨hlt.le, hs⟩, List.getElem?_eq_getElem hlt, hs''⟩
  · rintro ⟨s, b, h, hb, hs⟩
    obtain ⟨hlt, rfl⟩ := List.getElem?_eq_some_iff.mp hb
    refine ⟨hlt, ?_⟩
    rw [List.take_succ_eq_append_getElem hlt, feed_append, h.fed, List.length_take,
      Nat.min_eq_left h.le, Nat.zero_add]
    show (apply s n l[n]).bind _ = _
    rw [hs]
    rfl

theorem succ (h : Upto apply init l n s) (hb : l[n]? = some b) (hs : apply s n b = some s') :
    Upto apply init l (n + 1) s' :=
  succ_iff.mpr ⟨s, b, h, hb, hs⟩

/-- The element taken in last was accepted in the outcome of those before it. -/
theorem next (h : Upto apply init l n s) (h' : Upto apply init l (n + 1) s') :
    ∃ b, l[n]? = some b ∧ apply s n b = some s' := by
  obtain ⟨t, b, ht, hb, hs⟩ := succ_iff.mp h'
  exact ⟨b, hb, h.unique ht ▸ hs⟩

/-- What leads somewhere leads somewhere from every point on the way. -/
theorem of_le (h : Upto apply init l n s) (hle : m ≤ n) : ∃ s', Upto apply init l m s' := by
  induction n generalizing s with
  | zero =>
    obtain rfl : m = 0 := by omega
    exact ⟨s, h⟩
  | succ n ih =>
    rcases Nat.eq_or_lt_of_le hle with rfl | hlt
    · exact ⟨s, h⟩
    · obtain ⟨t, _, ht, _, _⟩ := succ_iff.mp h
      exact ih ht (by omega)

end Upto

end Replay
