import Mathlib.Data.List.NodupEquivFin
import Mathlib.Data.List.Forall2
import Mathlib.Tactic

/-! # Order-preserving matchings

    The items of one list are matched with items of another, every item with one
    that it is related to, no two with the same, and in the order of both lists.
    Going through the second list once, and giving each item the first that is
    related to it, finds such a matching whenever there is one: an item can always
    be moved to the first place that suits it.
-/

namespace OrderedMatching

variable {α β : Type*} {r : α → β → Prop} {x : α} {y : β} {xs : List α} {ys : List β}

/-- The items of `xs` are related, in order, to some items of `ys`. -/
def Matches (r : α → β → Prop) (xs : List α) (ys : List β) : Prop :=
  ∃ sub, sub.Sublist ys ∧ List.Forall₂ r xs sub

theorem matches_nil (ys : List β) : Matches r [] ys :=
  ⟨[], List.nil_sublist ys, .nil⟩

theorem not_matches_nil : ¬ Matches r (x :: xs) [] := by
  rintro ⟨sub, hsub, hrel⟩
  rw [List.sublist_nil.mp hsub] at hrel
  cases hrel

/-- An item that is related to nothing has no match. -/
theorem not_matches_of_not_rel (h : ∀ y, ¬ r x y) : ¬ Matches r (x :: xs) ys := by
  rintro ⟨sub, _, hrel⟩
  cases hrel with
  | cons hxy _ => exact h _ hxy

/-- More to choose from does no harm. -/
theorem Matches.cons_right (h : Matches r xs ys) (y : β) : Matches r xs (y :: ys) := by
  obtain ⟨sub, hsub, hrel⟩ := h
  exact ⟨sub, hsub.trans (List.sublist_cons_self y ys), hrel⟩

/-- A first place that does not suit the first item is of no use. -/
theorem matches_cons_of_not_rel (h : ¬ r x y) :
    Matches r (x :: xs) (y :: ys) ↔ Matches r (x :: xs) ys := by
  constructor
  · rintro ⟨sub, hsub, hrel⟩
    cases hrel with
    | cons hxz hrest =>
      cases hsub with
      | cons _ hsub => exact ⟨_, hsub, .cons hxz hrest⟩
      | cons_cons _ hsub => exact absurd hxz h
  · intro hmatch
    exact hmatch.cons_right y

/-- A first place that suits the first item may as well be taken: whatever the item
    had before is only given up. -/
theorem matches_cons_of_rel (h : r x y) :
    Matches r (x :: xs) (y :: ys) ↔ Matches r xs ys := by
  constructor
  · rintro ⟨sub, hsub, hrel⟩
    cases hrel with
    | cons _ hrest => exact ⟨_, hsub.tail, hrest⟩
  · rintro ⟨sub, hsub, hrel⟩
    exact ⟨y :: sub, hsub.cons_cons y, .cons h hrel⟩

/-- A matching is a strictly increasing assignment of positions. -/
theorem matches_iff_strictMono :
    Matches r xs ys ↔ ∃ f : Fin xs.length → Fin ys.length,
      StrictMono f ∧ ∀ i, r (xs.get i) (ys.get (f i)) := by
  constructor
  · rintro ⟨sub, hsub, hrel⟩
    obtain ⟨f, hf⟩ := List.sublist_iff_exists_fin_orderEmbedding_get_eq.mp hsub
    have hlen : xs.length = sub.length := hrel.length_eq
    refine ⟨fun i => f (Fin.cast hlen i), fun i j hij => f.strictMono hij, ?_⟩
    intro i
    rw [← hf]
    exact hrel.get i.2 (hlen ▸ i.2)
  · rintro ⟨f, hmono, hrel⟩
    refine ⟨List.ofFn fun i => ys.get (f i), ?_, ?_⟩
    · refine List.sublist_iff_exists_fin_orderEmbedding_get_eq.mpr
        ⟨OrderEmbedding.ofStrictMono (fun i => f (Fin.cast (List.length_ofFn) i)) ?_, ?_⟩
      · intro i j hij
        exact hmono hij
      · intro i
        rw [List.get_ofFn]
        rfl
    · refine List.forall₂_iff_get.mpr ⟨List.length_ofFn.symm, ?_⟩
      intro i hi _
      rw [List.get_ofFn]
      exact hrel ⟨i, hi⟩

/-- A single item goes to any place that suits it. -/
theorem exists_strictMono_singleton (k : Fin ys.length) (h : r x (ys.get k)) :
    ∃ f : Fin [x].length → Fin ys.length, StrictMono f ∧ ∀ i, r ([x].get i) (ys.get (f i)) := by
  have hsub : Subsingleton (Fin [x].length) := inferInstanceAs (Subsingleton (Fin 1))
  refine ⟨fun _ => k, Subsingleton.strictMono _, ?_⟩
  intro i
  obtain rfl : i = 0 := hsub.elim _ _
  exact h

end OrderedMatching
