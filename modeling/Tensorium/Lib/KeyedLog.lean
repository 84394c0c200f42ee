import Mathlib.Data.Finset.Basic
import Mathlib.Data.List.Nodup
import Mathlib.Tactic

/-! # Logs without repeated keys

    A log takes in a list of entries and leaves out every one whose key it has
    seen. What it takes in has no repeated key, and is the whole list if the list
    has none.
-/

namespace KeyedLog

variable {κ β : Type*} [DecidableEq κ] {key : β → κ}

/-- The entries that are taken in, given the keys seen before. -/
def fresh (key : β → κ) : Finset κ → List β → List β
  | _, [] => []
  | seen, b :: bs =>
    if key b ∈ seen then fresh key seen bs else b :: fresh key (insert (key b) seen) bs

theorem fresh_append (seen : Finset κ) (bs cs : List β) :
    fresh key seen (bs ++ cs)
      = fresh key seen bs ++ fresh key (seen ∪ (bs.map key).toFinset) cs := by
  induction bs generalizing seen with
  | nil => simp [fresh]
  | cons b bs ih =>
    rw [List.cons_append, List.map_cons, List.toFinset_cons, fresh, fresh]
    split_ifs with hseen
    · rw [ih, Finset.union_insert, Finset.insert_eq_of_mem (Finset.mem_union_left _ hseen)]
    · rw [ih, Finset.union_insert, Finset.insert_union, List.cons_append]

theorem notMem_of_mem_fresh {seen : Finset κ} {bs : List β} {b : β}
    (h : b ∈ fresh key seen bs) : key b ∉ seen := by
  induction bs generalizing seen with
  | nil => cases h
  | cons c bs ih =>
    unfold fresh at h
    split_ifs at h with hseen
    · exact ih h
    · rcases List.mem_cons.mp h with rfl | hrest
      · exact hseen
      · intro hmem
        exact ih hrest (Finset.mem_insert_of_mem hmem)

theorem nodup_fresh (seen : Finset κ) (bs : List β) : ((fresh key seen bs).map key).Nodup := by
  induction bs generalizing seen with
  | nil => exact List.nodup_nil
  | cons b bs ih =>
    unfold fresh
    split_ifs
    · exact ih seen
    · rw [List.map_cons]
      apply List.nodup_cons.mpr
      refine ⟨?_, ih _⟩
      intro hmem
      obtain ⟨c, hc, heq⟩ := List.mem_map.mp hmem
      apply notMem_of_mem_fresh hc
      rw [heq]
      exact Finset.mem_insert_self _ _

/-- A list without repeated keys, none of them seen before, is taken in whole. -/
theorem fresh_eq_self {seen : Finset κ} {bs : List β} (hnodup : (bs.map key).Nodup)
    (hseen : ∀ b ∈ bs, key b ∉ seen) : fresh key seen bs = bs := by
  induction bs generalizing seen with
  | nil => rfl
  | cons b bs ih =>
    rw [List.map_cons, List.nodup_cons] at hnodup
    rw [fresh, if_neg (hseen b List.mem_cons_self), ih hnodup.2]
    intro c hc hmem
    rcases Finset.mem_insert.mp hmem with heq | hold
    · exact hnodup.1 (heq ▸ List.mem_map_of_mem hc)
    · exact hseen c (List.mem_cons_of_mem _ hc) hold

/-- What is left out had been seen. -/
theorem union_fresh (seen : Finset κ) (bs : List β) :
    seen ∪ ((fresh key seen bs).map key).toFinset = seen ∪ (bs.map key).toFinset := by
  induction bs generalizing seen with
  | nil => rfl
  | cons b bs ih =>
    rw [fresh, List.map_cons, List.toFinset_cons]
    split_ifs with hseen
    · rw [ih, Finset.union_insert, Finset.insert_eq_of_mem (Finset.mem_union_left _ hseen)]
    · rw [List.map_cons, List.toFinset_cons, Finset.union_insert, Finset.union_insert,
        ← Finset.insert_union, ← Finset.insert_union, ih]

/-- The log stays without repeated keys. -/
theorem nodup_append_fresh {entries bs : List β} (hnodup : (entries.map key).Nodup) :
    ((entries ++ fresh key (entries.map key).toFinset bs).map key).Nodup := by
  rw [List.map_append]
  apply hnodup.append (nodup_fresh _ _)
  intro k hk hfresh
  obtain ⟨b, hb, rfl⟩ := List.mem_map.mp hfresh
  exact notMem_of_mem_fresh hb (List.mem_toFinset.mpr hk)

end KeyedLog
