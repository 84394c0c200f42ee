import Mathlib.Data.Finmap
import Mathlib.Tactic
import Mathlib.Data.List.Sort

/-! # Bulk updates of finite maps

    Erasing a list of keys, inserting a list of bindings, the total weight of
    a map whose values carry a natural-number weight, and the enumeration of
    a map in the order of its keys.

    Keys may repeat in the lists: a later binding overrides an earlier one,
    and the weight lemmas for insertion are therefore inequalities.
-/

namespace BulkMap

variable {α β : Type*}

/-- A finite map with values in one type. -/
abbrev Map (α β : Type*) := Finmap fun _ : α => β

section updates

variable [DecidableEq α]

/-- Erase every key of a list. -/
def eraseAll (m : Map α β) (ks : List α) : Map α β :=
  ks.foldl (fun m k => m.erase k) m

/-- Insert every binding of a list, the last one winning. -/
def insertAll (m : Map α β) (kvs : List (α × β)) : Map α β :=
  kvs.foldl (fun m kv => m.insert kv.1 kv.2) m

/-- The value a list of bindings leaves at a key: that of the last binding. -/
def lastBinding (kvs : List (α × β)) (k : α) : Option β :=
  kvs.foldl (fun r kv => if kv.1 = k then some kv.2 else r) none

/-! ## Lookups after a bulk update -/

theorem lookup_erase_ite (m : Map α β) (k k' : α) :
    (m.erase k').lookup k = if k = k' then none else m.lookup k := by
  split_ifs with h
  · subst h
    exact Finmap.lookup_erase _ _
  · exact Finmap.lookup_erase_ne h

theorem lookup_insert_ite (m : Map α β) (k k' : α) (v : β) :
    (m.insert k' v).lookup k = if k' = k then some v else m.lookup k := by
  split_ifs with h
  · subst h
    exact Finmap.lookup_insert _
  · exact Finmap.lookup_insert_of_ne _ (Ne.symm h)

theorem lookup_eraseAll (m : Map α β) (ks : List α) (k : α) :
    (eraseAll m ks).lookup k = if k ∈ ks then none else m.lookup k := by
  induction ks generalizing m with
  | nil => simp [eraseAll]
  | cons k' ks ih =>
    have hstep : eraseAll m (k' :: ks) = eraseAll (m.erase k') ks := rfl
    rw [hstep, ih, lookup_erase_ite]
    by_cases hk : k ∈ ks <;> by_cases hkk : k = k' <;> simp [hk, hkk]

private theorem foldl_lastBinding (kvs : List (α × β)) (k : α) (r : Option β) :
    kvs.foldl (fun r kv => if kv.1 = k then some kv.2 else r) r
      = (lastBinding kvs k).or r := by
  induction kvs generalizing r with
  | nil => simp [lastBinding]
  | cons kv kvs ih =>
    rw [lastBinding, List.foldl_cons, List.foldl_cons, ih, ih]
    by_cases h : kv.1 = k <;> simp [h]

theorem lastBinding_cons (kv : α × β) (kvs : List (α × β)) (k : α) :
    lastBinding (kv :: kvs) k
      = (lastBinding kvs k).or (if kv.1 = k then some kv.2 else none) := by
  rw [lastBinding, List.foldl_cons, foldl_lastBinding]

theorem lookup_insertAll (m : Map α β) (kvs : List (α × β)) (k : α) :
    (insertAll m kvs).lookup k = (lastBinding kvs k).or (m.lookup k) := by
  induction kvs generalizing m with
  | nil => simp [insertAll, lastBinding]
  | cons kv kvs ih =>
    have hstep : insertAll m (kv :: kvs) = insertAll (m.insert kv.1 kv.2) kvs := rfl
    rw [hstep, ih, lookup_insert_ite, lastBinding_cons, Option.or_assoc]
    by_cases h : kv.1 = k <;> simp [h]

/-- A list of bindings leaves nothing at a key it does not mention. -/
theorem lastBinding_eq_none {kvs : List (α × β)} {k : α} :
    lastBinding kvs k = none ↔ k ∉ kvs.map Prod.fst := by
  induction kvs with
  | nil => simp [lastBinding]
  | cons kv kvs ih =>
    rw [lastBinding_cons, Option.or_eq_none_iff, ih]
    by_cases h : kv.1 = k
    · simp [h]
    · simp [h, Ne.symm h]

/-- A list all of whose bindings of a key agree leaves that value there. -/
theorem lastBinding_eq_some {kvs : List (α × β)} {k : α} {v : β} (hmem : (k, v) ∈ kvs)
    (hall : ∀ v', (k, v') ∈ kvs → v' = v) : lastBinding kvs k = some v := by
  induction kvs with
  | nil => simp at hmem
  | cons kv kvs ih =>
    rw [lastBinding_cons]
    -- Either a later binding decides, or the first one is the only one.
    by_cases htail : (k, v) ∈ kvs
    · rw [ih htail fun v' hv' => hall v' (List.mem_cons_of_mem _ hv'), Option.some_or]
    · have hnone : lastBinding kvs k = none := by
        refine lastBinding_eq_none.mpr fun hk => ?_
        obtain ⟨⟨k', v'⟩, hkv, rfl⟩ := List.mem_map.mp hk
        exact htail (hall v' (List.mem_cons_of_mem _ hkv) ▸ hkv)
      obtain rfl : (k, v) = kv := (List.mem_cons.mp hmem).resolve_right htail
      simp [hnone]

/-- The binding a list leaves at a key is one of the list. -/
theorem mem_of_lastBinding {kvs : List (α × β)} {k : α} {v : β}
    (h : lastBinding kvs k = some v) : (k, v) ∈ kvs := by
  induction kvs with
  | nil => cases h
  | cons kv kvs ih =>
    rw [lastBinding_cons] at h
    cases htail : lastBinding kvs k with
    | some w =>
      rw [htail, Option.some_or] at h
      exact List.mem_cons_of_mem _ (ih (htail.trans h))
    | none =>
      rw [htail, Option.none_or] at h
      split_ifs at h with heq
      cases h
      rw [← heq]
      exact List.mem_cons_self

theorem lastBinding_append (kvs kvs' : List (α × β)) (k : α) :
    lastBinding (kvs ++ kvs') k = (lastBinding kvs' k).or (lastBinding kvs k) := by
  unfold lastBinding
  rw [List.foldl_append, foldl_lastBinding]
  rfl

/-- Among lists of bindings with different keys, one decides, wherever it
    stands. -/
theorem lastBinding_flatMap {γ : Type*} {f : γ → List (α × β)} {l : List γ}
    (hdisjoint : l.Pairwise fun a b => List.Disjoint ((f a).map Prod.fst) ((f b).map Prod.fst))
    {k : α} {v : β} :
    lastBinding (l.flatMap f) k = some v ↔ ∃ a ∈ l, lastBinding (f a) k = some v := by
  induction l with
  | nil => simp [lastBinding]
  | cons a l ih =>
    obtain ⟨hhead, htail⟩ := List.pairwise_cons.mp hdisjoint
    rw [List.flatMap_cons, lastBinding_append, List.exists_mem_cons_iff, Option.or_eq_some_iff,
      ih htail]
    constructor
    · rintro (hlater | ⟨_, hhere⟩)
      · exact Or.inr hlater
      · exact Or.inl hhere
    · rintro (hhere | hlater)
      · refine Or.inr ⟨?_, hhere⟩
        refine lastBinding_eq_none.mpr fun hk => ?_
        obtain ⟨⟨k', w⟩, hkv, rfl⟩ := List.mem_map.mp hk
        obtain ⟨b, hb, hkv⟩ := List.mem_flatMap.mp hkv
        exact hhead b hb (List.mem_map.mpr ⟨_, mem_of_lastBinding hhere, rfl⟩)
          (List.mem_map.mpr ⟨_, hkv, rfl⟩)
      · exact Or.inl hlater

theorem insertAll_append (m : Map α β) (kvs kvs' : List (α × β)) :
    insertAll m (kvs ++ kvs') = insertAll (insertAll m kvs) kvs' :=
  List.foldl_append

/-! ## Retaining bindings -/

omit [DecidableEq α] in
theorem nodupKeys_filter {s : Multiset (Sigma fun _ : α => β)} (h : s.NodupKeys)
    (p : (Sigma fun _ : α => β) → Bool) : (s.filter fun e => p e = true).NodupKeys := by
  induction s using Quotient.inductionOn with
  | _ l =>
    refine Multiset.coe_nodupKeys.mpr ?_
    exact (Multiset.coe_nodupKeys.mp h).sublist (List.filter_sublist)

/-- The bindings of a map that satisfy a predicate. -/
def retain (p : α → β → Bool) (m : Map α β) : Map α β :=
  ⟨m.entries.filter fun e => p e.1 e.2 = true, nodupKeys_filter m.nodupKeys _⟩

theorem lookup_retain (p : α → β → Bool) (m : Map α β) (k : α) :
    (retain p m).lookup k = (m.lookup k).filter (p k) := by
  refine Option.ext fun v => ?_
  rw [Finmap.lookup_eq_some_iff, Option.filter_eq_some_iff, Finmap.lookup_eq_some_iff]
  unfold retain
  rw [Multiset.mem_filter]

/-! ## Keys and searches -/

/-- The keys of a map are those it has a binding for. -/
theorem mem_keys_iff {m : Map α β} {k : α} : k ∈ m.keys ↔ ∃ v, m.lookup k = some v := by
  rw [Finmap.mem_keys, ← Finmap.lookup_isSome, Option.isSome_iff_exists]

/-- Some binding of a map satisfies a test. -/
theorem any_iff {p : α → β → Bool} {m : Map α β} :
    m.any p = true ↔ ∃ k v, m.lookup k = some v ∧ p k v = true := by
  have hfold : ∀ (l : List (Sigma fun _ : α => β)) (found : Bool),
      l.foldl (fun found e => found || p e.1 e.2) found = true ↔
        found = true ∨ ∃ e ∈ l, p e.1 e.2 = true := by
    intro l
    induction l with
    | nil => simp
    | cons e l ih =>
      intro found
      rw [List.foldl_cons, ih]
      simp [or_assoc]
  obtain ⟨s, hs⟩ := m
  induction s using Quotient.inductionOn with
  | h l =>
    show l.foldl (fun found e => found || p e.1 e.2) false = true ↔ _
    rw [hfold]
    simp only [Finmap.lookup_eq_some_iff]
    simp

theorem keys_insert (m : Map α β) (k : α) (v : β) : (m.insert k v).keys = insert k m.keys := by
  ext k'
  rw [Finset.mem_insert, Finmap.mem_keys, Finmap.mem_keys, Finmap.mem_insert]

/-! ## Iteration in no particular order

    A hash map yields its bindings in an order of its own. What an operation
    does with such an iteration is stated for every order. -/

/-- An order of iteration for every map. -/
structure Iteration (α β : Type*) [DecidableEq α] where
  list : Map α β → List (α × β)
  nodup : ∀ m, ((list m).map Prod.fst).Nodup
  mem_iff : ∀ m k v, (k, v) ∈ list m ↔ m.lookup k = some v

/-! ## Weights -/

/-- Total weight of a map, each binding weighed by `f`. -/
def weightBy (f : α → β → Nat) (m : Map α β) : Nat :=
  (m.entries.map fun e => f e.1 e.2).sum

/-- Total weight of a map, each value weighed by `f`. -/
def weight (f : β → Nat) (m : Map α β) : Nat :=
  (m.entries.map fun e => f e.2).sum

omit [DecidableEq α] in
@[simp] theorem weightBy_empty (f : α → β → Nat) : weightBy f (∅ : Map α β) = 0 := rfl

omit [DecidableEq α] in
@[simp] theorem weight_empty (f : β → Nat) : weight f (∅ : Map α β) = 0 := rfl

/-- The weight held at one key, zero where the map is undefined. -/
def weightAt (f : β → Nat) (m : Map α β) (k : α) : Nat :=
  ((m.lookup k).map f).getD 0

theorem weightBy_insert (f : α → β → Nat) (m : Map α β) (k : α) (v : β) :
    weightBy f (m.insert k v) = f k v + weightBy f (m.erase k) := by
  induction m using Finmap.induction_on with
  | _ s => simp [weightBy, AList.entries_insert, AList.erase]

theorem weightBy_erase (f : α → β → Nat) (m : Map α β) (k : α) :
    weightAt (f k) m k + weightBy f (m.erase k) = weightBy f m := by
  cases h : m.lookup k with
  | none =>
    have herase : m.erase k = m := by
      refine Finmap.ext_lookup fun x => ?_
      rw [lookup_erase_ite]
      split_ifs with hx
      · rw [hx, h]
      · rfl
    simp [weightAt, h, herase]
  | some v =>
    have hinsert : (m.erase k).insert k v = m := by
      refine Finmap.ext_lookup fun x => ?_
      rw [lookup_insert_ite, lookup_erase_ite]
      by_cases hx : k = x
      · rw [if_pos hx, ← hx, h]
      · rw [if_neg hx, if_neg (Ne.symm hx)]
    have herase : (m.erase k).erase k = m.erase k := by
      refine Finmap.ext_lookup fun x => ?_
      rw [lookup_erase_ite]
      split_ifs with hx
      · rw [hx, Finmap.lookup_erase]
      · rfl
    have hw := weightBy_insert f (m.erase k) k v
    rw [hinsert, herase] at hw
    simp [weightAt, h, hw]

/-- Replacing the value at a key moves the weight by the difference. -/
theorem weightBy_insert_add (f : α → β → Nat) (m : Map α β) (k : α) (v : β) :
    weightBy f (m.insert k v) + weightAt (f k) m k = weightBy f m + f k v := by
  have h₁ := weightBy_insert f m k v
  have h₂ := weightBy_erase f m k
  omega

/-- A binding weighs no more than the whole map. -/
theorem weightAt_le_weightBy (f : α → β → Nat) (m : Map α β) (k : α) :
    weightAt (f k) m k ≤ weightBy f m := by
  have h := weightBy_erase f m k
  omega

/-- A map all of whose bindings weigh nothing weighs nothing. -/
theorem weightBy_eq_zero {f : α → β → Nat} {m : Map α β}
    (h : ∀ k v, m.lookup k = some v → f k v = 0) : weightBy f m = 0 := by
  unfold weightBy
  refine Multiset.sum_eq_zero fun n hn => ?_
  obtain ⟨e, he, rfl⟩ := Multiset.mem_map.mp hn
  exact h e.1 e.2 (Finmap.lookup_eq_some_iff.mpr he)

/-- Whatever the order, an iteration weighs as much as the map. -/
theorem Iteration.sum_eq_weightBy (order : Iteration α β) (f : α → β → Nat) (m : Map α β) :
    ((order.list m).map fun e => f e.1 e.2).sum = weightBy f m := by
  have hperm : ((order.list m).map fun e => (⟨e.1, e.2⟩ : Sigma fun _ : α => β) : Multiset _)
      = m.entries := by
    refine (Multiset.Nodup.ext ?_ ?_).mpr fun e => ?_
    · rw [Multiset.coe_nodup]
      refine List.Nodup.of_map Sigma.fst ?_
      rw [List.map_map]
      exact order.nodup m
    · exact m.nodup_entries
    · rw [Multiset.mem_coe, ← Finmap.lookup_eq_some_iff, ← order.mem_iff, List.mem_map]
      constructor
      · rintro ⟨pair, hpair, rfl⟩
        exact hpair
      · intro hmem
        exact ⟨(e.1, e.2), hmem, rfl⟩
  unfold weightBy
  rw [← hperm, Multiset.map_coe, Multiset.sum_coe, List.map_map]
  rfl

theorem weight_insert (f : β → Nat) (m : Map α β) (k : α) (v : β) :
    weight f (m.insert k v) = f v + weight f (m.erase k) :=
  weightBy_insert (fun _ => f) m k v

theorem weight_erase (f : β → Nat) (m : Map α β) (k : α) :
    weightAt f m k + weight f (m.erase k) = weight f m :=
  weightBy_erase (fun _ => f) m k

theorem weight_insert_le (f : β → Nat) (m : Map α β) (k : α) (v : β) :
    weight f (m.insert k v) ≤ weight f m + f v := by
  have h₁ := weight_insert f m k v
  have h₂ := weight_erase f m k
  omega

/-- Bulk insertion adds at most the weight of the inserted values. -/
theorem weight_insertAll_le (f : β → Nat) (m : Map α β) (kvs : List (α × β)) :
    weight f (insertAll m kvs) ≤ weight f m + (kvs.map fun kv => f kv.2).sum := by
  induction kvs generalizing m with
  | nil => simp [insertAll]
  | cons kv kvs ih =>
    have hstep : insertAll m (kv :: kvs) = insertAll (m.insert kv.1 kv.2) kvs := rfl
    have h₁ := ih (m.insert kv.1 kv.2)
    have h₂ := weight_insert_le f m kv.1 kv.2
    rw [hstep, List.map_cons, List.sum_cons]
    omega

/-- Erasing distinct keys removes exactly the weight held at them. -/
theorem weight_eraseAll (f : β → Nat) (m : Map α β) (ks : List α) (hnd : ks.Nodup) :
    (ks.map (weightAt f m)).sum + weight f (eraseAll m ks) = weight f m := by
  induction ks generalizing m with
  | nil => simp [eraseAll]
  | cons k ks ih =>
    obtain ⟨hk, hks⟩ := List.nodup_cons.mp hnd
    have hmap : ks.map (weightAt f m) = ks.map (weightAt f (m.erase k)) := by
      refine List.map_congr_left fun x hx => ?_
      have hne : x ≠ k := fun h => hk (h ▸ hx)
      rw [weightAt, weightAt, Finmap.lookup_erase_ne hne]
    have hstep : eraseAll m (k :: ks) = eraseAll (m.erase k) ks := rfl
    have h₁ := ih (m.erase k) hks
    have h₂ := weight_erase f m k
    rw [hstep, List.map_cons, List.sum_cons, hmap]
    omega

end updates

/-! ## Enumeration in key order -/

section sorted

variable [LinearOrder α]

/-- The elements of a multiset in ascending order. Mathlib's `Multiset.sort` is
    a merge sort by well-founded recursion, which does not reduce. -/
def sortMultiset (s : Multiset α) : List α :=
  Quot.liftOn s (List.insertionSort (· ≤ ·)) fun _ _ hperm =>
    (((List.perm_insertionSort _ _).trans hperm).trans
      (List.perm_insertionSort _ _).symm).eq_of_pairwise'
      (List.pairwise_insertionSort _ _) (List.pairwise_insertionSort _ _)

theorem coe_sortMultiset (s : Multiset α) : (sortMultiset s : Multiset α) = s :=
  Quot.inductionOn s fun l => Quot.sound (List.perm_insertionSort _ l)

theorem sortMultiset_pairwise (s : Multiset α) : (sortMultiset s).Pairwise (· ≤ ·) :=
  Quot.inductionOn s fun l => List.pairwise_insertionSort _ l

/-- The keys of a map in ascending order. -/
def sortedKeys (m : Map α β) : List α := sortMultiset m.keys.val

/-- The bindings of a map, in ascending order of their keys. -/
def sortedEntries (m : Map α β) : List (α × β) :=
  (sortedKeys m).filterMap fun k => (m.lookup k).map (k, ·)

theorem mem_sortedKeys (m : Map α β) (k : α) :
    k ∈ sortedKeys m ↔ (m.lookup k).isSome := by
  unfold sortedKeys
  rw [← Multiset.mem_coe, coe_sortMultiset, Finset.mem_val, Finmap.mem_keys, Finmap.lookup_isSome]

theorem sortedKeys_pairwise (m : Map α β) : (sortedKeys m).Pairwise (· < ·) := by
  have hnd : (sortedKeys m).Nodup := by
    unfold sortedKeys
    rw [← Multiset.coe_nodup, coe_sortMultiset]
    exact m.keys.nodup
  exact ((sortMultiset_pairwise _).and hnd).imp fun h => lt_of_le_of_ne h.1 h.2

/-- Inserting all bindings of a map over another one overrides it. -/
theorem lookup_insertAll_sortedEntries (m m' : Map α β) (k : α) :
    (insertAll m' (sortedEntries m)).lookup k = (m.lookup k).or (m'.lookup k) := by
  rw [lookup_insertAll]
  congr 1
  by_cases hk : (m.lookup k).isSome
  · obtain ⟨v, hv⟩ := Option.isSome_iff_exists.mp hk
    rw [hv]
    refine lastBinding_eq_some ?_ ?_
    · exact List.mem_filterMap.mpr ⟨k, (mem_sortedKeys m k).mpr hk, by simp [hv]⟩
    · intro v' hv'
      obtain ⟨k', _, heq⟩ := List.mem_filterMap.mp hv'
      obtain ⟨w, hw, hkw⟩ := Option.map_eq_some_iff.mp heq
      obtain ⟨rfl, rfl⟩ := Prod.mk.inj hkw
      exact Option.some.inj (hw.symm.trans hv)
  · rw [Option.not_isSome_iff_eq_none.mp hk, lastBinding_eq_none]
    intro hmem
    obtain ⟨⟨k', v⟩, hkv, rfl⟩ := List.mem_map.mp hmem
    obtain ⟨k'', hk'', heq⟩ := List.mem_filterMap.mp hkv
    obtain ⟨w, hw, hkw⟩ := Option.map_eq_some_iff.mp heq
    obtain ⟨rfl, rfl⟩ := Prod.mk.inj hkw
    simp [hw] at hk

theorem mem_sortedEntries (m : Map α β) (k : α) (v : β) :
    (k, v) ∈ sortedEntries m ↔ m.lookup k = some v := by
  unfold sortedEntries
  rw [List.mem_filterMap]
  constructor
  · rintro ⟨k', _, hkv⟩
    obtain ⟨w, hw, heq⟩ := Option.map_eq_some_iff.mp hkv
    obtain ⟨rfl, rfl⟩ := Prod.mk.inj heq
    exact hw
  · intro h
    exact ⟨k, (mem_sortedKeys m k).mpr (by rw [h]; rfl), by rw [h]; rfl⟩

theorem sortedEntries_keys_sublist (m : Map α β) :
    ((sortedEntries m).map Prod.fst).Sublist (sortedKeys m) := by
  unfold sortedEntries
  induction sortedKeys m with
  | nil => simp
  | cons k ks ih =>
    cases h : m.lookup k with
    | none => simpa [h] using ih.cons k
    | some v => simpa [h] using ih.cons_cons k

/-- Iteration in the order of the keys. -/
def Iteration.sorted : Iteration α β where
  list := sortedEntries
  nodup m := (sortedEntries_keys_sublist m).nodup ((sortedKeys_pairwise m).imp fun h => ne_of_lt h)
  mem_iff := mem_sortedEntries

end sorted

/-- A map defined exactly below `n` enumerates as `0, 1, …, n - 1`. -/
theorem sortedKeys_eq_range {m : Map Nat β} {n : Nat}
    (h : ∀ k, (m.lookup k).isSome ↔ k < n) : sortedKeys m = List.range n := by
  refine List.Pairwise.eq_of_mem_iff (sortedKeys_pairwise m) List.pairwise_lt_range ?_
  intro k
  rw [mem_sortedKeys, h, List.mem_range]

end BulkMap
