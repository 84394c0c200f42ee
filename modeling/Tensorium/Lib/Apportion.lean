import Tensorium.Lib.BulkMap

/-! # Apportioning an amount by tallied weights

    Items carry a key and a weight. A tally keeps one 64-bit counter per key; an
    amount is then divided among the keys in proportion to their counters,
    every part rounded down. As long as the weights add up below `2 ^ 64` the
    counters are exact, and the parts never exceed the amount.
-/

namespace Apportion

open BulkMap

variable {α β ι : Type*} [DecidableEq α]

/-! ## Counters -/

/-- Add the weight of an item to the counter of its key, wrapping around. -/
def count (key : ι → α) (w : ι → UInt64) (m : Map α UInt64) (x : ι) : Map α UInt64 :=
  m.insert (key x) ((m.lookup (key x)).getD 0 + w x)

/-- The counters of a list of items. -/
def tally (key : ι → α) (w : ι → UInt64) (items : List ι) : Map α UInt64 :=
  items.foldl (count key w) ∅

theorem weight_count (key : ι → α) {w : ι → UInt64} {m : Map α UInt64} {x : ι}
    (h : weight UInt64.toNat m + (w x).toNat < 2 ^ 64) :
    weight UInt64.toNat (count key w m x) = weight UInt64.toNat m + (w x).toNat := by
  have hnew := weight_insert UInt64.toNat m (key x) ((m.lookup (key x)).getD 0 + w x)
  have hold := weight_erase UInt64.toNat m (key x)
  have hat : weightAt UInt64.toNat m (key x) = ((m.lookup (key x)).getD 0).toNat := by
    unfold weightAt
    cases m.lookup (key x) with
    | none => rfl
    | some v => rfl
  have hsum : ((m.lookup (key x)).getD 0 + w x).toNat
      = ((m.lookup (key x)).getD 0).toNat + (w x).toNat := by
    rw [UInt64.toNat_add]
    apply Nat.mod_eq_of_lt
    omega
  unfold count
  omega

/-- Counters that cannot overflow hold the whole weight between them. -/
theorem weight_tally (key : ι → α) {w : ι → UInt64} {items : List ι}
    (h : (items.map fun x => (w x).toNat).sum < 2 ^ 64) :
    weight UInt64.toNat (tally key w items) = (items.map fun x => (w x).toNat).sum := by
  have hfold : ∀ (l : List ι) (m : Map α UInt64),
      weight UInt64.toNat m + (l.map fun x => (w x).toNat).sum < 2 ^ 64 →
      weight UInt64.toNat (l.foldl (count key w) m)
        = weight UInt64.toNat m + (l.map fun x => (w x).toNat).sum := by
    intro l
    induction l with
    | nil => simp
    | cons x l ih =>
      intro m hm
      rw [List.map_cons, List.sum_cons] at hm ⊢
      have hx := weight_count key (w := w) (m := m) (x := x) (by omega)
      rw [List.foldl_cons, ih _ (by omega), hx]
      omega
  have hempty := hfold items ∅
  rw [weight_empty, Nat.zero_add] at hempty
  exact hempty h

/-- A counter holds what the items of its key weigh. -/
theorem getD_lookup_tally (key : ι → α) {w : ι → UInt64} {items : List ι}
    (h : (items.map fun x => (w x).toNat).sum < 2 ^ 64) (k : α) :
    (((tally key w items).lookup k).getD 0).toNat
      = ((items.filter fun x => key x = k).map fun x => (w x).toNat).sum := by
  -- Induction on the items, for any counters to start from that do not overflow.
  have hfold : ∀ (l : List ι) (m : Map α UInt64),
      ((m.lookup k).getD 0).toNat + (l.map fun x => (w x).toNat).sum < 2 ^ 64 →
      (((l.foldl (count key w) m).lookup k).getD 0).toNat
        = ((m.lookup k).getD 0).toNat
          + ((l.filter fun x => key x = k).map fun x => (w x).toNat).sum := by
    intro l
    induction l with
    | nil => simp
    | cons x l ih =>
      intro m hm
      rw [List.map_cons, List.sum_cons] at hm
      by_cases hkey : key x = k
      · subst hkey
        have hadd : ((m.lookup (key x)).getD 0 + w x).toNat
            = ((m.lookup (key x)).getD 0).toNat + (w x).toNat := by
          rw [UInt64.toNat_add]
          apply Nat.mod_eq_of_lt
          omega
        have hnew : ((count key w m x).lookup (key x)).getD 0
            = (m.lookup (key x)).getD 0 + w x := by
          unfold count
          rw [Finmap.lookup_insert]
          rfl
        rw [List.foldl_cons, ih _ (by rw [hnew, hadd]; omega), hnew, hadd,
          List.filter_cons_of_pos (by simp), List.map_cons, List.sum_cons]
        omega
      · have hold : (count key w m x).lookup k = m.lookup k := by
          unfold count
          rw [lookup_insert_ite, if_neg hkey]
        rw [List.foldl_cons, ih _ (by rw [hold]; omega), hold,
          List.filter_cons_of_neg (by simpa using hkey)]
  have hempty := hfold items ∅
  simp only [Finmap.lookup_empty, Option.getD_none, UInt64.toNat_zero, Nat.zero_add] at hempty
  exact hempty h

/-- There is one counter for each key. -/
theorem keys_tally (key : ι → α) (w : ι → UInt64) (items : List ι) :
    (tally key w items).keys = (items.map key).toFinset := by
  have hfold : ∀ (l : List ι) (m : Map α UInt64),
      (l.foldl (count key w) m).keys = m.keys ∪ (l.map key).toFinset := by
    intro l
    induction l with
    | nil => simp
    | cons x l ih =>
      intro m
      rw [List.foldl_cons, ih, count, keys_insert, List.map_cons, List.toFinset_cons,
        Finset.insert_union, Finset.union_insert]
  have hempty := hfold items ∅
  rw [Finmap.keys_empty, Finset.empty_union] at hempty
  exact hempty

/-! ## Parts -/

/-- An iteration has as many bindings as the map has keys. -/
theorem length_iteration (order : Iteration α β) (m : Map α β) :
    (order.list m).length = m.keys.card := by
  have hkeys : ((order.list m).map Prod.fst).toFinset = m.keys := by
    ext k
    rw [List.mem_toFinset, List.mem_map, mem_keys_iff]
    constructor
    · rintro ⟨⟨k', v⟩, hmem, rfl⟩
      exact ⟨v, (order.mem_iff m k' v).mp hmem⟩
    · rintro ⟨v, hv⟩
      exact ⟨(k, v), (order.mem_iff m k v).mpr hv, rfl⟩
  rw [← hkeys, List.toFinset_card_of_nodup (order.nodup m), List.length_map]

/-- The bindings of a map, in whatever order, weigh what the map weighs. -/
theorem sum_iteration (order : Iteration α β) (m : Map α β) (f : β → Nat) :
    ((order.list m).map fun e => f e.2).sum = weight f m := by
  have hlist : (order.list m : Multiset (α × β)).Nodup :=
    Multiset.coe_nodup.mpr (order.nodup m).of_map
  have hentries : (m.entries.map fun e => (e.1, e.2)).Nodup := by
    refine Multiset.Nodup.map ?_ m.nodupKeys.nodup
    rintro ⟨k, v⟩ ⟨k', v'⟩ heq
    obtain ⟨rfl, rfl⟩ := Prod.mk.inj heq
    rfl
  have hsame : (order.list m : Multiset (α × β)) = m.entries.map fun e => (e.1, e.2) := by
    refine (Multiset.Nodup.ext hlist hentries).mpr ?_
    rintro ⟨k, v⟩
    rw [Multiset.mem_coe, order.mem_iff, Finmap.lookup_eq_some_iff, Multiset.mem_map]
    constructor
    · intro h
      exact ⟨⟨k, v⟩, h, rfl⟩
    · rintro ⟨⟨k', v'⟩, h, heq⟩
      obtain ⟨rfl, rfl⟩ := Prod.mk.inj heq
      exact h
  unfold weight
  rw [← Multiset.sum_coe, ← Multiset.map_coe, hsame, Multiset.map_map]
  rfl

omit [DecidableEq α] in
/-- Distinct items that are all among others weigh no more. -/
theorem sum_map_le_of_nodup (f : α → Nat) {items others : List α} (hnodup : items.Nodup)
    (hsub : items ⊆ others) : (items.map f).sum ≤ (others.map f).sum := by
  obtain ⟨found, hperm, hfound⟩ := hnodup.subperm hsub
  rw [← (hperm.map f).sum_eq]
  exact (hfound.map f).sum_le_sum fun _ _ => Nat.zero_le _

omit [DecidableEq α] in
/-- Parts rounded down never exceed the amount they are parts of. -/
theorem sum_parts_le (amount : Nat) {total : Nat} (hpos : 0 < total) {ws : List Nat}
    (h : ws.sum ≤ total) : (ws.map fun w => amount * w / total).sum ≤ amount := by
  have hscaled : (ws.map fun w => amount * w / total).sum * total ≤ amount * ws.sum := by
    clear h
    induction ws with
    | nil => simp
    | cons w ws ih =>
      have hw := Nat.div_mul_le_self (amount * w) total
      rw [List.map_cons, List.sum_cons, List.sum_cons, Nat.add_mul, Nat.mul_add]
      omega
  apply Nat.le_of_mul_le_mul_right _ hpos
  calc (ws.map fun w => amount * w / total).sum * total
      ≤ amount * ws.sum := hscaled
    _ ≤ amount * total := Nat.mul_le_mul_left amount h

omit [DecidableEq α] in
/-- Parts of the whole rounded down miss the amount by less than one each. -/
theorem lt_sum_parts (amount : Nat) {ws : List Nat} (hpos : 0 < ws.sum) :
    amount < (ws.map fun w => amount * w / ws.sum).sum + ws.length := by
  have hdivision : ∀ (total : Nat) (l : List Nat), 0 < total →
      amount * l.sum + l.length
        ≤ total * (l.map fun w => amount * w / total).sum + l.length * total := by
    intro total l htotal
    induction l with
    | nil => simp
    | cons w l ih =>
      have hquotient := Nat.div_add_mod (amount * w) total
      have hremainder := Nat.mod_lt (amount * w) htotal
      rw [List.map_cons, List.sum_cons, List.sum_cons, List.length_cons, Nat.mul_add,
        Nat.mul_add, Nat.add_mul, Nat.one_mul]
      omega
  have hlength : 0 < ws.length := by
    apply List.length_pos_iff.mpr
    rintro rfl
    exact absurd hpos (lt_irrefl 0)
  have hall := hdivision ws.sum ws hpos
  apply Nat.lt_of_mul_lt_mul_left (a := ws.sum)
  rw [Nat.mul_add, Nat.mul_comm ws.sum ws.length, Nat.mul_comm ws.sum amount]
  omega

end Apportion
