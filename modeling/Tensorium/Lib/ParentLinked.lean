import Mathlib.Tactic
import Mathlib.Data.Finset.Card

/-! # Parent-linked stores

    A store is a partial function `get : κ → Option β`; every element names
    its parent by key, and a sentinel key `root` marks elements without one.
    `Ancestry get k l` says that following parents from `k` visits exactly the
    elements of `l`, newest first, and stops at an element whose parent is the
    sentinel.

    The walk is deterministic, is not changed by adding elements to the store,
    never visits a key twice, and so is no longer than the store is large. A
    loop that follows parents with that much fuel visits the whole ancestry.
-/

namespace ParentLinked

variable {κ β : Type*} {parent : β → κ} {root : κ}

/-- Following parents from a key visits exactly the listed elements and ends
    at an element whose parent is the sentinel. -/
inductive Ancestry (parent : β → κ) (root : κ) (get : κ → Option β) :
    κ → List β → Prop where
  | genesis {k : κ} {b : β} : get k = some b → parent b = root →
      Ancestry parent root get k [b]
  | child {k : κ} {b : β} {l : List β} : get k = some b → parent b ≠ root →
      Ancestry parent root get (parent b) l → Ancestry parent root get k (b :: l)

/-- One store holds everything another one holds. -/
def Extends (get get' : κ → Option β) : Prop :=
  ∀ k b, get k = some b → get' k = some b

/-- What the larger store lacks, the smaller one lacks too. -/
theorem Extends.eq_none {get get' : κ → Option β} (h : Extends get get') {k : κ}
    (hk : get' k = none) : get k = none := by
  cases hget : get k with
  | none => rfl
  | some b =>
    rw [h k b hget] at hk
    cases hk

namespace Ancestry

variable {get get' : κ → Option β} {k : κ} {b : β} {l l' : List β}

/-- The walk starts with the element stored under the key. -/
theorem head (h : Ancestry parent root get k l) :
    ∃ b l', l = b :: l' ∧ get k = some b := by
  cases h with
  | genesis hk _ => exact ⟨_, [], rfl, hk⟩
  | child hk _ _ => exact ⟨_, _, rfl, hk⟩

theorem get_eq_head? (h : Ancestry parent root get k l) : get k = l.head? := by
  obtain ⟨b, l', rfl, hb⟩ := h.head
  exact hb

/-- What lies behind the first element of a walk. -/
theorem tail (h : Ancestry parent root get k (b :: l)) :
    get k = some b ∧
      ((parent b = root ∧ l = []) ∨
       (parent b ≠ root ∧ Ancestry parent root get (parent b) l)) := by
  cases h with
  | genesis hk hp => exact ⟨hk, Or.inl ⟨hp, rfl⟩⟩
  | child hk hp hl => exact ⟨hk, Or.inr ⟨hp, hl⟩⟩

/-- Two stores that never disagree about a key have the same walk from it. -/
theorem unique_of_agree (h : Ancestry parent root get k l) (h' : Ancestry parent root get' k l')
    (hagree : ∀ k b b', get k = some b → get' k = some b' → b = b') : l = l' := by
  induction h generalizing l' with
  | genesis hk hp =>
    obtain ⟨c, t, rfl, hc⟩ := h'.head
    obtain rfl := hagree _ _ _ hk hc
    rcases h'.tail.2 with ⟨_, rfl⟩ | ⟨hne, _⟩
    · rfl
    · exact absurd hp hne
  | child hk hp _ ih =>
    obtain ⟨c, t, rfl, hc⟩ := h'.head
    obtain rfl := hagree _ _ _ hk hc
    rcases h'.tail.2 with ⟨hroot, _⟩ | ⟨_, ht⟩
    · exact absurd hroot hp
    · rw [ih ht]

/-- The walk is deterministic. -/
theorem unique (h : Ancestry parent root get k l) (h' : Ancestry parent root get k l') :
    l = l' :=
  h.unique_of_agree h' fun _ _ _ hb hb' => Option.some.inj (hb.symm.trans hb')

/-- A walk only depends on the keys it visits. -/
theorem congr (h : Ancestry parent root get k l)
    (hget : ∀ k b, b ∈ l → get k = some b → get' k = some b) :
    Ancestry parent root get' k l := by
  induction h with
  | genesis hk hp => exact .genesis (hget _ _ (by simp) hk) hp
  | child hk hp _ ih =>
    refine .child (hget _ _ (by simp) hk) hp (ih fun k b hb => ?_)
    exact hget k b (List.mem_cons_of_mem _ hb)

theorem mono (h : Ancestry parent root get k l) (hext : Extends get get') :
    Ancestry parent root get' k l :=
  h.congr fun k b _ => hext k b

/-- What is left of a walk at one of its elements is a walk from there. -/
theorem of_suffix (h : Ancestry parent root get k l) (hl : (b :: l') <:+ l) :
    ∃ k', get k' = some b ∧ Ancestry parent root get k' (b :: l') := by
  induction h with
  | genesis hk hp =>
    rcases List.suffix_cons_iff.mp hl with heq | hnil
    · obtain ⟨rfl, rfl⟩ := List.cons.inj heq
      exact ⟨_, hk, .genesis hk hp⟩
    · cases List.suffix_nil.mp hnil
  | child hk hp hwalk ih =>
    rcases List.suffix_cons_iff.mp hl with heq | htail
    · obtain ⟨rfl, rfl⟩ := List.cons.inj heq
      exact ⟨_, hk, .child hk hp hwalk⟩
    · exact ih htail

/-- Every visited element has a walk of its own, a tail of the given one. -/
theorem of_mem (h : Ancestry parent root get k l) (hb : b ∈ l) :
    ∃ k' t, get k' = some b ∧ Ancestry parent root get k' (b :: t) ∧ (b :: t) <:+ l := by
  induction h with
  | genesis hk hp =>
    obtain rfl := List.mem_singleton.mp hb
    exact ⟨_, [], hk, .genesis hk hp, List.suffix_rfl⟩
  | child hk hp hl ih =>
    rcases List.mem_cons.mp hb with rfl | hmem
    · exact ⟨_, _, hk, .child hk hp hl, List.suffix_rfl⟩
    · obtain ⟨k', t, hk', hwalk, hsuff⟩ := ih hmem
      exact ⟨k', t, hk', hwalk, hsuff.trans (List.suffix_cons _ _)⟩

/-- The oldest visited element is the one whose parent is the sentinel. -/
theorem getLast (h : Ancestry parent root get k l) :
    ∃ g, l.getLast? = some g ∧ parent g = root := by
  induction h with
  | genesis _ hp => exact ⟨_, rfl, hp⟩
  | child _ _ hl ih =>
    obtain ⟨g, hg, hroot⟩ := ih
    obtain ⟨c, t, rfl, _⟩ := hl.head
    exact ⟨g, by rw [List.getLast?_cons_cons, hg], hroot⟩

/-- Counted from the oldest element, each element's parent is stored as the
    element before it. -/
theorem link (h : Ancestry parent root get k l) {i : Nat}
    (hb : l.reverse[i + 1]? = some b) : ∃ c, l.reverse[i]? = some c ∧ get (parent b) = some c := by
  induction h with
  | genesis _ _ => simp at hb
  | @child k c t hk hp ht ih =>
    rw [List.reverse_cons] at hb ⊢
    obtain ⟨hi, _⟩ := List.getElem?_eq_some_iff.mp hb
    rw [List.length_append, List.length_reverse, List.length_singleton] at hi
    rw [List.getElem?_append_left (by rw [List.length_reverse]; omega)]
    by_cases hlt : i + 1 < t.length
    · rw [List.getElem?_append_left (by simpa using hlt)] at hb
      exact ih hb
    · -- The newest element of `t` is the parent of `c`.
      obtain ⟨p, t', rfl, hget⟩ := ht.head
      obtain rfl : i = t'.length := by simp at hi hlt; omega
      rw [List.getElem?_append_right (by simp)] at hb
      simp only [List.length_reverse, List.length_cons, Nat.sub_self, List.getElem?_cons_zero,
        Option.some.injEq] at hb
      subst hb
      refine ⟨p, ?_, hget⟩
      rw [List.reverse_cons, List.getElem?_append_right (by simp)]
      simp

/-! ## No key is visited twice -/

/-- The keys a walk looks up, in order. -/
def visited (parent : β → κ) : κ → List β → List κ
  | _, [] => []
  | k, b :: l => k :: visited parent (parent b) l

theorem length_visited (k : κ) (l : List β) : (visited parent k l).length = l.length := by
  induction l generalizing k with
  | nil => rfl
  | cons b l ih => simp [visited, ih]

private theorem of_mem_visited {k' : κ} (h : Ancestry parent root get k l)
    (hk' : k' ∈ visited parent k l) :
    ∃ t, t <:+ l ∧ Ancestry parent root get k' t := by
  induction h with
  | genesis hk hp =>
    obtain rfl : k' = _ := by simpa [visited] using hk'
    exact ⟨_, List.suffix_rfl, .genesis hk hp⟩
  | child hk hp hl ih =>
    rcases List.mem_cons.mp hk' with rfl | hmem
    · exact ⟨_, List.suffix_rfl, .child hk hp hl⟩
    · obtain ⟨t, hsuff, hwalk⟩ := ih hmem
      exact ⟨t, hsuff.trans (List.suffix_cons _ _), hwalk⟩

theorem nodup_visited (h : Ancestry parent root get k l) : (visited parent k l).Nodup := by
  induction h with
  | genesis _ _ => simp [visited]
  | @child k b l hk hp hl ih =>
    refine List.nodup_cons.mpr ⟨fun hmem => ?_, ih⟩
    -- A second visit to `k` would start a strictly shorter walk from `k`.
    obtain ⟨t, hsuff, hwalk⟩ := of_mem_visited hl hmem
    have hfull : Ancestry parent root get k (b :: l) := .child hk hp hl
    have hlen := hsuff.length_le
    rw [hwalk.unique hfull, List.length_cons] at hlen
    omega

/-- A walk is no longer than the set of keys the store defines. -/
theorem length_le_card [DecidableEq κ] (h : Ancestry parent root get k l)
    (keys : Finset κ) (hkeys : ∀ k b, get k = some b → k ∈ keys) :
    l.length ≤ keys.card := by
  have hsub : (visited parent k l).toFinset ⊆ keys := by
    intro k' hk'
    obtain ⟨t, _, hwalk⟩ := of_mem_visited h (List.mem_toFinset.mp hk')
    obtain ⟨b, _, _, hb⟩ := hwalk.head
    exact hkeys k' b hb
  have hcard := Finset.card_le_card hsub
  rwa [List.toFinset_card_of_nodup h.nodup_visited, length_visited] at hcard

end Ancestry

/-! ## Loops that follow parents -/

section loops

variable {σ : Type*} {visit : σ → β → ForInStep σ}

/-- Visit a list of elements until the visitor breaks off. -/
def visitUntil (visit : σ → β → ForInStep σ) : List β → σ → σ
  | [], acc => acc
  | b :: l, acc =>
    match visit acc b with
    | .done acc => acc
    | .yield acc => visitUntil visit l acc

/-- The loop that visits the current element, breaks off if the visitor says
    so, and otherwise goes on with the element stored under its parent's key,
    until there is none. `none` when the fuel runs out first. -/
def walk (parent : β → κ) (get : κ → Option β) (visit : σ → β → ForInStep σ) :
    Nat → Option β → σ → Option σ
  | _, none, acc => some acc
  | 0, some _, _ => none
  | fuel + 1, some b, acc =>
    match visit acc b with
    | .done acc => some acc
    | .yield acc => walk parent get visit fuel (get (parent b)) acc

/-- Along a complete ancestry the loop visits exactly the listed elements. -/
theorem Ancestry.walk_eq {get : κ → Option β} {k : κ} {l : List β}
    (h : Ancestry parent root get k l) (hroot : get root = none) {fuel : Nat}
    (hfuel : l.length ≤ fuel) (acc : σ) :
    walk parent get visit fuel (get k) acc = some (visitUntil visit l acc) := by
  induction h generalizing fuel acc with
  | @genesis k b hk hp =>
    obtain ⟨fuel, rfl⟩ : ∃ n, fuel = n + 1 := ⟨fuel - 1, by simp at hfuel; omega⟩
    rw [hk, walk, visitUntil]
    cases visit acc b with
    | done acc => rfl
    | yield acc =>
      -- The loop goes on with the sentinel, under which nothing is stored.
      rw [hp, hroot]
      simp only [walk, visitUntil]
  | @child k b l hk hp hl ih =>
    obtain ⟨fuel, rfl⟩ : ∃ n, fuel = n + 1 := ⟨fuel - 1, by simp at hfuel; omega⟩
    rw [hk, walk, visitUntil]
    cases visit acc b with
    | done acc => rfl
    | yield acc => exact ih (by simpa using hfuel) acc

/-- A visitor that breaks off exactly at the parentless element folds over the
    whole ancestry. -/
theorem Ancestry.visitUntil_root [DecidableEq κ] {get : κ → Option β} {k : κ} {l : List β}
    (h : Ancestry parent root get k l) (f : σ → β → σ) (acc : σ) :
    visitUntil (fun acc b => if parent b = root then .done (f acc b) else .yield (f acc b)) l acc
      = l.foldl f acc := by
  induction h generalizing acc with
  | genesis _ hp => simp [visitUntil, hp]
  | child _ hp _ ih =>
    rw [visitUntil, if_neg hp, List.foldl_cons]
    exact ih _

end loops

/-! ## Measured stores -/

/-- A store in which every element is either parentless at measure zero or has
    its parent stored, one measure below: walks reach the sentinel. -/
structure Linked (parent : β → κ) (root : κ) (measure : β → Nat)
    (get : κ → Option β) : Prop where
  link : ∀ k b, get k = some b →
    (parent b = root ∧ measure b = 0) ∨
    (parent b ≠ root ∧ ∃ p, get (parent b) = some p ∧ measure b = measure p + 1)

/-- In a linked store every stored element has a complete ancestry, as long as
    its measure says. -/
theorem Linked.exists_ancestry {measure : β → Nat} {get : κ → Option β}
    (h : Linked parent root measure get) {k : κ} {b : β} (hk : get k = some b) :
    ∃ l, Ancestry parent root get k (b :: l) ∧ l.length = measure b := by
  -- Induction on the measure, which falls towards the parent.
  induction hn : measure b generalizing k b with
  | zero =>
    rcases h.link k b hk with ⟨hroot, _⟩ | ⟨_, p, _, hm⟩
    · exact ⟨[], .genesis hk hroot, rfl⟩
    · omega
  | succ n ih =>
    rcases h.link k b hk with ⟨_, hm⟩ | ⟨hne, p, hp, hm⟩
    · omega
    · obtain ⟨l, hl, hlen⟩ := ih hp (by omega)
      exact ⟨p :: l, .child hk hne hl, by simp [hlen]⟩

/-- Along a walk of a linked store the measure falls by one at each element. -/
theorem Linked.measure_get {measure : β → Nat} {get : κ → Option β}
    (h : Linked parent root measure get) {k : κ} {l : List β}
    (hl : Ancestry parent root get k l) {i : Nat} {b : β} (hb : l.reverse[i]? = some b) :
    measure b = i := by
  have hmem : b ∈ l := by
    rw [← List.mem_reverse]
    exact List.mem_of_getElem? hb
  induction hl with
  | genesis hk hp =>
    obtain rfl := List.mem_singleton.mp hmem
    obtain ⟨hi, _⟩ := List.getElem?_eq_some_iff.mp hb
    rcases h.link _ _ hk with ⟨_, hm⟩ | ⟨hne, _⟩
    · simp at hi
      omega
    · exact absurd hp hne
  | @child k c t hk hp ht ih =>
    rw [List.reverse_cons] at hb
    obtain ⟨hi, _⟩ := List.getElem?_eq_some_iff.mp hb
    rw [List.length_append, List.length_reverse, List.length_singleton] at hi
    by_cases hlt : i < t.length
    · rw [List.getElem?_append_left (by simpa using hlt)] at hb
      exact ih hb (by rw [← List.mem_reverse]; exact List.mem_of_getElem? hb)
    · -- The newest element: its measure is the length of its ancestry.
      obtain rfl : i = t.length := by omega
      rw [List.getElem?_append_right (by simp)] at hb
      simp only [List.length_reverse, Nat.sub_self, List.getElem?_cons_zero,
        Option.some.injEq] at hb
      subst hb
      obtain ⟨l, hl, hlen⟩ := h.exists_ancestry hk
      have hfull : Ancestry parent root get k (c :: t) := .child hk hp ht
      have := List.tail_eq_of_cons_eq (hl.unique hfull)
      rw [← this, hlen]

end ParentLinked
