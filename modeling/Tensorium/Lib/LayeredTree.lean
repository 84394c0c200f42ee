import Mathlib.Tactic

/-! # Trees built in layers

    A list is reduced to one value by pairing up its elements, layer after
    layer; the last element of an odd layer is paired with itself. The pairing
    is an arbitrary operation. Taking the free one gives the tree itself, taking
    concatenation gives the list of leaves that the tree has, those repeated
    that stand below the last element of an odd layer. What another operation
    computes is the value of that tree, so it tells two lists apart exactly as
    far as the padded lists of their leaves differ.
-/

namespace LayeredTree

variable {α β : Type*}

/-! ## Layers -/

/-- One pass over a layer. -/
def layer (node : α → α → α) : List α → List α
  | [] => []
  | [a] => [node a a]
  | a :: b :: rest => node a b :: layer node rest

/-- The passes over the layers, down to one element. -/
def loop (node : α → α → α) (d : α) : Nat → List α → α
  | _, [] => d
  | _, [a] => a
  | 0, a :: _ => a
  | fuel + 1, l => loop node d fuel (layer node l)

/-- The value of a whole list; a list is long enough a fuel for itself. -/
def root (node : α → α → α) (d : α) (l : List α) : α := loop node d l.length l

/-- The leaves below a list, as the layers repeat them. -/
def padded (l : List α) : List α := root (· ++ ·) [] (l.map fun a => [a])

theorem length_layer (node : α → α → α) (l : List α) :
    (layer node l).length = (l.length + 1) / 2 := by
  induction l using layer.induct with
  | case1 => simp [layer]
  | case2 a => simp [layer]
  | case3 a b rest ih =>
    simp only [layer, List.length_cons, ih]
    omega

/-- A map between two operations maps layers to layers. -/
theorem layer_map {node : α → α → α} {node' : β → β → β} {f : α → β}
    (hf : ∀ a b, f (node a b) = node' (f a) (f b)) (l : List α) :
    layer node' (l.map f) = (layer node l).map f := by
  induction l using layer.induct with
  | case1 => rfl
  | case2 a => simp [layer, hf]
  | case3 a b rest ih => simp [layer, hf, ih]

/-- A map between two operations maps the value of a list to the value of the
    mapped list. The default plays no part for a list that is not empty. -/
theorem loop_map {node : α → α → α} {node' : β → β → β} {f : α → β}
    (hf : ∀ a b, f (node a b) = node' (f a) (f b)) (d : α) (d' : β) (fuel : Nat) {l : List α}
    (hl : l ≠ []) : loop node' d' fuel (l.map f) = f (loop node d fuel l) := by
  induction fuel generalizing l with
  | zero =>
    match l, hl with
    | [a], _ => rfl
    | a :: b :: rest, _ => rfl
  | succ fuel ih =>
    match l, hl with
    | [a], _ => rfl
    | a :: b :: rest, _ =>
      have hlayer := layer_map hf (a :: b :: rest)
      simp only [List.map_cons] at hlayer
      simp only [List.map_cons, loop, hlayer]
      exact ih (by simp [layer])

/-! ## The free operation -/

/-- A binary tree with values at its leaves. -/
inductive Tree (α : Type*) where
  | leaf (a : α)
  | node (l r : Tree α)

namespace Tree

/-- The value of a tree. -/
def eval (node : α → α → α) : Tree α → α
  | leaf a => a
  | Tree.node l r => node (l.eval node) (r.eval node)

/-- The leaves of a tree. -/
def leaves : Tree α → List α
  | leaf a => [a]
  | node l r => l.leaves ++ r.leaves

/-- The pairs of values that the inner nodes of a tree combine. -/
def pairs (node : α → α → α) : Tree α → List (α × α)
  | leaf _ => []
  | Tree.node l r => (l.eval node, r.eval node) :: (l.pairs node ++ r.pairs node)

/-- All leaves of a tree stand at the same depth. -/
inductive Perfect : Nat → Tree α → Prop
  | leaf (a : α) : Perfect 0 (leaf a)
  | node {k : Nat} {l r : Tree α} (hl : Perfect k l) (hr : Perfect k r) :
      Perfect (k + 1) (node l r)

theorem Perfect.length_leaves {k : Nat} {t : Tree α} (h : t.Perfect k) :
    t.leaves.length = 2 ^ k := by
  induction h with
  | leaf a => rfl
  | node _ _ ihl ihr =>
    simp only [leaves, List.length_append, ihl, ihr]
    ring

/-- Trees of one depth are told apart by their leaves. -/
theorem Perfect.eq_of_leaves {k : Nat} {t t' : Tree α} (h : t.Perfect k) (h' : t'.Perfect k)
    (heq : t.leaves = t'.leaves) : t = t' := by
  induction h generalizing t' with
  | leaf a =>
    cases h' with
    | leaf b =>
      simp only [leaves, List.cons.injEq, and_true] at heq
      rw [heq]
  | node hl hr ihl ihr =>
    cases h' with
    | node hl' hr' =>
      obtain ⟨hleft, hright⟩ := List.append_inj heq (by rw [hl.length_leaves, hl'.length_leaves])
      rw [ihl hl' hleft, ihr hr' hright]

/-- Perfect trees are told apart by their leaves. -/
theorem Perfect.eq_iff_leaves {k k' : Nat} {t t' : Tree α} (h : t.Perfect k) (h' : t'.Perfect k') :
    t = t' ↔ t.leaves = t'.leaves := by
  constructor
  · intro heq
    rw [heq]
  · intro heq
    have hlen : 2 ^ k = 2 ^ k' := by rw [← h.length_leaves, heq, h'.length_leaves]
    obtain rfl := Nat.pow_right_injective le_rfl hlen
    exact h.eq_of_leaves h' heq

/-- An operation that is injective on the pairs of two trees, and whose values
    there are no leaves, tells the trees apart. -/
theorem eq_of_eval {node : α → α → α} {S : Set (α × α)} {L : Set α}
    (hinj : ∀ p ∈ S, ∀ q ∈ S, node p.1 p.2 = node q.1 q.2 → p = q)
    (hleaf : ∀ a ∈ L, ∀ p ∈ S, a ≠ node p.1 p.2) {t t' : Tree α}
    (ht : ∀ p ∈ t.pairs node, p ∈ S) (ht' : ∀ p ∈ t'.pairs node, p ∈ S)
    (hL : ∀ a ∈ t.leaves, a ∈ L) (hL' : ∀ a ∈ t'.leaves, a ∈ L)
    (heq : t.eval node = t'.eval node) : t = t' := by
  induction t generalizing t' with
  | leaf a =>
    cases t' with
    | leaf b => exact congrArg leaf heq
    | node l r =>
      have hne := hleaf a (hL a List.mem_cons_self) _ (ht' _ List.mem_cons_self)
      exact absurd heq hne
  | node l r ihl ihr =>
    simp only [pairs, leaves, List.mem_cons, List.mem_append] at ht hL
    cases t' with
    | leaf b =>
      have hne := hleaf b (hL' b List.mem_cons_self) _ (ht _ (Or.inl rfl))
      exact absurd heq.symm hne
    | node l' r' =>
      simp only [pairs, leaves, List.mem_cons, List.mem_append] at ht' hL'
      obtain ⟨hl, hr⟩ := Prod.mk.inj (hinj _ (ht _ (Or.inl rfl)) _ (ht' _ (Or.inl rfl)) heq)
      have hleft : l = l' := ihl (fun p hp => ht p (Or.inr (Or.inl hp)))
        (fun p hp => ht' p (Or.inr (Or.inl hp))) (fun a ha => hL a (Or.inl ha))
        (fun a ha => hL' a (Or.inl ha)) hl
      have hright : r = r' := ihr (fun p hp => ht p (Or.inr (Or.inr hp)))
        (fun p hp => ht' p (Or.inr (Or.inr hp))) (fun a ha => hL a (Or.inr ha))
        (fun a ha => hL' a (Or.inr ha)) hr
      rw [hleft, hright]

end Tree

/-! ## The tree of a list -/

/-- The tree that the layers of a list build. -/
def tree (d : α) (l : List α) : Tree α := root Tree.node (.leaf d) (l.map .leaf)

/-- An operation computes the value of the tree. -/
theorem eval_tree (node : α → α → α) (d : α) {l : List α} (hl : l ≠ []) :
    (tree d l).eval node = root node d l := by
  have hmap : loop node d l.length ((l.map Tree.leaf).map (Tree.eval node))
      = (loop Tree.node (.leaf d) l.length (l.map Tree.leaf)).eval node :=
    loop_map (fun _ _ => rfl) _ _ _ (by simpa using hl)
  rw [List.map_map] at hmap
  unfold tree root
  rw [List.length_map, ← hmap]
  exact congrArg _ (List.map_id l)

/-- Concatenation computes its leaves. -/
theorem leaves_tree (d : α) {l : List α} (hl : l ≠ []) : (tree d l).leaves = padded l := by
  have hmap : loop (· ++ ·) [] l.length ((l.map Tree.leaf).map Tree.leaves)
      = (loop Tree.node (.leaf d) l.length (l.map Tree.leaf)).leaves :=
    loop_map (fun _ _ => rfl) _ _ _ (by simpa using hl)
  rw [List.map_map] at hmap
  unfold tree padded root
  rw [List.length_map, List.length_map, ← hmap]
  rfl

theorem layer_perfect {k : Nat} {l : List (Tree α)} (h : ∀ t ∈ l, t.Perfect k) :
    ∀ t ∈ layer Tree.node l, t.Perfect (k + 1) := by
  induction l using layer.induct with
  | case1 => simp [layer]
  | case2 a =>
    have ha := h a List.mem_cons_self
    simpa [layer] using Tree.Perfect.node ha ha
  | case3 a b rest ih =>
    intro t ht
    rcases List.mem_cons.mp ht with rfl | hrest
    · exact .node (h a (by simp)) (h b (by simp))
    · exact ih (fun t ht => h t (by simp [ht])) t hrest

theorem loop_perfect {k : Nat} (d : Tree α) {fuel : Nat} {l : List (Tree α)} (hl : l ≠ [])
    (h : ∀ t ∈ l, t.Perfect k) : ∃ k, (loop Tree.node d fuel l).Perfect k := by
  induction fuel generalizing k l with
  | zero =>
    match l, hl with
    | [a], _ => exact ⟨k, h a (by simp)⟩
    | a :: b :: rest, _ => exact ⟨k, h a (by simp)⟩
  | succ fuel ih =>
    match l, hl with
    | [a], _ => exact ⟨k, h a (by simp)⟩
    | a :: b :: rest, _ => exact ih (by simp [layer]) (layer_perfect h)

/-- The leaves of the tree of a list stand at one depth. -/
theorem tree_perfect (d : α) {l : List α} (hl : l ≠ []) : ∃ k, (tree d l).Perfect k := by
  refine loop_perfect (k := 0) _ (by simpa using hl) fun t ht => ?_
  obtain ⟨a, _, rfl⟩ := List.mem_map.mp ht
  exact .leaf a

/-! ## The pairs that are combined -/

/-- The pairs one pass combines. -/
def layerPairs : List α → List (α × α)
  | [] => []
  | [a] => [(a, a)]
  | a :: b :: rest => (a, b) :: layerPairs rest

/-- The pairs all passes combine. -/
def loopPairs (node : α → α → α) : Nat → List α → List (α × α)
  | _, [] => []
  | _, [_] => []
  | 0, _ => []
  | fuel + 1, l => layerPairs l ++ loopPairs node fuel (layer node l)

theorem layer_pairs_subset {node : α → α → α} {S : Set (α × α)} {l : List (Tree α)}
    (hl : ∀ t ∈ l, ∀ p ∈ t.pairs node, p ∈ S)
    (hpairs : ∀ p ∈ layerPairs (l.map (Tree.eval node)), p ∈ S) :
    ∀ t ∈ layer Tree.node l, ∀ p ∈ t.pairs node, p ∈ S := by
  induction l using layer.induct with
  | case1 => simp [layer]
  | case2 a =>
    intro t ht p hp
    obtain rfl := List.mem_singleton.mp ht
    simp only [Tree.pairs, List.mem_cons, List.mem_append, or_self] at hp
    rcases hp with rfl | hp
    · exact hpairs _ List.mem_cons_self
    · exact hl a List.mem_cons_self p hp
  | case3 a b rest ih =>
    intro t ht p hp
    rcases List.mem_cons.mp ht with rfl | hrest
    · simp only [Tree.pairs, List.mem_cons, List.mem_append] at hp
      rcases hp with rfl | hp | hp
      · exact hpairs _ List.mem_cons_self
      · exact hl a (by simp) p hp
      · exact hl b (by simp) p hp
    · exact ih (fun t ht => hl t (by simp [ht])) (fun p hp => hpairs p (List.mem_cons_of_mem _ hp))
        t hrest p hp

theorem loop_pairs_subset {node : α → α → α} {S : Set (α × α)} (d : Tree α) {fuel : Nat}
    {l : List (Tree α)} (hne : l ≠ []) (hl : ∀ t ∈ l, ∀ p ∈ t.pairs node, p ∈ S)
    (hpairs : ∀ p ∈ loopPairs node fuel (l.map (Tree.eval node)), p ∈ S) :
    ∀ p ∈ (loop Tree.node d fuel l).pairs node, p ∈ S := by
  induction fuel generalizing l with
  | zero =>
    match l, hne with
    | [a], _ => exact hl a (by simp)
    | a :: b :: rest, _ => exact hl a (by simp)
  | succ fuel ih =>
    match l, hne with
    | [a], _ => exact hl a (by simp)
    | a :: b :: rest, _ =>
      have hmap : layer node ((a :: b :: rest).map (Tree.eval node))
          = (layer Tree.node (a :: b :: rest)).map (Tree.eval node) :=
        layer_map (fun _ _ => rfl) _
      simp only [List.map_cons, loopPairs, List.mem_append] at hpairs hmap
      refine ih (by simp [layer]) (layer_pairs_subset hl fun p hp => hpairs p (Or.inl hp)) ?_
      rw [← hmap]
      exact fun p hp => hpairs p (Or.inr hp)

/-- The inner nodes of the tree combine the pairs of the passes. -/
theorem tree_pairs_subset (node : α → α → α) (d : α) {l : List α} (hl : l ≠ []) :
    ∀ p ∈ (tree d l).pairs node, p ∈ loopPairs node l.length l := by
  unfold tree root
  rw [List.length_map]
  refine loop_pairs_subset (S := {p | p ∈ loopPairs node l.length l}) _ (by simpa using hl) ?_ ?_
  · intro t ht p hp
    obtain ⟨a, _, rfl⟩ := List.mem_map.mp ht
    cases hp
  · rw [List.map_map]
    intro p hp
    rwa [show (Tree.eval node ∘ Tree.leaf) = (id : α → α) from rfl, List.map_id] at hp

/-! ## Lists of one length

    Their trees have one shape, so that a leaf need not be told from the value
    of an inner node. -/

/-- Layers of one length with the same nodes above them are the same. -/
theorem layer_inj {node : α → α → α} {S : Set (α × α)}
    (hinj : ∀ p ∈ S, ∀ q ∈ S, node p.1 p.2 = node q.1 q.2 → p = q) {l l' : List α}
    (hlen : l.length = l'.length) (hS : ∀ p ∈ layerPairs l, p ∈ S)
    (hS' : ∀ p ∈ layerPairs l', p ∈ S) (h : layer node l = layer node l') : l = l' := by
  -- Induction along the pairing; the lone last element is paired with itself.
  induction l using layer.induct generalizing l' with
  | case1 => exact (List.length_eq_zero_iff.mp hlen.symm).symm
  | case2 a =>
    obtain ⟨b, rfl⟩ := List.length_eq_one_iff.mp hlen.symm
    have hpair := hinj _ (hS _ List.mem_cons_self) _ (hS' _ List.mem_cons_self) (List.cons.inj h).1
    rw [(Prod.mk.inj hpair).1]
  | case3 a b rest ih =>
    match l', hlen, hS', h with
    | a' :: b' :: rest', hlen, hS', h =>
      obtain ⟨hnode, hrest⟩ := List.cons.inj h
      obtain ⟨rfl, rfl⟩ := Prod.mk.inj
        (hinj _ (hS _ List.mem_cons_self) _ (hS' _ List.mem_cons_self) hnode)
      have htail := ih (by simpa using hlen) (fun p hp => hS p (List.mem_cons_of_mem _ hp))
        (fun p hp => hS' p (List.mem_cons_of_mem _ hp)) hrest
      rw [htail]

/-- The passes tell lists of one length apart. -/
theorem loop_inj {node : α → α → α} {S : Set (α × α)} {d : α}
    (hinj : ∀ p ∈ S, ∀ q ∈ S, node p.1 p.2 = node q.1 q.2 → p = q) {fuel : Nat} {l l' : List α}
    (hlen : l.length = l'.length) (hfuel : l.length ≤ fuel)
    (hS : ∀ p ∈ loopPairs node fuel l, p ∈ S) (hS' : ∀ p ∈ loopPairs node fuel l', p ∈ S)
    (h : loop node d fuel l = loop node d fuel l') : l = l' := by
  induction fuel generalizing l l' with
  | zero =>
    rw [List.length_eq_zero_iff.mp (Nat.le_zero.mp hfuel)] at hlen ⊢
    exact (List.length_eq_zero_iff.mp hlen.symm).symm
  | succ fuel ih =>
    match l, l', hlen, hfuel, hS, hS', h with
    | [], [], _, _, _, _, _ => rfl
    | [a], [b], _, _, _, _, h => exact congrArg (fun x => [x]) h
    | a :: b :: l, a' :: b' :: l', hlen, hfuel, hS, hS', h =>
      -- Layers of one length have upper layers of one length.
      have hlayer : layer node (a :: b :: l) = layer node (a' :: b' :: l') := by
        refine ih ?_ ?_ (fun p hp => hS p (List.mem_append_right _ hp))
          (fun p hp => hS' p (List.mem_append_right _ hp)) h
        · rw [length_layer, length_layer, hlen]
        · rw [length_layer]
          simp only [List.length_cons] at hfuel ⊢
          omega
      exact layer_inj hinj hlen (fun p hp => hS p (List.mem_append_left _ hp))
        (fun p hp => hS' p (List.mem_append_left _ hp)) hlayer

/-! ## Padded lists -/

theorem mem_layer_append {l : List (List α)} {a : α} :
    (∃ x ∈ layer (· ++ ·) l, a ∈ x) ↔ ∃ x ∈ l, a ∈ x := by
  induction l using layer.induct with
  | case1 => simp [layer]
  | case2 a => simp [layer]
  | case3 a b rest ih => simp [layer, ih, or_assoc]

theorem mem_loop_append {fuel : Nat} {l : List (List α)} {a : α}
    (h : a ∈ loop (· ++ ·) [] fuel l) : ∃ x ∈ l, a ∈ x := by
  induction fuel generalizing l with
  | zero =>
    match l with
    | [] => cases h
    | [x] => exact ⟨x, by simp, h⟩
    | x :: y :: rest => exact ⟨x, by simp, h⟩
  | succ fuel ih =>
    match l with
    | [] => cases h
    | [x] => exact ⟨x, by simp, h⟩
    | x :: y :: rest => exact mem_layer_append.mp (ih h)

/-- Padding repeats leaves that are there. -/
theorem mem_of_mem_padded {l : List α} {a : α} (h : a ∈ padded l) : a ∈ l := by
  obtain ⟨x, hx, ha⟩ := mem_loop_append h
  obtain ⟨b, hb, rfl⟩ := List.mem_map.mp hx
  obtain rfl := List.mem_singleton.mp ha
  exact hb

theorem flatten_prefix_layer (l : List (List α)) : l.flatten <+: (layer (· ++ ·) l).flatten := by
  induction l using layer.induct with
  | case1 => simp [layer]
  | case2 a => simp [layer]
  | case3 a b rest ih => simpa [layer] using ih

/-- Padding writes behind the list, given enough passes. -/
theorem flatten_prefix_loop {fuel : Nat} {l : List (List α)} (hfuel : l.length ≤ fuel) :
    l.flatten <+: loop (· ++ ·) [] fuel l := by
  induction fuel generalizing l with
  | zero => simp [List.length_eq_zero_iff.mp (Nat.le_zero.mp hfuel)]
  | succ fuel ih =>
    match l, hfuel with
    | [], _ => simp
    | [x], _ => simp [loop]
    | x :: y :: rest, hfuel =>
      refine (flatten_prefix_layer _).trans (ih ?_)
      rw [length_layer]
      simp only [List.length_cons] at hfuel ⊢
      omega

theorem prefix_padded (l : List α) : l <+: padded l := by
  have h : (l.map fun a => [a]).flatten <+: padded l := by
    refine flatten_prefix_loop ?_
    rw [List.length_map]
  rwa [← List.flatMap_def, List.flatMap_singleton'] at h

/-! ## What the value of a list commits to -/

/-- **Two lists have the same value exactly when their padded lists are the
    same**, for an operation that is injective on the pairs it combines and
    whose values are no leaves. -/
theorem root_eq_iff {node : α → α → α} {S : Set (α × α)} {L : Set α} (d : α)
    (hinj : ∀ p ∈ S, ∀ q ∈ S, node p.1 p.2 = node q.1 q.2 → p = q)
    (hleaf : ∀ a ∈ L, ∀ p ∈ S, a ≠ node p.1 p.2) {l l' : List α} (hl : l ≠ []) (hl' : l' ≠ [])
    (hS : ∀ p ∈ loopPairs node l.length l, p ∈ S)
    (hS' : ∀ p ∈ loopPairs node l'.length l', p ∈ S) (hL : ∀ a ∈ l, a ∈ L)
    (hL' : ∀ a ∈ l', a ∈ L) : root node d l = root node d l' ↔ padded l = padded l' := by
  obtain ⟨k, hk⟩ := tree_perfect d hl
  obtain ⟨k', hk'⟩ := tree_perfect d hl'
  have htree : tree d l = tree d l' ↔ padded l = padded l' := by
    rw [hk.eq_iff_leaves hk', leaves_tree d hl, leaves_tree d hl']
  rw [← eval_tree node d hl, ← eval_tree node d hl', ← htree]
  constructor
  · refine Tree.eq_of_eval hinj hleaf ?_ ?_ ?_ ?_
    · exact fun p hp => hS p (tree_pairs_subset node d hl p hp)
    · exact fun p hp => hS' p (tree_pairs_subset node d hl' p hp)
    · intro a ha
      rw [leaves_tree d hl] at ha
      exact hL a (mem_of_mem_padded ha)
    · intro a ha
      rw [leaves_tree d hl'] at ha
      exact hL' a (mem_of_mem_padded ha)
  · intro heq
    rw [heq]

/-- Lists with the same padded list are the same if they have the same length,
    or if neither repeats an element. -/
theorem eq_of_padded {l l' : List α} (h : padded l = padded l')
    (hor : l.length = l'.length ∨ (l.Nodup ∧ l'.Nodup)) : l = l' := by
  have hpre : l <+: padded l' := h ▸ prefix_padded l
  rcases hor with hlen | ⟨hnd, hnd'⟩
  · exact (List.prefix_of_prefix_length_le hpre (prefix_padded l') hlen.le).eq_of_length hlen
  · -- A longer list without repetitions would have an element the other lacks.
    have hsub : ∀ {x y : List α}, padded x = padded y → ∀ a ∈ x, a ∈ y := by
      intro x y hxy a ha
      exact mem_of_mem_padded (hxy ▸ (prefix_padded x).subset ha)
    have hlen : l.length = l'.length :=
      le_antisymm (hnd.subperm (hsub h)).length_le (hnd'.subperm (hsub h.symm)).length_le
    exact (List.prefix_of_prefix_length_le hpre (prefix_padded l') hlen.le).eq_of_length hlen

end LayeredTree
