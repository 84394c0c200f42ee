import Mathlib.Data.List.Basic

/-! # Searching a text for a quoted name

    The first occurrence of a pattern in a text, as `strstr` finds it. A pattern
    between two quotes is found where a part of the text between two quotes is
    the name; text without a quote is skipped, and so is another quoted part,
    provided no name starts right behind it.
-/

namespace Quoted

variable {α : Type*} {q : α} {name s text : List α}

/-- Names without a quote that are followed by one agree as soon as their quoted
    texts do. -/
theorem eq_of_begins (hname : q ∉ name) (hs : q ∉ s)
    (h : name ++ [q] <+: s ++ (q :: text)) : name = s := by
  induction name generalizing s with
  | nil =>
    cases s with
    | nil => rfl
    | cons a s =>
      rw [List.nil_append, List.cons_append, List.cons_prefix_cons] at h
      exact absurd (h.1 ▸ List.mem_cons_self) hs
  | cons b name ih =>
    cases s with
    | nil =>
      rw [List.nil_append, List.cons_append, List.cons_prefix_cons] at h
      exact absurd (h.1 ▸ List.mem_cons_self) hname
    | cons a s =>
      rw [List.cons_append, List.cons_append, List.cons_prefix_cons] at h
      have hrest : name = s :=
        ih (fun hq => hname (List.mem_cons_of_mem b hq)) (fun hq => hs (List.mem_cons_of_mem a hq))
          h.2
      rw [h.1, hrest]

variable [DecidableEq α]

/-- The text from the first occurrence of `pattern` on. -/
def find (pattern : List α) : List α → Option (List α)
  | [] => if pattern = [] then some [] else none
  | a :: text => if pattern.isPrefixOf (a :: text) then some (a :: text) else find pattern text

/-- The text behind the first occurrence of `pattern`. -/
def findPast (pattern text : List α) : Option (List α) :=
  (find pattern text).map fun found => found.drop pattern.length

theorem find_suffix {pattern text found : List α} (h : find pattern text = some found) :
    found <:+ text := by
  induction text with
  | nil =>
    rw [find] at h
    split_ifs at h
    exact Option.some.inj h ▸ List.suffix_rfl
  | cons a text ih =>
    rw [find] at h
    split_ifs at h
    · exact Option.some.inj h ▸ List.suffix_rfl
    · exact (ih h).trans (List.suffix_cons a text)

/-- What a search leaves is the end of the text. -/
theorem findPast_suffix {pattern text rest : List α} (h : findPast pattern text = some rest) :
    rest <:+ text := by
  obtain ⟨found, hfound, rfl⟩ := Option.map_eq_some_iff.mp h
  exact (List.drop_suffix _ _).trans (find_suffix hfound)

/-- `name` between two quotes. -/
def quoted (q : α) (name : List α) : List α := q :: (name ++ [q])

theorem isPrefixOf_quoted_append :
    (quoted q name).isPrefixOf (quoted q name ++ text) = true := by
  rw [List.isPrefixOf_iff_prefix]
  exact List.prefix_append _ _

theorem find_cons_of_ne {a : α} (h : a ≠ q) :
    find (quoted q name) (a :: text) = find (quoted q name) text := by
  have hnot : ¬ (quoted q name).isPrefixOf (a :: text) = true := by
    intro hbegins
    rw [List.isPrefixOf_iff_prefix, quoted, List.cons_prefix_cons] at hbegins
    exact h hbegins.1.symm
  rw [find, if_neg hnot]

/-- Text without a quote is skipped. -/
theorem findPast_skip (h : q ∉ s) :
    findPast (quoted q name) (s ++ text) = findPast (quoted q name) text := by
  induction s with
  | nil => rfl
  | cons a s ih =>
    have ha : a ≠ q := fun hq => h (hq ▸ List.mem_cons_self)
    have hs : q ∉ s := fun hq => h (List.mem_cons_of_mem a hq)
    rw [← ih hs]
    unfold findPast
    rw [List.cons_append, find_cons_of_ne ha]

@[simp] theorem findPast_quoted :
    findPast (quoted q name) (quoted q name ++ text) = some text := by
  have hfind : find (quoted q name) (quoted q name ++ text) = some (quoted q name ++ text) := by
    show find (quoted q name) (q :: ((name ++ [q]) ++ text)) = _
    rw [find, if_pos]
    · rfl
    · exact isPrefixOf_quoted_append
  unfold findPast
  rw [hfind, Option.map_some, List.drop_left]

/-- At a quote, the text up to the next one is the name or is skipped. -/
theorem findPast_part (hname : q ∉ name) (hs : q ∉ s) :
    findPast (quoted q name) (q :: (s ++ (q :: text)))
      = if s = name then some text else findPast (quoted q name) (q :: text) := by
  have htext : quoted q s ++ text = q :: (s ++ (q :: text)) := by simp [quoted]
  split_ifs with hsame
  · rw [← htext, hsame, findPast_quoted]
  · have hopening : ¬ (quoted q name).isPrefixOf (q :: (s ++ (q :: text))) = true := by
      intro hbegins
      rw [List.isPrefixOf_iff_prefix, quoted, List.cons_prefix_cons] at hbegins
      exact hsame (eq_of_begins hname hs hbegins.2).symm
    have hskip : findPast (quoted q name) (q :: (s ++ (q :: text)))
        = findPast (quoted q name) (s ++ (q :: text)) := by
      unfold findPast
      rw [find, if_neg hopening]
    rw [hskip, findPast_skip hs]

/-- No name starts at a quote with something else behind it. -/
theorem findPast_closing {c : α} (hc : c ∉ name) (hcq : c ≠ q) :
    findPast (quoted q name) (q :: (c :: text)) = findPast (quoted q name) (c :: text) := by
  have hclosing : ¬ (quoted q name).isPrefixOf (q :: (c :: text)) = true := by
    intro hbegins
    rw [List.isPrefixOf_iff_prefix, quoted, List.cons_prefix_cons] at hbegins
    cases name with
    | nil =>
      rw [List.nil_append, List.cons_prefix_cons] at hbegins
      exact hcq hbegins.2.1.symm
    | cons b name =>
      rw [List.cons_append, List.cons_prefix_cons] at hbegins
      exact hc (hbegins.2.1 ▸ List.mem_cons_self)
  unfold findPast
  rw [find, if_neg hclosing]

/-- Another quoted part is skipped when what follows it starts no name. -/
theorem findPast_quoted_ne {c : α} (hname : q ∉ name) (hs : q ∉ s) (hne : name ≠ s)
    (hc : c ∉ name) (hcq : c ≠ q) :
    findPast (quoted q name) (quoted q s ++ (c :: text))
      = findPast (quoted q name) (c :: text) := by
  have htext : quoted q s ++ (c :: text) = q :: (s ++ (q :: (c :: text))) := by
    simp [quoted]
  rw [htext, findPast_part hname hs, if_neg hne.symm, findPast_closing hc hcq]

end Quoted
