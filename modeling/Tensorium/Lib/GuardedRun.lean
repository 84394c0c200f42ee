import Mathlib.Tactic

/-! # Guarded runs of a deterministic step function

    A system is an initial state and a step function over inputs; a guard
    says which inputs a run may take in which state. A state is reachable if
    some sequence of guarded inputs leads to it.
-/

namespace GuardedRun

variable {σ ι : Type*} {step : σ → ι → σ} {guard : σ → ι → Prop} {init : σ}

/-- States reached from `init` by inputs that meet the guard. -/
inductive Reachable (step : σ → ι → σ) (guard : σ → ι → Prop) (init : σ) : σ → Prop where
  | init : Reachable step guard init init
  | step {s : σ} (i : ι) : Reachable step guard init s → guard s i →
      Reachable step guard init (step s i)

/-- The invariant rule: what holds initially and is kept by every guarded step
    holds in every reachable state. -/
theorem Reachable.invariant {s : σ} (h : Reachable step guard init s) (I : σ → Prop)
    (hinit : I init) (hstep : ∀ s i, I s → guard s i → I (step s i)) : I s := by
  induction h with
  | init => exact hinit
  | step i _ hg ih => exact hstep _ i ih hg

/-! ## Finite runs -/

/-- Every input of a run meets a condition in the state it is taken in. -/
def Along (step : σ → ι → σ) (cond : σ → ι → Prop) : σ → List ι → Prop
  | _, [] => True
  | s, i :: is => cond s i ∧ Along step cond (step s i) is

instance Along.decidable {cond : σ → ι → Prop} [∀ s i, Decidable (cond s i)] :
    (s : σ) → (is : List ι) → Decidable (Along step cond s is)
  | _, [] => .isTrue trivial
  | s, i :: is =>
    have : Decidable (Along step cond (step s i) is) := Along.decidable (step s i) is
    inferInstanceAs (Decidable (cond s i ∧ Along step cond (step s i) is))

/-- What holds at the start of a run and is kept by every input that meets the
    condition holds at its end. -/
theorem Along.invariant {cond : σ → ι → Prop} {is : List ι} {s : σ} (h : Along step cond s is)
    (I : σ → Prop) (hstart : I s) (hstep : ∀ s i, I s → cond s i → I (step s i)) :
    I (is.foldl step s) := by
  induction is generalizing s with
  | nil => exact hstart
  | cons i is ih => exact ih h.2 (hstep s i hstart h.1)

theorem Along.imp {cond cond' : σ → ι → Prop} {is : List ι} {s : σ} (h : Along step cond s is)
    (himp : ∀ s i, cond s i → cond' s i) : Along step cond' s is := by
  induction is generalizing s with
  | nil => trivial
  | cons i is ih => exact ⟨himp s i h.1, ih h.2⟩

theorem Along.and {cond cond' : σ → ι → Prop} {is : List ι} {s : σ} (h : Along step cond s is)
    (h' : Along step cond' s is) : Along step (fun s i => cond s i ∧ cond' s i) s is := by
  induction is generalizing s with
  | nil => trivial
  | cons i is ih => exact ⟨⟨h.1, h'.1⟩, ih h.2 h'.2⟩

/-- If every input that meets the condition is matched by one of another system, the
    runs of the first are as long as runs of the second. -/
theorem Along.simulate {σ' ι' : Type*} {step' : σ' → ι' → σ'} {cond : σ → ι → Prop}
    {cond' : σ' → ι' → Prop} {is : List ι} {s : σ} {s' : σ'} (h : Along step cond s is)
    (R : σ → σ' → Prop) (hstep : ∀ s s' i, R s s' → cond s i →
      ∃ i', cond' s' i' ∧ R (step s i) (step' s' i')) (hstart : R s s') :
    ∃ is', is'.length = is.length ∧ Along step' cond' s' is' ∧
      R (is.foldl step s) (is'.foldl step' s') := by
  induction is generalizing s s' with
  | nil => exact ⟨[], rfl, trivial, hstart⟩
  | cons i is ih =>
    obtain ⟨i', hi', hR⟩ := hstep s s' i hstart h.1
    obtain ⟨is', hlength, halong, hend⟩ := ih h.2 hR
    exact ⟨i' :: is', by simp [hlength], ⟨hi', halong⟩, hend⟩

theorem along_append {cond : σ → ι → Prop} {is js : List ι} {s : σ} :
    Along step cond s (is ++ js) ↔ Along step cond s is ∧ Along step cond (is.foldl step s) js := by
  induction is generalizing s with
  | nil => exact (and_iff_right trivial).symm
  | cons i is ih =>
    show cond s i ∧ Along step cond (step s i) (is ++ js) ↔ _
    rw [ih, ← and_assoc]
    rfl

/-- Every input of a run, in the state that the inputs before it lead to. -/
theorem along_iff {cond : σ → ι → Prop} {is : List ι} {s : σ} :
    Along step cond s is ↔ ∀ a i b, is = a ++ i :: b → cond (a.foldl step s) i := by
  induction is generalizing s with
  | nil =>
    constructor
    · intro _ a i b h
      simp at h
    · intro _
      trivial
  | cons j is ih =>
    constructor
    · rintro ⟨hj, hrest⟩ a i b h
      cases a with
      | nil =>
        obtain ⟨rfl, rfl⟩ := List.cons.inj h
        exact hj
      | cons j' a =>
        obtain ⟨rfl, htail⟩ := List.cons.inj h
        exact ih.mp hrest a i b htail
    · intro h
      refine ⟨h [] j is rfl, ih.mpr ?_⟩
      intro a i b htail
      exact h (j :: a) i b (by rw [htail]; rfl)

/-- One condition implies another in every state with an invariant that the inputs
    which meet it keep. -/
theorem Along.imp_keeping {cond cond' : σ → ι → Prop} {is : List ι} {s : σ}
    (h : Along step cond s is) (I : σ → Prop) (hstart : I s)
    (hstep : ∀ s i, I s → cond s i → I (step s i)) (himp : ∀ s i, I s → cond s i → cond' s i) :
    Along step cond' s is := by
  induction is generalizing s with
  | nil => trivial
  | cons i is ih => exact ⟨himp s i hstart h.1, ih h.2 (hstep s i hstart h.1)⟩

/-- Two conditions that mean the same in every state with an invariant, which the
    inputs that meet them keep. -/
theorem along_congr_keeping {cond cond' : σ → ι → Prop} {is : List ι} {s : σ} (I : σ → Prop)
    (hstart : I s) (hstep : ∀ s i, I s → cond s i → I (step s i))
    (h : ∀ s i, I s → (cond s i ↔ cond' s i)) :
    Along step cond s is ↔ Along step cond' s is := by
  constructor
  · intro halong
    exact halong.imp_keeping I hstart hstep fun s i hs => (h s i hs).mp
  · intro halong
    exact halong.imp_keeping I hstart (fun s i hs hcond => hstep s i hs ((h s i hs).mpr hcond))
      fun s i hs => (h s i hs).mpr

/-- Two conditions that mean the same in every state with an invariant. -/
theorem along_congr {cond cond' : σ → ι → Prop} {is : List ι} {s : σ} (I : σ → Prop)
    (hstart : I s) (hstep : ∀ s i, I s → I (step s i))
    (h : ∀ s i, I s → (cond s i ↔ cond' s i)) :
    Along step cond s is ↔ Along step cond' s is :=
  along_congr_keeping I hstart (fun s i hs _ => hstep s i hs) h

/-- A preorder that every step respects holds between any two states of the run,
    and conversely. -/
theorem along_rel_iff {R : σ → σ → Prop} (hrefl : ∀ s, R s s)
    (htrans : ∀ s t u, R s t → R t u → R s u) {is : List ι} {s : σ} :
    Along step (fun s i => R s (step s i)) s is ↔
      ∀ a b c, is = a ++ b ++ c → R (a.foldl step s) ((a ++ b).foldl step s) := by
  rw [along_iff]
  constructor
  · intro h a b
    induction b using List.reverseRecOn with
    | nil =>
      intro c _
      rw [List.append_nil]
      exact hrefl _
    | append_singleton b i ih =>
      intro c hc
      have hsplit : is = (a ++ b) ++ i :: c := by
        rw [hc]
        simp
      have hlast := h (a ++ b) i c hsplit
      rw [← List.append_assoc, List.foldl_append, List.foldl_cons, List.foldl_nil]
      exact htrans _ _ _ (ih (i :: c) (by rw [hsplit])) hlast
  · intro h a i b hb
    have hone := h a [i] b (by rw [hb]; simp)
    rwa [List.foldl_append, List.foldl_cons, List.foldl_nil] at hone

/-- What holds at the start of a run and is kept by every step holds at its end. -/
theorem foldl_invariant {is : List ι} {s : σ} (I : σ → Prop) (hstart : I s)
    (hstep : ∀ s i, I s → I (step s i)) : I (is.foldl step s) := by
  induction is generalizing s with
  | nil => exact hstart
  | cons i is ih => exact ih (hstep s i hstart)

/-! ## Outputs -/

variable {β γ : Type*}

/-- What the steps of a run put out, in order. -/
def outputs (step : σ → ι → σ) (out : σ → ι → List β) : σ → List ι → List β
  | _, [] => []
  | s, i :: is => out s i ++ outputs step out (step s i) is

/-- A part of the state that takes in the output of every step has taken in the
    outputs of the run. -/
theorem foldl_outputs {out : σ → ι → List β} (f : σ → γ) (g : γ → β → γ)
    (hstep : ∀ s i, f (step s i) = (out s i).foldl g (f s)) (s : σ) (is : List ι) :
    f (is.foldl step s) = (outputs step out s is).foldl g (f s) := by
  induction is generalizing s with
  | nil => rfl
  | cons i is ih =>
    show f (is.foldl step (step s i)) = (out s i ++ outputs step out (step s i) is).foldl g (f s)
    rw [ih, hstep, List.foldl_append]

/-- If every step puts out what it takes in or keeps it in the state, so does
    the run. -/
theorem perm_outputs {inp out : σ → ι → List β} (held : σ → List β)
    (hstep : ∀ s i, (out s i ++ held (step s i)).Perm (inp s i ++ held s)) (s : σ)
    (is : List ι) :
    (outputs step out s is ++ held (is.foldl step s)).Perm
      (outputs step inp s is ++ held s) := by
  induction is generalizing s with
  | nil => exact List.Perm.refl _
  | cons i is ih =>
    show ((out s i ++ outputs step out (step s i) is) ++ held (is.foldl step (step s i))).Perm
      ((inp s i ++ outputs step inp (step s i) is) ++ held s)
    calc ((out s i ++ outputs step out (step s i) is) ++ held (is.foldl step (step s i))).Perm
          (out s i ++ (outputs step inp (step s i) is ++ held (step s i))) := by
          rw [List.append_assoc]
          exact (ih (step s i)).append_left _
      List.Perm _ (outputs step inp (step s i) is ++ (out s i ++ held (step s i))) := by
          rw [← List.append_assoc, ← List.append_assoc]
          exact List.perm_append_comm.append_right _
      List.Perm _ (outputs step inp (step s i) is ++ (inp s i ++ held s)) :=
          (hstep s i).append_left _
      List.Perm _ ((inp s i ++ outputs step inp (step s i) is) ++ held s) := by
          rw [← List.append_assoc]
          exact List.perm_append_comm.append_right _

end GuardedRun
