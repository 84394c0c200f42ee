import Mathlib.Algebra.BigOperators.Group.Finset.Basic
import Mathlib.Logic.Relation
import Mathlib.Tactic
import Tensorium.Lib.GuardedRun

/-! # Searches by several workers

    Every worker goes through candidates of its own and tries one after the other.
    The first thing it does with a hit is to raise a flag that the others look at
    between two candidates, and then it writes the hit down. A worker that looks may
    still see the flag as it was before it was raised. In an exclusive search only
    the worker that finds the flag down may write.

    Whatever the interleaving, what is written is a hit, a search in which all have
    left without one had no hit to find, and no run is longer than the candidates
    allow.
-/

namespace ParallelSearch

open GuardedRun

/-- Where a worker is. -/
inductive Phase (α β : Type*) where
  /-- It looks at the flag, and then tries a candidate. -/
  | looking (candidate : α)
  /-- It has a hit, and is about to raise the flag. -/
  | raising (hit : β)
  | writing (hit : β)
  | left

/-- The candidates, in the order each worker takes them, and the hits of each. -/
structure Search (ι α β : Type*) where
  start : ι → Option α
  next : ι → α → Option α
  Yields : ι → α → β → Prop
  exclusive : Bool

structure State (ι α β : Type*) where
  raised : Bool
  winner : Option β
  phase : ι → Phase α β

inductive Event (ι β : Type*) where
  /-- The worker sees the flag and leaves. -/
  | see (i : ι)
  /-- It does not see the flag, and its candidate has a hit. -/
  | hit (i : ι) (b : β)
  /-- It does not see the flag, and its candidate has none. -/
  | miss (i : ι)
  | raise (i : ι)
  | write (i : ι)

namespace Search

variable {ι α β : Type*} [DecidableEq ι] {S : Search ι α β} {s : State ι α β}

/-- The phase in which a worker comes to a candidate, or is done with all. -/
def toward : Option α → Phase α β
  | some a => .looking a
  | none => .left

def init (S : Search ι α β) : State ι α β where
  raised := false
  winner := none
  phase := fun i => toward (S.start i)

def setPhase (s : State ι α β) (i : ι) (phase : Phase α β) : State ι α β :=
  { s with phase := Function.update s.phase i phase }

def step (S : Search ι α β) (s : State ι α β) : Event ι β → State ι α β
  | .see i => setPhase s i .left
  | .hit i b => setPhase s i (.raising b)
  | .miss i =>
    match s.phase i with
    | .looking a => setPhase s i (toward (S.next i a))
    | _ => s
  | .raise i =>
    match s.phase i with
    | .raising b =>
      if S.exclusive && s.raised then setPhase s i .left
      else { setPhase s i (.writing b) with raised := true }
    | _ => s
  | .write i =>
    match s.phase i with
    | .writing b => { setPhase s i .left with winner := some b }
    | _ => s

/-- What a worker may do next. -/
def Enabled (S : Search ι α β) (s : State ι α β) : Event ι β → Prop
  | .see i => s.raised = true ∧ ∃ a, s.phase i = .looking a
  | .hit i b => ∃ a, s.phase i = .looking a ∧ S.Yields i a b
  | .miss i => ∃ a, s.phase i = .looking a ∧ ∀ b, ¬ S.Yields i a b
  | .raise i => ∃ b, s.phase i = .raising b
  | .write i => ∃ b, s.phase i = .writing b

/-- The candidates of a worker. -/
inductive Candidate (S : Search ι α β) (i : ι) : α → Prop where
  | start {a : α} : S.start i = some a → Candidate S i a
  | next {a b : α} : Candidate S i a → S.next i a = some b → Candidate S i b

/-- A hit of one of the candidates. -/
def Hit (S : Search ι α β) (b : β) : Prop := ∃ i a, S.Candidate i a ∧ S.Yields i a b

/-- All workers have left. -/
def Over (s : State ι α β) : Prop := ∀ i, s.phase i = .left

@[simp] theorem setPhase_raised (i : ι) (phase : Phase α β) :
    (setPhase s i phase).raised = s.raised := rfl

@[simp] theorem setPhase_winner (i : ι) (phase : Phase α β) :
    (setPhase s i phase).winner = s.winner := rfl

@[simp] theorem setPhase_self (i : ι) (phase : Phase α β) :
    (setPhase s i phase).phase i = phase := by
  simp [setPhase]

@[simp] theorem setPhase_ne {i j : ι} (phase : Phase α β) (h : j ≠ i) :
    (setPhase s i phase).phase j = s.phase j := by
  simp [setPhase, h]

theorem toward_looking {o : Option α} {a : α} (h : toward (β := β) o = .looking a) : o = some a := by
  cases o with
  | none => cases h
  | some b =>
    obtain rfl := Phase.looking.inj h
    rfl

theorem step_miss {i : ι} {a : α} (h : s.phase i = .looking a) :
    S.step s (.miss i) = setPhase s i (toward (S.next i a)) := by
  simp [step, h]

/-- In an exclusive search, only the first gets past the flag. -/
theorem step_raise_late {i : ι} {b : β} (h : s.phase i = .raising b)
    (hlate : (S.exclusive && s.raised) = true) : S.step s (.raise i) = setPhase s i .left := by
  simp [step, h, hlate]

theorem step_raise {i : ι} {b : β} (h : s.phase i = .raising b)
    (hfirst : (S.exclusive && s.raised) = false) :
    S.step s (.raise i) = { setPhase s i (.writing b) with raised := true } := by
  simp [step, h, hfirst]

theorem step_write {i : ι} {b : β} (h : s.phase i = .writing b) :
    S.step s (.write i) = { setPhase s i .left with winner := some b } := by
  simp [step, h]

/-! ## What is found -/

/-- A candidate is taken after another, or is the same. -/
def Ahead (S : Search ι α β) (i : ι) : α → α → Prop :=
  Relation.ReflTransGen fun a b => S.next i a = some b

/-- A worker has passed no hit of its own by, unless the flag is up. -/
def Fits (S : Search ι α β) (raised : Bool) (i : ι) : Phase α β → Prop
  | .looking a => S.Candidate i a ∧ ∀ c b, S.Candidate i c → S.Yields i c b → S.Ahead i a c
  | .raising b => S.Hit b
  | .writing b => S.Hit b ∧ raised = true
  | .left => raised = true ∨ ∀ c b, S.Candidate i c → ¬ S.Yields i c b

/-- The invariant: the flag stands for a hit that is written or about to be. -/
structure Inv (S : Search ι α β) (s : State ι α β) : Prop where
  phase : ∀ i, S.Fits s.raised i (s.phase i)
  winner : ∀ b, s.winner = some b → S.Hit b
  kept : s.raised = true → s.winner ≠ none ∨ ∃ i b, s.phase i = .writing b
  marked : s.winner ≠ none → s.raised = true

omit [DecidableEq ι] in
/-- Raising the flag takes nothing from the other workers. -/
theorem Fits.raise {raised : Bool} {i : ι} {phase : Phase α β} (h : S.Fits raised i phase) :
    S.Fits true i phase := by
  cases phase with
  | looking a => exact h
  | raising b => exact h
  | writing b => exact ⟨h.1, rfl⟩
  | left => exact Or.inl rfl

omit [DecidableEq ι] in
theorem ahead_of_start {i : ι} {a c : α} (hstart : S.start i = some a) (hc : S.Candidate i c) :
    S.Ahead i a c := by
  induction hc with
  | start hc =>
    obtain rfl := Option.some.inj (hstart.symm.trans hc)
    exact Relation.ReflTransGen.refl
  | next _ hnext ih => exact ih.tail hnext

omit [DecidableEq ι] in
theorem inv_init (S : Search ι α β) : S.Inv S.init where
  phase := by
    intro i
    show S.Fits false i (toward (S.start i))
    cases hstart : S.start i with
    | none =>
      refine Or.inr fun c b hc => ?_
      have hnone : ∀ a, S.Candidate i a → False := by
        intro a ha
        induction ha with
        | start ha => simp [hstart] at ha
        | next _ _ ih => exact ih
      exact absurd hc (hnone c)
    | some a => exact ⟨.start hstart, fun c _ hc _ => ahead_of_start hstart hc⟩
  winner := by
    intro b hb
    cases hb
  kept := by
    intro h
    cases h
  marked := fun h => absurd rfl h

/-- One worker moves on, and nothing else changes. -/
theorem Inv.setPhase (h : S.Inv s) {i : ι} {phase : Phase α β} (hfits : S.Fits s.raised i phase)
    (hwriting : ∀ b, s.phase i ≠ .writing b) : S.Inv (setPhase s i phase) where
  phase := by
    intro j
    by_cases hj : j = i
    · subst hj
      rw [setPhase_self]
      exact hfits
    · rw [setPhase_ne phase hj]
      exact h.phase j
  winner := h.winner
  kept := by
    intro hraised
    rcases h.kept hraised with hwinner | ⟨j, b, hj⟩
    · exact Or.inl hwinner
    · have hji : j ≠ i := by
        rintro rfl
        exact hwriting b hj
      exact Or.inr ⟨j, b, (setPhase_ne phase hji).trans hj⟩
  marked := h.marked

omit [DecidableEq ι] in
/-- What comes next for a worker whose candidate has no hit. -/
theorem fits_toward {raised : Bool} {i : ι} {a : α} (h : S.Fits raised i (.looking a))
    (hmiss : ∀ b, ¬ S.Yields i a b) : S.Fits raised i (toward (S.next i a)) := by
  obtain ⟨ha, hahead⟩ := h
  have hstrict : ∀ c b, S.Candidate i c → S.Yields i c b →
      ∃ d, S.next i a = some d ∧ S.Ahead i d c := by
    intro c b hc hb
    rcases Relation.ReflTransGen.cases_head (hahead c b hc hb) with rfl | ⟨d, hd, hdc⟩
    · exact absurd hb (hmiss b)
    · exact ⟨d, hd, hdc⟩
  cases hnext : S.next i a with
  | none =>
    refine Or.inr fun c b hc hb => ?_
    obtain ⟨d, hd, _⟩ := hstrict c b hc hb
    simp [hnext] at hd
  | some d =>
    refine ⟨.next ha hnext, fun c b hc hb => ?_⟩
    obtain ⟨d', hd', hdc⟩ := hstrict c b hc hb
    obtain rfl := Option.some.inj (hnext.symm.trans hd')
    exact hdc

theorem Inv.step (h : S.Inv s) {e : Event ι β} (he : S.Enabled s e) : S.Inv (S.step s e) := by
  cases e with
  | see i =>
    obtain ⟨hraised, a, ha⟩ := he
    exact h.setPhase (Or.inl hraised) (by simp [ha])
  | hit i b =>
    obtain ⟨a, ha, hb⟩ := he
    have hfits := h.phase i
    rw [ha] at hfits
    exact h.setPhase ⟨i, a, hfits.1, hb⟩ (by simp [ha])
  | miss i =>
    obtain ⟨a, ha, hmiss⟩ := he
    have hfits := h.phase i
    rw [ha] at hfits
    rw [step_miss ha]
    exact h.setPhase (fits_toward hfits hmiss) (by simp [ha])
  | raise i =>
    obtain ⟨b, hb⟩ := he
    have hfits := h.phase i
    rw [hb] at hfits
    cases hlate : S.exclusive && s.raised with
    | true =>
      rw [step_raise_late hb hlate]
      exact h.setPhase (Or.inl (Bool.and_eq_true_iff.mp hlate).2) (by simp [hb])
    | false =>
      rw [step_raise hb hlate]
      constructor
      · intro j
        by_cases hj : j = i
        · subst hj
          show S.Fits true j ((Search.setPhase s j (.writing b)).phase j)
          rw [setPhase_self]
          exact ⟨hfits, rfl⟩
        · show S.Fits true j ((Search.setPhase s i (.writing b)).phase j)
          rw [setPhase_ne _ hj]
          exact (h.phase j).raise
      · exact h.winner
      · intro _
        exact Or.inr ⟨i, b, setPhase_self i _⟩
      · intro _
        rfl
  | write i =>
    obtain ⟨b, hb⟩ := he
    have hfits := h.phase i
    rw [hb] at hfits
    rw [step_write hb]
    constructor
    · intro j
      by_cases hj : j = i
      · subst hj
        show S.Fits s.raised j ((Search.setPhase s j .left).phase j)
        rw [setPhase_self]
        exact Or.inl hfits.2
      · show S.Fits s.raised j ((Search.setPhase s i .left).phase j)
        rw [setPhase_ne _ hj]
        exact h.phase j
    · intro c hc
      obtain rfl := Option.some.inj hc
      exact hfits.1
    · intro _
      exact Or.inl (by simp)
    · intro _
      exact hfits.2

theorem Inv.run {es : List (Event ι β)} (hrun : Along S.step S.Enabled S.init es) :
    S.Inv (es.foldl S.step S.init) :=
  hrun.invariant S.Inv S.inv_init fun _ _ h he => h.step he

omit [DecidableEq ι] in
/-- When all have left, the flag is up exactly if something is written. -/
theorem Inv.raised_iff (h : S.Inv s) (hover : Over s) : s.raised = true ↔ s.winner ≠ none := by
  refine ⟨fun hraised => ?_, h.marked⟩
  rcases h.kept hraised with hwinner | ⟨i, b, hi⟩
  · exact hwinner
  · simp [hover i] at hi

omit [DecidableEq ι] in
/-- Then what is written is a hit, and something is if there was any. -/
theorem Inv.over (h : S.Inv s) (hover : Over s) :
    (∀ b, s.winner = some b → S.Hit b) ∧ (s.winner = none → ∀ b, ¬ S.Hit b) := by
  refine ⟨h.winner, ?_⟩
  intro hnone b hhit
  obtain ⟨i, c, hc, hb⟩ := hhit
  have hfits := h.phase i
  rw [hover i] at hfits
  rcases hfits with hraised | htried
  · exact (h.raised_iff hover).mp hraised hnone
  · exact htried c b hc hb

/-! ## How long it takes -/

omit [DecidableEq ι] in
/-- As long as a worker has not left, there is a step to take. -/
theorem exists_enabled (h : ¬ Over s) : ∃ e, S.Enabled s e := by
  obtain ⟨i, hi⟩ := not_forall.mp h
  cases hphase : s.phase i with
  | looking a =>
    by_cases hyields : ∃ b, S.Yields i a b
    · obtain ⟨b, hb⟩ := hyields
      exact ⟨.hit i b, a, hphase, hb⟩
    · exact ⟨.miss i, a, hphase, not_exists.mp hyields⟩
  | raising b => exact ⟨.raise i, b, hphase⟩
  | writing b => exact ⟨.write i, b, hphase⟩
  | left => exact absurd hphase hi

section Length

variable [Fintype ι] {rank : ι → α → Nat}

/-- The steps a worker has ahead of it, if no candidate `a` of it has more than
    `rank a` behind it. -/
def phaseRank (rank : ι → α → Nat) (i : ι) : Phase α β → Nat
  | .looking a => rank i a + 3
  | .raising _ => 2
  | .writing _ => 1
  | .left => 0

def remaining (rank : ι → α → Nat) (s : State ι α β) : Nat :=
  ∑ i, phaseRank rank i (s.phase i)

theorem remaining_setPhase_lt {i : ι} (phase : Phase α β)
    (hless : phaseRank rank i phase < phaseRank rank i (s.phase i)) :
    remaining rank (setPhase s i phase) < remaining rank s := by
  apply Finset.sum_lt_sum
  · intro j _
    by_cases hj : j = i
    · subst hj
      rw [setPhase_self]
      exact hless.le
    · rw [setPhase_ne phase hj]
  · refine ⟨i, Finset.mem_univ i, ?_⟩
    rwa [setPhase_self]

theorem Inv.remaining_step_lt (h : S.Inv s)
    (hrank : ∀ i a b, S.Candidate i a → S.next i a = some b → rank i b < rank i a)
    {e : Event ι β} (he : S.Enabled s e) : remaining rank (S.step s e) < remaining rank s := by
  cases e with
  | see i =>
    obtain ⟨_, a, ha⟩ := he
    exact remaining_setPhase_lt _ (by simp [ha, phaseRank])
  | hit i b =>
    obtain ⟨a, ha, _⟩ := he
    exact remaining_setPhase_lt _ (by simp [ha, phaseRank])
  | miss i =>
    obtain ⟨a, ha, _⟩ := he
    rw [step_miss ha]
    apply remaining_setPhase_lt
    rw [ha]
    cases hnext : S.next i a with
    | none => simp [toward, phaseRank]
    | some b =>
      have hfits := h.phase i
      rw [ha] at hfits
      have hless := hrank i a b hfits.1 hnext
      simp only [toward, phaseRank]
      omega
  | raise i =>
    obtain ⟨b, hb⟩ := he
    cases hlate : S.exclusive && s.raised with
    | true =>
      rw [step_raise_late hb hlate]
      exact remaining_setPhase_lt _ (by simp [hb, phaseRank])
    | false =>
      rw [step_raise hb hlate]
      exact remaining_setPhase_lt (.writing b) (by simp [hb, phaseRank])
  | write i =>
    obtain ⟨b, hb⟩ := he
    rw [step_write hb]
    exact remaining_setPhase_lt .left (by simp [hb, phaseRank])

/-- No run is longer than what its start has ahead of it. -/
theorem Inv.length_le (h : S.Inv s)
    (hrank : ∀ i a b, S.Candidate i a → S.next i a = some b → rank i b < rank i a) {es : List (Event ι β)} (hrun : Along S.step S.Enabled s es) :
    es.length + remaining rank (es.foldl S.step s) ≤ remaining rank s := by
  induction es generalizing s with
  | nil => simp
  | cons e es ih =>
    have hless := h.remaining_step_lt hrank hrun.1
    have hrest := ih (h.step hrun.1) hrun.2
    rw [List.length_cons, List.foldl_cons]
    omega

/-- Every search can be brought to an end. -/
theorem Inv.exists_over (h : S.Inv s)
    (hrank : ∀ i a b, S.Candidate i a → S.next i a = some b → rank i b < rank i a) : ∃ es, Along S.step S.Enabled s es ∧ Over (es.foldl S.step s) := by
  induction hleft : remaining rank s using Nat.strong_induction_on generalizing s with
  | _ left ih =>
    by_cases hover : Over s
    · exact ⟨[], trivial, hover⟩
    · obtain ⟨e, he⟩ := exists_enabled (S := S) hover
      have hless := h.remaining_step_lt hrank he
      obtain ⟨es, hrun, hend⟩ := ih _ (hleft ▸ hless) (h.step he) rfl
      exact ⟨e :: es, ⟨he, hrun⟩, hend⟩

end Length

end Search

end ParallelSearch
