import Mathlib.Tactic

/-! # Catching up by position

    A loop copies a remote sequence, of which a start is stored already, into a
    local store. It asks for a batch of elements from a position on, stores
    those that pass, and goes on behind the local end. That end is where the
    remote sequence has been stored to once the copy *wins*; before, it is the
    end of the local sequence, which does not move. When a batch starts beyond
    what is stored, the loop goes back by one position, a bounded number of
    times.

    `halts_iff` says exactly when the loop ends, and `run_ends` how.
-/

namespace CatchUp

/-- What the course of the loop depends on. -/
structure Setting where
  /-- The number of elements of the remote sequence. -/
  length : Nat
  /-- The position at which the loop is content. -/
  goal : Nat
  /-- How many elements are asked for at once. -/
  batch : Nat
  /-- How many steps back are allowed. -/
  depth : Nat
  /-- The position of the local end at the start. -/
  base : Nat
  /-- Whether new elements are looked at. -/
  ready : Prop
  /-- Whether an element is stored when the one before it is. -/
  passes : Nat → Prop
  /-- Whether the local sequence is the remote one, once it is stored up to a
      position. -/
  wins : Nat → Prop

/-- Where the loop is: the last stored position, the position to ask for, and
    the steps back so far. -/
structure Loop where
  known : Nat
  fetchFrom : Nat
  back : Nat

/-- How one round ends. -/
inductive Round where
  | done (ok : Bool) (known : Nat)
  | again (st : Loop)

namespace Setting

open Classical in
/-- Store `count` elements from position `j` on, up to the first that does not
    pass. -/
noncomputable def store (S : Setting) : Nat → Nat → Nat → Nat × Bool
  | 0, _, known => (known, true)
  | count + 1, j, known =>
    if j ≤ known then S.store count (j + 1) known
    else if S.passes j then S.store count (j + 1) j
    else (known, false)

open Classical in
/-- The position of the local end. -/
noncomputable def height (S : Setting) (known : Nat) : Nat :=
  if S.wins known then known else S.base

/-- How many elements a batch has. -/
def count (S : Setting) (fetchFrom : Nat) : Nat := min S.batch (S.length - fetchFrom)

open Classical in
noncomputable def round (S : Setting) (st : Loop) : Round :=
  if S.length ≤ st.fetchFrom then .done true st.known
  else if st.known + 1 < st.fetchFrom then
    if S.ready ∧ st.back + 1 ≤ S.depth then .again ⟨st.known, st.fetchFrom - 1, st.back + 1⟩
    else .done false st.known
  else match S.store (S.count st.fetchFrom) st.fetchFrom st.known with
    | (known, false) => .done false known
    | (known, true) =>
      if S.goal ≤ S.height known then .done true known else .again ⟨known, S.height known + 1, 0⟩

noncomputable def run (S : Setting) : Nat → Loop → Option (Bool × Nat)
  | 0, _ => none
  | fuel + 1, st =>
    match S.round st with
    | .done ok known => some (ok, known)
    | .again st => S.run fuel st

/-- The loop before its first round. -/
def start (S : Setting) (known : Nat) : Loop := ⟨known, S.base + 1, 0⟩

/-- What passes can be looked at, and what has won goes on winning. At the start
    the copy has not won. -/
structure Lawful (S : Setting) (K : Nat) : Prop where
  batch : 0 < S.batch
  ready : ∀ j, S.passes j → S.ready
  mono : ∀ i j, i ≤ j → S.wins i → S.wins j
  lost : ¬ S.wins K
  stored : K < S.length

/-- The loop stays where it is: there is something to ask for behind the local
    end, the goal is not reached, the loop gets back to what is stored, and the
    batch behind the local end can be stored without ever winning. -/
structure Stalls (S : Setting) (K : Nat) : Prop where
  longer : S.base + 1 < S.length
  goal : S.base < S.goal
  depth : S.base ≤ K + S.depth
  lost : ∀ j, K < j → j < S.length → j ≤ S.base + S.batch → S.passes j ∧ ¬ S.wins j

variable {S : Setting} {K : Nat} {st : Loop}

/-! ## One batch -/

/-- A batch that starts no further than behind the last stored position is
    stored whole, or up to an element that does not pass. -/
theorem store_spec (count j known : Nat) (hj : j ≤ known + 1) :
    (S.store count j known = (max known (j + count - 1), true) ∧
      ∀ i, known < i → i < j + count → S.passes i) ∨
    ∃ k, S.store count j known = (k, false) ∧ known ≤ k ∧ k + 1 < j + count ∧
      (∀ i, known < i → i ≤ k → S.passes i) ∧ ¬ S.passes (k + 1) := by
  induction count generalizing j known with
  | zero =>
    left
    refine ⟨?_, fun i hi hlt => by omega⟩
    have hmax : max known (j + 0 - 1) = known := by omega
    rw [hmax]
    rfl
  | succ count ih =>
    unfold store
    by_cases hold : j ≤ known
    · -- An element that is stored already is passed over.
      rw [if_pos hold]
      have hsum : j + 1 + count = j + (count + 1) := by omega
      rcases ih (j + 1) known (by omega) with ⟨hstore, hpass⟩ | ⟨k, hstore, hle, hlt, hpass, hfail⟩
      · left
        rw [hsum] at hstore hpass
        exact ⟨hstore, hpass⟩
      · right
        rw [hsum] at hlt
        exact ⟨k, hstore, hle, hlt, hpass, hfail⟩
    · rw [if_neg hold]
      have hnext : j = known + 1 := by omega
      subst hnext
      by_cases hp : S.passes (known + 1)
      · rw [if_pos hp]
        rcases ih (known + 1 + 1) (known + 1) (by omega) with
          ⟨hstore, hpass⟩ | ⟨k, hstore, hle, hlt, hpass, hfail⟩
        · left
          refine ⟨?_, fun i hi hlt => ?_⟩
          · rw [hstore]
            congr 1
            omega
          · by_cases hi' : i = known + 1
            · rw [hi']
              exact hp
            · exact hpass i (by omega) (by omega)
        · right
          refine ⟨k, hstore, by omega, by omega, fun i hi hle' => ?_, hfail⟩
          by_cases hi' : i = known + 1
          · rw [hi']
            exact hp
          · exact hpass i (by omega) hle'
      · rw [if_neg hp]
        right
        exact ⟨known, rfl, by omega, by omega, fun i hi hle => by omega, hp⟩

/-! ## The two phases -/

/-- The copy has not won yet: the loop looks for the stored start, from the local
    end backwards. -/
structure Waiting (S : Setting) (K : Nat) (st : Loop) : Prop where
  lost : ¬ S.wins st.known
  start : K ≤ st.known
  bound : st.known < S.length
  passes : ∀ i, K < i → i ≤ st.known → S.passes i
  sum : st.fetchFrom + st.back = S.base + 1
  depth : st.back ≤ S.depth
  reached : K < st.known → S.base ≤ K + S.depth
  behind : st.back = 0 ∨ st.known + 1 ≤ st.fetchFrom

/-- The copy has won: the loop asks for what comes next. -/
structure Following (S : Setting) (K : Nat) (st : Loop) : Prop where
  won : S.wins st.known
  start : K < st.known
  bound : st.known < S.length
  passes : ∀ i, K < i → i ≤ st.known → S.passes i
  next : st.fetchFrom = st.known + 1

/-- How the loop ends. -/
def Ends (S : Setting) (K : Nat) : Bool → Nat → Prop
  | true, known => K ≤ known ∧ known < S.length ∧ (∀ i, K < i → i ≤ known → S.passes i) ∧
      (S.length ≤ S.base + 1 ∨ S.goal ≤ S.height known ∨ (S.wins known ∧ known + 1 = S.length))
  | false, known => K ≤ known ∧ known + 1 < S.length ∧
      (∀ i, K < i → i ≤ known → S.passes i) ∧
      ((∃ j, K < j ∧ j < S.length ∧ ¬ S.passes j) ∨ K + S.depth < S.base)

/-- The first batch to be stored leads on. -/
theorem passes_extend {known known' : Nat} (hold : ∀ i, K < i → i ≤ known → S.passes i)
    (hnew : ∀ i, known < i → i ≤ known' → S.passes i) :
    ∀ i, K < i → i ≤ known' → S.passes i := by
  intro i hi hle
  by_cases hki : i ≤ known
  · exact hold i hi hki
  · exact hnew i (by omega) hle

/-- What a round of the first phase comes to: it ends the loop, steps back, stores
    something new, or the loop stalls. -/
def Advances (S : Setting) (K : Nat) (st : Loop) : Prop :=
  (∃ ok known, S.round st = .done ok known ∧ S.Ends K ok known) ∨
  ∃ st', S.round st = .again st' ∧
    ((S.Waiting K st' ∧ ((st'.known = st.known ∧ st'.fetchFrom < st.fetchFrom) ∨
      st.known < st'.known ∨ S.Stalls K)) ∨
    (S.Following K st' ∧ st.known < st'.known))

/-- Nothing is stored before the batch: the loop steps back if it still may. -/
theorem Waiting.round_back (hS : S.Lawful K) (h : S.Waiting K st)
    (hend : ¬ S.length ≤ st.fetchFrom) (hfar : st.known + 1 < st.fetchFrom) : S.Advances K st := by
  have hsum := h.sum
  have hstart := h.start
  unfold Advances Setting.round
  rw [if_neg hend, if_pos hfar]
  by_cases hback : S.ready ∧ st.back + 1 ≤ S.depth
  · rw [if_pos hback]
    right
    refine ⟨_, rfl, Or.inl ⟨⟨h.lost, h.start, h.bound, h.passes, ?_, hback.2, h.reached, ?_⟩, ?_⟩⟩
    · show st.fetchFrom - 1 + (st.back + 1) = S.base + 1
      omega
    · right
      show st.known + 1 ≤ st.fetchFrom - 1
      omega
    · left
      exact ⟨rfl, by show st.fetchFrom - 1 < st.fetchFrom; omega⟩
  · rw [if_neg hback]
    left
    refine ⟨false, st.known, rfl, h.start, by omega, h.passes, ?_⟩
    by_cases hready : S.ready
    · -- The steps back are used up before the stored start is reached.
      have hspent : ¬ st.back + 1 ≤ S.depth := fun hle => hback ⟨hready, hle⟩
      right
      omega
    · left
      exact ⟨st.known + 1, by omega, by omega, fun hp => hready (hS.ready _ hp)⟩

/-- A batch behind what is stored that brings nothing new shows that the loop stalls. -/
theorem Waiting.stalls (hS : S.Lawful K) (h : S.Waiting K st)
    (hend : ¬ S.length ≤ st.fetchFrom) (hnear : st.fetchFrom ≤ st.known + 1)
    (hsame : st.fetchFrom + S.count st.fetchFrom ≤ st.known + 1) (hgoal : S.base < S.goal) :
    S.Stalls K := by
  have hsum := h.sum
  have hstart := h.start
  have hbatch := hS.batch
  have hcount : S.count st.fetchFrom = min S.batch (S.length - st.fetchFrom) := rfl
  have hfrom : st.fetchFrom = S.base + 1 := by
    rcases h.behind with hzero | hnext
    · omega
    · omega
  refine ⟨by omega, hgoal, ?_, ?_⟩
  · by_cases hfirst : K < st.known
    · exact h.reached hfirst
    · omega
  · intro j hKj hj hrange
    refine ⟨h.passes j hKj (by omega), fun hw => h.lost ?_⟩
    exact hS.mono j st.known (by omega) hw

/-- The batch meets what is stored: it is stored as far as it passes. -/
theorem Waiting.round_store (hS : S.Lawful K) (h : S.Waiting K st)
    (hend : ¬ S.length ≤ st.fetchFrom) (hnear : ¬ st.known + 1 < st.fetchFrom) :
    S.Advances K st := by
  have hstart := h.start
  have hbound := h.bound
  have hcount : S.count st.fetchFrom = min S.batch (S.length - st.fetchFrom) := rfl
  have hbatch := hS.batch
  unfold Advances Setting.round
  rw [if_neg hend, if_neg hnear]
  rcases store_spec (S := S) (S.count st.fetchFrom) st.fetchFrom st.known (by omega) with
    ⟨hstore, hnew⟩ | ⟨k, hstore, hle, hlt, hnew, hfail⟩
  · -- The batch is stored.
    rw [hstore]
    dsimp only
    generalize hk : max st.known (st.fetchFrom + S.count st.fetchFrom - 1) = known
    have hpasses : ∀ i, K < i → i ≤ known → S.passes i :=
      passes_extend h.passes fun i hi hle => hnew i hi (by omega)
    have hreached : K < known → S.base ≤ K + S.depth := by
      intro hK
      by_cases hfirst : K < st.known
      · exact h.reached hfirst
      · have hsum := h.sum
        have hdepth := h.depth
        omega
    by_cases hgoal : S.goal ≤ S.height known
    · rw [if_pos hgoal]
      left
      exact ⟨true, known, rfl, by omega, by omega, hpasses, Or.inr (Or.inl hgoal)⟩
    · rw [if_neg hgoal]
      right
      refine ⟨_, rfl, ?_⟩
      unfold height at hgoal ⊢
      by_cases hwins : S.wins known
      · rw [if_pos hwins]
        right
        have hgain : st.known < known := by
          by_contra hsame
          have heq : known = st.known := by omega
          exact h.lost (heq ▸ hwins)
        exact ⟨⟨hwins, by show K < known; omega, by show known < S.length; omega, hpasses, rfl⟩, hgain⟩
      · rw [if_neg hwins] at hgoal ⊢
        left
        refine ⟨⟨hwins, by show K ≤ known; omega, by show known < S.length; omega, hpasses, by
          show S.base + 1 + 0 = S.base + 1; omega, Nat.zero_le _, hreached, Or.inl rfl⟩, ?_⟩
        by_cases hgain : st.known < known
        · exact Or.inr (Or.inl hgain)
        · exact Or.inr (Or.inr (h.stalls hS hend (by omega) (by omega) (by omega)))
  · rw [hstore]
    left
    refine ⟨false, k, rfl, by omega, by omega, passes_extend h.passes hnew, Or.inl ?_⟩
    exact ⟨k + 1, by omega, by omega, hfail⟩

theorem Waiting.round (hS : S.Lawful K) (h : S.Waiting K st) : S.Advances K st := by
  by_cases hend : S.length ≤ st.fetchFrom
  · left
    have hsum := h.sum
    refine ⟨true, st.known, ?_, h.start, h.bound, h.passes, Or.inl (by omega)⟩
    unfold Setting.round
    exact if_pos hend
  by_cases hfar : st.known + 1 < st.fetchFrom
  · exact h.round_back hS hend hfar
  · exact h.round_store hS hend hfar

/-- A round of the second phase ends the loop or stores something new. -/
theorem Following.round (hS : S.Lawful K) (h : S.Following K st) :
    (∃ ok known, S.round st = .done ok known ∧ S.Ends K ok known) ∨
    ∃ st', S.round st = .again st' ∧ S.Following K st' ∧ st.known < st'.known := by
  have hnext := h.next
  have hstart := h.start
  have hbound := h.bound
  unfold Setting.round
  by_cases hend : S.length ≤ st.fetchFrom
  · rw [if_pos hend]
    left
    exact ⟨true, st.known, rfl, by omega, h.bound, h.passes, Or.inr (Or.inr ⟨h.won, by omega⟩)⟩
  rw [if_neg hend, if_neg (by omega)]
  have hcount : S.count st.fetchFrom = min S.batch (S.length - st.fetchFrom) := rfl
  have hbatch := hS.batch
  rcases store_spec (S := S) (S.count st.fetchFrom) st.fetchFrom st.known (by omega) with
    ⟨hstore, hnew⟩ | ⟨k, hstore, hle, hlt, hnew, hfail⟩
  · rw [hstore]
    dsimp only
    have hpasses : ∀ i, K < i → i ≤ max st.known (st.fetchFrom + S.count st.fetchFrom - 1) →
        S.passes i :=
      passes_extend h.passes fun i hi hle => hnew i hi (by omega)
    -- Stored to the end of the batch: at the goal, or one batch further on.
    generalize hk : max st.known (st.fetchFrom + S.count st.fetchFrom - 1) = known at hpasses ⊢
    by_cases hgoal : S.goal ≤ S.height known
    · rw [if_pos hgoal]
      left
      exact ⟨true, known, rfl, by omega, by omega, hpasses, Or.inr (Or.inl hgoal)⟩
    · rw [if_neg hgoal]
      right
      have hwins : S.wins known := hS.mono st.known known (by omega) h.won
      refine ⟨_, rfl, ?_⟩
      unfold height
      rw [if_pos hwins]
      exact ⟨⟨hwins, by show K < known; omega, by show known < S.length; omega, hpasses, rfl⟩,
        by show st.known < known; omega⟩
  · rw [hstore]
    left
    refine ⟨false, k, rfl, by omega, by omega, passes_extend h.passes hnew, Or.inl ?_⟩
    exact ⟨k + 1, by omega, by omega, hfail⟩

/-! ## Whole runs -/

/-- The loop starts in the first phase. -/
theorem Lawful.waiting (hS : S.Lawful K) : S.Waiting K (S.start K) where
  lost := hS.lost
  start := le_refl K
  bound := hS.stored
  passes i hi hle := by
    have : i ≤ K := hle
    omega
  sum := rfl
  depth := Nat.zero_le _
  reached h := absurd h (lt_irrefl K)
  behind := Or.inl rfl

/-- Whenever the loop ends, it ends in one of the two ways. -/
theorem run_ends (hS : S.Lawful K) {fuel : Nat} {ok : Bool} {known : Nat}
    (h : S.Waiting K st ∨ S.Following K st) (hrun : S.run fuel st = some (ok, known)) :
    S.Ends K ok known := by
  induction fuel generalizing st with
  | zero => cases hrun
  | succ fuel ih =>
    unfold run at hrun
    rcases h with hwait | hfollow
    · rcases hwait.round hS with ⟨ok', k', hround, hends⟩ | ⟨st', hround, hnext⟩
      · rw [hround] at hrun
        obtain ⟨rfl, rfl⟩ := Prod.mk.inj (Option.some.inj hrun)
        exact hends
      · rw [hround] at hrun
        rcases hnext with ⟨hwait', _⟩ | ⟨hfollow', _⟩
        · exact ih (Or.inl hwait') hrun
        · exact ih (Or.inr hfollow') hrun
    · rcases hfollow.round hS with ⟨ok', k', hround, hends⟩ | ⟨st', hround, hfollow', _⟩
      · rw [hround] at hrun
        obtain ⟨rfl, rfl⟩ := Prod.mk.inj (Option.some.inj hrun)
        exact hends
      · rw [hround] at hrun
        exact ih (Or.inr hfollow') hrun

/-- The loop ends, with enough fuel. -/
def Halts (S : Setting) (st : Loop) : Prop := ∃ fuel, (S.run fuel st).isSome

theorem halts_of_done {ok : Bool} {known : Nat} (h : S.round st = .done ok known) :
    S.Halts st := by
  refine ⟨1, ?_⟩
  unfold run
  rw [h]
  rfl

theorem halts_of_again {st' : Loop} (h : S.round st = .again st') (h' : S.Halts st') :
    S.Halts st := by
  obtain ⟨fuel, hfuel⟩ := h'
  refine ⟨fuel + 1, ?_⟩
  unfold run
  rw [h]
  exact hfuel

/-- In the second phase every round brings the end nearer. -/
theorem Following.halts (hS : S.Lawful K) (h : S.Following K st) : S.Halts st := by
  induction hgap : S.length - st.known using Nat.strong_induction_on generalizing st with
  | _ gap ih =>
    rcases h.round hS with ⟨ok, known, hround, _⟩ | ⟨st', hround, h', hgain⟩
    · exact halts_of_done hround
    · have hbound := h'.bound
      exact halts_of_again hround (ih (S.length - st'.known) (by omega) h' rfl)

/-- In the first phase a round stores something new or steps back, unless the
    loop stalls. -/
theorem Waiting.halts (hS : S.Lawful K) (hstalls : ¬ S.Stalls K) (h : S.Waiting K st) :
    S.Halts st := by
  induction hgap : S.length - st.known using Nat.strong_induction_on generalizing st with
  | _ gap ihGap =>
    induction hfrom : st.fetchFrom using Nat.strong_induction_on generalizing st with
    | _ fetchFrom ihFrom =>
      rcases h.round hS with ⟨ok, known, hround, _⟩ | ⟨st', hround, hnext⟩
      · exact halts_of_done hround
      · refine halts_of_again hround ?_
        rcases hnext with ⟨h', ⟨hsame, hless⟩ | hgain | hst⟩ | ⟨h', _⟩
        · exact ihFrom st'.fetchFrom (by omega) h' (by rw [hsame]; exact hgap) rfl
        · have hbound := h'.bound
          exact ihGap (S.length - st'.known) (by omega) h' rfl
        · exact absurd hst hstalls
        · exact h'.halts hS

/-- What a stalling loop goes through. -/
structure Stalled (S : Setting) (K : Nat) (st : Loop) : Prop where
  start : K ≤ st.known
  range : st.known = K ∨ (st.known < S.length ∧ st.known ≤ S.base + S.batch)
  sum : st.fetchFrom + st.back = S.base + 1
  behind : st.back = 0 ∨ st.known + 1 ≤ st.fetchFrom

/-- A stalling loop goes on stalling. -/
theorem Stalled.round (hS : S.Lawful K) (hst : S.Stalls K) (h : S.Stalled K st) :
    ∃ st', S.round st = .again st' ∧ S.Stalled K st' := by
  have hsum := h.sum
  have hstart := h.start
  have hlonger := hst.longer
  have hdepth := hst.depth
  unfold Setting.round
  rw [if_neg (by omega)]
  -- Either the batch begins too far up and the loop steps back, or it is stored.
  by_cases hfar : st.known + 1 < st.fetchFrom
  · have hready : S.ready := by
      exact hS.ready _ (hst.lost (st.known + 1) (by omega) (by omega) (by omega)).1
    rw [if_pos hfar, if_pos ⟨hready, by omega⟩]
    refine ⟨_, rfl, h.start, h.range, ?_, Or.inr ?_⟩
    · show st.fetchFrom - 1 + (st.back + 1) = S.base + 1
      omega
    · show st.known + 1 ≤ st.fetchFrom - 1
      omega
  · rw [if_neg hfar]
    have hcount : S.count st.fetchFrom = min S.batch (S.length - st.fetchFrom) := rfl
    have hbatch := hS.batch
    have hinside : ∀ i, st.known < i → i < st.fetchFrom + S.count st.fetchFrom →
        S.passes i ∧ ¬ S.wins i := by
      intro i hi hlt
      exact hst.lost i (by omega) (by omega) (by omega)
    rcases store_spec (S := S) (S.count st.fetchFrom) st.fetchFrom st.known (by omega) with
      ⟨hstore, _⟩ | ⟨k, _, hle, hlt, _, hfail⟩
    · rw [hstore]
      dsimp only
      -- The whole batch passes, but none of its blocks wins.
      have hlost : ¬ S.wins (max st.known (st.fetchFrom + S.count st.fetchFrom - 1)) := by
        by_cases hold : st.fetchFrom + S.count st.fetchFrom - 1 ≤ st.known
        · rw [max_eq_left hold]
          rcases h.range with hK | ⟨hlt, hle⟩
          · rw [hK]
            exact hS.lost
          · by_cases hfirst : K < st.known
            · exact (hst.lost _ hfirst hlt hle).2
            · have hK : st.known = K := by omega
              rw [hK]
              exact hS.lost
        · rw [max_eq_right (by omega)]
          exact (hinside _ (by omega) (by omega)).2
      unfold height
      rw [if_neg hlost, if_neg (not_le.mpr hst.goal)]
      refine ⟨_, rfl, ?_, ?_, rfl, Or.inl rfl⟩
      · show K ≤ max st.known (st.fetchFrom + S.count st.fetchFrom - 1)
        omega
      · show max st.known (st.fetchFrom + S.count st.fetchFrom - 1) = K ∨
          (max st.known (st.fetchFrom + S.count st.fetchFrom - 1) < S.length ∧
            max st.known (st.fetchFrom + S.count st.fetchFrom - 1) ≤ S.base + S.batch)
        have hrange := h.range
        omega
    · -- No block of the batch fails.
      exact absurd (hinside (k + 1) (by omega) hlt).1 hfail

theorem Stalled.run_eq_none (hS : S.Lawful K) (hst : S.Stalls K) (h : S.Stalled K st)
    (fuel : Nat) : S.run fuel st = none := by
  induction fuel generalizing st with
  | zero => rfl
  | succ fuel ih =>
    obtain ⟨st', hround, h'⟩ := h.round hS hst
    unfold run
    rw [hround]
    exact ih h'

/-- **The loop ends unless it stalls.** -/
theorem halts_iff (hS : S.Lawful K) : S.Halts (S.start K) ↔ ¬ S.Stalls K := by
  constructor
  · rintro ⟨fuel, hfuel⟩ hst
    have hstalled : S.Stalled K (S.start K) := ⟨le_refl K, Or.inl rfl, rfl, Or.inl rfl⟩
    rw [hstalled.run_eq_none hS hst] at hfuel
    cases hfuel
  · intro hstalls
    exact hS.waiting.halts hS hstalls

/-- **When the loop copies everything**: with the goal at the remote end, which
    wins, and the stored start within reach, it does so exactly if every element
    passes and one within the first batch behind the local end wins. -/
theorem copies_iff (hS : S.Lawful K) (hlonger : S.base + 1 < S.length)
    (hgoal : S.goal + 1 = S.length) (hdepth : S.base ≤ K + S.depth) :
    (∃ fuel known, S.run fuel (S.start K) = some (true, known)) ↔
      (∀ j, K < j → j < S.length → S.passes j) ∧
      ∃ j, K < j ∧ j < S.length ∧ j ≤ S.base + S.batch ∧ S.wins j := by
  constructor
  · rintro ⟨fuel, known, hrun⟩
    have hhalts : ¬ S.Stalls K := by
      refine (halts_iff hS).mp ⟨fuel, ?_⟩
      rw [hrun]
      rfl
    obtain ⟨hK, hbound, hpasses, hend⟩ := run_ends hS (Or.inl hS.waiting) hrun
    -- The goal is the remote end, so a run that reaches it has copied all.
    have hlast : known + 1 = S.length := by
      rcases hend with hshort | hreached | ⟨_, hlast⟩
      · omega
      · unfold height at hreached
        by_cases hwins : S.wins known
        · rw [if_pos hwins] at hreached
          omega
        · rw [if_neg hwins] at hreached
          omega
      · exact hlast
    have hall : ∀ j, K < j → j < S.length → S.passes j :=
      fun j hKj hj => hpasses j hKj (by omega)
    refine ⟨hall, ?_⟩
    -- Without a win within the first batch the loop stalls.
    by_contra hnone
    refine hhalts ⟨hlonger, by omega, hdepth, fun j hKj hj hrange => ?_⟩
    exact ⟨hall j hKj hj, fun hw => hnone ⟨j, hKj, hj, hrange, hw⟩⟩
  · rintro ⟨hall, j, hKj, hj, hrange, hwins⟩
    have hhalts : S.Halts (S.start K) :=
      (halts_iff hS).mpr fun hst => (hst.lost j hKj hj hrange).2 hwins
    obtain ⟨fuel, hfuel⟩ := hhalts
    obtain ⟨⟨ok, known⟩, hrun⟩ := Option.isSome_iff_exists.mp hfuel
    cases ok with
    | true => exact ⟨fuel, known, hrun⟩
    | false =>
      obtain ⟨_, _, _, ⟨i, hKi, hi, hfail⟩ | hfar⟩ := run_ends hS (Or.inl hS.waiting) hrun
      · exact absurd (hall i hKi hi) hfail
      · omega

/-- A loop with the goal at the remote end that ends well has copied
    everything, and the copy has won. -/
theorem copied_all (hS : S.Lawful K) (hlonger : S.base + 1 < S.length)
    (hgoal : S.goal + 1 = S.length) {fuel known : Nat}
    (hrun : S.run fuel (S.start K) = some (true, known)) :
    known + 1 = S.length ∧ S.wins known := by
  obtain ⟨_, hbound, _, hend⟩ := run_ends hS (Or.inl hS.waiting) hrun
  rcases hend with hshort | hreached | ⟨hwins, hlast⟩
  · omega
  · unfold height at hreached
    by_cases hwins : S.wins known
    · rw [if_pos hwins] at hreached
      exact ⟨by omega, hwins⟩
    · rw [if_neg hwins] at hreached
      omega
  · exact ⟨hlast, hwins⟩

end Setting

end CatchUp
