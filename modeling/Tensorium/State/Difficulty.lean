import Tensorium.State.Context

/-! # How difficulty evolves

    What `expected_leading_zero_bits_for` requires of a block is a function of
    the timestamps and the difficulties of its own ancestors: the schedule. Along
    a chain that keeps to the schedule the difficulty stays within its bounds,
    moves by at most one bit from block to block, and is constant in every
    adjustment window after the first. Every chain of stored blocks keeps to it.
-/

namespace Tensorium

open Saturating BulkMap ParentLinked

variable {P : Primitives} {params : ConsensusParams}

/-! ## The schedule -/

/-- What retargeting reads of a block. -/
structure Mark where
  timestampSeconds : Nat
  leadingZeroBits : UInt8
  deriving DecidableEq

def Block.mark (b : Block) : Mark := ⟨b.header.timestampSeconds, b.header.leadingZeroBits⟩

/-- The sample between two blocks. -/
def Mark.sample (first last : Mark) (blockCount : Nat) : DifficultySample where
  firstTimestampSeconds := first.timestampSeconds
  lastTimestampSeconds := last.timestampSeconds
  currentLeadingZeroBits := last.leadingZeroBits
  blockCount := blockCount

/-- The adjustment window a height at or above activation lies in. -/
def windowOf (params : ConsensusParams) (height : Nat) : Nat :=
  (height - params.difficultyRetargetActivationHeight) / max params.difficultyAdjustmentWindow 1

/-- The first height of an adjustment window. -/
def windowStart (params : ConsensusParams) (window : Nat) : Nat :=
  params.difficultyRetargetActivationHeight + window * max params.difficultyAdjustmentWindow 1

/-- The sample of a completed window of a history, genesis first. -/
def windowSample (params : ConsensusParams) (history : List Mark) (window : Nat) :
    Option DifficultySample :=
  match history[windowStart params window]?, history[windowStart params (window + 1) - 1]? with
  | some first, some last => some (first.sample last (max params.difficultyAdjustmentWindow 1))
  | _, _ => none

/-- The sample of the blocks from activation on. -/
def bootstrapSample (params : ConsensusParams) (history : List Mark) : Option DifficultySample :=
  match history[params.difficultyRetargetActivationHeight]?, history.getLast? with
  | some first, some last =>
    some (first.sample last (history.length - params.difficultyRetargetActivationHeight))
  | _, _ => none

/-- The sample measured for the block behind a history. -/
def scheduledSample (params : ConsensusParams) (history : List Mark) : Option DifficultySample :=
  if history.length < params.difficultyRetargetActivationHeight then none
  else if windowOf params history.length = 0 then
    if history.length ≥ satAdd 64 params.difficultyRetargetActivationHeight 2 then
      bootstrapSample params history
    else none
  else windowSample params history (windowOf params history.length - 1)

/-- The difficulty of the block behind a history. -/
def scheduledBits (params : ConsensusParams) (history : List Mark) : UInt8 :=
  expectedLeadingZeroBits params history.length (scheduledSample params history)

/-! ## The loops find what the schedule names -/

/-- The blocks of a branch, newest first, stand at their heights. -/
def AtHeights (t : List Block) : Prop :=
  ∀ (i : Nat) (b : Block), t.reverse[i]? = some b → b.header.height = i

theorem getElem?_reverse_cons {α : Type*} (b : α) (l : List α) (i : Nat) :
    (b :: l).reverse[i]? = if i = l.length then some b else l.reverse[i]? := by
  rw [List.reverse_cons, List.getElem?_append, List.length_reverse]
  split_ifs with hlt heq heq
  · omega
  · rfl
  · simp [heq]
  · rw [List.getElem?_eq_none (by simp; omega), List.getElem?_eq_none (by simp; omega)]

theorem atHeights_cons {b : Block} {t : List Block} :
    AtHeights (b :: t) ↔ b.header.height = t.length ∧ AtHeights t := by
  unfold AtHeights
  simp only [getElem?_reverse_cons]
  constructor
  · intro h
    refine ⟨h t.length b (by simp), fun i c hc => h i c ?_⟩
    have hlt : i < t.length := by simpa using (List.getElem?_eq_some_iff.mp hc).1
    rw [if_neg hlt.ne, hc]
  · rintro ⟨hb, ht⟩ i c hc
    split_ifs at hc with heq
    · rw [← Option.some.inj hc, hb, heq]
    · exact ht i c hc

theorem bootstrap_found {activation height : Nat} {t : List Block} (ht : AtHeights t) (x : Block) :
    visitUntil (bootstrapVisit activation height) t (none, some x)
      = (t.reverse[activation]?, some x) := by
  induction t with
  | nil => rfl
  | cons b t ih =>
    obtain ⟨hb, ht⟩ := atHeights_cons.mp ht
    rw [getElem?_reverse_cons]
    simp only [visitUntil, bootstrapVisit, hb, Option.isNone_some, and_false, if_false,
      Bool.false_eq_true, eq_comm (a := t.length)]
    split_ifs with hact
    · rfl
    · exact ih ht

/-- The bootstrap loop finds the parent and the block at activation. -/
theorem bootstrap_visit {activation : Nat} {t : List Block} (ht : AtHeights t) :
    visitUntil (bootstrapVisit activation t.length) t (none, none)
      = (t.reverse[activation]?, t.head?) := by
  cases t with
  | nil => rfl
  | cons b t =>
    obtain ⟨hb, ht⟩ := atHeights_cons.mp ht
    rw [getElem?_reverse_cons]
    simp only [visitUntil, bootstrapVisit, hb, List.length_cons, Nat.add_sub_cancel,
      Option.isNone_none, and_self, if_true, List.head?_cons, eq_comm (a := t.length)]
    split_ifs with hact
    · rfl
    · exact bootstrap_found ht b

/-- The window loop finds the ends of the window. -/
theorem window_visit {first last : Nat} (hle : first ≤ last) {t : List Block} (ht : AtHeights t)
    (x : Option Block) :
    visitUntil (windowVisit first last) t (none, x)
      = (t.reverse[first]?, (t.reverse[last]?).or x) := by
  induction t generalizing x with
  | nil => simp [visitUntil]
  | cons b t ih =>
    obtain ⟨hb, ht⟩ := atHeights_cons.mp ht
    have hnone : ∀ i, t.length ≤ i → t.reverse[i]? = none := by
      intro i hi
      exact List.getElem?_eq_none (by simpa using hi)
    rw [getElem?_reverse_cons, getElem?_reverse_cons]
    simp only [visitUntil, windowVisit, hb, eq_comm (a := t.length)]
    by_cases hstop : t.length ≤ first
    · -- The loop ends here, at the first block of the window or below it.
      rw [if_pos hstop]
      dsimp only
      rw [hnone first hstop]
      split_ifs with hlast
      · rfl
      · rw [hnone last (hstop.trans hle), Option.none_or]
      · rfl
      · rw [hnone last (hstop.trans hle), Option.none_or]
    · have hfirst : first ≠ t.length := by omega
      simp only [if_neg hstop, if_neg hfirst]
      rw [ih ht]
      split_ifs with hlast
      · rw [hnone last hlast.ge, Option.none_or, Option.some_or]
      · rfl

theorem windowStart_succ (params : ConsensusParams) (window : Nat) :
    windowStart params (window + 1)
      = windowStart params window + max params.difficultyAdjustmentWindow 1 := by
  unfold windowStart
  ring

/-- The loops over a branch measure the sample of its marks. -/
theorem difficultySample_eq_scheduledSample {t : List Block} (ht : AtHeights t) :
    difficultySample params t.length (fun visit => visitUntil visit t (none, none))
      = scheduledSample params (t.reverse.map Block.mark) := by
  -- The marks of the blocks that the loops find.
  have hget : ∀ i, (t.reverse.map Block.mark)[i]? = (t.reverse[i]?).map Block.mark :=
    fun i => List.getElem?_map
  have hlast : (t.reverse.map Block.mark).getLast? = t.head?.map Block.mark := by
    rw [List.getLast?_map, List.getLast?_reverse]
  unfold difficultySample scheduledSample
  simp only [List.length_map, List.length_reverse]
  by_cases hact : t.length < params.difficultyRetargetActivationHeight
  · rw [if_pos hact, if_pos hact]
  rw [if_neg hact, if_neg hact]
  by_cases hwindow : windowOf params t.length = 0
  · rw [if_pos hwindow, if_pos (by exact hwindow)]
    unfold bootstrapSample
    rw [bootstrap_visit ht, hget, hlast, List.length_map, List.length_reverse]
    cases hfirst : t.reverse[params.difficultyRetargetActivationHeight]? with
    | none => rfl
    | some first =>
      cases t with
      | nil => simp at hfirst
      | cons last t =>
        have hcount : last.header.height - first.header.height + 1
            = (last :: t).length - params.difficultyRetargetActivationHeight := by
          have hlt := (List.getElem?_eq_some_iff.mp hfirst).1
          rw [List.length_reverse, List.length_cons] at hlt
          rw [ht _ _ hfirst, (atHeights_cons.mp ht).1, List.length_cons]
          omega
        simp only [List.head?_cons, Option.map_some, hcount]
        rfl
  · rw [if_neg hwindow, if_neg (by exact hwindow)]
    obtain ⟨e, he⟩ := Nat.exists_eq_succ_of_ne_zero hwindow
    have hpos : 1 ≤ max params.difficultyAdjustmentWindow 1 := Nat.le_max_right _ _
    have hcount : windowStart params e + max params.difficultyAdjustmentWindow 1 - 1
        - windowStart params e + 1 = max params.difficultyAdjustmentWindow 1 := by
      omega
    have hepoch : (t.length - params.difficultyRetargetActivationHeight)
        / max params.difficultyAdjustmentWindow 1 = e + 1 := he
    have hstart : params.difficultyRetargetActivationHeight
        + e * max params.difficultyAdjustmentWindow 1 = windowStart params e := rfl
    unfold windowSample
    rw [he, hepoch, Nat.add_sub_cancel, hstart, hget, hget, windowStart_succ, hcount,
      window_visit (by omega) ht, Option.or_none]
    cases t.reverse[windowStart params e]? with
    | none => rfl
    | some first =>
      cases t.reverse[windowStart params e + max params.difficultyAdjustmentWindow 1 - 1]? <;> rfl

/-- **What is required of the child of a branch is scheduled by its marks.** -/
theorem requiredBits_eq_scheduledBits {t : List Block} (ht : AtHeights t) :
    requiredBits params t = scheduledBits params (t.reverse.map Block.mark) := by
  have hheight : (t.head?.elim 0 fun p => p.header.height + 1) = t.length := by
    cases t with
    | nil => rfl
    | cons b t => simp [(atHeights_cons.mp ht).1]
  unfold requiredBits scheduledBits
  rw [hheight, ← difficultySample_eq_scheduledSample ht, List.length_map, List.length_reverse]

/-! ## Along a history that keeps to the schedule -/

/-- Two difficulties that differ by at most one bit. -/
def Near (a b : UInt8) : Prop := a.toNat ≤ b.toNat + 1 ∧ b.toNat ≤ a.toNat + 1

/-- A difficulty within the bounds of the network. -/
def InBounds (params : ConsensusParams) (bits : UInt8) : Prop :=
  params.minLeadingZeroBits ≤ bits ∧ bits ≤ params.maxLeadingZeroBits

theorem Near.refl (a : UInt8) : Near a a := ⟨Nat.le_succ _, Nat.le_succ _⟩

theorem satSucc8_near (a : UInt8) : Near (satSucc8 a) a := by
  unfold Near satSucc8
  have hlt := a.toNat_lt
  split_ifs with h
  · omega
  · have hne : a.toNat ≠ 255 := fun heq => h (UInt8.toNat_inj.mp heq)
    have hadd : (a + 1).toNat = a.toNat + 1 := by
      rw [UInt8.toNat_add, UInt8.toNat_one]
      omega
    omega

theorem satPred8_near (a : UInt8) : Near (satPred8 a) a := by
  unfold Near satPred8
  split_ifs with h
  · omega
  · have hne : a.toNat ≠ 0 := fun heq => h (UInt8.toNat_inj.mp heq)
    have hle : (1 : UInt8) ≤ a := by
      rw [UInt8.le_iff_toNat_le, UInt8.toNat_one]
      omega
    rw [UInt8.toNat_sub_of_le _ _ hle, UInt8.toNat_one]
    omega

/-- Clamping brings a difficulty no further away from one within the bounds. -/
theorem clamp8_near {a b : UInt8} (h : Near a b) (hb : InBounds params b) :
    Near (clamp8 a params.minLeadingZeroBits params.maxLeadingZeroBits) b := by
  obtain ⟨hmin, hmax⟩ := hb
  unfold Near clamp8 at *
  rw [UInt8.le_iff_toNat_le] at hmin hmax
  split_ifs with hlo hhi
  · rw [UInt8.lt_iff_toNat_lt] at hlo
    omega
  · rw [gt_iff_lt, UInt8.lt_iff_toNat_lt] at hhi
    omega
  · exact h

/-- One retarget moves the difficulty by at most one bit. -/
theorem nextLeadingZeroBits_near {sample : DifficultySample}
    (h : InBounds params sample.currentLeadingZeroBits) :
    Near (nextLeadingZeroBits params sample) sample.currentLeadingZeroBits := by
  unfold nextLeadingZeroBits
  refine clamp8_near ?_ h
  split_ifs
  · exact satSucc8_near _
  · exact satPred8_near _
  · exact Near.refl _

/-- The bounds are in order, and a window has at least two blocks. -/
structure Retargets (params : ConsensusParams) : Prop where
  initial : InBounds params params.initialLeadingZeroBits
  window : 2 ≤ params.difficultyAdjustmentWindow

namespace Retargets

variable (hp : Retargets params)

include hp in
theorem clamp8_inBounds (bits : UInt8) :
    InBounds params (clamp8 bits params.minLeadingZeroBits params.maxLeadingZeroBits) := by
  have hle : params.minLeadingZeroBits ≤ params.maxLeadingZeroBits :=
    UInt8.le_trans hp.initial.1 hp.initial.2
  unfold clamp8 InBounds
  split_ifs with hlo hhi
  · exact ⟨UInt8.le_refl _, hle⟩
  · exact ⟨hle, UInt8.le_refl _⟩
  · exact ⟨UInt8.not_lt.mp hlo, UInt8.not_lt.mp hhi⟩

include hp in
theorem scheduledBits_inBounds (history : List Mark) :
    InBounds params (scheduledBits params history) := by
  unfold scheduledBits expectedLeadingZeroBits
  split_ifs
  · exact hp.initial
  · cases scheduledSample params history with
    | none => exact hp.initial
    | some sample => exact hp.clamp8_inBounds _

omit hp in
/-- Below activation the difficulty is the initial one. -/
theorem scheduledBits_inactive {history : List Mark}
    (h : history.length < params.difficultyRetargetActivationHeight) :
    scheduledBits params history = params.initialLeadingZeroBits :=
  if_pos h

include hp in
/-- Up to the second block after activation the difficulty is the initial one. -/
theorem scheduledBits_initial {history : List Mark}
    (h : history.length < satAdd 64 params.difficultyRetargetActivationHeight 2) :
    scheduledBits params history = params.initialLeadingZeroBits := by
  unfold scheduledBits expectedLeadingZeroBits scheduledSample
  split_ifs with hact hfirst hsecond
  · rfl
  · omega
  · rfl
  · -- The first two blocks lie in the first window.
    refine absurd (Nat.div_eq_of_lt ?_) hfirst
    have hwindow := hp.window
    unfold satAdd at h
    omega

end Retargets

/-- The difficulty in a window after the first. -/
def windowBits (params : ConsensusParams) (history : List Mark) (window : Nat) : UInt8 :=
  match windowSample params history (window - 1) with
  | some sample => nextLeadingZeroBits params sample
  | none => params.initialLeadingZeroBits

/-- In a window after the first the difficulty does not depend on the height. -/
theorem scheduledBits_window {history : List Mark} {i : Nat} (hi : i ≤ history.length)
    (hact : params.difficultyRetargetActivationHeight ≤ i) (hwindow : windowOf params i ≠ 0) :
    scheduledBits params (history.take i) = windowBits params history (windowOf params i) := by
  have hlen : (history.take i).length = i := by
    rw [List.length_take]
    omega
  obtain ⟨e, he⟩ := Nat.exists_eq_succ_of_ne_zero hwindow
  -- The window the sample is taken from ends before `i`.
  have hend : windowStart params (e + 1) ≤ i := by
    unfold windowOf at he
    have hmul := Nat.div_mul_le_self (i - params.difficultyRetargetActivationHeight)
      (max params.difficultyAdjustmentWindow 1)
    rw [he, Nat.succ_eq_add_one] at hmul
    unfold windowStart
    omega
  have hpos : 1 ≤ max params.difficultyAdjustmentWindow 1 := Nat.le_max_right _ _
  have hstart := windowStart_succ params e
  have hsample : windowSample params (history.take i) e = windowSample params history e := by
    unfold windowSample
    rw [List.getElem?_take_of_lt (by omega), List.getElem?_take_of_lt (by omega)]
  have hscheduled : scheduledSample params (history.take i) = windowSample params history e := by
    unfold scheduledSample
    rw [hlen, if_neg (Nat.not_lt.mpr hact), if_neg hwindow, he, Nat.succ_eq_add_one,
      Nat.add_sub_cancel, hsample]
  have hbits : scheduledBits params (history.take i)
      = expectedLeadingZeroBits params i (windowSample params history e) := by
    unfold scheduledBits
    rw [hlen, hscheduled]
  rw [hbits, he]
  exact if_neg (Nat.not_lt.mpr hact)

/-- Every difficulty of a history is the one scheduled behind what precedes it. -/
def Scheduled (params : ConsensusParams) (history : List Mark) : Prop :=
  ∀ (i : Nat) (m : Mark), history[i]? = some m →
    m.leadingZeroBits = scheduledBits params (history.take i)

/-- Two marks of one window after the first have the same difficulty. -/
theorem Scheduled.window_const {history : List Mark} (h : Scheduled params history) {i j : Nat}
    {m m' : Mark} (hi : history[i]? = some m) (hj : history[j]? = some m')
    (hact : params.difficultyRetargetActivationHeight ≤ i) (hij : i ≤ j)
    (hwindow : windowOf params i ≠ 0) (hsame : windowOf params i = windowOf params j) :
    m.leadingZeroBits = m'.leadingZeroBits := by
  have hilt := (List.getElem?_eq_some_iff.mp hi).1
  have hjlt := (List.getElem?_eq_some_iff.mp hj).1
  rw [h i m hi, h j m' hj, scheduledBits_window hilt.le hact hwindow,
    scheduledBits_window hjlt.le (hact.trans hij) (hsame ▸ hwindow), hsame]

/-- Where one window ends and the next begins. -/
theorem windowStart_of_next {i e : Nat} (hnext : windowOf params (i + 1) = e + 1)
    (hdiff : windowOf params i ≠ e + 1) : windowStart params (e + 1) = i + 1 := by
  unfold windowOf at hnext hdiff
  unfold windowStart
  have hpos : 0 < max params.difficultyAdjustmentWindow 1 := by omega
  generalize max params.difficultyAdjustmentWindow 1 = w at *
  -- The distance from activation reaches a multiple of the window.
  have hle := (Nat.le_div_iff_mul_le hpos).mp hnext.ge
  have hlt : i - params.difficultyRetargetActivationHeight < (e + 1) * w := by
    refine (Nat.div_lt_iff_lt_mul hpos).mp (lt_of_le_of_ne ?_ hdiff)
    rw [← hnext]
    exact Nat.div_le_div_right (by omega)
  have hwindow : 0 < (e + 1) * w := Nat.mul_pos (Nat.succ_pos e) hpos
  omega

/-- The difficulty moves by at most one bit from a mark to the next. -/
theorem Scheduled.near {history : List Mark} (hp : Retargets params)
    (h : Scheduled params history) {i : Nat} {p m : Mark} (hi : history[i]? = some p)
    (hm : history[i + 1]? = some m) : Near m.leadingZeroBits p.leadingZeroBits := by
  have hlt := (List.getElem?_eq_some_iff.mp hm).1
  have hleni : (history.take i).length = i := by
    rw [List.length_take]
    omega
  have hlen : (history.take (i + 1)).length = i + 1 := by
    rw [List.length_take]
    omega
  have hbounds : InBounds params p.leadingZeroBits := by
    rw [h i p hi]
    exact hp.scheduledBits_inBounds _
  -- A difficulty computed from a sample that ends in `p`.
  have hnear : ∀ (first : Mark) (count : Nat),
      Near (nextLeadingZeroBits params (first.sample p count)) p.leadingZeroBits :=
    fun _ _ => nextLeadingZeroBits_near hbounds
  have hinitial : (history.take i).length < params.difficultyRetargetActivationHeight →
      p.leadingZeroBits = params.initialLeadingZeroBits := by
    intro hlt
    rw [h i p hi, Retargets.scheduledBits_inactive hlt]
  rw [h (i + 1) m hm]
  by_cases hact : i + 1 < params.difficultyRetargetActivationHeight
  · rw [Retargets.scheduledBits_inactive (by omega), hinitial (by omega)]
    exact Near.refl _
  by_cases hwindow : windowOf params (i + 1) = 0
  · by_cases hsecond : i + 1 < satAdd 64 params.difficultyRetargetActivationHeight 2
    · rw [hp.scheduledBits_initial (by omega), h i p hi, hp.scheduledBits_initial (by omega)]
      exact Near.refl _
    · have hlast : (history.take (i + 1)).getLast? = some p := by
        rw [List.getLast?_eq_getElem?, hlen, Nat.add_sub_cancel,
          List.getElem?_take_of_lt (Nat.lt_succ_self i), hi]
      unfold scheduledBits expectedLeadingZeroBits scheduledSample bootstrapSample
      rw [hlen, if_neg hact, if_neg hact, if_pos hwindow, if_pos (Nat.not_lt.mp hsecond), hlast]
      cases hfirst : (history.take (i + 1))[params.difficultyRetargetActivationHeight]? with
      | some first => exact hnear first _
      | none =>
        -- Activation is the block itself.
        rw [List.getElem?_eq_none_iff, hlen] at hfirst
        rw [hinitial (by omega)]
        exact Near.refl _
  · obtain ⟨e, he⟩ := Nat.exists_eq_succ_of_ne_zero hwindow
    rw [Nat.succ_eq_add_one] at he
    rw [scheduledBits_window hlt.le (Nat.not_lt.mp hact) hwindow]
    by_cases hsame : windowOf params i = e + 1
    · -- Within one window.
      have hacti : params.difficultyRetargetActivationHeight ≤ i := by
        by_contra hlow
        unfold windowOf at hsame
        rw [show i - params.difficultyRetargetActivationHeight = 0 by omega, Nat.zero_div] at hsame
        omega
      rw [h i p hi, scheduledBits_window (by omega) hacti (by omega), hsame, he]
      exact Near.refl _
    · have hstart := windowStart_of_next he hsame
      have hfirst : windowStart params e < history.length := by
        have := windowStart_succ params e
        omega
      unfold windowBits windowSample
      rw [he, Nat.add_sub_cancel, hstart, Nat.add_sub_cancel, hi, List.getElem?_eq_getElem hfirst]
      exact hnear _ _

/-! ## Stored blocks -/

namespace ChainState

variable {U : Set Block} {s s' : ChainState} {L L' : Ledger}

/-- Which difficulty a block was checked against: the one its parent's ancestry
    requires, and that parent was stored, unless the block is a genesis. -/
def CheckedBits (params : ConsensusParams) (s : ChainState) (b : Block) : Prop :=
  (b.previousHash = Hash256.zero ∨ (s.getBlockByHash b.previousHash).isSome) ∧
  b.header.leadingZeroBits
    = s.expectedLeadingZeroBitsFor params (s.getBlockByHash b.previousHash)

/-- What installing a block stores. -/
theorem validateAndInstall_stored {parent : Option Block} {block : Block} {now : Nat}
    {bits : UInt8} {seed : Hash256} {k : Hash256} {b : Block}
    (h : (s.validateAndInstall P params parent block now bits seed).2.getBlockByHash k = some b) :
    s.getBlockByHash k = some b ∨ (b = block ∧ b.header.leadingZeroBits = bits) := by
  unfold validateAndInstall at h
  split at h
  · exact Or.inl h
  next hval =>
    have hlookup : (s.db.blocks.insert (block.hash P) block).lookup k = some b := h
    rw [lookup_insert_ite] at hlookup
    split_ifs at hlookup
    · obtain rfl := Option.some.inj hlookup
      exact Or.inr ⟨rfl, (validateBlock_ok.mp hval).bits⟩
    · exact Or.inl hlookup

namespace Represents

variable (hR : Represents P params s L) (hL : L.WellFormed P U) (hU : HashFaithful P U)

include hR hL hU in
theorem getBlockByHash_zero : s.getBlockByHash Hash256.zero = none := by
  rw [hR.known]
  exact hL.known_zero hU

include hR hL in
theorem getBlockByHash_tip {tip : Block} (htip : s.tipCache = some tip) :
    s.getBlockByHash (tip.hash P) = some tip := by
  rw [hR.tipCache] at htip
  rw [hR.known]
  exact hL.known_of_mem (hL.chain tip htip) (List.mem_of_head? htip)

include hR hL hU in
/-- A genesis that is installed has the difficulty required without a parent. -/
theorem genesis_bits {block : Block} {nowSeconds : Nat} {seed : Hash256} {k : Hash256} {b : Block}
    (hroot : block.previousHash = Hash256.zero)
    (h : (s.validateAndInstall P params none block nowSeconds
      (s.expectedLeadingZeroBitsFor params none) seed).2.getBlockByHash k = some b) :
    s.getBlockByHash k = some b ∨ CheckedBits params s b := by
  rcases validateAndInstall_stored h with hold | ⟨rfl, hbits⟩
  · exact Or.inl hold
  · refine Or.inr ⟨Or.inl hroot, ?_⟩
    rw [hroot, hR.getBlockByHash_zero hL hU]
    exact hbits

include hR hL in
/-- A block that is built on the tip has the difficulty the tip requires. -/
theorem mineNextBlock_bits {timestampSeconds : Nat} {miner : String} {maxNonce : UInt64}
    {k : Hash256} {b : Block}
    (h : (s.mineNextBlock P params timestampSeconds miner maxNonce).2.getBlockByHash k = some b) :
    s.getBlockByHash k = some b ∨ CheckedBits params s b := by
  unfold ChainState.mineNextBlock at h
  split at h
  · exact Or.inl h
  next parent htip =>
    dsimp only at h
    split at h
    · exact Or.inl h
    next hmined =>
      obtain ⟨nonce, rfl⟩ := mineCandidateBlock_ok hmined
      rcases validateAndInstall_stored h with hold | ⟨rfl, hbits⟩
      · exact Or.inl hold
      · have hparent := hR.getBlockByHash_tip hL htip
        refine Or.inr ⟨Or.inr ?_, ?_⟩
        · show (s.getBlockByHash (parent.hash P)).isSome = true
          rw [hparent]
          rfl
        · show _ = s.expectedLeadingZeroBitsFor params (s.getBlockByHash (parent.hash P))
          rw [hbits, hparent]

/-- A submitted block has the difficulty its parent requires. -/
theorem submitBlock_bits {block : Block} {nowSeconds : Nat} {k : Hash256} {b : Block}
    (h : (s.submitBlock P params block nowSeconds).2.getBlockByHash k = some b) :
    s.getBlockByHash k = some b ∨ CheckedBits params s b := by
  obtain ⟨s₁, hsync, ⟨e, hresult⟩ | ⟨_, ⟨parent, hparent, hval⟩, hresult⟩⟩ :=
    submitBlock_cases P params s block nowSeconds
  · rw [hresult, hsync.getBlockByHash] at h
    exact Or.inl h
  · rw [hresult, storeAndChoose_getBlockByHash, hsync.getBlockByHash] at h
    rw [hsync.getBlockByHash] at hparent
    split_ifs at h
    · obtain rfl := Option.some.inj h
      refine Or.inr ⟨Or.inr ?_, ?_⟩
      · show (s.getBlockByHash block.header.previousHash).isSome = true
        rw [hparent]
        rfl
      · -- The synchronisation has touched nothing the difficulty is computed from.
        rw [hval.bits, Block.previousHash, hparent]
        unfold expectedLeadingZeroBitsFor walk
        rw [hsync.getBlockByHash, hsync.blocks]
    · exact Or.inl h

include hR hL hU in
/-- Every operation checks the difficulty of the block it stores. -/
theorem step_bits (op : Op) {k : Hash256} {b : Block}
    (h : (s.step P params op).getBlockByHash k = some b) :
    s.getBlockByHash k = some b ∨ CheckedBits params s b := by
  -- Only genesis, mining and a submission store a block.
  cases op with
  | initGenesis timestampSeconds maxNonce =>
    change (s.initGenesis P params timestampSeconds maxNonce).2.getBlockByHash k = some b at h
    unfold initGenesis at h
    split_ifs at h
    · exact Or.inl h
    dsimp only at h
    split at h
    · exact Or.inl h
    next hmined =>
      obtain ⟨nonce, rfl⟩ := mineCandidateBlock_ok hmined
      exact hR.genesis_bits hL hU rfl h
  | initGenesisNonce timestampSeconds nonce =>
    change (s.initGenesisNonce P params timestampSeconds nonce).2.getBlockByHash k = some b at h
    unfold initGenesisNonce at h
    split_ifs at h
    · exact Or.inl h
    dsimp only at h
    split_ifs at h
    · exact Or.inl h
    · exact hR.genesis_bits hL hU rfl h
  | mineNextBlock timestampSeconds miner maxNonce => exact hR.mineNextBlock_bits hL h
  | submitBlock block nowSeconds => exact submitBlock_bits h
  | ensureUtxoSynced =>
    left
    change (s.ensureUtxoSynced P params).2.getBlockByHash k = some b at h
    rw [← (ensureUtxoSynced_syncStep P params s).getBlockByHash]
    exact h
  | takeReorgRequeueCandidates => exact Or.inl h
  | reopen =>
    left
    change (ChainState.openDb s.db).getBlockByHash k = some b at h
    unfold getBlockByHash at h ⊢
    rwa [openDb_db] at h

end Represents

theorem expectedLeadingZeroBitsFor_none :
    s.expectedLeadingZeroBitsFor params none = requiredBits params [] := by
  unfold expectedLeadingZeroBitsFor requiredBits walk
  simp only [ParentLinked.walk, Option.getD_some]
  rfl

/-- Every stored block has the difficulty that its ancestry requires. -/
def BitsRequired (params : ConsensusParams) (s : ChainState) : Prop :=
  ∀ k b t, s.StoredAncestry k (b :: t) → b.header.leadingZeroBits = requiredBits params t

/-- One operation keeps it so. -/
theorem BitsRequired.step (hb : BitsRequired params s) (hU : HashFaithful P U)
    (hR : Represents P params s L) (hL : L.WellFormed P U) (op : Op)
    (hR' : Represents P params (s.step P params op) L') (hL' : L'.WellFormed P U) :
    BitsRequired params (s.step P params op) := by
  intro k b t ht
  unfold StoredAncestry at ht
  rw [hR'.known] at ht
  obtain ⟨hk, htail⟩ := ht.tail
  rw [← hR'.known] at hk
  rcases hR.step_bits hL hU op hk with hold | ⟨hparent, hbits⟩
  · -- A block that was stored has the ancestry it had.
    rw [hR.known] at hold
    obtain ⟨t₀, ht₀, _⟩ := hL.linked.exists_ancestry hold
    obtain rfl := (List.cons.inj (hL.ancestry_unique hU hL' ht₀ ht)).2
    refine hb k b t₀ ?_
    unfold StoredAncestry
    rw [hR.known]
    exact ht₀
  · rw [hbits]
    rcases htail with ⟨hroot, rfl⟩ | ⟨hne, hparents⟩
    · rw [hroot, hR.getBlockByHash_zero hL hU]
      exact expectedLeadingZeroBitsFor_none
    · obtain ⟨p, hp⟩ := Option.isSome_iff_exists.mp (hparent.resolve_left hne)
      rw [hR.known] at hp
      obtain ⟨t₀, ht₀, _⟩ := hL.linked.exists_ancestry hp
      obtain rfl := hL.ancestry_unique hU hL' ht₀ hparents
      rw [hR.known, ht₀.get_eq_head?]
      exact hR.expectedLeadingZeroBitsFor_eq hL hU ht₀

theorem Reachable.bitsRequired (h : Reachable P params U s) (hU : HashFaithful P U) :
    BitsRequired params s := by
  have hinv : (∃ L, Represents P params s L ∧ L.WellFormed P U) ∧ BitsRequired params s := by
    refine h.invariant (fun s => (∃ L, Represents P params s L ∧ L.WellFormed P U) ∧
      BitsRequired params s) ⟨⟨Ledger.empty, represents_new, Ledger.wellFormed_empty⟩, ?_⟩ ?_
    · intro k b t ht
      cases ht.tail.1
    · rintro s op ⟨⟨L, hR, hL⟩, hb⟩ hstores
      obtain ⟨L', _, hR', hL'⟩ := hR.step hL hU op hstores
      exact ⟨⟨L', hR', hL'⟩, hb.step hU hR hL op hR' hL'⟩
  exact hinv.2

/-- The marks of a stored chain keep to the schedule. -/
theorem Reachable.scheduled (h : Reachable P params U s) (hU : HashFaithful P U) {k : Hash256}
    {t : List Block} (ht : s.StoredAncestry k t) :
    Scheduled params (t.reverse.map Block.mark) := by
  obtain ⟨L, hR, hL⟩ := h.represents hU
  unfold StoredAncestry at ht
  rw [hR.known] at ht
  intro i m hm
  rw [List.getElem?_map] at hm
  obtain ⟨b, hb, rfl⟩ := Option.map_eq_some_iff.mp hm
  -- The block at `i` and what lies behind it.
  obtain ⟨hi, hbi⟩ := List.getElem?_eq_some_iff.mp hb
  have hsplit : t = (t.reverse.drop (i + 1)).reverse ++ b :: (t.reverse.take i).reverse := by
    have hcons : t.reverse.drop i = b :: t.reverse.drop (i + 1) := by
      rw [List.drop_eq_getElem_cons hi, hbi]
    have hall : t.reverse = t.reverse.take i ++ b :: t.reverse.drop (i + 1) := by
      rw [← hcons, List.take_append_drop]
    calc t = (t.reverse.take i ++ b :: t.reverse.drop (i + 1)).reverse := by
          rw [← hall, List.reverse_reverse]
      _ = (t.reverse.drop (i + 1)).reverse ++ b :: (t.reverse.take i).reverse := by simp
  have hsuffix : b :: (t.reverse.take i).reverse <:+ t := ⟨_, hsplit.symm⟩
  obtain ⟨k', hk', hwalk⟩ := ht.of_suffix hsuffix
  have hbits := h.bitsRequired hU k' b _ (by unfold StoredAncestry; rw [hR.known]; exact hwalk)
  have hheights : AtHeights (t.reverse.take i).reverse := by
    intro j c hc
    rw [List.reverse_reverse] at hc
    have hj := (List.getElem?_eq_some_iff.mp hc).1
    rw [List.length_take] at hj
    rw [List.getElem?_take_of_lt (by omega)] at hc
    exact hL.height_of_getElem ht hc
  show b.header.leadingZeroBits = _
  rw [hbits, requiredBits_eq_scheduledBits hheights, List.reverse_reverse, List.map_take]

/-- **Difficulty evolves by bounded steps along every chain.** A stored block
    has a complete chain of ancestors. Its difficulty is the one scheduled by
    their timestamps and difficulties; it lies within the bounds and differs by
    at most one bit from its parent's; it is the initial one below the second
    block after activation; and it is that of every ancestor in the same
    adjustment window, from the second window after activation on. -/
theorem difficulty_along_chains (P : Primitives) (params : ConsensusParams) (U : Set Block)
    (s : ChainState) (hs : Reachable P params U s) (hU : HashFaithful P U)
    (hmin : params.minLeadingZeroBits ≤ params.initialLeadingZeroBits)
    (hmax : params.initialLeadingZeroBits ≤ params.maxLeadingZeroBits)
    (hwindow : 2 ≤ params.difficultyAdjustmentWindow) (k : Hash256) (b : Block)
    (hb : s.getBlockByHash k = some b) :
    ∃ parents, s.StoredAncestry k (b :: parents) ∧
      b.header.leadingZeroBits = scheduledBits params (parents.reverse.map Block.mark) ∧
      params.minLeadingZeroBits ≤ b.header.leadingZeroBits ∧
      b.header.leadingZeroBits ≤ params.maxLeadingZeroBits ∧
      (∀ p, s.getBlockByHash b.previousHash = some p →
        Near b.header.leadingZeroBits p.header.leadingZeroBits) ∧
      (b.header.height < satAdd 64 params.difficultyRetargetActivationHeight 2 →
        b.header.leadingZeroBits = params.initialLeadingZeroBits) ∧
      ∀ a ∈ parents,
        params.difficultyRetargetActivationHeight + params.difficultyAdjustmentWindow
          ≤ a.header.height →
        windowOf params a.header.height = windowOf params b.header.height →
        a.header.leadingZeroBits = b.header.leadingZeroBits := by
  have hp : Retargets params := ⟨⟨hmin, hmax⟩, hwindow⟩
  obtain ⟨L, hR, hL⟩ := hs.represents hU
  obtain ⟨parents, hwalk, hlen⟩ := hL.linked.exists_ancestry (hR.known ▸ hb)
  have ht : s.StoredAncestry k (b :: parents) := by
    unfold StoredAncestry
    rw [hR.known]
    exact hwalk
  have hsched := hs.scheduled hU ht
  have hheight : ∀ {i : Nat} {c : Block}, (b :: parents).reverse[i]? = some c →
      c.header.height = i := fun hc => hL.height_of_getElem hwalk hc
  -- The block is the last one of its chain: it is scheduled by all of its ancestors.
  have hself : (b :: parents).reverse[parents.length]? = some b := by
    rw [getElem?_reverse_cons, if_pos rfl]
  have hbits : b.header.leadingZeroBits
      = scheduledBits params (parents.reverse.map Block.mark) := by
    have hm := hsched parents.length b.mark (by rw [List.getElem?_map, hself]; rfl)
    rw [List.reverse_cons, List.map_append, List.take_left' (by simp)] at hm
    exact hm
  refine ⟨parents, ht, hbits, ?_, ?_, ?_, ?_, ?_⟩
  · rw [hbits]
    exact (hp.scheduledBits_inBounds _).1
  · rw [hbits]
    exact (hp.scheduledBits_inBounds _).2
  · intro p hparent
    rcases ht.tail.2 with ⟨hroot, _⟩ | ⟨_, hparents⟩
    · rw [hroot, hR.getBlockByHash_zero hL hU] at hparent
      cases hparent
    · -- The parent is the youngest of the ancestors.
      obtain ⟨c, rest, rfl, hc⟩ := hparents.head
      obtain rfl := Option.some.inj (hparent.symm.trans hc)
      have hnear : ((b :: p :: rest).reverse.map Block.mark)[rest.length]? = some p.mark →
          ((b :: p :: rest).reverse.map Block.mark)[rest.length + 1]? = some b.mark →
          Near b.header.leadingZeroBits p.header.leadingZeroBits := hsched.near hp
      refine hnear ?_ ?_
      · rw [List.getElem?_map, getElem?_reverse_cons, if_neg (by simp), getElem?_reverse_cons,
          if_pos rfl]
        rfl
      · rw [List.getElem?_map, show rest.length + 1 = (p :: rest).length from rfl, hself]
        rfl
  · intro hlow
    rw [hbits]
    refine hp.scheduledBits_initial ?_
    rw [List.length_map, List.length_reverse, hlen]
    exact hlow
  · intro a ha hafter hsame
    -- The ancestor stands at its height, in a window behind the first one.
    obtain ⟨i, hi⟩ := List.mem_iff_getElem?.mp (List.mem_reverse.mpr ha)
    have hlt : i < parents.length := by simpa using (List.getElem?_eq_some_iff.mp hi).1
    have hi' : (b :: parents).reverse[i]? = some a := by
      rw [getElem?_reverse_cons, if_neg hlt.ne, hi]
    rw [hheight hi'] at hafter hsame
    rw [hheight hself] at hsame
    have hnot : windowOf params i ≠ 0 := by
      unfold windowOf
      have hpos : 0 < max params.difficultyAdjustmentWindow 1 := by omega
      have hone := (Nat.one_le_div_iff hpos).mpr (show max params.difficultyAdjustmentWindow 1
        ≤ i - params.difficultyRetargetActivationHeight by omega)
      omega
    have hma : ((b :: parents).reverse.map Block.mark)[i]? = some a.mark := by
      rw [List.getElem?_map, hi']
      rfl
    have hmb : ((b :: parents).reverse.map Block.mark)[parents.length]? = some b.mark := by
      rw [List.getElem?_map, hself]
      rfl
    exact hsched.window_const hma hmb (by omega) hlt.le hnot hsame

/-! ## A chain that retargets -/

/-- Parameters that retarget every second block from genesis on. -/
def retargetParams : ConsensusParams :=
  { testParams with difficultyAdjustmentWindow := 2, difficultyRetargetActivationHeight := 0 }

/-- The state after genesis and `n` quickly mined blocks. -/
def quickRun : Nat → ChainState
  | 0 => new.step Primitives.sample retargetParams (.initGenesis 1 0)
  | n + 1 => (quickRun n).step Primitives.sample retargetParams (.mineNextBlock (n + 2) "a" 0)

/-- Genesis and four such blocks. -/
def quickBlocks : List Block := (quickRun 4).canonicalBlocksIter

theorem quickRun_storesOnly {n : Nat} (hn : n < 5) :
    StoresOnly {b | b ∈ quickBlocks} (quickRun n) := by
  have hall : ∀ n < 5, ∀ e ∈ (quickRun n).db.blocks.entries, e.2 ∈ quickBlocks := by
    decide +kernel
  exact storesOnly_of_entries (hall n hn)

theorem quickRun_reachable {n : Nat} (hn : n < 5) :
    Reachable Primitives.sample retargetParams {b | b ∈ quickBlocks} (quickRun n) := by
  induction n with
  | zero => exact .step _ .init (quickRun_storesOnly hn)
  | succ n ih => exact .step _ (ih (by omega)) (quickRun_storesOnly hn)

/-- Genesis and its child have the initial difficulty; every window of two
    blocks after that adds a bit. -/
theorem quickRun_bits :
    (quickBlocks.map fun b => b.header.leadingZeroBits) = [8, 8, 9, 9, 10] ∧
    ∀ b ∈ quickBlocks, ∃ parents,
      (quickRun 4).StoredAncestry (b.hash Primitives.sample) (b :: parents) ∧
      b.header.leadingZeroBits = scheduledBits retargetParams (parents.reverse.map Block.mark) := by
  refine ⟨by decide +kernel, fun b hb => ?_⟩
  have hfaithful : HashFaithful Primitives.sample {b | b ∈ quickBlocks} :=
    hashFaithful_of_nodup (by decide +kernel)
  have hstored : ∀ b ∈ quickBlocks,
      (quickRun 4).getBlockByHash (b.hash Primitives.sample) = some b := by
    decide +kernel
  obtain ⟨parents, hwalk, hbits, _⟩ := difficulty_along_chains Primitives.sample retargetParams _
    (quickRun 4) (quickRun_reachable (by decide)) hfaithful (by decide) (by decide) (by decide) _ b
    (hstored b hb)
  exact ⟨parents, hwalk, hbits⟩

end ChainState

end Tensorium
