import Tensorium.Lib.GuardedRun

/-! # A shared file that is read, changed and written back

    A call loads the whole value of a file, and saves what its request makes of it. No
    lock is held in between, and a save takes two steps: the file is cut to nothing, and
    the text is written over its start. Where no save begins unless the file holds what
    the call has loaded, and no other save is under way, the calls act one after the
    other.
-/

namespace ReadModifyWrite

open GuardedRun

variable {ι β : Type*}

/-- A file: its length, and the value that its text stands for, if any. -/
structure TextFile (β : Type*) where
  length : Nat
  value : Option β

/-- A call under way. -/
structure Call (ι β : Type*) where
  request : ι
  loaded : β
  /-- The file has been cut, and the text is not written yet. -/
  saving : Bool

/-- The file, the calls under way, and those that have saved, with what they had loaded. -/
structure World (ι β : Type*) where
  file : Option (TextFile β)
  calls : Nat → Option (Call ι β)
  saved : List (ι × β)

/-- The steps of the callers, in any order. -/
inductive Event (ι : Type*) where
  /-- A caller reads the file. -/
  | load (caller : Nat) (request : ι)
  /-- A caller opens the file for writing. -/
  | truncate (caller : Nat)
  /-- A caller writes the text of its new value. -/
  | write (caller : Nat)

/-- What is kept in the file. -/
structure Shared (ι β : Type*) where
  /-- What counts as loaded if there is no file or its text is no value. -/
  absent : β
  /-- The length of the text of a value. -/
  size : β → Nat
  /-- What a request makes of the value. -/
  update : ι → β → β

namespace Shared

variable (S : Shared ι β)

def read (file : Option (TextFile β)) : β := (file.bind TextFile.value).getD S.absent

/-- A text written from the start of the file on. If the file has become longer, there is
    a rest behind it. -/
def overwrite (file : Option (TextFile β)) (v : β) : TextFile β :=
  let length := (file.map TextFile.length).getD 0
  if length ≤ S.size v then ⟨S.size v, some v⟩ else ⟨length, none⟩

def step (w : World ι β) : Event ι → World ι β
  | .load caller request =>
    match w.calls caller with
    | none =>
      { w with calls := Function.update w.calls caller (some ⟨request, S.read w.file, false⟩) }
    | some _ => w
  | .truncate caller =>
    match w.calls caller with
    | some ⟨request, loaded, false⟩ =>
      { w with
        file := some ⟨0, none⟩
        calls := Function.update w.calls caller (some ⟨request, loaded, true⟩) }
    | _ => w
  | .write caller =>
    match w.calls caller with
    | some ⟨request, loaded, true⟩ =>
      { file := some (S.overwrite w.file (S.update request loaded))
        calls := Function.update w.calls caller none
        saved := w.saved ++ [(request, loaded)] }
    | _ => w

end Shared

/-- No file yet, and nobody calls. -/
def World.start : World ι β := ⟨none, fun _ => none, []⟩

/-- No save is under way. -/
def World.Quiet (w : World ι β) : Prop :=
  ∀ caller call, w.calls caller = some call → call.saving = false

namespace Shared

variable (S : Shared ι β)

/-- A save that begins finds the value that its call has loaded, and no other save. -/
def Undisturbed (w : World ι β) : Event ι → Prop
  | .truncate caller => ∀ call, w.calls caller = some call → call.saving = false →
      w.Quiet ∧ S.read w.file = call.loaded
  | _ => True

/-- What the requests make of the value, one after the other. -/
def applyAll (saved : List (ι × β)) : β := saved.foldl (fun v call => S.update call.1 v) S.absent

theorem applyAll_concat (saved : List (ι × β)) (call : ι × β) :
    S.applyAll (saved ++ [call]) = S.update call.1 (S.applyAll saved) := by
  unfold applyAll
  rw [List.foldl_append]
  rfl

/-- Every call had loaded what the calls before it had left. -/
inductive Sequential : List (ι × β) → Prop where
  | nil : Sequential []
  | concat {saved : List (ι × β)} (request : ι) :
      Sequential saved → Sequential (saved ++ [(request, S.applyAll saved)])

/-- The calls act one after the other. -/
structure Serial (w : World ι β) : Prop where
  sequential : S.Sequential w.saved
  stored : w.Quiet → S.read w.file = S.applyAll w.saved
  saving : ∀ caller call, w.calls caller = some call → call.saving = true →
    call.loaded = S.applyAll w.saved ∧ w.file = some ⟨0, none⟩
  alone : ∀ caller call caller' call', w.calls caller = some call → call.saving = true →
    w.calls caller' = some call' → call'.saving = true → caller = caller'

variable {S}

theorem Serial.start : S.Serial World.start where
  sequential := .nil
  stored := fun _ => rfl
  saving := by
    intro _ _ hcall
    cases hcall
  alone := by
    intro _ _ _ _ hcall
    cases hcall

/-- What the calls are after one of them has changed. -/
theorem calls_update {calls : Nat → Option (Call ι β)} {caller caller' : Nat}
    {call : Option (Call ι β)} {call' : Call ι β}
    (h : Function.update calls caller call caller' = some call') :
    caller' = caller ∧ call = some call' ∨ caller' ≠ caller ∧ calls caller' = some call' := by
  by_cases heq : caller' = caller
  · left
    rw [heq, Function.update_self] at h
    exact ⟨heq, h⟩
  · right
    rw [Function.update_of_ne heq] at h
    exact ⟨heq, h⟩

theorem Serial.load {w : World ι β} (h : S.Serial w) (caller : Nat) (request : ι) :
    S.Serial (S.step w (.load caller request)) := by
  unfold step
  dsimp only
  split
  next hnone =>
    -- The new call is not saving, so the others are what they were.
    have hold : ∀ caller' call, Function.update w.calls caller
        (some ⟨request, S.read w.file, false⟩) caller' = some call → call.saving = true →
        w.calls caller' = some call := by
      intro caller' call hcall hsaving
      rcases calls_update hcall with ⟨_, heq⟩ | ⟨_, hcall'⟩
      · obtain rfl := Option.some.inj heq
        cases hsaving
      · exact hcall'
    refine ⟨h.sequential, ?_, ?_, ?_⟩
    · intro hquiet
      apply h.stored
      intro caller' call hcall
      have hne : caller' ≠ caller := by
        rintro rfl
        rw [hnone] at hcall
        cases hcall
      exact hquiet caller' call ((Function.update_of_ne hne _ _).trans hcall)
    · intro caller' call hcall hsaving
      exact h.saving caller' call (hold _ _ hcall hsaving) hsaving
    · intro a call b call' ha hsaving hb hsaving'
      exact h.alone a call b call' (hold _ _ ha hsaving) hsaving (hold _ _ hb hsaving') hsaving'
  · exact h

theorem Serial.truncate {w : World ι β} (h : S.Serial w) (caller : Nat)
    (hundisturbed : S.Undisturbed w (.truncate caller)) :
    S.Serial (S.step w (.truncate caller)) := by
  unfold step
  dsimp only
  split
  next request loaded hcall =>
    obtain ⟨hquiet, hread⟩ := hundisturbed _ hcall rfl
    have hloaded : loaded = S.applyAll w.saved := hread.symm.trans (h.stored hquiet)
    -- Only this call is saving now.
    have hself : ∀ caller' call, Function.update w.calls caller
        (some ⟨request, loaded, true⟩) caller' = some call → call.saving = true →
        caller' = caller ∧ call = ⟨request, loaded, true⟩ := by
      intro caller' call hcall' hsaving
      rcases calls_update hcall' with ⟨heq, hnew⟩ | ⟨_, hold⟩
      · exact ⟨heq, (Option.some.inj hnew).symm⟩
      · rw [hquiet caller' call hold] at hsaving
        cases hsaving
    refine ⟨h.sequential, ?_, ?_, ?_⟩
    · intro hquiet'
      have hself' := hquiet' caller _ (Function.update_self caller _ w.calls)
      cases hself'
    · intro caller' call hcall' hsaving
      obtain ⟨_, rfl⟩ := hself caller' call hcall' hsaving
      exact ⟨hloaded, rfl⟩
    · intro a call b call' ha hsaving hb hsaving'
      exact (hself a call ha hsaving).1.trans (hself b call' hb hsaving').1.symm
  · exact h

theorem Serial.write {w : World ι β} (h : S.Serial w) (caller : Nat) :
    S.Serial (S.step w (.write caller)) := by
  unfold step
  dsimp only
  split
  next request loaded hcall =>
    obtain ⟨rfl, hfile⟩ := h.saving caller _ hcall rfl
    -- Nobody else is saving.
    have hquiet : ∀ caller' call, Function.update w.calls caller none caller' = some call →
        call.saving = false := by
      intro caller' call hcall'
      rcases calls_update hcall' with ⟨_, hnone⟩ | ⟨hne, hold⟩
      · cases hnone
      · by_contra hsaving
        rw [Bool.not_eq_false] at hsaving
        exact hne (h.alone caller' call caller _ hold hsaving hcall rfl)
    refine ⟨.concat request h.sequential, ?_, ?_, ?_⟩
    · intro _
      -- The file was truncated, so nothing is left behind the new text.
      have hover : S.overwrite w.file (S.update request (S.applyAll w.saved))
          = ⟨S.size (S.update request (S.applyAll w.saved)),
            some (S.update request (S.applyAll w.saved))⟩ := by
        unfold overwrite
        rw [hfile]
        exact if_pos (Nat.zero_le _)
      dsimp only
      rw [hover, applyAll_concat]
      rfl
    · intro caller' call hcall' hsaving
      rw [hquiet caller' call hcall'] at hsaving
      cases hsaving
    · intro a call b call' ha hsaving
      rw [hquiet a call ha] at hsaving
      cases hsaving
  · exact h

/-- One undisturbed step keeps the calls in sequence. -/
theorem Serial.step {w : World ι β} (h : S.Serial w) (event : Event ι)
    (hundisturbed : S.Undisturbed w event) : S.Serial (S.step w event) := by
  cases event with
  | load caller request => exact h.load caller request
  | truncate caller => exact h.truncate caller hundisturbed
  | write caller => exact h.write caller

/-- An undisturbed run does. -/
theorem Serial.run {events : List (Event ι)}
    (h : Along S.step S.Undisturbed World.start events) :
    S.Serial (events.foldl S.step World.start) :=
  h.invariant S.Serial .start fun _ event hw hundisturbed => hw.step event hundisturbed

/-! ## A call alone -/

/-- The steps of one call, with nothing in between. -/
def oneCall (caller : Nat) (request : ι) : List (Event ι) :=
  [.load caller request, .truncate caller, .write caller]

end Shared

/-- Nobody calls. -/
def World.Idle (w : World ι β) : Prop := ∀ caller, w.calls caller = none

theorem World.idle_start : (World.start : World ι β).Idle := fun _ => rfl

theorem World.Idle.quiet {w : World ι β} (h : w.Idle) : w.Quiet := by
  intro caller call hcall
  rw [h caller] at hcall
  cases hcall

namespace Shared

variable {S : Shared ι β} {w : World ι β}

/-- The world after the load. -/
theorem step_load (h : w.Idle) (caller : Nat) (request : ι) :
    S.step w (.load caller request) =
      { w with
        calls := Function.update w.calls caller (some ⟨request, S.read w.file, false⟩) } := by
  unfold step
  dsimp only
  rw [h caller]

theorem idle_oneCall (h : w.Idle) (caller : Nat) (request : ι) :
    ((oneCall caller request).foldl S.step w).Idle := by
  intro caller'
  show (S.step (S.step (S.step w (.load caller request)) (.truncate caller))
    (.write caller)).calls caller' = none
  rw [step_load h]
  simp only [step, Function.update_self, Function.update_idem]
  by_cases heq : caller' = caller
  · rw [heq, Function.update_self]
  · rw [Function.update_of_ne heq, h caller']

/-- A call is undisturbed if nobody else calls. -/
theorem along_oneCall (h : w.Idle) (caller : Nat) (request : ι) :
    Along S.step S.Undisturbed w (oneCall caller request) := by
  refine ⟨trivial, ?_, trivial, trivial⟩
  rw [step_load h]
  intro call hcall _
  have hloaded := (Function.update_self caller _ w.calls).symm.trans hcall
  obtain rfl := Option.some.inj hloaded
  refine ⟨?_, rfl⟩
  intro caller' call' hcall'
  rcases calls_update hcall' with ⟨_, hnew⟩ | ⟨_, hold⟩
  · obtain rfl := Option.some.inj hnew
    rfl
  · rw [h caller'] at hold
    cases hold

end Shared

end ReadModifyWrite
