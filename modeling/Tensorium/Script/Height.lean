import Tensorium.Lib.ExceptFold
import Tensorium.Core.Script.Vm

/-! # Scripts and the height of the chain

    The height enters a script through `OP_CHECKLOCKTIMEVERIFY` alone, which
    either fails or leaves the stack as it is. A script that succeeds at some
    height therefore succeeds in the same way at every later one.
-/

namespace Tensorium.Script

open ExceptFold

variable {P : Primitives} {sigHash : Hash256} {height height' : Nat} {allow : Bool}

/-- One opcode. -/
theorem execOp_height (hle : height ≤ height') {byte : UInt8} {stack stack' : Stack}
    (h : execOp P ⟨sigHash, height⟩ allow byte stack = .ok stack') :
    execOp P ⟨sigHash, height'⟩ allow byte stack = .ok stack' := by
  unfold execOp at h ⊢
  cases hop : decodeOp byte with
  | opCheckLockTimeVerify =>
    rw [hop] at h
    dsimp only at h ⊢
    obtain ⟨⟨top, rest⟩, hpop, hrest⟩ := bind_eq_ok.mp h
    rw [hpop]
    simp only [bind, Except.bind] at hrest ⊢
    split_ifs at hrest ⊢ with hsize hlock hlock'
    · -- The lock was met below, so it is met here.
      omega
    · exact hrest
  | _ =>
    rw [hop] at h
    exact h

/-- The interpreter loop. -/
theorem runLoop_height (hle : height ≤ height') {fuel : Nat} {script : Bytes}
    {stack stack' : Stack} {ifStack : List Bool}
    (h : runLoop P ⟨sigHash, height⟩ allow fuel script stack ifStack = .ok stack') :
    runLoop P ⟨sigHash, height'⟩ allow fuel script stack ifStack = .ok stack' := by
  induction fuel generalizing script stack ifStack with
  | zero =>
    cases script with
    | nil => exact h
    | cons byte rest => exact h
  | succ fuel ih =>
    cases script with
    | nil => exact h
    | cons byte rest =>
      rw [runLoop.eq_def] at h ⊢
      dsimp only at h ⊢
      -- Only a lock time looks at the height: `execOp_height`.
      cases hop : decodeOp byte with
      | push n =>
        rw [hop] at h
        obtain ⟨⟨rest', stack₁⟩, hread, hrun⟩ := bind_eq_ok.mp h
        exact bind_eq_ok.mpr ⟨_, hread, ih hrun⟩
      | pushData1 =>
        rw [hop] at h
        cases rest with
        | nil => exact h
        | cons n rest =>
          obtain ⟨⟨rest', stack₁⟩, hread, hrun⟩ := bind_eq_ok.mp h
          exact bind_eq_ok.mpr ⟨_, hread, ih hrun⟩
      | opIf =>
        rw [hop] at h
        dsimp only at h ⊢
        split_ifs at h ⊢ with hexec
        · obtain ⟨⟨top, stack₁⟩, hpop, hrun⟩ := bind_eq_ok.mp h
          exact bind_eq_ok.mpr ⟨_, hpop, ih hrun⟩
        · exact ih h
      | opElse =>
        rw [hop] at h
        cases ifStack with
        | nil => exact ih h
        | cons last outer => exact ih h
      | opEndif =>
        rw [hop] at h
        exact ih h
      | _ =>
        rw [hop] at h
        dsimp only at h ⊢
        split_ifs at h ⊢ with hexec
        · obtain ⟨stack₁, hstep, hrun⟩ := bind_eq_ok.mp h
          exact bind_eq_ok.mpr ⟨_, execOp_height hle hstep, ih hrun⟩
        · exact ih h

/-- **A spend that succeeds at some height succeeds at every later one.** -/
theorem execute_height (hle : height ≤ height') {scriptSig scriptPubkey : Bytes} {b : Bool}
    (h : execute P scriptSig scriptPubkey ⟨sigHash, height⟩ = .ok b) :
    execute P scriptSig scriptPubkey ⟨sigHash, height'⟩ = .ok b := by
  unfold execute at h ⊢
  by_cases hsize : scriptSig.length + scriptPubkey.length > maxScriptSize
  · rw [if_pos hsize] at h ⊢
    exact h
  rw [if_neg hsize] at h ⊢
  obtain ⟨stack, hsig, hrest⟩ := bind_eq_ok.mp h
  apply bind_eq_ok.mpr
  refine ⟨stack, runLoop_height hle hsig, ?_⟩
  by_cases hp2sh : isP2sh scriptPubkey = true
  · rw [if_pos hp2sh] at hrest ⊢
    obtain ⟨⟨redeem, stack₁⟩, hpop, hredeem⟩ := bind_eq_ok.mp hrest
    refine bind_eq_ok.mpr ⟨_, hpop, ?_⟩
    dsimp only at hredeem ⊢
    split_ifs at hredeem ⊢ with hhash
    · exact hredeem
    · obtain ⟨stack₂, hrun, hres⟩ := bind_eq_ok.mp hredeem
      exact bind_eq_ok.mpr ⟨stack₂, runLoop_height hle hrun, hres⟩
  · rw [if_neg hp2sh] at hrest ⊢
    obtain ⟨stack₂, hrun, hres⟩ := bind_eq_ok.mp hrest
    exact bind_eq_ok.mpr ⟨stack₂, runLoop_height hle hrun, hres⟩

end Tensorium.Script
