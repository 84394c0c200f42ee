import Tensorium.Lib.Layout
import Tensorium.Core.Script.Contracts

/-! # Recognising standard scripts

    The recognisers of `script/standard.rs`, index by index. They test the length of
    a script and then read it at fixed places. All but `extract_htlc` test enough:
    they never read out of bounds, whatever the script.
-/

namespace Tensorium.Script

open ByteCodec Panicking

namespace Recognisers

/-! ## The recognisers

    `encode` stands for `bech32::encode`, `none` for its errors. -/

/-- `extract_p2sh_hash`. -/
def extractP2shHash (spk : Bytes) : MayPanic (Option (ByteVec 20)) := do
  if spk.length ≠ 23 then return none else
  if !(← matchesAt spk 0 [0xa9, 0x14]) then return none else
  if !(← matchesAt spk 22 [0x87]) then return none else
  return some (← copyOut 20 spk 2 22)

/-- `p2sh_address_from_hash`. -/
def p2shAddressFromHash (encode : String → Bytes → Option String) (hash20 : ByteVec 20) :
    MayPanic String :=
  unwrap (encode p2shHrp hash20.1)

/-- `extract_address`. -/
def extractAddress (encode : String → Bytes → Option String) (spk : Bytes) :
    MayPanic (Option String) := do
  match ← extractP2shHash spk with
  | some hash20 => return some (← p2shAddressFromHash encode hash20)
  | none =>
    if spk.length ≠ 25 then return none else
    if !(← matchesAt spk 0 [0x76, 0xa9, 0x14]) then return none else
    if !(← matchesAt spk 23 [0x88, 0xac]) then return none else
    return encode addressHrp (← slice spk 3 23)

/-- The loop of `extract_multisig`: the keys, and where it stops. -/
def multisigKeys (spk : Bytes) (i : Nat) : MayPanic (Option (List Bytes × Nat)) :=
  if i < spk.length - 2 then do
    if (← index spk i) ≠ 0x21 then return none else
    let stop := i + 1 + 33
    if stop > spk.length then return none else
    let pubkey ← slice spk (i + 1) stop
    match ← multisigKeys spk stop with
    | none => return none
    | some (pubkeys, i) => return some (pubkey :: pubkeys, i)
  else return some ([], i)
termination_by spk.length - i

/-- `extract_multisig`. -/
def extractMultisig (spk : Bytes) : MayPanic (Option (UInt8 × List Bytes)) := do
  if spk.length < 37 then return none else
  match spk.head?, spk.getLast? with
  | some first, some last =>
    if last ≠ 0xae then return none else
    if first < 0x51 ∨ first > 0x60 then return none else
    let m := first - 0x50
    match ← multisigKeys spk 1 with
    | none => return none
    | some (pubkeys, i) =>
      match spk[i]? with
      | none => return none
      | some nByte =>
        if nByte < 0x51 ∨ nByte > 0x60 then return none else
        let n := nByte - 0x50
        if pubkeys.length ≠ n.toNat ∨ m > n then return none else
        return some (m, pubkeys)
  | _, _ => return none

/-- The lock time of `extract_htlc` and `extract_cltv_p2pkh`: `lt_len` bytes from
    `start`, filled up with zeros. -/
def readLocktime (spk : Bytes) (start ltLen : Nat) : MayPanic UInt64 := do
  let ltBuf ← copyToPrefix (List.replicate 8 0) ltLen (← slice spk start (start + ltLen))
  return UInt64.ofNat (leNat ltBuf)

/-- `extract_htlc`. -/
def extractHtlc (spk : Bytes) :
    MayPanic (Option (ByteVec 32 × ByteVec 20 × ByteVec 20 × UInt64)) := do
  if spk.length < 62 then return none else
  if !(← matchesAt spk 0 [0x63, 0xa8, 0x20]) then return none else
  let hash ← copyOut 32 spk 3 35
  if !(← matchesAt spk 35 [0x88, 0x76, 0xa9, 0x14]) then return none else
  let recipientHash ← copyOut 20 spk 39 59
  if !(← matchesAt spk 59 [0x88, 0xac, 0x67]) then return none else
  let ltLen := (← index spk 62).toNat
  if ltLen = 0 ∨ ltLen > 8 then return none else
  let ltStart := 63
  let ltEnd := ltStart + ltLen
  if spk.length ≠ ltEnd + 28 then return none else
  let locktime ← readLocktime spk ltStart ltLen
  let i := ltEnd
  if !(← matchesAt spk i [0xb1, 0x75, 0x76, 0xa9, 0x14]) then return none else
  let rStart := i + 5
  let rEnd := rStart + 20
  let refundHash ← copyOut 20 spk rStart rEnd
  if !(← matchesAt spk rEnd [0x88, 0xac, 0x68]) then return none else
  return some (hash, recipientHash, refundHash, locktime)

/-- `extract_cltv_p2pkh`. -/
def extractCltvP2pkh (spk : Bytes) : MayPanic (Option (UInt64 × ByteVec 20)) := do
  if spk.isEmpty then return none else
  let ltLen := (← index spk 0).toNat
  if ltLen = 0 ∨ ltLen > 8 then return none else
  if spk.length ≠ 1 + ltLen + 5 + 20 + 2 then return none else
  let locktime ← readLocktime spk 1 ltLen
  let i := 1 + ltLen
  if !(← matchesAt spk i [0xb1, 0x75, 0x76, 0xa9, 0x14]) then return none else
  let hStart := i + 5
  let hash20 ← copyOut 20 spk hStart (hStart + 20)
  if !(← matchesAt spk (hStart + 20) [0x88, 0xac]) then return none else
  return some (locktime, hash20)

/-! ## In bounds -/

theorem returns_p2shHash (spk : Bytes) : Returns (extractP2shHash spk) := by
  unfold extractP2shHash
  split_ifs with hlen
  · exact returns_ok none
  · have hlen := not_not.mp hlen
    refine returns_unless (by simp [hlen]) fun _ => returns_unless (by simp [hlen]) fun _ => ?_
    refine (returns_copyOut rfl (by omega)).bind ?_
    intro hash20 _
    exact returns_ok (some hash20)

/-- The encoder accepts the prefix of P2SH addresses, so `expect` never fails. -/
theorem returns_address {encode : String → Bytes → Option String}
    (hencode : ∀ data, (encode p2shHrp data).isSome) (spk : Bytes) :
    Returns (extractAddress encode spk) := by
  refine (returns_p2shHash spk).bind ?_
  intro found _
  cases found with
  | some hash20 =>
    obtain ⟨addr, haddr⟩ := Option.isSome_iff_exists.mp (hencode hash20.1)
    have hunwrap : p2shAddressFromHash encode hash20 = .ok addr := by
      rw [p2shAddressFromHash, haddr, unwrap_some]
    show Returns (p2shAddressFromHash encode hash20 >>= _)
    rw [hunwrap, ok_bind]
    exact returns_ok (some addr)
  | none =>
    dsimp only
    split_ifs with hlen
    · exact returns_ok none
    · have hlen := not_not.mp hlen
      refine returns_unless (by simp [hlen]) fun _ => returns_unless (by simp [hlen]) fun _ => ?_
      rw [slice_of_le (by omega) (by omega), ok_bind]
      exact returns_ok _

theorem returns_multisigKeys (spk : Bytes) (i : Nat) : Returns (multisigKeys spk i) := by
  rw [multisigKeys]
  split_ifs with hi
  · refine (returns_index (by omega)).bind ?_
    intro b _
    split_ifs with hbyte
    · exact returns_ok none
    · dsimp only
      split_ifs with hstop
      · exact returns_ok none
      · rw [slice_of_le (by omega) (by omega), ok_bind]
        refine (returns_multisigKeys spk (i + 1 + 33)).bind ?_
        intro found _
        cases found with
        | none => exact returns_ok none
        | some found => exact returns_ok _
  · exact returns_ok _
termination_by spk.length - i

theorem returns_multisig (spk : Bytes) : Returns (extractMultisig spk) := by
  unfold extractMultisig
  split_ifs
  · exact returns_ok none
  · cases spk.head? with
    | none => exact returns_ok none
    | some first =>
      cases spk.getLast? with
      | none => exact returns_ok none
      | some last =>
        dsimp only
        split_ifs
        · exact returns_ok none
        · exact returns_ok none
        · refine (returns_multisigKeys spk 1).bind ?_
          intro found _
          cases found with
          | none => exact returns_ok none
          | some found =>
            dsimp only
            cases spk[found.2]? with
            | none => exact returns_ok none
            | some nByte =>
              dsimp only
              split_ifs
              · exact returns_ok none
              · exact returns_ok none
              · exact returns_ok _

theorem returns_locktime {spk : Bytes} {start ltLen : Nat} (hlen : ltLen ≤ 8)
    (hin : start + ltLen ≤ spk.length) : Returns (readLocktime spk start ltLen) := by
  have hpart : ((spk.drop start).take (start + ltLen - start)).length = ltLen := by
    rw [List.length_take, List.length_drop]
    omega
  unfold readLocktime
  rw [slice_of_le (by omega) hin, ok_bind, copyToPrefix, if_pos ⟨by simpa using hlen, hpart⟩,
    ok_bind]
  exact returns_ok _

theorem returns_cltvP2pkh (spk : Bytes) : Returns (extractCltvP2pkh spk) := by
  unfold extractCltvP2pkh
  split_ifs with hempty
  · exact returns_ok none
  · have hpos : 0 < spk.length := by
      rw [List.length_pos_iff]
      simpa using hempty
    refine (returns_index hpos).bind ?_
    intro b _
    dsimp only
    split_ifs with hlt hlen
    · exact returns_ok none
    · exact returns_ok none
    · have hlen := not_not.mp hlen
      refine (returns_locktime (by omega) (by omega)).bind ?_
      intro locktime _
      refine returns_unless (by simp; omega) fun _ => ?_
      refine (returns_copyOut rfl (by omega)).bind ?_
      intro hash20 _
      exact returns_unless (by simp; omega) fun _ => returns_ok _

/-- Behind the length of the lock time every place exists. -/
theorem returns_htlc {spk : Bytes} (hlen : spk.length ≠ 62) : Returns (extractHtlc spk) := by
  unfold extractHtlc
  split_ifs with hshort
  · exact returns_ok none
  · refine returns_unless (by simp; omega) fun _ => ?_
    refine (returns_copyOut rfl (by omega)).bind ?_
    intro hash _
    refine returns_unless (by simp; omega) fun _ => ?_
    refine (returns_copyOut rfl (by omega)).bind ?_
    intro recipientHash _
    refine returns_unless (by simp; omega) fun _ => ?_
    refine (returns_index (by omega)).bind ?_
    intro b _
    dsimp only
    split_ifs with hlt htotal
    · exact returns_ok none
    · exact returns_ok none
    · have htotal := not_not.mp htotal
      refine (returns_locktime (by omega) (by omega)).bind ?_
      intro locktime _
      refine returns_unless (by simp; omega) fun _ => ?_
      refine (returns_copyOut rfl (by omega)).bind ?_
      intro refundHash _
      exact returns_unless (by simp; omega) fun _ => returns_ok _

/-! ## The byte behind `OP_ELSE` -/

/-- The claim branch of an HTLC up to `OP_ELSE`, with nothing behind it. -/
def claimBranch (hash : ByteVec 32) (recipientHash : ByteVec 20) : Bytes :=
  [0x63, 0xa8, 0x20] ++ hash.1 ++ [0x88, 0x76, 0xa9, 0x14] ++ recipientHash.1 ++ [0x88, 0xac, 0x67]

theorem length_claimBranch (hash : ByteVec 32) (recipientHash : ByteVec 20) :
    (claimBranch hash recipientHash).length = 62 := by
  simp [claimBranch, hash.2, recipientHash.2]

/-- There the length of the lock time is read although it is missing. -/
theorem extractHtlc_claimBranch (hash : ByteVec 32) (recipientHash : ByteVec 20) :
    extractHtlc (claimBranch hash recipientHash) = .error .panic := by
  have h0 : (claimBranch hash recipientHash).drop 0 = [0x63, 0xa8, 0x20] ++ (hash.1
      ++ ([0x88, 0x76, 0xa9, 0x14] ++ (recipientHash.1 ++ ([0x88, 0xac, 0x67] ++ [])))) := by
    simp [claimBranch]
  have h3 := drop_of_append (j := 3) h0 rfl
  have h35 := drop_of_append (j := 35) h3 (by rw [hash.2])
  have h39 := drop_of_append (j := 39) h35 rfl
  have h59 := drop_of_append (j := 59) h39 (by rw [recipientHash.2])
  have hpanic : (index (claimBranch hash recipientHash) 62 : MayPanic UInt8) = .error .panic :=
    index_eq_panic (length_claimBranch hash recipientHash).le
  unfold extractHtlc
  rw [if_neg (by simp [length_claimBranch]), unless_of_drop h0,
    copyOut_of_drop (by omega) hash h3 rfl, ok_bind, unless_of_drop h35,
    copyOut_of_drop (by omega) recipientHash h39 rfl, ok_bind,
    unless_of_drop h59, hpanic, error_bind]

/-- No other string of that length gets as far. -/
theorem exists_claimBranch {spk : Bytes} (hlen : spk.length = 62)
    (h : ¬ Returns (extractHtlc spk)) :
    ∃ hash recipientHash, spk = claimBranch hash recipientHash := by
  by_contra hnone
  apply h
  unfold extractHtlc
  rw [if_neg (by omega)]
  refine returns_unless (by simp [hlen])
    fun (h0 : spk.drop 0 = [0x63, 0xa8, 0x20] ++ spk.drop 3) => ?_
  refine (returns_copyOut rfl (by omega)).bind ?_
  intro hash hhash
  refine returns_unless (by simp [hlen])
    fun (h35 : spk.drop 35 = [0x88, 0x76, 0xa9, 0x14] ++ spk.drop 39) => ?_
  refine (returns_copyOut rfl (by omega)).bind ?_
  intro recipientHash hrecipient
  refine returns_unless (by simp [hlen])
    fun (h59 : spk.drop 59 = [0x88, 0xac, 0x67] ++ spk.drop 62) => ?_
  refine absurd ⟨hash, recipientHash, ?_⟩ hnone
  have hend : spk.drop 62 = [] := List.drop_eq_nil_of_le hlen.le
  calc spk = spk.drop 0 := rfl
    _ = claimBranch hash recipientHash := by
      rw [h0, copyOut_eq_ok hhash, h35, copyOut_eq_ok hrecipient, h59, hend]
      simp [claimBranch]

/-- **The recognisers come to a result on every string but those that end with the
    `OP_ELSE` of an HTLC**: the guard of `extract_htlc` lets 62 bytes pass, and the
    length of the lock time is read behind them. -/
theorem recognisers_return_iff (encode : String → Bytes → Option String)
    (hencode : ∀ data, (encode p2shHrp data).isSome) (spk : Bytes) :
    (Returns (extractAddress encode spk) ∧ Returns (extractP2shHash spk) ∧
      Returns (extractMultisig spk) ∧ Returns (extractHtlc spk) ∧
      Returns (extractCltvP2pkh spk)) ↔
    ¬ ∃ hash recipientHash, spk = claimBranch hash recipientHash := by
  constructor
  · rintro ⟨_, _, _, hhtlc, _⟩ ⟨hash, recipientHash, rfl⟩
    rw [extractHtlc_claimBranch] at hhtlc
    exact not_returns_error _ hhtlc
  · intro hnone
    refine ⟨returns_address hencode spk, returns_p2shHash spk, returns_multisig spk, ?_,
      returns_cltvP2pkh spk⟩
    by_cases hlen : spk.length = 62
    · by_contra hpanic
      exact hnone (exists_claimBranch hlen hpanic)
    · exact returns_htlc hlen

/-- The empty script is no script of any kind. -/
theorem recognisers_return_iff_empty :
    Returns (extractHtlc []) ∧ Returns (extractMultisig []) := by
  have hall := (recognisers_return_iff (fun hrp data => some (hrp ++ ByteCodec.hexEncode data))
    (fun _ => rfl) []).mpr fun ⟨hash, recipientHash, h⟩ => by
      have hlen := length_claimBranch hash recipientHash
      rw [← h] at hlen
      cases hlen
  exact ⟨hall.2.2.2.1, hall.2.2.1⟩

/-- The claim branch of an HTLC on zeros, up to `OP_ELSE`, stops the process. -/
theorem recognisers_panic :
    ¬ ∀ encode : String → Bytes → Option String, (∀ data, (encode p2shHrp data).isSome) →
      ∀ spk, Returns (extractAddress encode spk) ∧ Returns (extractP2shHash spk) ∧
        Returns (extractMultisig spk) ∧ Returns (extractHtlc spk) ∧
        Returns (extractCltvP2pkh spk) := by
  intro h
  have hhtlc := (h (fun hrp data => some (hrp ++ ByteCodec.hexEncode data)) (fun _ => rfl)
    (claimBranch ⟨List.replicate 32 0, rfl⟩ ⟨List.replicate 20 0, rfl⟩)).2.2.2.1
  rw [extractHtlc_claimBranch] at hhtlc
  exact not_returns_error _ hhtlc

end Recognisers
end Tensorium.Script
