import Tensorium.Lib.ExceptFold
import Tensorium.Script.Locks
import Tensorium.Script.Recognisers

/-! # What the recognisers accept

    `extract_multisig` accepts what `multisig_script` builds and nothing else. The
    recognisers of HTLCs and time locks accept more than the builders build: a lock
    time may be filled up with zeros. Such a script does what the canonical one does.
-/

namespace Tensorium.Script

open ByteCodec Panicking ExceptFold

namespace Recognisers

variable {P : Primitives} {ctx : ScriptContext}

/-! ## Lock times -/

theorem leNat_lt_of_length {lt : Bytes} (h : lt.length ≤ 8) : leNat lt < 2 ^ 64 :=
  calc leNat lt < 256 ^ lt.length := leNat_lt lt
    _ ≤ 256 ^ 8 := Nat.pow_le_pow_right (by omega) h

theorem readLocktime_of_drop {spk lt rest : Bytes} {start : Nat}
    (hlt : 1 ≤ lt.length ∧ lt.length ≤ 8) (h : spk.drop start = lt ++ rest) :
    readLocktime spk start lt.length = .ok (UInt64.ofNat (leNat lt)) := by
  have hin : start + lt.length ≤ spk.length := by
    have hlen := congrArg List.length h
    rw [List.length_drop, List.length_append] at hlen
    omega
  have hpart : (spk.drop start).take (start + lt.length - start) = lt := by
    rw [h, Nat.add_sub_cancel_left, List.take_left]
  unfold readLocktime
  rw [slice_of_le (by omega) hin, ok_bind, hpart, copyToPrefix_of_le (by simpa using hlt.2), ok_bind,
    List.drop_replicate, leNat_padded]
  rfl

theorem readLocktime_eq_ok {spk : Bytes} {start ltLen : Nat} {locktime : UInt64}
    (hlt : 1 ≤ ltLen ∧ ltLen ≤ 8) (h : readLocktime spk start ltLen = .ok locktime) :
    ∃ lt, lt.length = ltLen ∧ spk.drop start = lt ++ spk.drop (start + ltLen) ∧
      leNat lt = locktime.toNat := by
  have hin : start + ltLen ≤ spk.length := by
    by_contra hout
    have hpanic : (slice spk start (start + ltLen) : MayPanic Bytes) = .error .panic :=
      if_neg (by omega)
    rw [readLocktime, hpanic] at h
    cases h
  have hlen : ((spk.drop start).take ltLen).length = ltLen := by
    rw [List.length_take, List.length_drop]
    omega
  have hdrop : spk.drop start = (spk.drop start).take ltLen ++ spk.drop (start + ltLen) := by
    rw [← List.drop_drop, List.take_append_drop]
  refine ⟨_, hlen, hdrop, ?_⟩
  have hread := readLocktime_of_drop (hlen.symm ▸ hlt) hdrop
  rw [hlen, h, Except.ok.injEq] at hread
  rw [hread, UInt64.toNat_ofNat_of_lt' (leNat_lt_of_length (by omega))]

/-! ## HTLCs and time locks -/

theorem extractHtlc_eq_some_iff {spk : Bytes} {hash : ByteVec 32}
    {recipientHash refundHash : ByteVec 20} {locktime : UInt64} :
    extractHtlc spk = .ok (some (hash, recipientHash, refundHash, locktime))
      ↔ ∃ lt, ∃ hlt : 1 ≤ lt.length ∧ lt.length ≤ 8, leNat lt = locktime.toNat ∧
          spk = (Code.htlc hash recipientHash refundHash lt hlt).render := by
  constructor
  · intro h
    unfold extractHtlc at h
    split_ifs at h with hshort
    · cases h
    obtain ⟨h0, h⟩ := unless_eq_some.mp h
    obtain ⟨hash', h3, h⟩ := bind_eq_ok.mp h
    obtain ⟨h35, h⟩ := unless_eq_some.mp h
    obtain ⟨recipientHash', h39, h⟩ := bind_eq_ok.mp h
    obtain ⟨h59, h⟩ := unless_eq_some.mp h
    obtain ⟨b, h62, h⟩ := bind_eq_ok.mp h
    dsimp only at h
    split_ifs at h with hlen htotal
    · cases h
    · cases h
    obtain ⟨locktime', h63, h⟩ := bind_eq_ok.mp h
    obtain ⟨hcltv, h⟩ := unless_eq_some.mp h
    obtain ⟨refundHash', hrefund, h⟩ := bind_eq_ok.mp h
    obtain ⟨hend, h⟩ := unless_eq_some.mp h
    obtain ⟨lt, hltLen, hlt, hnum⟩ := readLocktime_eq_ok (by omega) h63
    cases h
    have hlt' : 1 ≤ lt.length ∧ lt.length ≤ 8 := by omega
    refine ⟨lt, hlt', hnum, ?_⟩
    have hb : b = UInt8.ofNat lt.length := by
      rw [hltLen, UInt8.ofNat_toNat]
    have hnil : spk.drop (63 + b.toNat + 5 + 20 + 3) = [] :=
      List.drop_eq_nil_of_le (by omega)
    -- Each check says what stands between two positions; chained, they give the script.
    have e0 : spk.drop 0 = [0x63, 0xa8, 0x20] ++ spk.drop 3 := matchesAt_eq_true h0
    have e35 : spk.drop 35 = [0x88, 0x76, 0xa9, 0x14] ++ spk.drop 39 := matchesAt_eq_true h35
    have e59 : spk.drop 59 = [0x88, 0xac, 0x67] ++ spk.drop 62 := matchesAt_eq_true h59
    have ecltv : spk.drop (63 + b.toNat)
        = [0xb1, 0x75, 0x76, 0xa9, 0x14] ++ spk.drop (63 + b.toNat + 5) := matchesAt_eq_true hcltv
    have eend : spk.drop (63 + b.toNat + 5 + 20)
        = [0x88, 0xac, 0x68] ++ spk.drop (63 + b.toNat + 5 + 20 + 3) := matchesAt_eq_true hend
    rw [copyOut_eq_ok h3, e35, copyOut_eq_ok h39, e59, index_eq_ok h62, hlt, ecltv,
      copyOut_eq_ok hrefund, eend, hnil, hb] at e0
    rw [Code.render_htlc]
    simpa using e0
  · rintro ⟨lt, hlt, hnum, rfl⟩
    generalize hspk : (Code.htlc hash recipientHash refundHash lt hlt).render = spk
    have hlen : spk.length = 63 + lt.length + 28 := by
      rw [← hspk, Code.render_htlc]
      simp only [List.length_append, List.length_cons, List.length_nil, hash.2, recipientHash.2,
        refundHash.2]
    have h0 : spk.drop 0 = [0x63, 0xa8, 0x20] ++ (hash.1 ++ ([0x88, 0x76, 0xa9, 0x14]
        ++ (recipientHash.1 ++ ([0x88, 0xac, 0x67] ++ (UInt8.ofNat lt.length :: (lt
        ++ ([0xb1, 0x75, 0x76, 0xa9, 0x14] ++ (refundHash.1 ++ ([0x88, 0xac, 0x68] ++ []))))))))) := by
      rw [← hspk, Code.render_htlc]
      simp
    -- What is left of the script at each position that is looked at.
    have h3 := drop_of_append (j := 3) h0 rfl
    have h35 := drop_of_append (j := 35) h3 (by rw [hash.2])
    have h39 := drop_of_append (j := 39) h35 rfl
    have h59 := drop_of_append (j := 59) h39 (by rw [recipientHash.2])
    have h62 := drop_of_append (j := 62) h59 rfl
    have h63 := drop_of_cons (j := 63) h62 rfl
    have hcltv := drop_of_append (j := 63 + lt.length) h63 rfl
    have hrefund := drop_of_append (j := 63 + lt.length + 5) hcltv rfl
    have hend := drop_of_append (j := 63 + lt.length + 5 + 20) hrefund (by rw [refundHash.2])
    have hbyte : (UInt8.ofNat lt.length).toNat = lt.length := toNat_byte (by omega)
    unfold extractHtlc
    rw [if_neg (by omega), unless_of_drop h0, copyOut_of_drop (by omega) hash h3 rfl, ok_bind,
      unless_of_drop h35, copyOut_of_drop (by omega) recipientHash h39 rfl, ok_bind,
      unless_of_drop h59, index_drop h62, ok_bind]
    dsimp only
    rw [hbyte, if_neg (by omega), if_neg (by omega), readLocktime_of_drop hlt h63, ok_bind,
      unless_of_drop hcltv, copyOut_of_drop (by omega) refundHash hrefund rfl, ok_bind,
      unless_of_drop hend, hnum, UInt64.ofNat_toNat]
    rfl

theorem extractCltvP2pkh_eq_some_iff {spk : Bytes} {locktime : UInt64} {hash20 : ByteVec 20} :
    extractCltvP2pkh spk = .ok (some (locktime, hash20))
      ↔ ∃ lt, ∃ hlt : 1 ≤ lt.length ∧ lt.length ≤ 8, leNat lt = locktime.toNat ∧
          spk = (Code.timeLocked lt hlt hash20).render := by
  constructor
  · intro h
    unfold extractCltvP2pkh at h
    split_ifs at h with hempty
    · cases h
    obtain ⟨b, h0, h⟩ := bind_eq_ok.mp h
    dsimp only at h
    split_ifs at h with hlen htotal
    · cases h
    · cases h
    obtain ⟨locktime', h1, h⟩ := bind_eq_ok.mp h
    obtain ⟨hcltv, h⟩ := unless_eq_some.mp h
    obtain ⟨hash20', hhash, h⟩ := bind_eq_ok.mp h
    obtain ⟨hend, h⟩ := unless_eq_some.mp h
    obtain ⟨lt, hltLen, hlt, hnum⟩ := readLocktime_eq_ok (by omega) h1
    cases h
    have hlt' : 1 ≤ lt.length ∧ lt.length ≤ 8 := by omega
    refine ⟨lt, hlt', hnum, ?_⟩
    have hb : b = UInt8.ofNat lt.length := by
      rw [hltLen, UInt8.ofNat_toNat]
    have hnil : spk.drop (1 + b.toNat + 5 + 20 + 2) = [] :=
      List.drop_eq_nil_of_le (by omega)
    -- As for an HTLC: the checks, chained, give the script.
    have ecltv : spk.drop (1 + b.toNat)
        = [0xb1, 0x75, 0x76, 0xa9, 0x14] ++ spk.drop (1 + b.toNat + 5) := matchesAt_eq_true hcltv
    have eend : spk.drop (1 + b.toNat + 5 + 20)
        = [0x88, 0xac] ++ spk.drop (1 + b.toNat + 5 + 20 + 2) := matchesAt_eq_true hend
    have e0 := index_eq_ok h0
    rw [hlt, ecltv, copyOut_eq_ok hhash, eend, hnil, hb] at e0
    rw [Code.render_timeLocked]
    simpa using e0
  · rintro ⟨lt, hlt, hnum, rfl⟩
    generalize hspk : (Code.timeLocked lt hlt hash20).render = spk
    have hlen : spk.length = 1 + lt.length + 5 + 20 + 2 := by
      rw [← hspk, Code.render_timeLocked]
      simp only [List.length_append, List.length_cons, List.length_nil, hash20.2]
    have h0 : spk.drop 0 = UInt8.ofNat lt.length :: (lt ++ ([0xb1, 0x75, 0x76, 0xa9, 0x14]
        ++ (hash20.1 ++ ([0x88, 0xac] ++ [])))) := by
      rw [← hspk, Code.render_timeLocked]
      simp
    have h1 := drop_of_cons (j := 1) h0 rfl
    have hcltv := drop_of_append (j := 1 + lt.length) h1 rfl
    have hhash := drop_of_append (j := 1 + lt.length + 5) hcltv rfl
    have hend := drop_of_append (j := 1 + lt.length + 5 + 20) hhash (by rw [hash20.2])
    have hbyte : (UInt8.ofNat lt.length).toNat = lt.length := toNat_byte (by omega)
    have hempty : ¬ spk.isEmpty = true := by
      rw [List.isEmpty_iff_length_eq_zero]
      omega
    unfold extractCltvP2pkh
    rw [if_neg hempty, index_drop h0, ok_bind]
    dsimp only
    rw [hbyte, if_neg (by omega), if_neg (by omega), readLocktime_of_drop hlt h1, ok_bind,
      unless_of_drop hcltv, copyOut_of_drop (by omega) hash20 hhash rfl, ok_bind,
      unless_of_drop hend, hnum, UInt64.ofNat_toNat]
    rfl

/-! ## Parsed scripts do what they show -/

/-- The size of the lock time aside, scripts with lock times of the same number are
    executed alike. -/
theorem execute_render_congr {c c' : Code} (h : c.ElseOutside) (h' : c'.ElseOutside)
    (hp2sh : isP2sh c.render = false) (hp2sh' : isP2sh c'.render = false)
    (heval : ∀ stack, c.eval P ctx true stack = c'.eval P ctx true stack) {scriptSig : Bytes}
    (hsize : scriptSig.length + c.render.length ≤ maxScriptSize)
    (hsize' : scriptSig.length + c'.render.length ≤ maxScriptSize) :
    execute P scriptSig c.render ctx = execute P scriptSig c'.render ctx := by
  rw [execute_render h hp2sh, execute_render h' hp2sh', if_neg (not_lt.mpr hsize),
    if_neg (not_lt.mpr hsize')]
  simp only [heval]

theorem eval_timeLocked_congr {lt lt' : Bytes} (hlt : 1 ≤ lt.length ∧ lt.length ≤ 8)
    (hlt' : 1 ≤ lt'.length ∧ lt'.length ≤ 8) (h : leNat lt = leNat lt') (hash : ByteVec 20)
    (stack : Stack) :
    (Code.timeLocked lt hlt hash).eval P ctx true stack
      = (Code.timeLocked lt' hlt' hash).eval P ctx true stack := by
  rw [Code.eval_timeLocked, Code.eval_timeLocked, h]

theorem eval_htlc_congr {lt lt' : Bytes} (hlt : 1 ≤ lt.length ∧ lt.length ≤ 8)
    (hlt' : 1 ≤ lt'.length ∧ lt'.length ≤ 8) (h : leNat lt = leNat lt') (hash : ByteVec 32)
    (recipientHash refundHash : ByteVec 20) (stack : Stack) :
    (Code.htlc hash recipientHash refundHash lt hlt).eval P ctx true stack
      = (Code.htlc hash recipientHash refundHash lt' hlt').eval P ctx true stack := by
  cases stack with
  | nil => rw [Code.eval_htlc_nil, Code.eval_htlc_nil]
  | cons branch rest =>
    rw [Code.htlc, Code.htlc, Code.eval_ifElse, Code.eval_ifElse,
      eval_timeLocked_congr hlt hlt' h]

/-- **HTLC and vesting scripts parse to what they do.** What the builders build is
    read back, and whatever is read executes like the canonical script of what was
    read, on every scriptSig. -/
theorem parsed_scripts_execute_alike (P : Primitives) (ctx : ScriptContext) :
    (∀ (hash : ByteVec 32) (recipientHash refundHash : ByteVec 20) (locktime : UInt64),
      extractHtlc (htlcScript hash recipientHash refundHash locktime)
        = .ok (some (hash, recipientHash, refundHash, locktime))) ∧
    (∀ (locktime : UInt64) (hash20 : ByteVec 20),
      extractCltvP2pkh (cltvP2pkhScript locktime hash20) = .ok (some (locktime, hash20))) ∧
    (∀ (spk : Bytes) (hash : ByteVec 32) (recipientHash refundHash : ByteVec 20)
        (locktime : UInt64) (scriptSig : Bytes),
      63 ≤ spk.length →
      extractHtlc spk = .ok (some (hash, recipientHash, refundHash, locktime)) →
      scriptSig.length + spk.length ≤ maxScriptSize →
      scriptSig.length + (htlcScript hash recipientHash refundHash locktime).length
        ≤ maxScriptSize →
      execute P scriptSig spk ctx
        = execute P scriptSig (htlcScript hash recipientHash refundHash locktime) ctx) ∧
    (∀ (spk : Bytes) (locktime : UInt64) (hash20 : ByteVec 20) (scriptSig : Bytes),
      extractCltvP2pkh spk = .ok (some (locktime, hash20)) →
      scriptSig.length + spk.length ≤ maxScriptSize →
      scriptSig.length + (cltvP2pkhScript locktime hash20).length ≤ maxScriptSize →
      execute P scriptSig spk ctx = execute P scriptSig (cltvP2pkhScript locktime hash20) ctx) := by
  refine ⟨?_, ?_, ?_, ?_⟩
  · intro hash recipientHash refundHash locktime
    exact extractHtlc_eq_some_iff.mpr ⟨_, length_encodeLocktime locktime,
      leNat_encodeLocktime locktime, htlcScript_eq_render _ _ _ _⟩
  · intro locktime hash20
    exact extractCltvP2pkh_eq_some_iff.mpr ⟨_, length_encodeLocktime locktime,
      leNat_encodeLocktime locktime, cltvP2pkhScript_eq_render _ _⟩
  · intro spk hash recipientHash refundHash locktime scriptSig _ hparse hsize hsize'
    obtain ⟨lt, hlt, hnum, rfl⟩ := extractHtlc_eq_some_iff.mp hparse
    rw [htlcScript_eq_render] at hsize' ⊢
    -- Only the width of the lock time can differ.
    rw [← leNat_encodeLocktime] at hnum
    exact execute_render_congr (Code.elseOutside_htlc _ _ _ _ _) (Code.elseOutside_htlc _ _ _ _ _)
      (isP2sh_htlc _ _ _ _ _) (isP2sh_htlc _ _ _ _ _)
      (eval_htlc_congr _ _ hnum hash recipientHash refundHash) hsize hsize'
  · intro spk locktime hash20 scriptSig hparse hsize hsize'
    obtain ⟨lt, hlt, hnum, rfl⟩ := extractCltvP2pkh_eq_some_iff.mp hparse
    rw [cltvP2pkhScript_eq_render] at hsize' ⊢
    rw [← leNat_encodeLocktime] at hnum
    exact execute_render_congr (Code.elseOutside_timeLocked _ _ _)
      (Code.elseOutside_timeLocked _ _ _) (isP2sh_timeLocked _ _ _) (isP2sh_timeLocked _ _ _)
      (eval_timeLocked_congr _ _ hnum hash20) hsize hsize'

/-- A vesting script whose lock time 5 takes two bytes. -/
theorem parsed_scripts_execute_alike_padded :
    execute Primitives.sample (p2pkhScriptSig (sampleSig 2) (sampleKey 2))
        (Code.timeLocked [5, 0] (by decide) (sampleHash 2)).render ⟨Hash256.zero, 7⟩
      = execute Primitives.sample (p2pkhScriptSig (sampleSig 2) (sampleKey 2))
        (cltvP2pkhScript 5 (sampleHash 2)) ⟨Hash256.zero, 7⟩ :=
  (parsed_scripts_execute_alike Primitives.sample ⟨Hash256.zero, 7⟩).2.2.2 _ 5 (sampleHash 2) _
    (extractCltvP2pkh_eq_some_iff.mpr ⟨[5, 0], by decide, rfl, rfl⟩) (by decide) (by decide)

/-! ## Multisig -/

/-- The keys of a multisig script, each behind its push. -/
def pushKeys (pubkeys : List Bytes) : Bytes := pubkeys.flatMap fun pk => 0x21 :: pk

theorem length_pushKeys {pubkeys : List Bytes} (h : ∀ pk ∈ pubkeys, pk.length = 33) :
    (pushKeys pubkeys).length = 34 * pubkeys.length := by
  induction pubkeys with
  | nil => rfl
  | cons pk pubkeys ih =>
    rw [List.forall_mem_cons] at h
    have hrest := ih h.2
    unfold pushKeys at hrest ⊢
    rw [List.flatMap_cons, List.length_append, hrest, List.length_cons, List.length_cons, h.1]
    omega

theorem multisigScript_eq_ok_iff {m : UInt8} {pubkeys : List Bytes} {spk : Bytes} :
    multisigScript m pubkeys = .ok spk
      ↔ (1 ≤ m.toNat ∧ m.toNat ≤ pubkeys.length ∧ pubkeys.length ≤ 16) ∧
        (∀ pk ∈ pubkeys, pk.length = 33) ∧
        spk = [0x50 + m] ++ pushKeys pubkeys ++ [0x50 + UInt8.ofNat pubkeys.length, 0xae] := by
  have hm : m = 0 ↔ m.toNat = 0 := by
    rw [← UInt8.toNat_inj]
    rfl
  have hop : (0x51 - 1 : UInt8) = 0x50 := rfl
  unfold multisigScript pushKeys
  dsimp only
  rw [hop]
  split_ifs with hcount hlen
  · constructor
    · intro h
      cases h
    · rintro ⟨hcount', -, -⟩
      rw [hm] at hcount
      omega
  · constructor
    · intro h
      cases h
    · rintro ⟨-, hlen', -⟩
      obtain ⟨pk, hmem, hpk⟩ := List.any_eq_true.mp hlen
      simp [hlen' pk hmem] at hpk
  · have hlen' : ∀ pk ∈ pubkeys, pk.length = 33 := by
      intro pk hmem
      by_contra hpk
      exact hlen (List.any_eq_true.mpr ⟨pk, hmem, by simp [hpk]⟩)
    rw [Except.ok.injEq]
    constructor
    · intro h
      rw [hm] at hcount
      exact ⟨by omega, hlen', h.symm⟩
    · rintro ⟨-, -, h⟩
      exact h.symm

/-- The loop reads the keys that are there. -/
theorem multisigKeys_of_drop {spk tail : Bytes} (htail : tail.length = 2) {pubkeys : List Bytes}
    (hlen : ∀ pk ∈ pubkeys, pk.length = 33) {i : Nat}
    (h : spk.drop i = pushKeys pubkeys ++ tail) :
    multisigKeys spk i = .ok (some (pubkeys, i + 34 * pubkeys.length)) := by
  induction pubkeys generalizing i with
  | nil =>
    have hleft := congrArg List.length h
    rw [List.length_drop, pushKeys, List.flatMap_nil, List.nil_append, htail] at hleft
    rw [multisigKeys, if_neg (by omega)]
    rfl
  | cons pk pubkeys ih =>
    have hleft := congrArg List.length h
    rw [List.length_drop, List.length_append, length_pushKeys hlen, List.length_cons] at hleft
    rw [List.forall_mem_cons] at hlen
    have hread : spk.drop i = 0x21 :: (pk ++ (pushKeys pubkeys ++ tail)) := by
      rw [h, pushKeys, List.flatMap_cons, List.cons_append, List.cons_append, List.append_assoc]
      rfl
    have hkey := drop_of_cons (j := i + 1) hread rfl
    have hslice : (spk.drop (i + 1)).take (i + 1 + 33 - (i + 1)) = pk := by
      rw [hkey, Nat.add_sub_cancel_left]
      exact List.take_left' hlen.1
    have hnext := drop_of_append (j := i + 1 + 33) hkey (by rw [hlen.1])
    rw [multisigKeys, if_pos (by omega), index_drop hread, ok_bind, if_neg (by simp)]
    dsimp only
    rw [if_neg (by omega), slice_of_le (by omega) (by omega), ok_bind, hslice, ih hlen.2 hnext,
      ok_bind, List.length_cons, Nat.mul_add]
    show Except.ok (some (pk :: pubkeys, _)) = _
    congr 3
    omega

/-- What the loop has read when it stops, and where that may be. -/
theorem multisigKeys_eq_some {spk : Bytes} {pubkeys : List Bytes} {i stop : Nat}
    (h : multisigKeys spk i = .ok (some (pubkeys, stop))) :
    (∀ pk ∈ pubkeys, pk.length = 33) ∧ spk.drop i = pushKeys pubkeys ++ spk.drop stop ∧
      spk.length - 2 ≤ stop := by
  rw [multisigKeys] at h
  split_ifs at h with hlt
  · obtain ⟨b, hb, h⟩ := bind_eq_ok.mp h
    dsimp only at h
    split_ifs at h with hbyte hend
    · cases h
    · cases h
    · obtain ⟨pk, hpk, h⟩ := bind_eq_ok.mp h
      obtain ⟨found, hrest, h⟩ := bind_eq_ok.mp h
      cases found with
      | none => cases h
      | some found =>
        cases h
        obtain ⟨hlen, hdrop, hstop⟩ := multisigKeys_eq_some hrest
        rw [slice_of_le (by omega) (by omega), Except.ok.injEq, Nat.add_sub_cancel_left] at hpk
        have hpkLen : pk.length = 33 := by
          rw [← hpk, List.length_take, List.length_drop]
          omega
        refine ⟨List.forall_mem_cons.mpr ⟨hpkLen, hlen⟩, ?_, hstop⟩
        have hkey : spk.drop (i + 1) = pk ++ spk.drop (i + 1 + 33) := by
          rw [← hpk, ← List.drop_drop (i := 33) (j := i + 1), List.take_append_drop]
        rw [index_eq_ok hb, not_not.mp hbyte, hkey, hdrop, pushKeys, pushKeys, List.flatMap_cons,
          List.cons_append, List.cons_append, List.append_assoc]
  · cases h
    exact ⟨by simp, rfl, not_lt.mp hlt⟩
termination_by spk.length - i

/-- A byte in the range of `OP_1` to `OP_16`. -/
theorem countByte_range {b : UInt8} (h : ¬ (b < 0x51 ∨ b > 0x60)) :
    0x50 + (b - 0x50) = b ∧ 1 ≤ (b - 0x50).toNat ∧ (b - 0x50).toNat ≤ 16 := by
  have hlow : 0x51 ≤ b.toNat := UInt8.le_iff_toNat_le.mp (UInt8.not_lt.mp fun hb => h (.inl hb))
  have hhigh : b.toNat ≤ 0x60 := UInt8.le_iff_toNat_le.mp (UInt8.not_lt.mp fun hb => h (.inr hb))
  have hsub : (b - 0x50).toNat = b.toNat - 0x50 :=
    UInt8.toNat_sub_of_le _ _ (UInt8.le_iff_toNat_le.mpr (Nat.le_of_succ_le hlow))
  refine ⟨by rw [UInt8.add_comm, UInt8.sub_add_cancel], ?_, ?_⟩
  · omega
  · omega

theorem countByte_of_range {m : UInt8} (h : 1 ≤ m.toNat ∧ m.toNat ≤ 16) :
    ¬ (0x50 + m < 0x51 ∨ 0x50 + m > 0x60) ∧ 0x50 + m - 0x50 = m := by
  have hadd : (0x50 + m).toNat = 0x50 + m.toNat := by
    rw [UInt8.toNat_add]
    exact Nat.mod_eq_of_lt (by show 80 + _ < 256; omega)
  refine ⟨?_, by rw [UInt8.add_comm, UInt8.add_sub_cancel]⟩
  rintro (hlow | hhigh)
  · have hlow : (0x50 + m).toNat < 0x51 := UInt8.lt_iff_toNat_lt.mp hlow
    omega
  · have hhigh : 0x60 < (0x50 + m).toNat := UInt8.lt_iff_toNat_lt.mp hhigh
    omega

/-- **`extract_multisig` accepts what `multisig_script` builds, and nothing else.** -/
theorem extractMultisig_iff (spk : Bytes) (m : UInt8) (pubkeys : List Bytes) :
    extractMultisig spk = .ok (some (m, pubkeys)) ↔ multisigScript m pubkeys = .ok spk := by
  rw [multisigScript_eq_ok_iff]
  constructor
  · intro h
    unfold extractMultisig at h
    split_ifs at h with hshort
    · cases h
    cases hfirst : spk.head? with
    | none =>
      rw [hfirst] at h
      cases h
    | some first =>
      cases hlast : spk.getLast? with
      | none =>
        rw [hfirst, hlast] at h
        cases h
      | some last =>
        rw [hfirst, hlast] at h
        dsimp only at h
        split_ifs at h with hop hm
        · cases h
        · cases h
        obtain ⟨found, hkeys, h⟩ := bind_eq_ok.mp h
        cases found with
        | none => cases h
        | some found =>
          obtain ⟨keys, stop⟩ := found
          cases hcount : spk[stop]? with
          | none =>
            simp only [hcount] at h
            cases h
          | some nByte =>
            simp only [hcount] at h
            split_ifs at h with hn hle
            · cases h
            · cases h
            cases h
            obtain ⟨hlen, hdrop, hstop⟩ := multisigKeys_eq_some hkeys
            obtain ⟨hfirstEq, hmpos, -⟩ := countByte_range hm
            obtain ⟨hnEq, -, hn16⟩ := countByte_range hn
            rw [not_or, not_not, gt_iff_lt, UInt8.not_lt, UInt8.le_iff_toNat_le] at hle
            obtain ⟨hkeysLen, hmle⟩ := hle
            have hbound : stop < spk.length := (List.getElem?_eq_some_iff.mp hcount).1
            rw [List.getLast?_eq_getElem?] at hlast
            -- The count cannot be the last byte, which is an opcode of another range.
            have hstopEq : stop + 1 = spk.length - 1 := by
              by_contra hne
              have hend : stop = spk.length - 1 := by omega
              rw [hend, hlast, Option.some.injEq] at hcount
              rw [← hcount, not_not.mp hop] at hn
              exact hn (.inr (by decide))
            have htail : spk.drop stop = [nByte, last] := by
              rw [drop_of_getElem? hcount, hstopEq, drop_of_getElem? hlast,
                List.drop_eq_nil_of_le (by omega)]
            have hhead : spk.drop 0 = first :: spk.drop 1 := by
              rw [List.head?_eq_getElem?] at hfirst
              exact drop_of_getElem? hfirst
            refine ⟨⟨hmpos, by omega, by omega⟩, hlen, ?_⟩
            rw [hfirstEq, hkeysLen, UInt8.ofNat_toNat, hnEq]
            rw [hdrop, htail, not_not.mp hop] at hhead
            simpa using hhead
  · rintro ⟨hcount, hlen, rfl⟩
    generalize hspk : [0x50 + m] ++ pushKeys pubkeys
      ++ [0x50 + UInt8.ofNat pubkeys.length, 0xae] = spk
    have hlenSpk : spk.length = 34 * pubkeys.length + 3 := by
      rw [← hspk, List.length_append, List.length_append, length_pushKeys hlen]
      simp
      omega
    have hread : spk.drop 0 = (0x50 + m) :: (pushKeys pubkeys
        ++ [0x50 + UInt8.ofNat pubkeys.length, 0xae]) := by
      rw [← hspk]
      simp
    have hbehind := drop_of_cons (j := 1) hread rfl
    have hkeys := multisigKeys_of_drop rfl hlen hbehind
    have hn := drop_of_append (j := 1 + 34 * pubkeys.length) hbehind (by rw [length_pushKeys hlen])
    have hnByte : spk[1 + 34 * pubkeys.length]? = some (0x50 + UInt8.ofNat pubkeys.length) := by
      rw [← List.head?_drop, hn]
      rfl
    have hfirst : spk.head? = some (0x50 + m) := by
      rw [← hspk]
      rfl
    have hlast : spk.getLast? = some 0xae := by
      rw [← hspk, List.getLast?_append]
      rfl
    have hnNat : (UInt8.ofNat pubkeys.length).toNat = pubkeys.length := toNat_byte (by omega)
    obtain ⟨hmRange, hmEq⟩ := countByte_of_range (m := m) (by omega)
    obtain ⟨hnRange, hnEq⟩ := countByte_of_range (m := UInt8.ofNat pubkeys.length) (by omega)
    unfold extractMultisig
    rw [if_neg (by omega), hfirst, hlast]
    dsimp only
    rw [if_neg (by simp), if_neg hmRange, hkeys, ok_bind]
    dsimp only
    rw [hnByte]
    dsimp only
    rw [if_neg hnRange, hmEq, hnEq, hnNat, if_neg]
    · rfl
    · rw [not_or, not_not, gt_iff_lt, UInt8.not_lt, UInt8.le_iff_toNat_le, hnNat]
      exact ⟨rfl, hcount.2.1⟩

end Recognisers
end Tensorium.Script
