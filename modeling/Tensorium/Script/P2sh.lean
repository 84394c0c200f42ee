import Tensorium.Script.Grammar

/-! # P2SH multisig

    A P2SH output is spent by a scriptSig that leaves the redeem script on top; the
    redeem script is then run on what is below. The scriptSig of the library pushes
    the redeem script of a multisig in one piece, which works for up to seven keys.
-/

namespace Tensorium.Script

open ByteCodec Panicking OrderedMatching

variable {P : Primitives} {ctx : ScriptContext} {allow : Bool}

/-! ## Spending a P2SH output -/

theorem length_p2shScriptFromRedeem (redeem : Bytes) :
    (p2shScriptFromRedeem P redeem).length = 23 := by
  simp [p2shScriptFromRedeem, p2shScript, (P.sha256 redeem).size]

theorem isP2sh_p2shScriptFromRedeem (redeem : Bytes) :
    isP2sh (p2shScriptFromRedeem P redeem) = true := by
  have hlen : ((P.sha256 redeem).bytes.take 20).length = 20 := by
    rw [List.length_take, (P.sha256 redeem).size]
    rfl
  have hlast : (p2shScriptFromRedeem P redeem)[22]? = some 0x87 := by
    unfold p2shScriptFromRedeem p2shScript
    rw [List.getElem?_append_right (by simp [hlen])]
    simp [hlen]
  unfold isP2sh
  rw [length_p2shScriptFromRedeem, hlast]
  rfl

/-- With the redeem script on top, what is below decides. -/
theorem execute_p2sh {scriptSig redeem : Bytes} {stack : Stack}
    (hsize : scriptSig.length + 23 ≤ maxScriptSize)
    (hrun : run P [] scriptSig ctx false = .ok (redeem :: stack)) :
    execute P scriptSig (p2shScriptFromRedeem P redeem) ctx
      = (run P stack redeem ctx true).map verdict := by
  have hhash : ((p2shScriptFromRedeem P redeem).drop 2).take 20
      = (P.sha256 redeem).bytes.take 20 := by
    have hlen : ((P.sha256 redeem).bytes.take 20).length = 20 := by
      rw [List.length_take, (P.sha256 redeem).size]
      rfl
    exact List.take_left' hlen
  unfold execute
  rw [length_p2shScriptFromRedeem, if_neg (not_lt.mpr hsize)]
  show (run P [] scriptSig ctx false >>= _) = _
  rw [hrun, ok_bind]
  simp only [isP2sh_p2shScriptFromRedeem, if_true, pop, ok_bind, hhash, ne_eq, not_true, if_false]
  cases run P stack redeem ctx true with
  | error e => rfl
  | ok stack' => rfl

/-! ## The redeem script -/

/-- The opcodes that push the numbers one to sixteen. -/
theorem decodeOp_count {m : UInt8} (h : 1 ≤ m.toNat ∧ m.toNat ≤ 16) :
    decodeOp (0x50 + m) = .smallInt m := by
  have htable : ∀ k : Fin 17, 1 ≤ k.1 →
      decodeOp (0x50 + UInt8.ofNat k.1) = .smallInt (UInt8.ofNat k.1) := by
    decide
  have hm := htable ⟨m.toNat, by omega⟩ h.1
  rwa [UInt8.ofNat_toNat] at hm

theorem isPlain_count {m : UInt8} (h : 1 ≤ m.toNat ∧ m.toNat ≤ 16) :
    (decodeOp (0x50 + m)).isPlain = true := by
  rw [decodeOp_count h]
  rfl

theorem execOp_count {m : UInt8} (h : 1 ≤ m.toNat ∧ m.toNat ≤ 16) (stack : Stack) :
    execOp P ctx allow (0x50 + m) stack = pushChecked [m] stack := by
  unfold execOp
  rw [decodeOp_count h]

theorem pushKeys_eq {pubkeys : List Bytes} (h : ∀ pk ∈ pubkeys, pk.length = 33) :
    Recognisers.pushKeys pubkeys
      = pubkeys.flatMap fun data => UInt8.ofNat data.length :: data := by
  unfold Recognisers.pushKeys
  refine List.flatMap_congr ?_
  intro pk hmem
  rw [h pk hmem]
  rfl

/-- A multisig script, run on a stack with its signatures on top. -/
theorem run_multisigScript {m : UInt8} {pubkeys sigs : List Bytes} {redeem : Bytes}
    (hredeem : multisigScript m pubkeys = .ok redeem) (hcount : sigs.length = m.toNat) :
    run P sigs.reverse redeem ctx true = .ok [boolItem (matchSigs P ctx.sigHash sigs pubkeys)] := by
  obtain ⟨⟨hm, hmn, hn⟩, hlen, hbytes⟩ := Recognisers.multisigScript_eq_ok_iff.mp hredeem
  have hm16 : 1 ≤ m.toNat ∧ m.toNat ≤ 16 := by omega
  have hnNat : (UInt8.ofNat pubkeys.length).toNat = pubkeys.length := toNat_byte (by omega)
  have hn16 : 1 ≤ (UInt8.ofNat pubkeys.length).toNat
      ∧ (UInt8.ofNat pubkeys.length).toNat ≤ 16 := by omega
  have hkeys : ∀ pk ∈ pubkeys, pk.length ≤ 0x4b := fun pk hmem => by rw [hlen pk hmem]; decide
  have hsigs : UInt8.ofNat sigs.length = m := by
    rw [hcount, UInt8.ofNat_toNat]
  have hstack : [UInt8.ofNat pubkeys.length] :: (pubkeys.reverse ++ [m] :: sigs.reverse)
      = multisigItems [] [] pubkeys sigs ++ [] := by
    rw [List.append_nil, multisigItems, hsigs]
    rfl
  have hside : (Code.op (0x50 + m) (isPlain_count hm16) (.items pubkeys hkeys
      (.op _ (isPlain_count hn16) (.op 0xae (by decide) .done)))).ElseOutside :=
    Code.elseOutside_items hkeys trivial
  have hrender : redeem = (Code.op (0x50 + m) (isPlain_count hm16) (.items pubkeys hkeys
      (.op _ (isPlain_count hn16) (.op 0xae (by decide) .done)))).render := by
    rw [hbytes, pushKeys_eq hlen, Code.render, Code.render_items, List.append_assoc]
    rfl
  have hroom : sigs.reverse.length ≤ 16 := by
    rw [List.length_reverse]
    omega
  -- The number of signatures, the keys, their number, and the opcode.
  rw [hrender, Code.run_render hside, Code.eval_op, execOp_count hm16,
    Code.pushChecked_of_lt (by unfold maxStackDepth; omega), ok_bind,
    Code.eval_items _ _ _ (by rw [List.length_cons]; unfold maxStackDepth; omega), Code.eval_op,
    execOp_count hn16, Code.pushChecked_of_lt (by
      rw [List.length_append, List.length_cons, List.length_reverse]
      unfold maxStackDepth
      omega),
    ok_bind, hstack, Code.eval_op, execOp_checkMultisig_items hn (hcount.le.trans hmn) (by decide)]
  rfl

/-! ## The scriptSig -/

/-- The redeem script of `n` keys. -/
theorem length_redeem {m : UInt8} {pubkeys : List Bytes} {redeem : Bytes}
    (hredeem : multisigScript m pubkeys = .ok redeem) :
    redeem.length = 34 * pubkeys.length + 3 := by
  obtain ⟨_, hlen, rfl⟩ := Recognisers.multisigScript_eq_ok_iff.mp hredeem
  rw [List.length_append, List.length_append, Recognisers.length_pushKeys hlen]
  simp
  omega

/-- The signatures, and then a script that pushes the redeem script. -/
theorem run_sigs {sigs : List Bytes} {redeem : Bytes} {last : Code}
    (hsigs : ∀ sig ∈ sigs, sig.length ≤ 0x4b) (hcount : sigs.length < maxStackDepth)
    (hside : last.ElseOutside)
    (heval : ∀ stack, last.eval P ctx allow stack
      = pushChecked redeem stack >>= fun stack => Code.done.eval P ctx allow stack) :
    run P [] (sigs.flatMap lengthPrefixed ++ last.render) ctx allow
      = .ok (redeem :: sigs.reverse) := by
  have hroom : sigs.reverse.length < maxStackDepth := by
    rwa [List.length_reverse]
  show run P [] (sigs.flatMap (fun data => UInt8.ofNat data.length :: data) ++ last.render) ctx allow
    = _
  rw [Code.run_items hsigs hside hcount.le, heval, Code.pushChecked_of_lt hroom]
  rfl

theorem length_flatMap_lengthPrefixed {sigs : List Bytes}
    (hsigs : ∀ sig ∈ sigs, sig.length ≤ 0x4b) :
    (sigs.flatMap lengthPrefixed).length ≤ 76 * sigs.length := by
  induction sigs with
  | nil => simp
  | cons sig sigs ih =>
    rw [List.forall_mem_cons] at hsigs
    have hrest := ih hsigs.2
    rw [List.flatMap_cons, List.length_append, List.length_cons, lengthPrefixed, List.length_cons]
    omega

/-- A redeem script that fits one of the two pushes is left on top of the signatures. -/
theorem run_p2shMultisigScriptSig {sigs : List Bytes} {redeem : Bytes}
    (hsigs : ∀ sig ∈ sigs, sig.length ≤ 0x4b) (hcount : sigs.length < maxStackDepth)
    (hredeem : redeem.length ≤ 0xff) :
    ∃ scriptSig, p2shMultisigScriptSig sigs redeem = .ok scriptSig ∧
      scriptSig.length ≤ 76 * sigs.length + 257 ∧
      run P [] scriptSig ctx false = .ok (redeem :: sigs.reverse) := by
  have hlen := length_flatMap_lengthPrefixed hsigs
  unfold p2shMultisigScriptSig
  dsimp only
  by_cases hshort : redeem.length ≤ 0x4b
  · have hrender : UInt8.ofNat redeem.length :: redeem
        = (Code.item redeem hshort .done).render := by
      rw [Code.render_item, Code.render, List.append_nil]
    rw [if_pos hshort]
    refine ⟨_, rfl, ?_, ?_⟩
    · rw [List.length_append, List.length_cons]
      omega
    · rw [hrender]
      exact run_sigs hsigs hcount (Code.elseOutside_item hshort trivial)
        (Code.eval_item redeem hshort .done)
  · have hrender : 0x4c :: UInt8.ofNat redeem.length :: redeem
        = (Code.pushData1 redeem hredeem .done).render := by
      rw [Code.render, Code.render, List.append_nil]
    rw [if_neg hshort, assert, if_pos hredeem, ok_bind]
    refine ⟨_, rfl, ?_, ?_⟩
    · rw [List.length_append, List.length_cons, List.length_cons]
      omega
    · rw [hrender]
      exact run_sigs hsigs hcount trivial (Code.eval_pushData1 redeem hredeem .done)

/-- A redeem script that is longer stops the process. -/
theorem p2shMultisigScriptSig_panics {redeem : Bytes} (h : 0xff < redeem.length)
    (sigs : List Bytes) : p2shMultisigScriptSig sigs redeem = .error .panic := by
  unfold p2shMultisigScriptSig
  dsimp only
  rw [if_neg (by omega), assert, if_neg (by omega)]
  rfl

/-- Whether the signatures match decides about the output of a redeem script that
    fits one push. -/
theorem execute_p2shMultisig {m : UInt8} {pubkeys sigs : List Bytes} {redeem : Bytes}
    (hredeem : multisigScript m pubkeys = .ok redeem) (hshort : redeem.length ≤ 0xff)
    (hcount : sigs.length = m.toNat) (hlen : ∀ sig ∈ sigs, sig.length ≤ 0x4b) :
    ∃ scriptSig, p2shMultisigScriptSig sigs redeem = .ok scriptSig ∧
      ∀ ctx, execute P scriptSig (p2shScriptFromRedeem P redeem) ctx
        = .ok (matchSigs P ctx.sigHash sigs pubkeys) := by
  obtain ⟨⟨_, hmn, hn⟩, _⟩ := Recognisers.multisigScript_eq_ok_iff.mp hredeem
  have hroom : sigs.length < maxStackDepth := by
    unfold maxStackDepth
    omega
  obtain ⟨scriptSig, hbuild, _⟩ := @run_p2shMultisigScriptSig P ⟨Hash256.zero, 0⟩ sigs redeem hlen
    hroom hshort
  refine ⟨scriptSig, hbuild, ?_⟩
  intro ctx
  obtain ⟨scriptSig', hbuild', hsize, hrun⟩ := @run_p2shMultisigScriptSig P ctx sigs redeem hlen
    hroom hshort
  rw [hbuild] at hbuild'
  obtain rfl := Except.ok.inj hbuild'
  rw [execute_p2sh (by unfold maxScriptSize; omega) hrun, run_multisigScript hredeem hcount]
  cases matchSigs P ctx.sigHash sigs pubkeys with
  | false => rfl
  | true => rfl

/-- The same without a redeem script. -/
theorem execute_bareMultisig {m : UInt8} {pubkeys sigs : List Bytes} {script : Bytes}
    (hscript : multisigScript m pubkeys = .ok script) (hcount : sigs.length = m.toNat)
    (hlen : ∀ sig ∈ sigs, sig.length ≤ 0x4b) (ctx : ScriptContext) :
    execute P (multisigScriptSig sigs) script ctx
      = .ok (matchSigs P ctx.sigHash sigs pubkeys) := by
  obtain ⟨⟨_, hmn, hn⟩, _⟩ := Recognisers.multisigScript_eq_ok_iff.mp hscript
  have hscriptLen := length_redeem hscript
  have hsigsLen := length_flatMap_lengthPrefixed hlen
  have hroom : sigs.length ≤ maxStackDepth := by
    unfold maxStackDepth
    omega
  have hsize : ¬ (multisigScriptSig sigs).length + script.length > maxScriptSize := by
    unfold multisigScriptSig maxScriptSize
    omega
  -- A multisig script has a length of its own, and is no P2SH script.
  have hp2sh : isP2sh script = false := by
    have hlength : (script.length == 23) = false := by
      rw [beq_eq_false_iff_ne]
      omega
    unfold isP2sh
    rw [hlength]
    rfl
  -- The scriptSig leaves the signatures, the last one on top.
  have hrun : run P [] (multisigScriptSig sigs) ctx false = .ok sigs.reverse := by
    have hitems : run P [] (multisigScriptSig sigs ++ Code.done.render) ctx false
        = Code.done.eval P ctx false sigs.reverse := Code.run_items hlen trivial hroom
    rw [Code.render, List.append_nil] at hitems
    exact hitems
  unfold execute
  rw [if_neg hsize]
  show (run P [] (multisigScriptSig sigs) ctx false >>= _) = _
  rw [hrun, ok_bind, hp2sh]
  simp only [Bool.false_eq_true, if_false]
  rw [run_multisigScript hscript hcount, ok_bind]
  cases matchSigs P ctx.sigHash sigs pubkeys with
  | false => rfl
  | true => rfl

/-- **The library can spend a P2SH multisig of up to seven keys, and of no more**: for
    every multisig script and signatures of its keys in order, the scriptSig comes
    about and spends the output exactly when there are at most seven keys. -/
theorem p2sh_multisig_spendable_iff (P : Primitives) (ctx : ScriptContext) (m : UInt8)
    (pubkeys : List Bytes) (redeem : Bytes) (hredeem : multisigScript m pubkeys = .ok redeem)
    (sigs : List Bytes) (hcount : sigs.length = m.toNat) (hlen : ∀ sig ∈ sigs, sig.length ≤ 75)
    (hvalid : ∃ f : Fin sigs.length → Fin pubkeys.length, StrictMono f ∧
      ∀ i, Verifies P ctx.sigHash (sigs.get i) (pubkeys.get (f i))) :
    (∃ scriptSig, p2shMultisigScriptSig sigs redeem = .ok scriptSig ∧
      execute P scriptSig (p2shScriptFromRedeem P redeem) ctx = .ok true)
    ↔ pubkeys.length ≤ 7 := by
  have hredeemLen := length_redeem hredeem
  constructor
  · rintro ⟨scriptSig, hbuild, _⟩
    by_contra hmany
    rw [p2shMultisigScriptSig_panics (by omega)] at hbuild
    cases hbuild
  · intro hfew
    obtain ⟨scriptSig, hbuild, hexec⟩ := execute_p2shMultisig hredeem (by omega) hcount hlen
    refine ⟨scriptSig, hbuild, ?_⟩
    have hmatch : matchSigs P ctx.sigHash sigs pubkeys = true :=
      (matchSigs_iff sigs pubkeys).mpr (OrderedMatching.matches_iff_strictMono.mpr hvalid)
    rw [hexec, hmatch]

/-- One key of one. -/
theorem p2sh_multisig_spendable_iff_oneKey :
    ∃ scriptSig, p2shMultisigScriptSig [sampleSig 2] ([0x51, 0x21] ++ sampleKey 2 ++ [0x51, 0xae])
        = .ok scriptSig ∧
      execute Primitives.sample scriptSig
        (p2shScriptFromRedeem Primitives.sample ([0x51, 0x21] ++ sampleKey 2 ++ [0x51, 0xae]))
        ⟨Hash256.zero, 0⟩ = .ok true :=
  (p2sh_multisig_spendable_iff Primitives.sample ⟨Hash256.zero, 0⟩ 1 [sampleKey 2] _ rfl
    [sampleSig 2] rfl (by decide)
    (exists_strictMono_singleton ⟨0, by decide⟩ (verifies_sample 2))).mpr (by decide)

/-- With eight keys the address is made and the scriptSig is not. -/
theorem p2sh_multisig_eightKeys :
    ¬ ∀ (P : Primitives) (ctx : ScriptContext) (m : UInt8) (pubkeys : List Bytes) (redeem : Bytes),
      multisigScript m pubkeys = .ok redeem →
      ∀ sigs : List Bytes, sigs.length = m.toNat → (∀ sig ∈ sigs, sig.length ≤ 75) →
      (∃ f : Fin sigs.length → Fin pubkeys.length, StrictMono f ∧
        ∀ i, Verifies P ctx.sigHash (sigs.get i) (pubkeys.get (f i))) →
      ∃ scriptSig, p2shMultisigScriptSig sigs redeem = .ok scriptSig ∧
        execute P scriptSig (p2shScriptFromRedeem P redeem) ctx = .ok true := by
  intro h
  obtain ⟨redeem, hredeem⟩ : ∃ redeem,
      multisigScript 1 (List.replicate 8 (sampleKey 2)) = .ok redeem := ⟨_, rfl⟩
  obtain ⟨scriptSig, hbuild, _⟩ := h Primitives.sample ⟨Hash256.zero, 0⟩ 1
    (List.replicate 8 (sampleKey 2)) redeem hredeem [sampleSig 2] rfl (by decide)
    (exists_strictMono_singleton ⟨0, by decide⟩ (verifies_sample 2))
  have hlong : 0xff < redeem.length := by
    rw [length_redeem hredeem]
    decide
  rw [p2shMultisigScriptSig_panics hlong] at hbuild
  cases hbuild

end Tensorium.Script
