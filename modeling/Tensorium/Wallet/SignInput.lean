import Tensorium.Core.Wallet
import Tensorium.Script.P2pkh

/-! # What `sign_input` authorises

    `sign_input` writes one scriptSig, but the signature in it covers the whole
    transaction and nothing of the input it stands in. It therefore serves every
    input of the same transaction that the key can spend, and none of any
    transaction with another signature hash.
-/

namespace Tensorium

open ByteCodec

variable {P : Primitives} {E : Ecdsa P}

/-! ## The signature hash does not see scripts -/

theorem Transaction.unsigned_stamp (tx : Transaction) (index : Nat) (script : Bytes) :
    (tx.stamp index script).inputs.map TxInput.unsigned = tx.inputs.map TxInput.unsigned := by
  apply List.ext_getElem?
  intro i
  simp only [Transaction.stamp, List.getElem?_map, List.getElem?_modify]
  cases tx.inputs[i]? with
  | none => rfl
  | some input =>
    by_cases h : index = i
    · simp [h, TxInput.unsigned]
    · simp [h]

@[simp] theorem Transaction.signatureHash_stamp (tx : Transaction) (index : Nat) (script : Bytes) :
    (tx.stamp index script).signatureHash P = tx.signatureHash P := by
  unfold Transaction.signatureHash
  rw [Transaction.unsigned_stamp]
  rfl

@[simp] theorem Transaction.signatureHash_refreshId (tx : Transaction) :
    (tx.refreshId P).signatureHash P = tx.signatureHash P := rfl

namespace WalletKeypair

/-! ## The scriptSig -/

/-- The scriptSig of a key of its own. -/
theorem scriptSig_fromSigningKey (hE : E.Lawful) (sk : E.SecretKey) (tx : Transaction) :
    (fromSigningKey E sk).scriptSig E tx
      = .ok (Script.p2pkhScriptSig (E.toDer (E.sign sk (tx.signatureHash P).bytes))
          (E.publicKey sk)) := by
  unfold scriptSig fromSigningKey
  rw [hexDecode_hexEncode, hexDecode_hexEncode, Option.bind_some, hE.fromSlice_toBytes]

theorem signInput_fromSigningKey (hE : E.Lawful) (sk : E.SecretKey) (tx : Transaction)
    {index : Nat} (hindex : index < tx.inputs.length) :
    (fromSigningKey E sk).signInput E tx index
      = .ok ((tx.stamp index (Script.p2pkhScriptSig
          (E.toDer (E.sign sk (tx.signatureHash P).bytes)) (E.publicKey sk))).refreshId P) := by
  unfold signInput
  rw [if_neg (not_le.mpr hindex), scriptSig_fromSigningKey hE]
  rfl

/-- The scriptSig spends a P2PKH output of its key in exactly the transactions
    that have the signature hash it was made for. -/
theorem execute_scriptSig (hE : E.Lawful) (sk : E.SecretKey) (hash : Hash256)
    (ctx : Script.ScriptContext) :
    Script.execute P (Script.p2pkhScriptSig (E.toDer (E.sign sk hash.bytes)) (E.publicKey sk))
        (Script.p2pkhFromPubkey P (E.publicKey sk)) ctx = .ok true
      ↔ ctx.sigHash = hash := by
  obtain ⟨vk, hvk, hverify⟩ := hE.verify_sign sk
  have hkey := hE.length_publicKey sk
  have hsig := hE.length_toDer sk hash
  rw [Script.execute_p2pkh (by omega) (by omega) hvk (hE.fromDer_sign sk hash)]
  constructor
  · intro h
    exact (hverify _ _).mp (Except.ok.inj h)
  · intro h
    rw [h, (hverify _ _).mpr rfl]

/-- **`sign_input` writes one input and authorises the whole transaction.** Only
    the chosen input gets a new script; outpoints, outputs and payload stay. A
    copy of that script on any other input makes it spend a P2PKH output of the
    same key, at every height. In a transaction with another signature hash the
    script spends no P2PKH output of the key, on whichever input it is put. -/
theorem signInput_authorises (hE : E.Lawful) (sk : E.SecretKey) (tx : Transaction) (i : Nat)
    (hi : i < tx.inputs.length) :
    ∃ tx' script, (fromSigningKey E sk).signInput E tx i = .ok tx' ∧
      tx' = (tx.stamp i script).refreshId P ∧
      (∀ j, j < tx.inputs.length → j ≠ i →
        tx'.inputs[j]? = tx.inputs[j]? ∧
        ∀ height, Script.execute P script (Script.p2pkhFromPubkey P (E.publicKey sk))
          ⟨(tx'.stamp j script).signatureHash P, height⟩ = .ok true) ∧
      ∀ other : Transaction, other.signatureHash P ≠ tx.signatureHash P → ∀ j height,
        Script.execute P script (Script.p2pkhFromPubkey P (E.publicKey sk))
          ⟨(other.stamp j script).signatureHash P, height⟩ ≠ .ok true := by
  refine ⟨_, _, signInput_fromSigningKey hE sk tx hi, rfl, ?_, ?_⟩
  · intro j hj hne
    constructor
    · show (tx.inputs.modify i _)[j]? = tx.inputs[j]?
      simp [Ne.symm hne]
    · intro height
      rw [execute_scriptSig hE]
      simp
  · intro other hother j height hexec
    rw [execute_scriptSig hE] at hexec
    rw [Transaction.signatureHash_stamp] at hexec
    exact hother hexec

/-! ## On a concrete transaction -/

theorem ecdsaSample_lawful : Ecdsa.sample.Lawful where
  fromSlice_toBytes sk := dif_pos sk.property
  length_publicKey sk := sk.property
  fromDer_sign sk hash := by
    have hne : (sk.val ++ hash.bytes).isEmpty = false := by
      rw [List.isEmpty_eq_false_iff, ← List.length_pos_iff, List.length_append, sk.property]
      omega
    show (if (sk.val ++ hash.bytes).isEmpty then none else some (sk.val ++ hash.bytes)) = _
    rw [hne]
    rfl
  length_toDer sk hash := by
    have hlen : (sk.val ++ hash.bytes).length = 65 := by
      rw [List.length_append, sk.property, hash.size]
    show 0 < (sk.val ++ hash.bytes).length ∧ (sk.val ++ hash.bytes).length ≤ 72
    omega
  verify_sign sk := by
    refine ⟨sk.val, if_pos sk.property, fun hash hash' => ?_⟩
    show (sk.val ++ hash.bytes == sk.val ++ hash'.bytes) = true ↔ hash' = hash
    rw [beq_iff_eq, List.append_cancel_left_eq]
    constructor
    · intro h
      exact (Hash256.ext h).symm
    · rintro rfl
      rfl

/-- A key. -/
def sampleKey : Ecdsa.sample.SecretKey := ⟨List.replicate 33 7, rfl⟩

/-- A transaction with two inputs, without scripts. -/
def twoInputs : Transaction where
  id := Hash256.zero
  inputs := [⟨⟨Hash256.zero, 0⟩, []⟩, ⟨⟨Hash256.zero, 1⟩, []⟩]
  outputs := [⟨5, []⟩]
  payload := []

/-- After the first input is signed, a copy of its script unlocks the second. -/
theorem signInput_copy_unlocks :
    ∃ tx' input, (fromSigningKey Ecdsa.sample sampleKey).signInput Ecdsa.sample twoInputs 0
        = .ok tx' ∧
      tx'.inputs[0]? = some input ∧
      Script.execute Primitives.sample input.signatureScript
        (Script.p2pkhFromPubkey Primitives.sample (Ecdsa.sample.publicKey sampleKey))
        ⟨(tx'.stamp 1 input.signatureScript).signatureHash Primitives.sample, 0⟩ = .ok true := by
  refine ⟨_, _, signInput_fromSigningKey ecdsaSample_lawful sampleKey twoInputs (by decide), rfl,
    ?_⟩
  rw [execute_scriptSig ecdsaSample_lawful]
  simp

theorem signInput_authorises_twoInputs :
    ∃ tx' script,
      (fromSigningKey Ecdsa.sample sampleKey).signInput Ecdsa.sample twoInputs 0 = .ok tx' ∧
      Script.execute Primitives.sample script
        (Script.p2pkhFromPubkey Primitives.sample (Ecdsa.sample.publicKey sampleKey))
        ⟨(tx'.stamp 1 script).signatureHash Primitives.sample, 0⟩ = .ok true := by
  obtain ⟨tx', script, hsign, _, hothers, _⟩ :=
    signInput_authorises ecdsaSample_lawful sampleKey twoInputs 0 (by decide)
  exact ⟨tx', script, hsign, (hothers 1 (by decide) (by decide)).2 0⟩

end WalletKeypair

end Tensorium
