import Tensorium.Lib.Positional
import Tensorium.Wallet.SignInput

/-! # Co-signing

    Several owners sign their own inputs of one transaction, in any order and as
    often as they like. The signature hash does not see what they write, so each
    writes the same script whenever it is its turn.
-/

namespace Tensorium

open Positional

variable {P : Primitives} {E : Ecdsa P}

namespace WalletKeypair

/-! ## One call -/

/-- What a call of `sign_input` may change: the script of its input, and the
    identifier. -/
structure OnlyScript (index : Nat) (tx tx' : Transaction) : Prop where
  outputs_eq : tx'.outputs = tx.outputs
  payload_eq : tx'.payload = tx.payload
  length_eq : tx'.inputs.length = tx.inputs.length
  others_eq : ∀ j, j ≠ index → tx'.inputs[j]? = tx.inputs[j]?
  outpoint_eq : tx'.inputs[index]?.map TxInput.previousOutput
    = tx.inputs[index]?.map TxInput.previousOutput

theorem signInput_onlyScript {k : WalletKeypair} {tx tx' : Transaction} {index : Nat}
    (h : k.signInput E tx index = .ok tx') : OnlyScript index tx tx' := by
  obtain ⟨script, _, rfl⟩ := signInput_cases h
  refine ⟨rfl, rfl, ?_, ?_, ?_⟩
  · exact List.length_modify _ _ _
  · intro j hne
    exact List.getElem?_modify_ne _ _ (Ne.symm hne)
  · show (tx.inputs.modify index _)[index]?.map _ = _
    rw [List.getElem?_modify]
    cases tx.inputs[index]? with
    | none => rfl
    | some input => simp

theorem signInput_outOfRange (k : WalletKeypair) (tx : Transaction) {index : Nat}
    (h : tx.inputs.length ≤ index) :
    k.signInput E tx index = .error .inputIndexOutOfRange := by
  unfold signInput
  rw [if_pos h]
  rfl

/-! ## Any number of calls -/

/-- The owner of an input signs it. A call that fails leaves the transaction as it
    is: nothing is written before the last check. -/
def signOwn (E : Ecdsa P) (owner : Nat → E.SecretKey) (tx : Transaction) (index : Nat) :
    Transaction :=
  match (fromSigningKey E (owner index)).signInput E tx index with
  | .ok tx' => tx'
  | .error _ => tx

/-- The script that the owner of an input writes. -/
def ownScript (E : Ecdsa P) (owner : Nat → E.SecretKey) (hash : Hash256) (index : Nat) : Bytes :=
  Script.p2pkhScriptSig (E.toDer (E.sign (owner index) hash.bytes)) (E.publicKey (owner index))

/-- An input with the script of its owner. -/
def withOwnScript (E : Ecdsa P) (owner : Nat → E.SecretKey) (hash : Hash256) (index : Nat)
    (input : TxInput) : TxInput :=
  { input with signatureScript := ownScript E owner hash index }

variable {owner : Nat → E.SecretKey}

theorem withOwnScript_idem (hash : Hash256) (index : Nat) (input : TxInput) :
    withOwnScript E owner hash index (withOwnScript E owner hash index input)
      = withOwnScript E owner hash index input := rfl

theorem signOwn_eq (hE : E.Lawful) (tx : Transaction) (index : Nat) :
    signOwn E owner tx index = if index < tx.inputs.length then
      (tx.stamp index (ownScript E owner (tx.signatureHash P) index)).refreshId P else tx := by
  unfold signOwn
  by_cases hindex : index < tx.inputs.length
  · rw [signInput_fromSigningKey hE _ _ hindex, if_pos hindex]
    rfl
  · rw [signInput_outOfRange _ _ (Nat.le_of_not_lt hindex), if_neg hindex]

/-- A transaction that some of its owners have signed. -/
structure Cosigned (E : Ecdsa P) (owner : Nat → E.SecretKey) (tx : Transaction) (order : List Nat)
    (tx' : Transaction) : Prop where
  inputs_eq : tx'.inputs = writeAll (withOwnScript E owner (tx.signatureHash P)) tx.inputs order
  outputs_eq : tx'.outputs = tx.outputs
  payload_eq : tx'.payload = tx.payload
  id_eq : tx'.id = if ∃ i ∈ order, i < tx.inputs.length then tx'.computedId P else tx.id
  hash_eq : tx'.signatureHash P = tx.signatureHash P

/-- The calls made so far decide what the transaction is. -/
theorem cosigned_foldl (hE : E.Lawful) (tx : Transaction) (order : List Nat) :
    Cosigned E owner tx order (order.foldl (signOwn E owner) tx) := by
  -- Induction on the calls, the last one split off.
  induction order using List.reverseRecOn with
  | nil => exact ⟨rfl, rfl, rfl, by simp, rfl⟩
  | append_singleton order index ih =>
    rw [List.foldl_append]
    show Cosigned E owner tx (order ++ [index]) (signOwn E owner (order.foldl _ tx) index)
    generalize order.foldl (signOwn E owner) tx = signed at ih ⊢
    have hlength : signed.inputs.length = tx.inputs.length := by
      rw [ih.inputs_eq, length_writeAll]
    rw [signOwn_eq hE, hlength, ih.hash_eq]
    by_cases hindex : index < tx.inputs.length
    · rw [if_pos hindex]
      refine ⟨?_, ih.outputs_eq, ih.payload_eq, ?_, ?_⟩
      · rw [writeAll_concat, ← ih.inputs_eq]
        rfl
      · rw [if_pos ⟨index, by simp, hindex⟩]
        rfl
      · rw [Transaction.signatureHash_refreshId, Transaction.signatureHash_stamp, ih.hash_eq]
    · -- The last call names no input: nothing is written, and whether any earlier
      -- call refreshed the identifier is as before.
      have hsame : (∃ i ∈ order ++ [index], i < tx.inputs.length)
          ↔ ∃ i ∈ order, i < tx.inputs.length := by
        simp only [List.mem_append, List.mem_singleton]
        constructor
        · rintro ⟨i, hi | rfl, hlt⟩
          · exact ⟨i, hi, hlt⟩
          · exact absurd hlt hindex
        · rintro ⟨i, hi, hlt⟩
          exact ⟨i, Or.inl hi, hlt⟩
      rw [if_neg hindex]
      refine ⟨?_, ih.outputs_eq, ih.payload_eq, ?_, ih.hash_eq⟩
      · rw [writeAll_concat, ← ih.inputs_eq]
        exact (List.modify_eq_self (by omega)).symm
      · simp only [hsame]
        exact ih.id_eq

/-- Signed by every owner, the transaction is the same for every order. -/
theorem Cosigned.eq_of_all {tx signed signed' : Transaction} {order order' : List Nat}
    (h : Cosigned E owner tx order signed) (h' : Cosigned E owner tx order' signed')
    (hall : ∀ i < tx.inputs.length, i ∈ order) (hall' : ∀ i < tx.inputs.length, i ∈ order') :
    signed = signed' := by
  have hinputs : signed.inputs = signed'.inputs := by
    rw [h.inputs_eq, h'.inputs_eq]
    exact writeAll_congr (withOwnScript_idem _) fun i hi => iff_of_true (hall i hi) (hall' i hi)
  have houtputs : signed.outputs = signed'.outputs := h.outputs_eq.trans h'.outputs_eq.symm
  have hpayload : signed.payload = signed'.payload := h.payload_eq.trans h'.payload_eq.symm
  have hcomputed : signed.computedId P = signed'.computedId P := by
    unfold Transaction.computedId
    rw [hinputs, houtputs, hpayload]
  -- Both orders sign some input, or there is no input to sign.
  have hsigned : (∃ i ∈ order, i < tx.inputs.length) ↔ ∃ i ∈ order', i < tx.inputs.length := by
    constructor
    · rintro ⟨i, _, hi⟩
      exact ⟨i, hall' i hi, hi⟩
    · rintro ⟨i, _, hi⟩
      exact ⟨i, hall i hi, hi⟩
  have hid : signed.id = signed'.id := by
    rw [h.id_eq, h'.id_eq, hcomputed]
    simp only [hsigned]
  cases signed
  cases signed'
  rw [Transaction.mk.injEq]
  exact ⟨hid, hinputs, houtputs, hpayload⟩

/-- The script of a signed input executes. -/
theorem Cosigned.execute (hE : E.Lawful) {tx signed : Transaction} {order : List Nat}
    (h : Cosigned E owner tx order signed) {i : Nat} (hi : i ∈ order) {input : TxInput}
    (hinput : signed.inputs[i]? = some input) (height : Nat) :
    Script.execute P input.signatureScript (Script.p2pkhFromPubkey P (E.publicKey (owner i)))
      ⟨signed.signatureHash P, height⟩ = .ok true := by
  rw [h.inputs_eq, getElem?_writeAll (withOwnScript_idem _)] at hinput
  obtain ⟨unsigned, _, rfl⟩ := Option.map_eq_some_iff.mp hinput
  rw [if_pos hi]
  exact (execute_scriptSig hE _ _ _).mpr h.hash_eq

/-- **Co-signing commutes.** However often and in whatever order the owners sign, the
    signature hash never changes; once every input is signed the transaction is the
    same for every order, and the script of each input executes. A call of
    `sign_input` changes the script of its input and the identifier, and nothing if
    the input does not exist. -/
theorem cosigning_commutes (hE : E.Lawful) (owner : Nat → E.SecretKey) (tx : Transaction)
    (order : List Nat) (hall : ∀ i < tx.inputs.length, i ∈ order) :
    let final := order.foldl (signOwn E owner) tx
    (∀ done : List Nat, done <+: order →
      (done.foldl (signOwn E owner) tx).signatureHash P = tx.signatureHash P) ∧
    (∀ order' : List Nat, (∀ i < tx.inputs.length, i ∈ order') →
      order'.foldl (signOwn E owner) tx = final) ∧
    (∀ i input, final.inputs[i]? = some input → ∀ height,
      Script.execute P input.signatureScript (Script.p2pkhFromPubkey P (E.publicKey (owner i)))
        ⟨final.signatureHash P, height⟩ = .ok true) ∧
    ∀ (k : WalletKeypair) (t : Transaction) (i : Nat),
      (t.inputs.length ≤ i → k.signInput E t i = .error .inputIndexOutOfRange) ∧
      ∀ t', k.signInput E t i = .ok t' → OnlyScript i t t' := by
  intro final
  have hfinal : Cosigned E owner tx order final := cosigned_foldl hE tx order
  refine ⟨?_, ?_, ?_, ?_⟩
  · intro done _
    exact (cosigned_foldl hE tx done).hash_eq
  · intro order' hall'
    exact (cosigned_foldl hE tx order').eq_of_all hfinal hall' hall
  · intro i input hinput height
    have hlength : final.inputs.length = tx.inputs.length := by
      rw [hfinal.inputs_eq, length_writeAll]
    have hi : i < tx.inputs.length := by
      rw [← hlength]
      exact (List.getElem?_eq_some_iff.mp hinput).1
    exact hfinal.execute hE (hall i hi) hinput height
  · intro k t i
    exact ⟨signInput_outOfRange k t, fun t' => signInput_onlyScript⟩

/-- The keys of two owners. -/
def sampleOwner (index : Nat) : Ecdsa.sample.SecretKey :=
  if index = 0 then sampleKey else ⟨List.replicate 33 9, List.length_replicate⟩

/-- Two owners sign, the second one twice. -/
theorem cosigning_commutes_two :
    [1, 0, 1].foldl (signOwn Ecdsa.sample sampleOwner) twoInputs
      = [0, 1].foldl (signOwn Ecdsa.sample sampleOwner) twoInputs := by
  exact (cosigning_commutes ecdsaSample_lawful sampleOwner twoInputs [0, 1] (by decide)).2.1
    [1, 0, 1] (by decide)

end WalletKeypair

end Tensorium
