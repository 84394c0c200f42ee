import Tensorium.Utxo.Accept

/-! # What a signature commits to

    `signature_hash` concatenates the inputs, the outputs and the payload of a
    transaction without counts or lengths. Two transactions with equal preimages
    have the same contents exactly when they have the same layout, and a layout
    can almost always be changed: bytes move from the outputs to the payload and
    back under an unchanged signature.
-/

namespace Tensorium

open ByteCodec BulkMap

/-! ## Encodings of the parts -/

theorem TxInput.encode_injective {a b : TxInput} (h : a.encode = b.encode) : a = b := by
  obtain ⟨⟨txid, index⟩, script⟩ := a
  obtain ⟨⟨txid', index'⟩, script'⟩ := b
  unfold TxInput.encode at h
  dsimp only at h
  rw [List.append_assoc, List.append_assoc] at h
  -- The identifier and the index have fixed widths.
  obtain ⟨htxid, h⟩ := List.append_inj h (by rw [txid.size, txid'.size])
  obtain ⟨hindex, rfl⟩ := List.append_inj h (by simp)
  have hindex' := leBytes_injective index.toNat_lt index'.toNat_lt hindex
  rw [Hash256.ext htxid, UInt32.toNat_inj.mp hindex']

theorem TxOutput.encode_injective {a b : TxOutput} (h : a.encode = b.encode) : a = b := by
  obtain ⟨value, script⟩ := a
  obtain ⟨value', script'⟩ := b
  unfold TxOutput.encode at h
  dsimp only at h
  obtain ⟨hvalue, rfl⟩ := List.append_inj h (by simp)
  rw [UInt64.toNat_inj.mp (leBytes_injective value.toNat_lt value'.toNat_lt hvalue)]

@[simp] theorem TxInput.length_encode (i : TxInput) :
    i.encode.length = 36 + i.signatureScript.length := by
  unfold TxInput.encode
  rw [List.length_append, List.length_append, i.previousOutput.txid.size, length_leBytes]

@[simp] theorem TxOutput.length_encode (o : TxOutput) :
    o.encode.length = 8 + o.scriptPubkey.length := by
  simp [TxOutput.encode]

/-- Preimages whose parts have pairwise equal lengths agree only if the parts
    do. -/
theorem transactionPreimage_inj {inputs inputs' : List TxInput} {outputs outputs' : List TxOutput}
    {payload payload' : Bytes}
    (hin : inputs.map (fun i => i.signatureScript.length)
      = inputs'.map fun i => i.signatureScript.length)
    (hout : outputs.map (fun o => o.scriptPubkey.length)
      = outputs'.map fun o => o.scriptPubkey.length)
    (h : transactionPreimage inputs outputs payload
      = transactionPreimage inputs' outputs' payload') :
    inputs = inputs' ∧ outputs = outputs' ∧ payload = payload' := by
  have hin' : inputs.map (fun i => i.encode.length) = inputs'.map fun i => i.encode.length := by
    have := congrArg (List.map (36 + ·)) hin
    simpa only [List.map_map, Function.comp_def, TxInput.length_encode] using this
  have hout' : outputs.map (fun o => o.encode.length)
      = outputs'.map fun o => o.encode.length := by
    have := congrArg (List.map (8 + ·)) hout
    simpa only [List.map_map, Function.comp_def, TxOutput.length_encode] using this
  unfold transactionPreimage at h
  rw [List.append_assoc, List.append_assoc] at h
  obtain ⟨rfl, hrest⟩ := flatMap_append_inj (fun _ _ => TxInput.encode_injective) hin' h
  obtain ⟨rfl, rfl⟩ := flatMap_append_inj (fun _ _ => TxOutput.encode_injective) hout' hrest
  exact ⟨rfl, rfl, rfl⟩

/-! ## Contents and layout -/

namespace Transaction

/-- The same outpoints spent, the same outputs, the same payload. -/
def SameContents (t₁ t₂ : Transaction) : Prop :=
  t₁.outpoints = t₂.outpoints ∧ t₁.outputs = t₂.outputs ∧ t₁.payload = t₂.payload

/-- The number of inputs, and the script length of each output. -/
def signatureLayout (tx : Transaction) : Nat × List Nat :=
  (tx.inputs.length, tx.outputs.map fun o => o.scriptPubkey.length)

/-- Under equal preimages the layout decides about the contents. -/
theorem sameContents_iff_layout {t₁ t₂ : Transaction}
    (h : t₁.signaturePreimage = t₂.signaturePreimage) :
    t₁.SameContents t₂ ↔ t₁.signatureLayout = t₂.signatureLayout := by
  constructor
  · rintro ⟨hin, hout, _⟩
    have hlen := congrArg List.length hin
    simp only [outpoints, List.length_map] at hlen
    unfold signatureLayout
    rw [hlen, hout]
  · intro hlayout
    obtain ⟨hlen, hout⟩ := Prod.mk.inj hlayout
    -- Signed inputs have empty scripts, so their number is their whole layout.
    have hscripts : ∀ tx : Transaction,
        (tx.inputs.map TxInput.unsigned).map (fun i => i.signatureScript.length)
          = List.replicate tx.inputs.length 0 := by
      intro tx
      rw [List.map_map, ← List.map_const']
      rfl
    obtain ⟨hin, houts, hpayload⟩ :=
      transactionPreimage_inj (by rw [hscripts, hscripts, hlen]) hout h
    refine ⟨?_, houts, hpayload⟩
    have hops := congrArg (List.map TxInput.previousOutput) hin
    rw [List.map_map, List.map_map] at hops
    exact hops

/-- The transaction whose payload is the whole preimage of another one. -/
def allPayload (tx : Transaction) : Transaction :=
  { tx with inputs := [], outputs := [], payload := tx.signaturePreimage }

theorem allPayload_preimage (tx : Transaction) :
    tx.allPayload.signaturePreimage = tx.signaturePreimage := rfl

/-- A payload of at least eight bytes reads as an output. -/
def payloadAsOutput (payload : Bytes) : TxOutput :=
  ⟨UInt64.ofNat (leNat (payload.take 8)), payload.drop 8⟩

theorem payloadAsOutput_encode {payload : Bytes} (h : 8 ≤ payload.length) :
    (payloadAsOutput payload).encode = payload := by
  have htake : (payload.take 8).length = 8 := by rw [List.length_take]; omega
  have hlt : leNat (payload.take 8) < UInt64.size := by
    have := leNat_lt (payload.take 8)
    rw [htake] at this
    exact this
  unfold payloadAsOutput TxOutput.encode
  dsimp only
  rw [UInt64.toNat_ofNat_of_lt' hlt]
  have hround := leBytes_leNat (payload.take 8)
  rw [htake] at hround
  rw [hround, List.take_append_drop]

/-- Every input and every output contributes at least eight bytes. -/
theorem signaturePreimage_length (tx : Transaction) :
    8 * tx.inputs.length + 8 * tx.outputs.length + tx.payload.length
      ≤ tx.signaturePreimage.length := by
  have hin : 8 * tx.inputs.length ≤ ((tx.inputs.map TxInput.unsigned).flatMap TxInput.encode).length := by
    induction tx.inputs with
    | nil => simp
    | cons i inputs ih =>
      rw [List.map_cons, List.flatMap_cons, List.length_append, List.length_cons,
        TxInput.length_encode]
      omega
  have hout : 8 * tx.outputs.length ≤ (tx.outputs.flatMap TxOutput.encode).length := by
    induction tx.outputs with
    | nil => simp
    | cons o outputs ih =>
      rw [List.flatMap_cons, List.length_append, List.length_cons, TxOutput.length_encode]
      omega
  unfold signaturePreimage transactionPreimage
  rw [List.length_append, List.length_append]
  omega

/-- Only a transaction that is nothing but a short payload is committed to
    against every other one. -/
theorem commits_iff_short_payload (t₁ : Transaction) :
    (∀ t₂ : Transaction, t₁.signaturePreimage = t₂.signaturePreimage → t₁.SameContents t₂) ↔
      t₁.inputs = [] ∧ t₁.outputs = [] ∧ t₁.payload.length < 8 := by
  constructor
  · intro hcommit
    -- Moving everything into the payload must not change the contents.
    obtain ⟨hops, hout, _⟩ := hcommit t₁.allPayload t₁.allPayload_preimage.symm
    have hin : t₁.inputs = [] := List.map_eq_nil_iff.mp hops
    have hout' : t₁.outputs = [] := hout
    refine ⟨hin, hout', ?_⟩
    by_contra hlong
    -- Nor must reading a long payload as an output.
    have hpre : t₁.signaturePreimage
        = signaturePreimage { t₁ with outputs := [payloadAsOutput t₁.payload], payload := [] } := by
      unfold signaturePreimage transactionPreimage
      rw [hin, hout']
      simp only [List.map_nil, List.flatMap_nil, List.nil_append, List.flatMap_cons,
        List.append_nil]
      rw [payloadAsOutput_encode (not_lt.mp hlong)]
    have hsame := (hcommit _ hpre).2.1
    rw [hout'] at hsame
    cases hsame
  · -- Fewer than eight bytes leave no room for an input or an output.
    rintro ⟨hin, hout, hshort⟩ t₂ hpre
    have hpre₁ : t₁.signaturePreimage = t₁.payload := by
      unfold signaturePreimage transactionPreimage
      rw [hin, hout]
      rfl
    have hlen := signaturePreimage_length t₂
    rw [← hpre, hpre₁] at hlen
    have hin₂ : t₂.inputs = [] := List.length_eq_zero_iff.mp (by omega)
    have hout₂ : t₂.outputs = [] := List.length_eq_zero_iff.mp (by omega)
    rw [sameContents_iff_layout hpre]
    unfold signatureLayout
    rw [hin, hout, hin₂, hout₂]

end Transaction

/-- **When a signature commits to the transaction.** Two transactions with the
    same signed bytes have the same contents if and only if they have the same
    layout; and no other transaction has the same signed bytes with other
    contents if and only if the transaction has no input, no output and fewer
    than eight bytes of payload. -/
theorem signature_commits_iff (t₁ : Transaction) :
    (∀ t₂ : Transaction, t₁.signaturePreimage = t₂.signaturePreimage →
      (t₁.SameContents t₂ ↔ t₁.signatureLayout = t₂.signatureLayout)) ∧
    ((∀ t₂ : Transaction, t₁.signaturePreimage = t₂.signaturePreimage → t₁.SameContents t₂) ↔
      t₁.inputs = [] ∧ t₁.outputs = [] ∧ t₁.payload.length < 8) :=
  ⟨fun _ h => Transaction.sameContents_iff_layout h, t₁.commits_iff_short_payload⟩

/-! ## A signature that authorises two transactions -/

/-- A public key, in the form `Primitives.sample` accepts. -/
def sampleKey : Bytes := List.replicate 33 7

/-- The outpoint the two transactions spend. -/
def sampleOutPoint : OutPoint := ⟨Hash256.zero, 0⟩

/-- A set with one mature output of 50 atoms, locked to `sampleKey`. -/
def sampleUtxo : UtxoSet :=
  Finmap.insert sampleOutPoint
    ⟨⟨50, Script.p2pkhScript ((Primitives.sample.sha256 sampleKey).bytes.take 20)⟩, 0, false⟩ ∅

/-- An unsigned payment of 40 atoms of that output, leaving a fee of 10. -/
def unsignedPayment : Transaction where
  id := Hash256.zero
  inputs := [⟨sampleOutPoint, []⟩]
  outputs := [⟨40, Script.p2pkhScript (List.replicate 20 9)⟩]
  payload := asBytes "payment:v1"

/-- The script of the owner's signature over the payment and of the key. -/
def paymentScript : Bytes :=
  let sig := sampleKey ++ (unsignedPayment.signatureHash Primitives.sample).bytes
  [UInt8.ofNat sig.length] ++ sig ++ [33] ++ sampleKey

/-- The payment, signed. -/
def signedPayment : Transaction :=
  { unsignedPayment with inputs := [⟨sampleOutPoint, paymentScript⟩] }

/-- The same input under the same signature, with the output turned into payload:
    the whole value is left to the miner. -/
def divertedPayment : Transaction :=
  { signedPayment with
    outputs := []
    payload := unsignedPayment.outputs.flatMap TxOutput.encode ++ unsignedPayment.payload }

/-- The two transactions have the same signed bytes and different contents, and
    the one signature script makes consensus accept both, with different fees. -/
theorem signature_diverted :
    signedPayment.signaturePreimage = divertedPayment.signaturePreimage ∧
    signedPayment.outpoints = divertedPayment.outpoints ∧
    signedPayment.outputs ≠ divertedPayment.outputs ∧
    signedPayment.inputs = divertedPayment.inputs ∧
    validateTransaction Primitives.sample sampleUtxo signedPayment 1 testParams = .ok 10 ∧
    validateTransaction Primitives.sample sampleUtxo divertedPayment 1 testParams = .ok 50 := by
  refine ⟨?_, ?_, ?_, ?_, ?_, ?_⟩
  all_goals decide

end Tensorium
