import Tensorium.Core.Wallet
import Tensorium.Node.Rpc

/-! # Payments of the wallet program

    `txmwallet send` and `txmwallet broadcast`: a payment is built from what the
    node lists, and the answer of the node comes back as text. The wallet keeps
    no record of what it has sent.
-/

namespace Tensorium

open Saturating

/-- `WalletFile`, less what only `decrypt` reads, with the keypair it yields. -/
structure WalletFile where
  address : String
  keypair : WalletKeypair

/-- Why a payment is not built. -/
inductive PaymentError where
  | insufficient (have_ needed : UInt64)
  | invalidRecipient
  | invalidWallet
  | signing (error : WalletError)
  deriving DecidableEq

/-- `Transaction::payment`. -/
def Transaction.payment (P : Primitives) (inputs : List TxInput) (outputs : List TxOutput) :
    Transaction :=
  let payload := asBytes "payment:v1"
  ⟨transactionId P inputs outputs payload, inputs, outputs, payload⟩

/-- The loop that selects mature outputs until enough is in. -/
def selectMature (needed : UInt64) : UInt64 → List RpcUtxo → List RpcUtxo × UInt64
  | atoms, [] => ([], atoms)
  | atoms, utxo :: utxos =>
    if !utxo.mature then selectMature needed atoms utxos
    else
      let atoms := satAdd64 atoms utxo.valueAtoms
      if atoms ≥ needed then ([utxo], atoms)
      else
        let (selected, atoms) := selectMature needed atoms utxos
        (utxo :: selected, atoms)

/-- The outputs of a payment: the amount, and the change if there is any. -/
def paymentOutputs (P : Primitives) (toAddress ownAddress : String) (amountAtoms change : UInt64) :
    Except PaymentError (List TxOutput) :=
  match Script.p2pkhFromAddress P toAddress with
  | .error _ => .error .invalidRecipient
  | .ok script =>
    if change > 0 then
      match Script.p2pkhFromAddress P ownAddress with
      | .error _ => .error .invalidWallet
      | .ok own => .ok [⟨amountAtoms, script⟩, ⟨change, own⟩]
    else .ok [⟨amountAtoms, script⟩]

/-- `build_signed_payment_via_rpc`, on what `GET /getutxos` has listed. -/
def buildSignedPaymentViaRpc {P : Primitives} (E : Ecdsa P) (wallet : WalletFile)
    (utxos : List RpcUtxo) (toAddress : String) (amountAtoms feeAtoms : UInt64) :
    Except PaymentError Transaction :=
  let needed := satAdd64 amountAtoms feeAtoms
  let (selected, selectedAtoms) := selectMature needed 0 utxos
  if selectedAtoms < needed then .error (.insufficient selectedAtoms needed)
  else
    let inputs := selected.map fun utxo => (⟨utxo.outpoint, []⟩ : TxInput)
    match paymentOutputs P toAddress wallet.address amountAtoms
        (selectedAtoms - amountAtoms - feeAtoms) with
    | .error e => .error e
    | .ok outputs =>
      match wallet.keypair.signTransaction E (.payment P inputs outputs) with
      | .error e => .error (.signing e)
      | .ok tx => .ok tx

variable {P : Primitives} {E : Ecdsa P}

/-- The first output pays the amount to the recipient. -/
theorem paymentOutputs_head {toAddress ownAddress : String} {amountAtoms change : UInt64}
    {outputs : List TxOutput}
    (h : paymentOutputs P toAddress ownAddress amountAtoms change = .ok outputs) :
    ∃ script rest, Script.p2pkhFromAddress P toAddress = .ok script ∧
      outputs = ⟨amountAtoms, script⟩ :: rest := by
  unfold paymentOutputs at h
  cases hscript : Script.p2pkhFromAddress P toAddress with
  | error e =>
    rw [hscript] at h
    cases h
  | ok script =>
    rw [hscript] at h
    dsimp only at h
    split_ifs at h
    · cases hown : Script.p2pkhFromAddress P ownAddress with
      | error e =>
        rw [hown] at h
        cases h
      | ok own =>
        rw [hown] at h
        exact ⟨script, _, rfl, (Except.ok.inj h).symm⟩
    · exact ⟨script, _, rfl, (Except.ok.inj h).symm⟩

/-- Signing does not touch the outputs. -/
theorem signTransaction_outputs {k : WalletKeypair} {tx tx' : Transaction}
    (h : k.signTransaction E tx = .ok tx') : tx'.outputs = tx.outputs := by
  unfold WalletKeypair.signTransaction at h
  cases hscript : k.scriptSig E tx with
  | error e =>
    rw [hscript] at h
    cases h
  | ok script =>
    rw [hscript] at h
    obtain rfl := Except.ok.inj h
    rfl

/-- A payment that is built pays the amount to the recipient with its first
    output. -/
theorem buildSignedPaymentViaRpc_pays {wallet : WalletFile} {utxos : List RpcUtxo}
    {toAddress : String} {amountAtoms feeAtoms : UInt64} {tx : Transaction}
    (h : buildSignedPaymentViaRpc E wallet utxos toAddress amountAtoms feeAtoms = .ok tx) :
    ∃ script rest, Script.p2pkhFromAddress P toAddress = .ok script ∧
      tx.outputs = ⟨amountAtoms, script⟩ :: rest := by
  unfold buildSignedPaymentViaRpc at h
  dsimp only at h
  split_ifs at h
  split at h
  · cases h
  next outputs houtputs =>
    obtain ⟨script, rest, hscript, rfl⟩ := paymentOutputs_head houtputs
    split at h
    · cases h
    next signed hsign =>
      obtain rfl := Except.ok.inj h
      exact ⟨script, rest, hscript, signTransaction_outputs hsign⟩

/-- What `txmwallet broadcast` prints when the node answers with an error. -/
def broadcastError (error : NodeError) : String :=
  "error: RPC error 500: \x7b\n  \"error\": \"" ++ error.message ++ "\"\n\x7d"

end Tensorium
