import Tensorium.Core.Block

/-! # Wallet keys

    `wallet.rs`: keypairs and the two ways they sign a transaction. Signing
    comes from `k256`; what the wallet calls of it is an `Ecdsa`, and what it
    relies on is `Ecdsa.Lawful`.
-/

namespace Tensorium

open ByteCodec

/-- The signing side of `k256`, for the verifying side in `P`. -/
structure Ecdsa (P : Primitives) where
  /-- `k256::SecretKey`, and the `SigningKey` made from it. -/
  SecretKey : Type
  /-- `SecretKey::from_slice`. -/
  fromSlice : Bytes → Option SecretKey
  /-- `SigningKey::to_bytes`. -/
  toBytes : SecretKey → Bytes
  /-- `verifying_key().to_encoded_point(true)`. -/
  publicKey : SecretKey → Bytes
  /-- `Signer::sign`. -/
  sign : SecretKey → Bytes → P.Signature
  /-- `Signature::to_der`. -/
  toDer : P.Signature → Bytes

/-- What `k256` documents, for the digests a wallet signs: keys and signatures
    survive their encodings, a compressed point has 33 bytes and a DER signature
    at most 72, and a signature verifies for the message it was made for and for
    no other one. -/
structure Ecdsa.Lawful {P : Primitives} (E : Ecdsa P) : Prop where
  fromSlice_toBytes : ∀ sk, E.fromSlice (E.toBytes sk) = some sk
  length_publicKey : ∀ sk, (E.publicKey sk).length = 33
  fromDer_sign : ∀ sk (hash : Hash256),
    P.fromDer (E.toDer (E.sign sk hash.bytes)) = some (E.sign sk hash.bytes)
  length_toDer : ∀ sk (hash : Hash256),
    0 < (E.toDer (E.sign sk hash.bytes)).length ∧ (E.toDer (E.sign sk hash.bytes)).length ≤ 72
  verify_sign : ∀ sk, ∃ vk, P.fromSec1Bytes (E.publicKey sk) = some vk ∧
    ∀ hash hash' : Hash256, P.verify vk hash'.bytes (E.sign sk hash.bytes) = true ↔ hash' = hash

/-- `WalletKeypair`, less the address, which signing does not read. -/
structure WalletKeypair where
  privateKeyHex : String
  publicKeyHex : String
  deriving DecidableEq

/-- `WalletError`, less the variants signing does not return. -/
inductive WalletError where
  | invalidPrivateKey
  | inputIndexOutOfRange
  deriving DecidableEq, Repr

/-- `Transaction::refresh_id`. -/
def Transaction.refreshId (P : Primitives) (tx : Transaction) : Transaction :=
  { tx with id := tx.computedId P }

/-- A transaction with the script of one input replaced. -/
def Transaction.stamp (tx : Transaction) (index : Nat) (script : Bytes) : Transaction :=
  { tx with inputs := tx.inputs.modify index fun input => { input with signatureScript := script } }

namespace WalletKeypair

variable {P : Primitives}

/-- `from_signing_key`. -/
def fromSigningKey (E : Ecdsa P) (sk : E.SecretKey) : WalletKeypair where
  privateKeyHex := hexEncode (E.toBytes sk)
  publicKeyHex := hexEncode (E.publicKey sk)

/-- The scriptSig that `sign_transaction` and `sign_input` compute: a signature
    of the whole transaction's `signature_hash`, and the public key. -/
def scriptSig (E : Ecdsa P) (k : WalletKeypair) (tx : Transaction) : Except WalletError Bytes :=
  match (hexDecode k.privateKeyHex).bind E.fromSlice, hexDecode k.publicKeyHex with
  | some sk, some pubkeyBytes =>
    let signature := E.sign sk (tx.signatureHash P).bytes
    .ok (Script.p2pkhScriptSig (E.toDer signature) pubkeyBytes)
  -- All decoding errors are reported alike.
  | _, _ => .error .invalidPrivateKey

/-- `sign_transaction`. -/
def signTransaction (E : Ecdsa P) (k : WalletKeypair) (tx : Transaction) :
    Except WalletError Transaction := do
  let script ← k.scriptSig E tx
  return Transaction.refreshId P
    { tx with inputs := tx.inputs.map fun input => { input with signatureScript := script } }

/-- `sign_input`. -/
def signInput (E : Ecdsa P) (k : WalletKeypair) (tx : Transaction) (index : Nat) :
    Except WalletError Transaction := do
  if index ≥ tx.inputs.length then throw .inputIndexOutOfRange
  let script ← k.scriptSig E tx
  return (tx.stamp index script).refreshId P

/-- What `sign_input` returns is the transaction with the script of that input
    replaced. -/
theorem signInput_cases {E : Ecdsa P} {k : WalletKeypair} {tx tx' : Transaction} {index : Nat}
    (h : k.signInput E tx index = .ok tx') :
    ∃ script, k.scriptSig E tx = .ok script ∧ tx' = (tx.stamp index script).refreshId P := by
  unfold signInput at h
  split_ifs at h
  · cases h
  · cases hscript : k.scriptSig E tx with
    | error e =>
      rw [hscript] at h
      cases h
    | ok script =>
      rw [hscript] at h
      exact ⟨script, rfl, (Except.ok.inj h).symm⟩

end WalletKeypair

/-! ## A computable instance -/

/-- Signing for `Primitives.sample`: a secret key is its own public key. -/
def Ecdsa.sample : Ecdsa Primitives.sample where
  SecretKey := { key : Bytes // key.length = 33 }
  fromSlice := fun bytes => if h : bytes.length = 33 then some ⟨bytes, h⟩ else none
  toBytes := fun sk => sk.val
  publicKey := fun sk => sk.val
  sign := fun sk message => sk.val ++ message
  toDer := fun sig => sig

end Tensorium
