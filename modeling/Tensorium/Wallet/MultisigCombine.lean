import Tensorium.Core.Wallet
import Tensorium.Script.P2sh
import Tensorium.Wallet.Cosign

/-! # Combining multisig signatures

    `txmwallet multisig-sign` and `txmwallet multisig-combine`: every signer writes a
    file with a signature of the whole transaction, and the files are put together
    in the order of the command line. The opcode takes the signatures in the order
    of the keys.
-/

namespace Tensorium

open ByteCodec ExceptFold OrderedMatching Panicking Script

/-- `MultisigSig`. -/
structure MultisigSig where
  inputIndex : Nat
  derSigHex : String
  deriving DecidableEq

/-- `MultisigSigFile`. -/
structure MultisigSigFile where
  unsignedTxid : String
  sigs : List MultisigSig
  deriving DecidableEq

variable {P : Primitives}

/-- `sign_hash`. -/
def WalletKeypair.signHash (E : Ecdsa P) (k : WalletKeypair) (hash : Hash256) :
    Except WalletError Bytes :=
  match (hexDecode k.privateKeyHex).bind E.fromSlice with
  | some sk => .ok (E.toDer (E.sign sk hash.bytes))
  | none => .error .invalidPrivateKey

/-- `multisig-sign`: the file that is written for a transaction. -/
def multisigSign (E : Ecdsa P) (k : WalletKeypair) (tx : Transaction) :
    Except WalletError MultisigSigFile :=
  (k.signHash E (tx.signatureHash P)).map fun derSig =>
    ⟨hexEncode tx.id.bytes, (List.range tx.inputs.length).map fun i => ⟨i, hexEncode derSig⟩⟩

/-- The loop over the arguments behind the transaction file: the last `--redeem`, and
    the signature files in their order. -/
def combineArgs : List String → Except String (Option String × List String)
  | [] => .ok (none, [])
  | [arg] => if arg = "--redeem" then .error "--redeem requires a hex value" else .ok (none, [arg])
  | arg :: next :: rest =>
    if arg = "--redeem" then
      (combineArgs rest).map fun parsed => (parsed.1.or (some next), parsed.2)
    else (combineArgs (next :: rest)).map fun parsed => (parsed.1, arg :: parsed.2)

/-- The signature of a file: that of the first input. -/
def collectSig (read : String → Except String MultisigSigFile) (expectedTxid path : String) :
    Except String Bytes := do
  let sigFile ← read path
  if sigFile.unsignedTxid ≠ expectedTxid then
    .error s!"sig file {path} txid mismatch: expected {expectedTxid}, got {sigFile.unsignedTxid}"
  else match sigFile.sigs.find? fun s => s.inputIndex = 0 with
    | none => .error s!"no sig for input 0 in {path}"
    | some sig => match hexDecode sig.derSigHex with
      | none => .error s!"invalid sig hex in {path}"
      | some derSig => .ok derSig

/-- Every input gets the script, and the identifier is refreshed. -/
def Transaction.withScripts (P : Primitives) (tx : Transaction) (script : Bytes) : Transaction :=
  Transaction.refreshId P
    { tx with inputs := tx.inputs.map fun input => { input with signatureScript := script } }

/-- `multisig-combine`, on the transaction of the file. -/
def multisigCombine (P : Primitives) (read : String → Except String MultisigSigFile)
    (tx : Transaction) (args : List String) : MayPanic (Except String Transaction) :=
  match combineArgs args with
  | .error text => .ok (.error text)
  | .ok (redeemHex, sigPaths) =>
    if sigPaths.length < 2 then .ok (.error "multisig-combine requires at least 2 sig files")
    else match sigPaths.mapM (collectSig read (hexEncode tx.id.bytes)) with
      | .error text => .ok (.error text)
      | .ok sigs =>
        match redeemHex with
        | none => .ok (.ok (tx.withScripts P (multisigScriptSig sigs)))
        | some hex =>
          match hexDecode hex with
          | none => .ok (.error "invalid --redeem hex: must be lowercase hex")
          | some redeem => (p2shMultisigScriptSig sigs redeem).map fun scriptSig =>
              .ok (tx.withScripts P scriptSig)

/-! ## The files -/

variable {E : Ecdsa P}

/-- The signature of a key. -/
def derSigOf (E : Ecdsa P) (hash : Hash256) (sk : E.SecretKey) : Bytes :=
  E.toDer (E.sign sk hash.bytes)

theorem multisigSign_fromSigningKey (hE : E.Lawful) (sk : E.SecretKey) (tx : Transaction) :
    multisigSign E (.fromSigningKey E sk) tx = .ok ⟨hexEncode tx.id.bytes,
      (List.range tx.inputs.length).map fun i =>
        ⟨i, hexEncode (derSigOf E (tx.signatureHash P) sk)⟩⟩ := by
  unfold multisigSign WalletKeypair.signHash WalletKeypair.fromSigningKey
  rw [hexDecode_hexEncode, Option.bind_some, hE.fromSlice_toBytes]
  rfl

/-- A file that a signer has written is read at a path. -/
def WrittenBy (E : Ecdsa P) (read : String → Except String MultisigSigFile) (tx : Transaction)
    (path : String) (sk : E.SecretKey) : Prop :=
  ∃ file, multisigSign E (.fromSigningKey E sk) tx = .ok file ∧ read path = .ok file

theorem collectSig_writtenBy (hE : E.Lawful) {read : String → Except String MultisigSigFile}
    {tx : Transaction} (hinputs : tx.inputs ≠ []) {path : String} {sk : E.SecretKey}
    (h : WrittenBy E read tx path sk) :
    collectSig read (hexEncode tx.id.bytes) path = .ok (derSigOf E (tx.signatureHash P) sk) := by
  obtain ⟨file, hfile, hread⟩ := h
  rw [multisigSign_fromSigningKey hE] at hfile
  obtain rfl := Except.ok.inj hfile
  obtain ⟨n, hn⟩ := Nat.exists_eq_succ_of_ne_zero (mt List.length_eq_zero_iff.mp hinputs)
  unfold collectSig
  rw [hread, ok_bind, if_neg (not_not_intro rfl), hn, List.range_succ_eq_map, List.map_cons,
    List.find?_cons_of_pos (by simp)]
  dsimp only
  rw [hexDecode_hexEncode]

theorem mapM_collectSig (hE : E.Lawful) {read : String → Except String MultisigSigFile}
    {tx : Transaction} (hinputs : tx.inputs ≠ []) {paths : List String}
    {signers : List E.SecretKey} (h : List.Forall₂ (WrittenBy E read tx) paths signers) :
    paths.mapM (collectSig read (hexEncode tx.id.bytes))
      = .ok (signers.map (derSigOf E (tx.signatureHash P))) := by
  induction h with
  | nil => rfl
  | cons hwritten _ ih =>
    rw [List.mapM_cons, collectSig_writtenBy hE hinputs hwritten, ok_bind, ih, ok_bind]
    rfl

/-! ## The scripts -/

/-- How an output of a multisig script is spent: as it is, or, with `--redeem`, by its
    hash if one byte can count it. -/
inductive SpendsMultisig (P : Primitives) (script : Bytes) : Option String → Bytes → Prop where
  | bare : SpendsMultisig P script none script
  | p2sh {hex : String} : hexDecode hex = some script → script.length ≤ 0xff →
      SpendsMultisig P script (some hex) (p2shScriptFromRedeem P script)

/-- Every input spends an output with such a script, at every height. -/
def AllExecute (P : Primitives) (spk : Bytes) (tx : Transaction) : Prop :=
  ∀ input ∈ tx.inputs, ∀ height,
    execute P input.signatureScript spk ⟨tx.signatureHash P, height⟩ = .ok true

theorem Transaction.signatureHash_withScripts (tx : Transaction) (script : Bytes) :
    (tx.withScripts P script).signatureHash P = tx.signatureHash P := by
  show transactionId P ((tx.inputs.map _).map TxInput.unsigned) tx.outputs tx.payload = _
  rw [List.map_map]
  rfl

section Combined

variable {m : UInt8} {pubkeys : List Bytes} {script spk : Bytes} {redeemHex : Option String}
  {read : String → Except String MultisigSigFile} {tx : Transaction} {args paths : List String}
  {signers : List E.SecretKey}

/-- What is combined: every input gets the same script, which leaves what the opcode
    answers, whatever the transaction and the height. -/
theorem multisigCombine_withScripts (hE : E.Lawful) (hscript : multisigScript m pubkeys = .ok script)
    (hm : 2 ≤ m.toNat) (hspends : SpendsMultisig P script redeemHex spk)
    (hinputs : tx.inputs ≠ []) (hcount : signers.length = m.toNat)
    (hargs : combineArgs args = .ok (redeemHex, paths))
    (hfiles : List.Forall₂ (WrittenBy E read tx) paths signers) :
    ∃ scriptSig, multisigCombine P read tx args = .ok (.ok (tx.withScripts P scriptSig)) ∧
      ∀ ctx, execute P scriptSig spk ctx = .ok (matchSigs P ctx.sigHash
        (signers.map (derSigOf E (tx.signatureHash P))) pubkeys) := by
  generalize hsigs : signers.map (derSigOf E (tx.signatureHash P)) = sigs
  have hpaths : ¬ paths.length < 2 := by
    rw [hfiles.length_eq]
    omega
  have hsigsCount : sigs.length = m.toNat := by
    rw [← hsigs, List.length_map, hcount]
  have hsigsLen : ∀ sig ∈ sigs, sig.length ≤ 0x4b := by
    intro sig hsig
    rw [← hsigs] at hsig
    obtain ⟨sk, _, rfl⟩ := List.mem_map.mp hsig
    have hder := hE.length_toDer sk (tx.signatureHash P)
    unfold derSigOf
    omega
  unfold multisigCombine
  rw [hargs]
  dsimp only
  rw [if_neg hpaths, mapM_collectSig hE hinputs hfiles, hsigs]
  cases hspends with
  | bare =>
    exact ⟨_, rfl, fun ctx => execute_bareMultisig hscript hsigsCount hsigsLen ctx⟩
  | p2sh hhex hshort =>
    obtain ⟨scriptSig, hbuild, hexec⟩ := execute_p2shMultisig hscript hshort hsigsCount hsigsLen
    refine ⟨scriptSig, ?_, hexec⟩
    dsimp only
    rw [hhex]
    dsimp only
    rw [hbuild]
    rfl

/-- What is combined executes exactly if the opcode matches the signatures. -/
theorem multisigCombine_spec (hE : E.Lawful) (hscript : multisigScript m pubkeys = .ok script)
    (hm : 2 ≤ m.toNat) (hspends : SpendsMultisig P script redeemHex spk)
    (hinputs : tx.inputs ≠ []) (hcount : signers.length = m.toNat)
    (hargs : combineArgs args = .ok (redeemHex, paths))
    (hfiles : List.Forall₂ (WrittenBy E read tx) paths signers) :
    ∃ combined, multisigCombine P read tx args = .ok (.ok combined) ∧
      (AllExecute P spk combined ↔
        Matches (Verifies P (tx.signatureHash P))
          (signers.map (derSigOf E (tx.signatureHash P))) pubkeys) := by
  -- The script does not depend on `tx`, so all its inputs execute alike.
  obtain ⟨scriptSig, hcombined, hexec⟩ :=
    multisigCombine_withScripts hE hscript hm hspends hinputs hcount hargs hfiles
  refine ⟨_, hcombined, ?_⟩
  rw [← matchSigs_iff]
  unfold AllExecute
  simp only [Transaction.signatureHash_withScripts]
  constructor
  · intro hall
    -- The first input already shows what the opcode answers.
    obtain ⟨input, rest, hcons⟩ := List.exists_cons_of_ne_nil hinputs
    have hfirst := hall { input with signatureScript := scriptSig } (by
      show _ ∈ tx.inputs.map _
      rw [hcons]
      exact List.mem_cons_self) 0
    dsimp only at hfirst
    rw [hexec] at hfirst
    exact Except.ok.inj hfirst
  · intro hmatch input hinput height
    obtain ⟨unsigned, _, rfl⟩ := List.mem_map.mp hinput
    dsimp only
    rw [hexec, hmatch]

/-! ## The order of the files -/

/-- A signature verifies under its own key. -/
theorem verifies_derSigOf (hE : E.Lawful) (sk : E.SecretKey) (hash : Hash256) :
    Verifies P hash (derSigOf E hash sk) (E.publicKey sk) := by
  obtain ⟨vk, hvk, hverify⟩ := hE.verify_sign sk
  exact ⟨_, vk, hE.fromDer_sign sk hash, hvk, (hverify hash hash).mpr rfl⟩

/-- Signatures in the order of the keys are matched. -/
theorem matches_of_sublist (hE : E.Lawful) (hash : Hash256)
    (h : (signers.map E.publicKey).Sublist pubkeys) :
    Matches (Verifies P hash) (signers.map (derSigOf E hash)) pubkeys := by
  refine ⟨_, h, ?_⟩
  rw [List.forall₂_map_left_iff, List.forall₂_map_right_iff]
  exact List.forall₂_same.mpr fun sk _ => verifies_derSigOf hE sk hash

/-- No listed key verifies the signature of another one. -/
def KeysBind (E : Ecdsa P) (hash : Hash256) (signers : List E.SecretKey) (pubkeys : List Bytes) :
    Prop :=
  ∀ sk ∈ signers, ∀ pk ∈ pubkeys, Verifies P hash (derSigOf E hash sk) pk → pk = E.publicKey sk

/-- The keys that verify the signatures, one by one, are those of the signers. -/
theorem keys_eq_of_verifies {hash : Hash256} {keys : List Bytes}
    (hbind : KeysBind E hash signers keys)
    (h : List.Forall₂ (Verifies P hash) (signers.map (derSigOf E hash)) keys) :
    keys = signers.map E.publicKey := by
  induction signers generalizing keys with
  | nil =>
    cases h
    rfl
  | cons sk signers ih =>
    rw [List.map_cons] at h
    cases h with
    | @cons _ pk _ keys hverifies hrest =>
      have hrestBind : KeysBind E hash signers keys := fun sk' hsk' pk' hpk' =>
        hbind sk' (List.mem_cons_of_mem _ hsk') pk' (List.mem_cons_of_mem _ hpk')
      rw [List.map_cons, ih hrestBind hrest,
        hbind sk List.mem_cons_self pk List.mem_cons_self hverifies]

/-- Signatures that are matched come in the order of the keys. -/
theorem sublist_of_matches {hash : Hash256} (hbind : KeysBind E hash signers pubkeys)
    (h : Matches (Verifies P hash) (signers.map (derSigOf E hash)) pubkeys) :
    (signers.map E.publicKey).Sublist pubkeys := by
  obtain ⟨keys, hsub, hmatched⟩ := h
  have hkeysBind : KeysBind E hash signers keys := fun sk hsk pk hpk =>
    hbind sk hsk pk (hsub.subset hpk)
  rw [← keys_eq_of_verifies hkeysBind hmatched]
  exact hsub

/-- **Signature files are combined in the order of the keys, or in vain.** For every
    multisig script of at least two signatures, bare or behind a hash, and files of
    as many signers: the files are combined, and if they come in the order in which
    the script lists the keys, every input executes. In any other order they do not,
    unless a listed key verifies the signature of another one. -/
theorem multisigCombine_executes_iff (hE : E.Lawful)
    (hscript : multisigScript m pubkeys = .ok script) (hm : 2 ≤ m.toNat)
    (hspends : SpendsMultisig P script redeemHex spk) (hinputs : tx.inputs ≠ [])
    (hcount : signers.length = m.toNat) (hargs : combineArgs args = .ok (redeemHex, paths))
    (hfiles : List.Forall₂ (WrittenBy E read tx) paths signers) :
    ∃ combined, multisigCombine P read tx args = .ok (.ok combined) ∧
      ((signers.map E.publicKey).Sublist pubkeys → AllExecute P spk combined) ∧
      (KeysBind E (tx.signatureHash P) signers pubkeys →
        (AllExecute P spk combined ↔ (signers.map E.publicKey).Sublist pubkeys)) := by
  obtain ⟨combined, hcombined, hiff⟩ :=
    multisigCombine_spec hE hscript hm hspends hinputs hcount hargs hfiles
  refine ⟨combined, hcombined, ?_, ?_⟩
  · intro hsub
    exact hiff.mpr (matches_of_sublist hE _ hsub)
  · intro hbind
    constructor
    · intro hall
      exact sublist_of_matches hbind (hiff.mp hall)
    · intro hsub
      exact hiff.mpr (matches_of_sublist hE _ hsub)

end Combined

/-! ## Two of two -/

section TwoOfTwo

open WalletKeypair

/-- The keys of two signers. -/
def twoKeys : List Bytes :=
  [Ecdsa.sample.publicKey (sampleOwner 0), Ecdsa.sample.publicKey (sampleOwner 1)]

/-- What both must sign for. -/
def twoOfTwo : Bytes := [0x52, 0x21] ++ List.replicate 33 7 ++ [0x21] ++ List.replicate 33 9
  ++ [0x52, 0xae]

theorem multisigScript_twoOfTwo : multisigScript 2 twoKeys = .ok twoOfTwo := rfl

/-- The signer whose file is at a path. -/
def signerAt (path : String) : Ecdsa.sample.SecretKey :=
  sampleOwner (if path = "tx.sig7" then 0 else 1)

/-- The files that both have written for a transaction with two inputs. -/
def readSample (path : String) : Except String MultisigSigFile :=
  (multisigSign Ecdsa.sample (fromSigningKey Ecdsa.sample (signerAt path)) twoInputs).mapError
    fun _ => "signing failed"

theorem writtenBy_signerAt (path : String) :
    WrittenBy Ecdsa.sample readSample twoInputs path (signerAt path) := by
  have hfile := multisigSign_fromSigningKey ecdsaSample_lawful (signerAt path) twoInputs
  refine ⟨_, hfile, ?_⟩
  unfold readSample
  rw [hfile]
  rfl

/-- In the order of the keys both inputs execute. -/
theorem multisigCombine_executes_iff_inOrder :
    ∃ combined, multisigCombine Primitives.sample readSample twoInputs ["tx.sig7", "tx.sig9"]
        = .ok (.ok combined) ∧ AllExecute Primitives.sample twoOfTwo combined := by
  obtain ⟨combined, hcombined, hinOrder, _⟩ := multisigCombine_executes_iff ecdsaSample_lawful
    multisigScript_twoOfTwo (by decide) .bare (by decide) rfl
    (show combineArgs ["tx.sig7", "tx.sig9"] = .ok (none, ["tx.sig7", "tx.sig9"]) from rfl)
    (.cons (writtenBy_signerAt "tx.sig7") (.cons (writtenBy_signerAt "tx.sig9") .nil))
  exact ⟨combined, hcombined, hinOrder (List.Sublist.refl _)⟩

/-- In the other order the same files are combined, and the inputs fail. -/
theorem multisigCombine_otherOrder :
    ∃ combined, multisigCombine Primitives.sample readSample twoInputs ["tx.sig9", "tx.sig7"]
        = .ok (.ok combined) ∧ ¬ AllExecute Primitives.sample twoOfTwo combined := by
  obtain ⟨combined, hcombined, hiff⟩ := multisigCombine_spec ecdsaSample_lawful
    multisigScript_twoOfTwo (by decide) .bare (by decide) rfl
    (show combineArgs ["tx.sig9", "tx.sig7"] = .ok (none, ["tx.sig9", "tx.sig7"]) from rfl)
    (.cons (writtenBy_signerAt "tx.sig9") (.cons (writtenBy_signerAt "tx.sig7") .nil))
  refine ⟨combined, hcombined, ?_⟩
  rw [hiff, ← matchSigs_iff]
  decide

end TwoOfTwo

end Tensorium
