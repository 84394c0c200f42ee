import Tensorium.Node.Retention
import Tensorium.Wallet.Funding
import Tensorium.Wallet.SignInput

/-! # Payments that the node admits

    From the listing of the node through the wallet program back to the node: a payment
    is built exactly if the mature outputs cover it, it is valid then and there with the
    fee that was asked for, and the mempool is all that can still refuse it.
-/

namespace Tensorium

open Saturating

variable {P : Primitives} {E : Ecdsa P} {params : ConsensusParams} {U : Set Block}

/-- A wallet of a key: its address stands for the hash of the key. -/
structure WalletFile.Holds (E : Ecdsa P) (wallet : WalletFile) (sk : E.SecretKey) : Prop where
  keypair_eq : wallet.keypair = .fromSigningKey E sk
  address_eq : Script.p2pkhFromAddress P wallet.address
    = .ok (Script.p2pkhFromPubkey P (E.publicKey sk))
  hrp : "txm1".toList.isPrefixOf wallet.address.toList = true

/-- The node looks for the script of the key. -/
theorem WalletFile.Holds.utxoParam_eq {wallet : WalletFile} {sk : E.SecretKey}
    (h : wallet.Holds E sk) :
    Node.utxoParam P wallet.address = some (Script.p2pkhFromPubkey P (E.publicKey sk)) := by
  unfold Node.utxoParam
  rw [if_pos h.hrp, h.address_eq]
  rfl

/-! ## Selection -/

/-- What the loop has selected: the first mature outputs, their saturated sum, enough
    of them or all. -/
structure SelectedFirst (needed atoms : UInt64) (mature selected : List RpcUtxo)
    (got : UInt64) : Prop where
  first : selected <+: mature
  sum : got.toNat = min (atoms.toNat + rpcAtoms selected) (2 ^ 64 - 1)
  enough : needed ≤ got ∨ selected = mature

theorem selectMature_selected (needed atoms : UInt64) (utxos : List RpcUtxo) :
    SelectedFirst needed atoms (utxos.filter RpcUtxo.mature) (selectMature needed atoms utxos).1
      (selectMature needed atoms utxos).2 := by
  induction utxos generalizing atoms with
  | nil =>
    refine ⟨List.prefix_refl [], ?_, Or.inr rfl⟩
    have hlt := atoms.toNat_lt
    show atoms.toNat = min (atoms.toNat + 0) (2 ^ 64 - 1)
    omega
  | cons utxo utxos ih =>
    unfold selectMature
    by_cases hmature : utxo.mature = true
    · rw [List.filter_cons_of_pos hmature]
      simp only [hmature, Bool.not_true, Bool.false_eq_true, if_false]
      have hstep := toNat_satAdd64 atoms utxo.valueAtoms
      by_cases henough : satAdd64 atoms utxo.valueAtoms ≥ needed
      · rw [if_pos henough]
        refine ⟨⟨_, rfl⟩, ?_, Or.inl henough⟩
        rw [hstep]
        rfl
      · rw [if_neg henough]
        obtain ⟨hfirst, hsum, hrest⟩ := ih (satAdd64 atoms utxo.valueAtoms)
        refine ⟨(List.prefix_cons_inj utxo).mpr hfirst, ?_, ?_⟩
        · rw [hsum, hstep]
          show _ = min (_ + (utxo.valueAtoms.toNat + rpcAtoms _)) _
          omega
        · rcases hrest with hle | hall
          · exact Or.inl hle
          · exact Or.inr (congrArg (utxo :: ·) hall)
    · rw [List.filter_cons_of_neg hmature]
      simp only [hmature, Bool.not_false, if_true]
      exact ih atoms

theorem rpcAtoms_prefix {selected utxos : List RpcUtxo} (h : selected <+: utxos) :
    rpcAtoms selected ≤ rpcAtoms utxos := by
  unfold rpcAtoms
  exact (h.sublist.map _).sum_le_sum fun _ _ => Nat.zero_le _

/-- Without a sum that saturates, enough is selected exactly if there is enough. -/
theorem selectMature_enough (needed : UInt64) {utxos : List RpcUtxo}
    (hbound : rpcAtoms (utxos.filter RpcUtxo.mature) < 2 ^ 64 - 1) :
    (selectMature needed 0 utxos).2.toNat = rpcAtoms (selectMature needed 0 utxos).1 ∧
      (needed ≤ (selectMature needed 0 utxos).2 ↔
        needed.toNat ≤ rpcAtoms (utxos.filter RpcUtxo.mature)) := by
  obtain ⟨hfirst, hsum, henough⟩ := selectMature_selected needed 0 utxos
  have hle := rpcAtoms_prefix hfirst
  rw [UInt64.toNat_zero, Nat.zero_add] at hsum
  have hexact : (selectMature needed 0 utxos).2.toNat
      = rpcAtoms (selectMature needed 0 utxos).1 := by omega
  refine ⟨hexact, ?_⟩
  rw [UInt64.le_iff_toNat_le]
  constructor
  · intro h
    omega
  · intro h
    rcases henough with hall | hall
    · exact UInt64.le_iff_toNat_le.mp hall
    · rw [hexact, hall]
      exact h

/-- What the outputs leave over is exact if enough is in, and the sum was not clamped. -/
theorem change_exact {got amountAtoms feeAtoms : UInt64} (hgot : got.toNat < 2 ^ 64 - 1)
    (henough : ¬ got < satAdd64 amountAtoms feeAtoms) :
    amountAtoms.toNat + feeAtoms.toNat ≤ got.toNat ∧
      (got - amountAtoms - feeAtoms).toNat
        = got.toNat - amountAtoms.toNat - feeAtoms.toNat := by
  have hle := UInt64.le_iff_toNat_le.mp (UInt64.not_lt.mp henough)
  rw [toNat_satAdd64] at hle
  refine ⟨by omega, ?_⟩
  rw [UInt64.toNat_sub_of_le, UInt64.toNat_sub_of_le]
  · rw [UInt64.le_iff_toNat_le]
    omega
  · rw [UInt64.le_iff_toNat_le, UInt64.toNat_sub_of_le]
    · omega
    · rw [UInt64.le_iff_toNat_le]
      omega

/-! ## Signing -/

/-- The script that a key writes into every input. -/
def keyScriptSig (E : Ecdsa P) (sk : E.SecretKey) (hash : Hash256) : Bytes :=
  Script.p2pkhScriptSig (E.toDer (E.sign sk hash.bytes)) (E.publicKey sk)

/-- A transaction that a key has signed: the same but for the scripts and the
    identifier, and every script executes. -/
structure SignedBy (E : Ecdsa P) (sk : E.SecretKey) (unsigned tx : Transaction) : Prop where
  outpoints_eq : tx.outpoints = unsigned.outpoints
  outputs_eq : tx.outputs = unsigned.outputs
  payload_eq : tx.payload = unsigned.payload
  hash_eq : tx.signatureHash P = unsigned.signatureHash P
  script_eq : ∀ input ∈ tx.inputs,
    input.signatureScript = keyScriptSig E sk (unsigned.signatureHash P)

theorem signTransaction_fromSigningKey (hE : E.Lawful) (sk : E.SecretKey)
    (unsigned : Transaction) :
    ∃ tx, (WalletKeypair.fromSigningKey E sk).signTransaction E unsigned = .ok tx ∧
      SignedBy E sk unsigned tx := by
  unfold WalletKeypair.signTransaction
  rw [WalletKeypair.scriptSig_fromSigningKey hE]
  refine ⟨_, rfl, ?_, rfl, rfl, ?_, ?_⟩
  · show (unsigned.inputs.map _).map TxInput.previousOutput = _
    rw [List.map_map]
    rfl
  · show transactionId P ((unsigned.inputs.map _).map TxInput.unsigned) _ _ = _
    rw [List.map_map]
    rfl
  · intro input hinput
    obtain ⟨i, _, rfl⟩ := List.mem_map.mp hinput
    rfl

/-- The scripts of a signed transaction open the outputs of its key. -/
theorem SignedBy.execute (hE : E.Lawful) {sk : E.SecretKey} {unsigned tx : Transaction}
    (h : SignedBy E sk unsigned tx) (height : Nat) :
    ∀ input ∈ tx.inputs, Script.execute P input.signatureScript
      (Script.p2pkhFromPubkey P (E.publicKey sk)) ⟨tx.signatureHash P, height⟩ = .ok true := by
  intro input hinput
  rw [h.script_eq input hinput, h.hash_eq]
  exact (WalletKeypair.execute_scriptSig hE sk _ _).mpr rfl

/-! ## Payments -/

/-- The outputs hold the amount and the change. -/
theorem outputAtoms_paymentOutputs {toAddress ownAddress : String} {amountAtoms change : UInt64}
    {outputs : List TxOutput}
    (h : paymentOutputs P toAddress ownAddress amountAtoms change = .ok outputs) :
    outputAtoms outputs = amountAtoms.toNat + change.toNat := by
  unfold paymentOutputs at h
  cases hscript : Script.p2pkhFromAddress P toAddress with
  | error e =>
    rw [hscript] at h
    cases h
  | ok script =>
    rw [hscript] at h
    dsimp only at h
    split_ifs at h with hchange
    · cases hown : Script.p2pkhFromAddress P ownAddress with
      | error e =>
        rw [hown] at h
        cases h
      | ok own =>
        rw [hown] at h
        obtain rfl := Except.ok.inj h
        simp [outputAtoms]
    · obtain rfl := Except.ok.inj h
      have hzero : change = 0 := UInt64.le_antisymm (UInt64.not_lt.mp hchange) (UInt64.zero_le)
      simp [outputAtoms, hzero]

/-- With an own address that decodes, only the recipient's can fail. -/
theorem paymentOutputs_isOk (toAddress : String) {ownAddress : String} {own : Bytes}
    (hown : Script.p2pkhFromAddress P ownAddress = .ok own) (amountAtoms change : UInt64) :
    (∃ outputs, paymentOutputs P toAddress ownAddress amountAtoms change = .ok outputs) ↔
      ∃ script, Script.p2pkhFromAddress P toAddress = .ok script := by
  unfold paymentOutputs
  cases Script.p2pkhFromAddress P toAddress with
  | error e => simp
  | ok script =>
    dsimp only
    split_ifs
    · rw [hown]
      simp
    · simp

/-- What a wallet has made of a listing: a transaction of its own that spends the first
    mature outputs and leaves the fee. -/
structure BuiltFrom (E : Ecdsa P) (sk : E.SecretKey) (utxos : List RpcUtxo) (fee : UInt64)
    (tx : Transaction) : Prop where
  spends : ∃ selected, selected <+: utxos.filter RpcUtxo.mature ∧
    tx.outpoints = selected.map RpcUtxo.outpoint ∧
    outputAtoms tx.outputs + fee.toNat = rpcAtoms selected
  executes : ∀ height, ∀ input ∈ tx.inputs, Script.execute P input.signatureScript
    (Script.p2pkhFromPubkey P (E.publicKey sk)) ⟨tx.signatureHash P, height⟩ = .ok true

theorem BuiltFrom.of_signed (hE : E.Lawful) {sk : E.SecretKey} {utxos selected : List RpcUtxo}
    {fee : UInt64} {outputs : List TxOutput} {tx : Transaction}
    (hfirst : selected <+: utxos.filter RpcUtxo.mature)
    (hsigned : SignedBy E sk
      (.payment P (selected.map fun utxo => (⟨utxo.outpoint, []⟩ : TxInput)) outputs) tx)
    (hsum : outputAtoms outputs + fee.toNat = rpcAtoms selected) : BuiltFrom E sk utxos fee tx where
  spends := by
    refine ⟨selected, hfirst, ?_, ?_⟩
    · rw [hsigned.outpoints_eq]
      show (selected.map _).map TxInput.previousOutput = _
      rw [List.map_map]
      rfl
    · rw [hsigned.outputs_eq]
      exact hsum
  executes height := hsigned.execute hE height

/-- It is valid on the node that has listed the outputs. -/
theorem BuiltFrom.validNow (hU : HashFaithful P U) {node node' : Node} {sk : E.SecretKey}
    {wallet : WalletFile} (hwallet : wallet.Holds E sk) {utxos : List RpcUtxo} {script : Bytes}
    {u : UtxoSet} (hlisted : Node.Listed P params U node wallet.address utxos node' script u)
    (hbound : emissionSchedule params (node.loadState.height.getD 0) < 2 ^ 64 - 1) {fee : UInt64}
    {tx : Transaction} (h : BuiltFrom E sk utxos fee tx) : node'.ValidNow P params tx fee := by
  obtain ⟨selected, hfirst, houtpoints, hsum⟩ := h.spends
  have hscript : script = Script.p2pkhFromPubkey P (E.publicKey sk) :=
    Option.some.inj (hlisted.param_eq.symm.trans hwallet.utxoParam_eq)
  rw [← hlisted.height_eq] at hbound
  have hsupply := hlisted.sound.exactSupply_lt hU hbound hlisted.replays
  refine ⟨u, hlisted.replays, ?_⟩
  refine hlisted.lists.validate hsupply hfirst.sublist houtpoints hsum ?_
  rw [hscript]
  exact h.executes _

/-- What a payment is built from, and when it is. -/
theorem buildSignedPaymentViaRpc_spec (hE : E.Lawful) {sk : E.SecretKey} {wallet : WalletFile}
    (hwallet : wallet.Holds E sk) {utxos : List RpcUtxo}
    (hbound : rpcAtoms (utxos.filter RpcUtxo.mature) < 2 ^ 64 - 1) (toAddress : String)
    (amountAtoms feeAtoms : UInt64) :
    ((∃ tx, buildSignedPaymentViaRpc E wallet utxos toAddress amountAtoms feeAtoms = .ok tx) ↔
      (∃ script, Script.p2pkhFromAddress P toAddress = .ok script) ∧
        amountAtoms.toNat + feeAtoms.toNat ≤ rpcAtoms (utxos.filter RpcUtxo.mature)) ∧
    ∀ tx, buildSignedPaymentViaRpc E wallet utxos toAddress amountAtoms feeAtoms = .ok tx →
      BuiltFrom E sk utxos feeAtoms tx := by
  let needed := satAdd64 amountAtoms feeAtoms
  obtain ⟨hfirst, _, _⟩ := selectMature_selected needed 0 utxos
  obtain ⟨hexact, henough⟩ := selectMature_enough needed hbound
  have hle := rpcAtoms_prefix hfirst
  have hneeded : needed.toNat = min (amountAtoms.toNat + feeAtoms.toNat) (2 ^ 64 - 1) :=
    toNat_satAdd64 amountAtoms feeAtoms
  unfold buildSignedPaymentViaRpc
  dsimp only
  change needed.toNat = _ at hneeded
  generalize hselect : selectMature needed 0 utxos = select at hfirst hexact henough hle
  obtain ⟨selected, got⟩ := select
  dsimp only at hfirst hexact henough hle ⊢
  by_cases hshort : got < needed
  · have hnot : ¬ needed.toNat ≤ rpcAtoms (utxos.filter RpcUtxo.mature) := by
      rw [← henough]
      exact UInt64.not_le.mpr hshort
    rw [if_pos hshort]
    refine ⟨⟨?_, ?_⟩, ?_⟩
    · rintro ⟨tx, htx⟩
      cases htx
    · rintro ⟨_, hcovered⟩
      exact absurd (show needed.toNat ≤ _ by omega) hnot
    · intro tx htx
      cases htx
  · obtain ⟨hcovered, hchange⟩ := change_exact (by omega) hshort
    rw [if_neg hshort]
    generalize got - amountAtoms - feeAtoms = change at hchange
    have hoks := paymentOutputs_isOk toAddress hwallet.address_eq amountAtoms change
    cases houtputs : paymentOutputs P toAddress wallet.address amountAtoms change with
    | error e =>
      rw [houtputs] at hoks
      dsimp only
      refine ⟨⟨?_, ?_⟩, ?_⟩
      · rintro ⟨tx, htx⟩
        cases htx
      · rintro ⟨hscript, _⟩
        obtain ⟨outputs, h⟩ := hoks.mpr hscript
        cases h
      · intro tx htx
        cases htx
    | ok outputs =>
      have hatoms := outputAtoms_paymentOutputs houtputs
      obtain ⟨tx, htx, hsigned⟩ := signTransaction_fromSigningKey hE sk
        (.payment P (selected.map fun utxo => (⟨utxo.outpoint, []⟩ : TxInput)) outputs)
      dsimp only
      rw [hwallet.keypair_eq, htx]
      dsimp only
      refine ⟨⟨?_, ?_⟩, ?_⟩
      · intro _
        exact ⟨hoks.mp ⟨outputs, houtputs⟩, by omega⟩
      · intro _
        exact ⟨tx, rfl⟩
      · intro tx' htx'
        obtain rfl := Except.ok.inj htx'
        exact .of_signed hE hfirst hsigned (by omega)

/-- **A payment that the node's listing covers is one that the node admits.** On every
    sound node, below the largest `u64` of the emission schedule: `txmwallet send` builds
    a payment from what the node has listed exactly if the recipient's address decodes
    and the mature outputs cover the amount and the fee; the payment is valid on that
    node with the very fee that was asked for; and it is broadcast with success exactly
    if the fee reaches the relay fee, the mempool has no such transaction and none that
    spends the same outputs, and there is room. -/
theorem payments_admitted (P : Primitives) (params : ConsensusParams) (U : Set Block)
    (hU : HashFaithful P U) (E : Ecdsa P) (hE : E.Lawful) (node : Node)
    (hs : Node.Sound P params U node)
    (hbound : emissionSchedule params (node.loadState.height.getD 0) < 2 ^ 64 - 1)
    (wallet : WalletFile) (sk : E.SecretKey) (hwallet : wallet.Holds E sk)
    (utxos : List RpcUtxo) (node' : Node)
    (hlist : node.getUtxos P params wallet.address = (some utxos, node')) (toAddress : String)
    (amountAtoms feeAtoms : UInt64) :
    ((∃ tx, buildSignedPaymentViaRpc E wallet utxos toAddress amountAtoms feeAtoms = .ok tx) ↔
      (∃ script, Script.p2pkhFromAddress P toAddress = .ok script) ∧
        amountAtoms.toNat + feeAtoms.toNat ≤ rpcAtoms (utxos.filter RpcUtxo.mature)) ∧
    ∀ tx, buildSignedPaymentViaRpc E wallet utxos toAddress amountAtoms feeAtoms = .ok tx →
      node'.ValidNow P params tx feeAtoms ∧
      ∀ order, (∃ reply, (node'.sendRawTransaction P params order tx).1 = .ok reply) ↔
        node'.mempool.Takes tx feeAtoms := by
  obtain ⟨script, u, hlisted⟩ := Node.getUtxos_listed hU hs hlist
  have hbound' := hbound
  rw [← hlisted.height_eq] at hbound'
  have hsupply := hlisted.sound.exactSupply_lt hU hbound' hlisted.replays
  obtain ⟨_, hmature⟩ := hlisted.lists.atoms (List.filter_sublist (p := RpcUtxo.mature))
  obtain ⟨hbuilt, hall⟩ := buildSignedPaymentViaRpc_spec hE hwallet
    (lt_of_le_of_lt hmature hsupply) toAddress amountAtoms feeAtoms
  refine ⟨hbuilt, fun tx htx => ?_⟩
  have hvalid := (hall tx htx).validNow hU hwallet hlisted hbound
  refine ⟨hvalid, fun order => ?_⟩
  rw [Node.sendRawTransaction_isOk]
  exact Node.acceptPeerTx_iff hU hlisted.sound hvalid order

/-! ## The miner of the genesis block pays -/

/-- The key of the genesis block. -/
def genesisSigner : Ecdsa.sample.SecretKey := ⟨Node.genesisKey, by decide⟩

/-- Its wallet, with an address of the form the node asks for. -/
def genesisWallet : WalletFile where
  address := String.ofList ("txm1".toList ++ List.replicate 13 '\x00' ++ "genesis".toList)
  keypair := .fromSigningKey Ecdsa.sample genesisSigner

theorem genesisWallet_holds : genesisWallet.Holds Ecdsa.sample genesisSigner where
  keypair_eq := rfl
  address_eq := by decide
  hrp := by decide

/-- What the node that has mined ten blocks lists for it. -/
def genesisListing : List RpcUtxo :=
  [⟨⟨(Transaction.coinbase Primitives.sample 0 (rewardAtHeight testParams 0) "genesis").id, 0⟩,
    1523557865, true⟩]

/-- It pays most of the reward. -/
theorem payments_admitted_genesis :
    ∃ tx node', Node.minedNode.getUtxos Primitives.sample testParams genesisWallet.address
        = (some genesisListing, node') ∧
      buildSignedPaymentViaRpc Ecdsa.sample genesisWallet genesisListing "b" 1523000000 10000
        = .ok tx ∧
      node'.ValidNow Primitives.sample testParams tx 10000 := by
  have heval : (Node.minedNode.getUtxos Primitives.sample testParams genesisWallet.address).1
        = some genesisListing ∧
      emissionSchedule testParams (Node.minedNode.loadState.height.getD 0) < 2 ^ 64 - 1 := by
    decide +kernel
  obtain ⟨hlisting, hbound⟩ := heval
  cases hlist : Node.minedNode.getUtxos Primitives.sample testParams genesisWallet.address with
  | mk listing node' =>
    rw [hlist] at hlisting
    obtain rfl : listing = some genesisListing := hlisting
    obtain ⟨hbuilt, hall⟩ := payments_admitted Primitives.sample testParams _
      Node.minedFork_faithful Ecdsa.sample WalletKeypair.ecdsaSample_lawful Node.minedNode
      Node.minedNode_sound hbound genesisWallet genesisSigner genesisWallet_holds genesisListing
      node' hlist "b" 1523000000 10000
    obtain ⟨tx, htx⟩ := hbuilt.mpr ⟨⟨_, rfl⟩, by decide⟩
    exact ⟨tx, node', rfl, htx, (hall tx htx).1⟩

end Tensorium
