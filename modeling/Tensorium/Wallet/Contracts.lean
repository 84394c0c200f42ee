import Tensorium.Script.Locks
import Tensorium.Wallet.Admitted
import Tensorium.Wallet.MultisigCombine
import Tensorium.Wallet.Vesting

/-! # Contracts of the wallet program

    `txmwallet htlc-script`, `htlc-claim`, `htlc-refund` and `vesting-claim`: a contract
    is funded by its script, and spent by a transaction that takes the whole of one
    output the node lists for the script. Who gets such a spend past the node, and from
    which height on.
-/

namespace Tensorium

open ByteCodec Panicking Script

/-! ## The commands -/

/-- `address_to_hash20`. -/
def addressToHash20 (P : Primitives) (addr : String) : Except String (ByteVec 20) :=
  match p2pkhFromAddress P addr with
  | .error _ => .error ("invalid address: " ++ addr)
  | .ok script => .ok (rcptHash script)

/-- `build_unsigned_htlc_spend`, on what `GET /getutxos` has listed for the script. -/
def buildUnsignedHtlcSpend (P : Primitives) (utxos : List RpcUtxo) (destAddr : String) :
    Except String Transaction :=
  match utxos.find? RpcUtxo.mature with
  | none => .error "no mature UTXO found for this HTLC script"
  | some u =>
    if u.valueAtoms ≤ minRelayFeeAtoms then
      .error ("HTLC value " ++ toString u.valueAtoms.toNat ++
        " atoms is too small to cover minimum relay fee (" ++ toString minRelayFeeAtoms.toNat ++
        " atoms)")
    else match p2pkhFromAddress P destAddr with
      | .error _ => .error ("invalid destination address: " ++ destAddr)
      | .ok destScript =>
        .ok (.payment P [⟨u.outpoint, []⟩] [⟨u.valueAtoms - minRelayFeeAtoms, destScript⟩])

/-- The derived `Debug` of `WalletError`. -/
def WalletError.debug : WalletError → String
  | .invalidPrivateKey => "InvalidPrivateKey"
  | .inputIndexOutOfRange => "InputIndexOutOfRange"

variable {P : Primitives}

/-- What the three commands that spend a contract have in common: build, sign the
    signature hash, and put the scriptSig made of the signature and the key of the
    wallet file into every input. -/
def contractSpend (E : Ecdsa P) (scriptSig : Bytes → Bytes → MayPanic Bytes)
    (keypair : WalletKeypair) (publicKeyHex : String) (utxos : List RpcUtxo) (destAddr : String) :
    MayPanic (Except String Transaction) :=
  match buildUnsignedHtlcSpend P utxos destAddr with
  | .error e => .ok (.error e)
  | .ok tx =>
    match keypair.signHash E (tx.signatureHash P) with
    | .error e => .ok (.error ("sign: " ++ e.debug))
    | .ok derSig =>
      match hexDecode publicKeyHex with
      | none => .ok (.error "invalid wallet pubkey hex")
      | some pubkey => (scriptSig derSig pubkey).map fun script => .ok (tx.withScripts P script)

/-- `vesting-claim`, up to the request that posts the transaction. -/
def vestingClaim (E : Ecdsa P) (keypair : WalletKeypair) (publicKeyHex : String)
    (utxos : List RpcUtxo) (destAddr : String) : MayPanic (Except String Transaction) :=
  contractSpend E (fun derSig pubkey => .ok (p2pkhScriptSig derSig pubkey)) keypair
    publicKeyHex utxos destAddr

/-! ## What a spend looks like -/

variable {E : Ecdsa P} {params : ConsensusParams} {U : Set Block}

/-- A listing that a contract can be spent from, and where to. -/
def Spends (P : Primitives) (utxos : List RpcUtxo) (destAddr : String) : Prop :=
  (∃ u, utxos.find? RpcUtxo.mature = some u ∧ minRelayFeeAtoms < u.valueAtoms) ∧
    ∃ script, p2pkhFromAddress P destAddr = .ok script

/-- A spend of the first mature output: all of it but the relay fee goes to one output,
    and the given script stands in the only input. -/
structure SpendOf (P : Primitives) (utxos : List RpcUtxo) (script : Bytes) (tx : Transaction) :
    Prop where
  spends : ∃ selected, selected.Sublist (utxos.filter RpcUtxo.mature) ∧
    tx.outpoints = selected.map RpcUtxo.outpoint ∧
    outputAtoms tx.outputs + minRelayFeeAtoms.toNat = rpcAtoms selected
  input : ∃ input, tx.inputs = [input] ∧ input.signatureScript = script

theorem buildUnsignedHtlcSpend_isOk {utxos : List RpcUtxo} {destAddr : String} :
    (∃ tx, buildUnsignedHtlcSpend P utxos destAddr = .ok tx) ↔ Spends P utxos destAddr := by
  unfold buildUnsignedHtlcSpend Spends
  cases utxos.find? RpcUtxo.mature with
  | none => simp
  | some u =>
    dsimp only
    by_cases hsmall : u.valueAtoms ≤ minRelayFeeAtoms
    · simp [hsmall]
    · rw [if_neg hsmall]
      cases p2pkhFromAddress P destAddr with
      | error e => simp
      | ok script => simpa using UInt64.not_le.mp hsmall

theorem buildUnsignedHtlcSpend_withScripts {utxos : List RpcUtxo} {destAddr : String}
    {tx : Transaction} (h : buildUnsignedHtlcSpend P utxos destAddr = .ok tx) (script : Bytes) :
    SpendOf P utxos script (tx.withScripts P script) := by
  unfold buildUnsignedHtlcSpend at h
  split at h
  · cases h
  next u hu =>
    split_ifs at h with hsmall
    split at h
    · cases h
    next destScript hdest =>
      obtain rfl := Except.ok.inj h
      have hle : minRelayFeeAtoms ≤ u.valueAtoms := UInt64.le_of_lt (UInt64.not_le.mp hsmall)
      have hmem : u ∈ utxos.filter RpcUtxo.mature :=
        List.mem_filter.mpr ⟨List.mem_of_find?_eq_some hu, List.find?_some hu⟩
      refine ⟨⟨[u], List.singleton_sublist.mpr hmem, rfl, ?_⟩, _, rfl, rfl⟩
      show (u.valueAtoms - minRelayFeeAtoms).toNat + 0 + minRelayFeeAtoms.toNat
        = u.valueAtoms.toNat + 0
      have hle' := UInt64.le_iff_toNat_le.mp hle
      rw [UInt64.toNat_sub_of_le _ _ hle]
      omega

/-- With the key of the wallet in the file, a spend is built if it can be, and carries
    the signature of that key. -/
theorem contractSpend_spec (hE : E.Lawful) (sk : E.SecretKey) (utxos : List RpcUtxo)
    (destAddr : String) (scriptSig : Bytes → Bytes → MayPanic Bytes) (script : Bytes → Bytes)
    (hscript : ∀ derSig, scriptSig derSig (E.publicKey sk) = .ok (script derSig)) :
    ((∃ tx, contractSpend E scriptSig (.fromSigningKey E sk) (hexEncode (E.publicKey sk)) utxos
        destAddr = .ok (.ok tx)) ↔ Spends P utxos destAddr) ∧
    ∀ tx, contractSpend E scriptSig (.fromSigningKey E sk) (hexEncode (E.publicKey sk)) utxos
        destAddr = .ok (.ok tx) →
      SpendOf P utxos (script (derSigOf E (tx.signatureHash P) sk)) tx := by
  unfold contractSpend
  rw [← buildUnsignedHtlcSpend_isOk]
  cases hbuild : buildUnsignedHtlcSpend P utxos destAddr with
  | error e => simp
  | ok tx =>
    have hsign : (WalletKeypair.fromSigningKey E sk).signHash E (tx.signatureHash P)
        = .ok (derSigOf E (tx.signatureHash P) sk) := by
      unfold WalletKeypair.signHash WalletKeypair.fromSigningKey
      rw [hexDecode_hexEncode, Option.bind_some, hE.fromSlice_toBytes]
      rfl
    dsimp only
    rw [hsign]
    dsimp only
    rw [hexDecode_hexEncode]
    dsimp only
    rw [hscript, map_ok]
    refine ⟨⟨fun _ => ⟨tx, rfl⟩, fun _ => ⟨_, rfl⟩⟩, ?_⟩
    intro tx' htx'
    obtain rfl := Except.ok.inj (Except.ok.inj htx')
    rw [Transaction.signatureHash_withScripts]
    exact buildUnsignedHtlcSpend_withScripts hbuild _

/-! ## Past the node -/

/-- A spend is broadcast with success exactly if its script opens the contract at the
    height of the node, and the mempool takes it. -/
theorem SpendOf.sent_iff (hU : HashFaithful P U) {node node' : Node} {param : String}
    {utxos : List RpcUtxo} {spk : Bytes} {u : UtxoSet}
    (hlisted : Node.Listed P params U node param utxos node' spk u)
    (hbound : emissionSchedule params (node.loadState.height.getD 0) < 2 ^ 64 - 1)
    {script : Bytes} {tx : Transaction} (h : SpendOf P utxos script tx) (order : PendingOrder) :
    (∃ reply, (node'.sendRawTransaction P params order tx).1 = .ok reply) ↔
      execute P script spk ⟨tx.signatureHash P, node.loadState.height.getD 0⟩ = .ok true ∧
        node'.mempool.Takes tx minRelayFeeAtoms := by
  obtain ⟨selected, hsub, houtpoints, hsum⟩ := h.spends
  obtain ⟨input, hinputs, rfl⟩ := h.input
  rw [hlisted.sent_iff hU hbound hsub houtpoints hsum order, hinputs]
  simp

/-- No hexadecimal digit starts an address. -/
theorem utxoParam_hexEncode (spk : Bytes) : Node.utxoParam P (hexEncode spk) = some spk := by
  have hdigit : ∀ n < 16, ('t' == Nat.digitChar n) = false := by decide
  have hbare : "txm1".toList.isPrefixOf (hexEncode spk).toList = false := by
    unfold hexEncode
    simp only [String.toList_ofList]
    cases spk with
    | nil => rfl
    | cons b rest =>
      have hb := b.toNat_lt
      show (('t' == Nat.digitChar (b.toNat / 16)) && _) = false
      rw [hdigit _ (by omega)]
      rfl
  unfold Node.utxoParam
  rw [if_neg (by rw [hbare]; exact Bool.false_ne_true), hexDecode_hexEncode]

/-! ## Opening a contract -/

/-- The hash that a key is paid by. -/
def keyHash (E : Ecdsa P) (sk : E.SecretKey) : Bytes := (P.sha256 (E.publicKey sk)).bytes.take 20

/-- A key on top of a signature that it has made. -/
theorem signedFor_own (hE : E.Lawful) (sk : E.SecretKey) (sigHash : Hash256) (hash : Bytes)
    (rest : Stack) :
    SignedFor P sigHash hash (E.publicKey sk :: derSigOf E sigHash sk :: rest)
      ↔ keyHash E sk = hash := by
  constructor
  · rintro ⟨pubkey, sigBytes, below, heq, hhash, _⟩
    obtain ⟨rfl, _⟩ := List.cons.inj heq
    exact hhash
  · intro hhash
    exact ⟨_, _, rest, rfl, hhash, verifies_derSigOf hE sk sigHash⟩

section Opening

variable (hE : E.Lawful) (sk : E.SecretKey) (ctx : ScriptContext)

include hE in
theorem length_own :
    (1 ≤ (derSigOf E ctx.sigHash sk).length ∧ (derSigOf E ctx.sigHash sk).length ≤ 72) ∧
      (E.publicKey sk).length = 33 :=
  ⟨hE.length_toDer sk ctx.sigHash, hE.length_publicKey sk⟩

include hE in
theorem execute_timeLocked (locktime : UInt64) (hash : ByteVec 20) :
    execute P (p2pkhScriptSig (derSigOf E ctx.sigHash sk) (E.publicKey sk))
        (cltvP2pkhScript locktime hash) ctx = .ok true
      ↔ locktime.toNat ≤ ctx.blockHeight ∧ keyHash E sk = hash.1 := by
  obtain ⟨hsig, hkey⟩ := length_own hE sk ctx
  have hlt := length_encodeLocktime locktime
  rw [cltvP2pkhScript_eq_render, execute_render_iff (Code.elseOutside_timeLocked _ hlt hash)
    (isP2sh_timeLocked _ hlt hash)]
  · rw [run_p2pkhScriptSig (by omega) (by omega)]
    simp only [Except.ok.injEq, exists_eq_left', accepts_timeLocked, leNat_encodeLocktime,
      signedFor_own hE]
    simp
  · simp only [Code.render_timeLocked, p2pkhScriptSig, List.length_append, List.length_cons,
      List.length_nil, maxScriptSize, hash.2]
    omega

include hE in
theorem execute_p2pkh_own (hash : ByteVec 20) :
    execute P (p2pkhScriptSig (derSigOf E ctx.sigHash sk) (E.publicKey sk)) (p2pkhScript hash.1)
        ctx = .ok true
      ↔ keyHash E sk = hash.1 := by
  obtain ⟨hsig, hkey⟩ := length_own hE sk ctx
  rw [← Code.render_p2pkh, execute_render_iff (Code.elseOutside_p2pkh hash) (isP2sh_p2pkh hash)]
  · rw [run_p2pkhScriptSig (by omega) (by omega)]
    simp only [Except.ok.injEq, exists_eq_left', accepts_p2pkh, signedFor_own hE]
    simp
  · simp only [Code.render_p2pkh, p2pkhScript, p2pkhScriptSig, List.length_append,
      List.length_cons, List.length_nil, maxScriptSize, hash.2]
    omega

end Opening

/-! ## Hash time-locked contracts -/

/-- The hash in the address of a key. -/
theorem addressToHash20_own {addr : String} {sk : E.SecretKey}
    (h : p2pkhFromAddress P addr = .ok (p2pkhFromPubkey P (E.publicKey sk))) :
    ∃ hash : ByteVec 20, addressToHash20 P addr = .ok hash ∧ hash.1 = keyHash E sk := by
  have hscript := p2pkhFromAddress_rcptHash h
  unfold addressToHash20
  rw [h]
  refine ⟨_, rfl, ?_⟩
  unfold p2pkhFromPubkey p2pkhScript at hscript
  exact (List.append_cancel_left (List.append_cancel_right hscript)).symm

/-- A listed output, as the builder of vesting locks reads it. -/
def RpcUtxo.listed (utxo : RpcUtxo) : ListedUtxo :=
  ⟨utxo.outpoint.txid.bytes, utxo.outpoint.outputIndex, utxo.valueAtoms, utxo.mature⟩

theorem filter_mature_listed (utxos : List RpcUtxo) :
    (utxos.map RpcUtxo.listed).filter ListedUtxo.mature
      = (utxos.filter RpcUtxo.mature).map RpcUtxo.listed := by
  rw [List.filter_map]
  rfl

theorem listedAtoms_listed (utxos : List RpcUtxo) :
    listedAtoms (utxos.map RpcUtxo.listed) = rpcAtoms utxos := by
  unfold listedAtoms rpcAtoms
  rw [List.map_map]
  rfl

/-- Outpoints are told apart by the bytes that name them. -/
theorem map_outpoint_of_named {inputs : List TxInput} {utxos : List RpcUtxo}
    (h : inputs.map (fun input =>
        (input.previousOutput.txid.bytes, input.previousOutput.outputIndex))
      = (utxos.map RpcUtxo.listed).map fun utxo => (utxo.txidBytes, utxo.outputIndex)) :
    inputs.map TxInput.previousOutput = utxos.map RpcUtxo.outpoint := by
  have hinj : Function.Injective fun op : OutPoint => (op.txid.bytes, op.outputIndex) := by
    rintro ⟨txid, index⟩ ⟨txid', index'⟩ heq
    obtain ⟨htxid, rfl⟩ := Prod.mk.inj heq
    obtain rfl := Hash256.ext htxid
    rfl
  apply hinj.list_map
  rw [List.map_map, List.map_map]
  rw [List.map_map] at h
  exact h

/-- What the builder returns is signed by its wallet. -/
theorem buildSignedVestingViaRpc_signed {wallet : WalletFile}
    {response : Except String (List ListedUtxo)} {terms : VestingTerms} {tx : Transaction}
    {schedule : List ScheduleEntry}
    (h : buildSignedVestingViaRpc E wallet response terms = .ok (tx, schedule)) :
    ∃ unsigned, wallet.keypair.signTransaction E unsigned = .ok tx := by
  unfold buildSignedVestingViaRpc at h
  split_ifs at h
  split at h
  · cases h
  · obtain ⟨utxos, _, h⟩ := ExceptFold.bind_eq_ok.mp h
    obtain ⟨⟨inputs, got⟩, _, h⟩ := ExceptFold.bind_eq_ok.mp h
    dsimp only at h
    split_ifs at h
    obtain ⟨change, _, h⟩ := ExceptFold.bind_eq_ok.mp h
    split at h
    · cases h
    next signed hsign =>
      obtain ⟨rfl, _⟩ := Prod.mk.inj (Except.ok.inj h)
      exact ⟨_, hsign⟩

/-- A lock, too, is made of the first mature outputs, and leaves its fee. -/
theorem buildSignedVestingViaRpc_builtFrom (hE : E.Lawful) {sk : E.SecretKey}
    {wallet : WalletFile} (hwallet : wallet.Holds E sk) {utxos : List RpcUtxo}
    (hbound : rpcAtoms (utxos.filter RpcUtxo.mature) < 2 ^ 64 - 1) {terms : VestingTerms}
    {tx : Transaction} {schedule : List ScheduleEntry}
    (h : buildSignedVestingViaRpc E wallet (.ok (utxos.map RpcUtxo.listed)) terms
      = .ok (tx, schedule)) : BuiltFrom E sk utxos terms.feeAtoms tx := by
  obtain ⟨rcptSpk, inputs, got, change, hbuilt⟩ := buildSignedVestingViaRpc_built h
  obtain ⟨unsigned, hsign⟩ := buildSignedVestingViaRpc_signed h
  rw [hwallet.keypair_eq] at hsign
  obtain ⟨tx', htx', hsigned⟩ := signTransaction_fromSigningKey hE sk unsigned
  obtain rfl := Except.ok.inj (hsign.symm.trans htx')
  have hselected := selectInputs_selected hbuilt.selected
  rw [filter_mature_listed] at hselected
  obtain ⟨hnamed, hsum, _⟩ := hselected
  rw [← List.map_take] at hnamed hsum
  rw [listedAtoms_listed, UInt64.toNat_zero, Nat.zero_add] at hsum
  have hfirst := List.take_prefix inputs.length (utxos.filter RpcUtxo.mature)
  have hle := rpcAtoms_prefix hfirst
  obtain ⟨hcovered, hleft⟩ := change_exact (by omega) hbuilt.enough
  obtain ⟨hchange, _⟩ := outputAtoms_changeOutput hbuilt.leftOver
  have hlocked := VestingTerms.outputAtoms_lockOutputs hbuilt.tranches hbuilt.liquidBps rcptSpk
  refine ⟨⟨_, hfirst, ?_, ?_⟩, fun height => hsigned.execute hE height⟩
  · rw [← map_outpoint_of_named hnamed]
    exact hbuilt.inputs
  · rw [hbuilt.outputs, outputAtoms_append, hlocked, hchange]
    omega

/-- An entry of a schedule: the script is a P2PKH script of the recipient, at once or from
    the unlock height on. -/
theorem schedule_script {rcptSpk : Bytes} {addr : String}
    (hrcpt : p2pkhFromAddress P addr = .ok rcptSpk) {terms : VestingTerms} {entry : ScheduleEntry}
    (h : entry ∈ (terms.lockOutputs rcptSpk).map Prod.snd) :
    (entry.unlockHeight = 0 ∧ entry.scriptHex = hexEncode (p2pkhScript (rcptHash rcptSpk).1)) ∨
      entry.scriptHex = hexEncode (cltvP2pkhScript entry.unlockHeight (rcptHash rcptSpk)) := by
  unfold VestingTerms.lockOutputs at h
  rw [List.map_append, List.mem_append] at h
  rcases h with hliquid | htranche
  · left
    unfold VestingTerms.liquidOutput at hliquid
    split_ifs at hliquid
    · rw [List.map_singleton, List.mem_singleton] at hliquid
      rw [hliquid, ← p2pkhFromAddress_rcptHash hrcpt]
      exact ⟨rfl, rfl⟩
    · cases hliquid
  · right
    unfold VestingTerms.trancheOutputs at htranche
    rw [List.map_map] at htranche
    obtain ⟨i, _, rfl⟩ := List.mem_map.mp htranche
    rfl

/-- **What is locked for somebody is theirs from the height that the schedule says.** On
    every sound node a vesting lock that is built from what the node has listed is taken
    by the node unless the mempool refuses it at the fee of the lock. And on every sound
    node that has listed the outputs of some entry of the schedule, a claim by any key
    is built exactly if there is a mature output above the relay fee and the destination
    decodes; the node takes it exactly if the unlock height has been reached and the key
    is the recipient's, unless the mempool refuses. -/
theorem vesting_commands (P : Primitives) (params : ConsensusParams) (U : Set Block)
    (hU : HashFaithful P U) (E : Ecdsa P) (hE : E.Lawful) (wallet : WalletFile)
    (wk rk : E.SecretKey) (hwallet : wallet.Holds E wk) (terms : VestingTerms)
    (hrecipient : p2pkhFromAddress P terms.recipient = .ok (p2pkhFromPubkey P (E.publicKey rk)))
    (node node' : Node) (hs : Node.Sound P params U node)
    (hbound : emissionSchedule params (node.loadState.height.getD 0) < 2 ^ 64 - 1)
    (utxos : List RpcUtxo)
    (hlist : node.getUtxos P params wallet.address = (some utxos, node')) (tx : Transaction)
    (schedule : List ScheduleEntry)
    (hlock : buildSignedVestingViaRpc E wallet (.ok (utxos.map RpcUtxo.listed)) terms
      = .ok (tx, schedule)) :
    (∀ order, (∃ reply, (node'.sendRawTransaction P params order tx).1 = .ok reply) ↔
      node'.mempool.Takes tx terms.feeAtoms) ∧
    ∀ entry ∈ schedule, ∀ (later later' : Node), Node.Sound P params U later →
      emissionSchedule params (later.loadState.height.getD 0) < 2 ^ 64 - 1 →
      ∀ listed, later.getUtxos P params entry.scriptHex = (some listed, later') →
      ∀ (sk : E.SecretKey) (destAddr : String),
        ((∃ claim, vestingClaim E (.fromSigningKey E sk) (hexEncode (E.publicKey sk)) listed
            destAddr = .ok (.ok claim)) ↔ Spends P listed destAddr) ∧
        ∀ claim, vestingClaim E (.fromSigningKey E sk) (hexEncode (E.publicKey sk)) listed
            destAddr = .ok (.ok claim) →
          ∀ order, (∃ reply, (later'.sendRawTransaction P params order claim).1 = .ok reply) ↔
            entry.unlockHeight.toNat ≤ later.loadState.height.getD 0 ∧
              keyHash E sk = keyHash E rk ∧ later'.mempool.Takes claim minRelayFeeAtoms := by
  constructor
  · obtain ⟨script, u, hlisted⟩ := Node.getUtxos_listed hU hs hlist
    have hbound' := hbound
    rw [← hlisted.height_eq] at hbound'
    have hsupply := hlisted.sound.exactSupply_lt hU hbound' hlisted.replays
    obtain ⟨_, hmature⟩ := hlisted.lists.atoms (List.filter_sublist (p := RpcUtxo.mature))
    have hbuilt := buildSignedVestingViaRpc_builtFrom hE hwallet (lt_of_le_of_lt hmature hsupply)
      hlock
    intro order
    rw [Node.sendRawTransaction_isOk]
    exact Node.acceptPeerTx_iff hU hlisted.sound (hbuilt.validNow hU hwallet hlisted hbound) order
  · intro entry hentry later later' hlater hlaterBound listed hlaterList sk destAddr
    obtain ⟨rcptSpk, inputs, got, change, hbuilt⟩ := buildSignedVestingViaRpc_built hlock
    obtain rfl := Except.ok.inj (hbuilt.recipient.symm.trans hrecipient)
    rw [hbuilt.schedule] at hentry
    obtain ⟨script, u, hlisted⟩ := Node.getUtxos_listed hU hlater hlaterList
    obtain ⟨hash, hdecoded, hown⟩ := addressToHash20_own hrecipient
    unfold addressToHash20 at hdecoded
    rw [hrecipient] at hdecoded
    obtain rfl := Except.ok.inj hdecoded
    obtain ⟨hclaimed, hall⟩ := contractSpend_spec hE sk listed destAddr
      (fun derSig pubkey => .ok (p2pkhScriptSig derSig pubkey))
      (fun derSig => p2pkhScriptSig derSig (E.publicKey sk)) fun _ => rfl
    refine ⟨hclaimed, fun claim hclaim order => ?_⟩
    rw [(hall claim hclaim).sent_iff hU hlisted hlaterBound order, ← hown]
    rcases schedule_script hrecipient hentry with ⟨hzero, hhex⟩ | hhex
    · obtain rfl := Option.some.inj
        (hlisted.param_eq.symm.trans (by rw [hhex]; exact utxoParam_hexEncode _))
      rw [execute_p2pkh_own hE sk ⟨claim.signatureHash P, later.loadState.height.getD 0⟩, hzero]
      simp
    · obtain rfl := Option.some.inj
        (hlisted.param_eq.symm.trans (by rw [hhex]; exact utxoParam_hexEncode _))
      rw [execute_timeLocked hE sk ⟨claim.signatureHash P, later.loadState.height.getD 0⟩,
        and_assoc]

/-! ## A contract to take

    The reward of the genesis block is paid into a contract, and to two signers. -/

section Sample

open Node BulkMap

/-- A million atoms for the recipient of the contract, a fifth of them at once. -/
def sampleLock : VestingTerms :=
  ⟨String.ofList (List.replicate 20 '\x07'), 1000000, 10000, 20, 2, 5, 2000⟩

/-- The miner of the genesis block locks them, and the mempool alone decides. -/
theorem vesting_commands_sample :
    ∃ node' tx schedule,
      minedNode.getUtxos Primitives.sample testParams genesisWallet.address
        = (some genesisListing, node') ∧
      buildSignedVestingViaRpc Ecdsa.sample genesisWallet
        (.ok (genesisListing.map RpcUtxo.listed)) sampleLock = .ok (tx, schedule) ∧
      ∀ order,
        (∃ reply, (node'.sendRawTransaction Primitives.sample testParams order tx).1 = .ok reply)
          ↔ node'.mempool.Takes tx 10000 := by
  have heval : (minedNode.getUtxos Primitives.sample testParams genesisWallet.address).1
        = some genesisListing ∧
      emissionSchedule testParams (minedNode.loadState.height.getD 0) < 2 ^ 64 - 1 ∧
      (buildSignedVestingViaRpc Ecdsa.sample genesisWallet
        (.ok (genesisListing.map RpcUtxo.listed)) sampleLock).isOk = true := by
    decide +kernel
  obtain ⟨hlisting, hbound, hok⟩ := heval
  cases hlock : buildSignedVestingViaRpc Ecdsa.sample genesisWallet
      (.ok (genesisListing.map RpcUtxo.listed)) sampleLock with
  | error e =>
    rw [hlock] at hok
    cases hok
  | ok built =>
    cases hlist : minedNode.getUtxos Primitives.sample testParams genesisWallet.address with
    | mk listing node' =>
      rw [hlist] at hlisting
      obtain rfl : listing = some genesisListing := hlisting
      obtain ⟨hsent, _⟩ := vesting_commands Primitives.sample testParams _ minedFork_faithful
        Ecdsa.sample WalletKeypair.ecdsaSample_lawful genesisWallet genesisSigner
        ⟨List.replicate 33 7, by simp⟩ genesisWallet_holds sampleLock (by decide +kernel)
        minedNode node' minedNode_sound hbound genesisListing hlist built.1 built.2 hlock
      exact ⟨node', built.1, built.2, rfl, rfl, hsent⟩

end Sample

end Tensorium
