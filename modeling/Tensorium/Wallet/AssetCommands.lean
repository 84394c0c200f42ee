import Tensorium.Indexer.Round
import Tensorium.Settlement.Layout
import Tensorium.Wallet.Admitted

/-! # The asset commands of the wallet program

    `txmwallet asset-issue`, `asset-mint` and `asset-transfer`, from the listing of the
    node to the indexer. The operation rides in an output without value; the asset is
    moved from the address behind the first input.
-/

namespace Tensorium

open Assets ByteCodec ExceptFold Saturating BulkMap

/-! ## The commands -/

/-- The `Display` of `WalletError`. -/
def WalletError.display : WalletError → String
  | .invalidPrivateKey => "invalid private key"
  | .inputIndexOutOfRange => "input index out of range"

/-- An output to an address; `role` names it in the error. -/
def outputTo (P : Primitives) (role addr : String) (atoms : UInt64) : Except String TxOutput :=
  match Script.p2pkhFromAddress P addr with
  | .error _ => .error ("invalid " ++ role ++ " address: " ++ addr)
  | .ok script => .ok ⟨atoms, script⟩

/-- The change, if there is any. -/
def changeTo (P : Primitives) (addr : String) (change : UInt64) : Except String (List TxOutput) :=
  if change > 0 then (outputTo P "change" addr change).map fun o => [o] else .ok []

/-- `build_outputs`: the carrier of the recipient, the operation, and the change. -/
def buildOutputs (P : Primitives) (op : AssetOp) (dest : Option (String × UInt64))
    (changeAddr : String) (totalIn feeAtoms : UInt64) : Except String (List TxOutput) :=
  let destAtoms := dest.elim 0 Prod.snd
  let spent := satAdd64 destAtoms feeAtoms
  if totalIn < spent then
    .error ("insufficient mature balance: have " ++ toString totalIn ++ ", need " ++
      toString spent ++ " (carrier " ++ toString destAtoms ++ " + fee " ++ toString feeAtoms ++
      ")")
  else do
    let carrier ← dest.elim (.ok []) fun d => (outputTo P "recipient" d.1 d.2).map fun o => [o]
    let back ← changeTo P changeAddr (totalIn - spent)
    return carrier ++ ⟨0, opReturnScript (encodeOp op)⟩ :: back

/-- `build_asset_tx_via_rpc`, on what `GET /getutxos` has listed. -/
def buildAssetTxViaRpc {P : Primitives} (E : Ecdsa P) (wallet : WalletFile)
    (utxos : List RpcUtxo) (op : AssetOp) (dest : Option (String × UInt64)) (feeAtoms : UInt64) :
    Except String Transaction :=
  let needed := satAdd64 (dest.elim 0 Prod.snd) feeAtoms
  let (selected, totalIn) := selectMature needed 0 utxos
  if totalIn < needed then
    .error ("insufficient mature balance via RPC: have " ++ toString totalIn ++ ", need " ++
      toString needed)
  else
    let inputs := selected.map fun utxo => (⟨utxo.outpoint, []⟩ : TxInput)
    match buildOutputs P op dest wallet.address totalIn feeAtoms with
    | .error e => .error e
    | .ok outputs =>
      match wallet.keypair.signTransaction E (.payment P inputs outputs) with
      | .error e => .error e.display
      | .ok tx => .ok tx

/-- The arguments of `asset-issue`, `asset-mint` and `asset-transfer`, the numbers
    parsed. -/
inductive AssetCommand where
  | issue (ticker : String) (decimals : UInt8) (supply : UInt64) (name : String)
  | mint (royaltyBps : UInt16) (royaltyAddr contentHashHex uri : String)
  | transfer (assetIdHex : String) (amount : UInt64) (toAddress : String)

namespace AssetCommand

/-- The operation. -/
def op : AssetCommand → Except String AssetOp
  | .issue ticker decimals supply name => .ok (.issue ⟨ticker, decimals, supply, name, 0⟩)
  | .mint royaltyBps royaltyAddr contentHashHex uri =>
    if royaltyBps > 10000 then .error "royalty_bps must be 0-10000"
    else match hexDecode contentHashHex with
      | none => .error "content_hash_hex must be hex"
      | some bytes =>
        if hsize : bytes.length = 32 then
          .ok (.nftMint ⟨Hash256.zero, royaltyBps, royaltyAddr, uri, ⟨bytes, hsize⟩⟩)
        else .error "content_hash must be 32 bytes (64 hex chars)"
  | .transfer assetIdHex amount _ =>
    match hexDecode assetIdHex with
    | none => .error "asset_id_hex must be hex"
    | some bytes =>
      if hsize : bytes.length = 32 then .ok (.transfer ⟨⟨bytes, hsize⟩, amount, 0⟩)
      else .error "asset_id must be 32 bytes (64 hex chars)"

/-- The recipient of a transfer, with `ASSET_CARRIER_ATOMS`. -/
def dest : AssetCommand → Option (String × UInt64)
  | .transfer _ _ toAddress => some (toAddress, carrierAtoms)
  | _ => none

/-- The command, with the transaction it writes. -/
def run {P : Primitives} (E : Ecdsa P) (wallet : WalletFile) (utxos : List RpcUtxo)
    (command : AssetCommand) : Except String Transaction :=
  match command.op with
  | .error e => .error e
  | .ok op => buildAssetTxViaRpc E wallet utxos op command.dest minRelayFeeAtoms

end AssetCommand

/-! ## The outputs -/

variable {P : Primitives} {E : Ecdsa P} {encode : String → Bytes → String}

theorem outputTo_eq_ok {role addr : String} {atoms : UInt64} {out : TxOutput} :
    outputTo P role addr atoms = .ok out ↔
      ∃ script, Script.p2pkhFromAddress P addr = .ok script ∧ out = ⟨atoms, script⟩ := by
  unfold outputTo
  cases Script.p2pkhFromAddress P addr with
  | error e => simp
  | ok script =>
    simp only [Except.ok.injEq, exists_eq_left', eq_comm]

/-- The recipient's address decodes, if there is a recipient. -/
def Payable (P : Primitives) (dest : Option (String × UInt64)) : Prop :=
  ∀ d ∈ dest, ∃ script, Script.p2pkhFromAddress P d.1 = .ok script

/-- The outputs in front of the operation: the carrier of the recipient, if there is
    one. -/
def CarriedTo (P : Primitives) : Option (String × UInt64) → List TxOutput → Prop
  | none, carrier => carrier = []
  | some (addr, atoms), carrier =>
    ∃ script, Script.p2pkhFromAddress P addr = .ok script ∧ carrier = [⟨atoms, script⟩]

/-- The change goes back. -/
theorem changeTo_isOk {changeAddr : String} {own : Bytes}
    (hown : Script.p2pkhFromAddress P changeAddr = .ok own) (change : UInt64) :
    ∃ back, changeTo P changeAddr change = .ok back ∧ outputAtoms back = change.toNat := by
  unfold changeTo
  split_ifs with hchange
  · refine ⟨[⟨change, own⟩], ?_, by simp [outputAtoms]⟩
    rw [outputTo_eq_ok.mpr ⟨own, hown, rfl⟩]
    rfl
  · have hzero : change = 0 := UInt64.le_antisymm (UInt64.not_lt.mp hchange) (UInt64.zero_le)
    exact ⟨[], rfl, by simp [outputAtoms, hzero]⟩

theorem carrier_eq_ok {dest : Option (String × UInt64)} {carrier : List TxOutput} :
    (dest.elim (.ok []) fun d => (outputTo P "recipient" d.1 d.2).map fun o => [o])
      = .ok carrier ↔ CarriedTo P dest carrier := by
  cases dest with
  | none => simp [CarriedTo, eq_comm]
  | some d =>
    obtain ⟨addr, atoms⟩ := d
    simp only [Option.elim_some, CarriedTo, outputTo]
    cases Script.p2pkhFromAddress P addr with
    | error e => simp [Except.map]
    | ok script => simp [Except.map, eq_comm]

theorem exists_carriedTo {dest : Option (String × UInt64)} :
    (∃ carrier, CarriedTo P dest carrier) ↔ Payable P dest := by
  cases dest with
  | none => simp [CarriedTo, Payable]
  | some d => simp [CarriedTo, Payable]

/-- With an own address that decodes and enough in, the outputs are the carrier, the
    operation and the change, if the recipient's address decodes. -/
theorem buildOutputs_spec (op : AssetOp) (dest : Option (String × UInt64)) {changeAddr : String}
    {own : Bytes} (hown : Script.p2pkhFromAddress P changeAddr = .ok own)
    {totalIn feeAtoms : UInt64} (henough : ¬ totalIn < satAdd64 (dest.elim 0 Prod.snd) feeAtoms) :
    ((∃ outputs, buildOutputs P op dest changeAddr totalIn feeAtoms = .ok outputs) ↔
      Payable P dest) ∧
    ∀ outputs, buildOutputs P op dest changeAddr totalIn feeAtoms = .ok outputs →
      ∃ carrier back, outputs = carrier ++ ⟨0, opReturnScript (encodeOp op)⟩ :: back ∧
        CarriedTo P dest carrier ∧
        outputAtoms back = (totalIn - satAdd64 (dest.elim 0 Prod.snd) feeAtoms).toNat := by
  unfold buildOutputs
  dsimp only
  rw [if_neg henough]
  obtain ⟨back, hback, hatoms⟩ :=
    changeTo_isOk hown (totalIn - satAdd64 (dest.elim 0 Prod.snd) feeAtoms)
  rw [hback, ← exists_carriedTo]
  constructor
  · constructor
    · rintro ⟨outputs, houtputs⟩
      obtain ⟨carrier, hcarrier, _⟩ := bind_eq_ok.mp houtputs
      exact ⟨carrier, carrier_eq_ok.mp hcarrier⟩
    · rintro ⟨carrier, hcarrier⟩
      rw [carrier_eq_ok.mpr hcarrier]
      exact ⟨_, rfl⟩
  · intro outputs houtputs
    obtain ⟨carrier, hcarrier, houtputs⟩ := bind_eq_ok.mp houtputs
    exact ⟨carrier, back, (Except.ok.inj houtputs).symm, carrier_eq_ok.mp hcarrier, hatoms⟩

theorem CarriedTo.outputAtoms_eq {dest : Option (String × UInt64)} {carrier : List TxOutput}
    (h : CarriedTo P dest carrier) : outputAtoms carrier = (dest.elim 0 Prod.snd).toNat := by
  cases dest with
  | none =>
    obtain rfl : carrier = [] := h
    rfl
  | some d =>
    obtain ⟨script, _, rfl⟩ := h
    simp [outputAtoms]

/-- The operation is the first one that the transaction carries. -/
theorem CarriedTo.extractAssetOp_eq {op : AssetOp} (hroyalty : RoyaltyOk op)
    {dest : Option (String × UInt64)} {carrier back : List TxOutput} {tx : Transaction}
    (h : CarriedTo P dest carrier)
    (houtputs : tx.outputs = carrier ++ ⟨0, opReturnScript (encodeOp op)⟩ :: back) :
    extractAssetOp tx = some (stored op) := by
  obtain ⟨hlong, hshort⟩ := length_encodeOp_le hroyalty
  apply extractAssetOp_of_first houtputs
  · intro other hother data hdata
    cases dest with
    | none =>
      obtain rfl : carrier = [] := h
      cases hother
    | some d =>
      obtain ⟨script, hscript, rfl⟩ := h
      rw [List.mem_singleton.mp hother, opReturnData_p2pkhFromAddress hscript] at hdata
      cases hdata
  · exact opReturnData_opReturnScript (by omega) (by omega)
  · exact decodeOp_encodeOp hroyalty

/-! ## The transactions -/

/-- The loop selects too little, and all there is, or enough from the front. -/
theorem selectMature_cases (needed : UInt64) {utxos : List RpcUtxo}
    (hbound : rpcAtoms (utxos.filter RpcUtxo.mature) < 2 ^ 64 - 1) :
    ((selectMature needed 0 utxos).2 < needed ∧
        rpcAtoms (utxos.filter RpcUtxo.mature) < needed.toNat) ∨
      (¬ (selectMature needed 0 utxos).2 < needed ∧
        needed.toNat ≤ rpcAtoms (utxos.filter RpcUtxo.mature) ∧
        (selectMature needed 0 utxos).1 <+: utxos.filter RpcUtxo.mature ∧
        (selectMature needed 0 utxos).2.toNat = rpcAtoms (selectMature needed 0 utxos).1) := by
  obtain ⟨hfirst, _, _⟩ := selectMature_selected needed 0 utxos
  obtain ⟨hexact, henough⟩ := selectMature_enough needed hbound
  by_cases hshort : (selectMature needed 0 utxos).2 < needed
  · refine Or.inl ⟨hshort, ?_⟩
    rw [← Nat.not_le, ← henough]
    exact UInt64.not_le.mpr hshort
  · exact Or.inr ⟨hshort, henough.mp (UInt64.not_lt.mp hshort), hfirst, hexact⟩

/-- When an asset transaction is built, and what it is. -/
theorem buildAssetTxViaRpc_spec (hE : E.Lawful) {sk : E.SecretKey} {wallet : WalletFile}
    (hwallet : wallet.Holds E sk) {utxos : List RpcUtxo}
    (hbound : rpcAtoms (utxos.filter RpcUtxo.mature) < 2 ^ 64 - 1) (op : AssetOp)
    (dest : Option (String × UInt64)) (feeAtoms : UInt64) :
    ((∃ tx, buildAssetTxViaRpc E wallet utxos op dest feeAtoms = .ok tx) ↔
      Payable P dest ∧ (dest.elim 0 Prod.snd).toNat + feeAtoms.toNat
        ≤ rpcAtoms (utxos.filter RpcUtxo.mature)) ∧
    ∀ tx, buildAssetTxViaRpc E wallet utxos op dest feeAtoms = .ok tx →
      BuiltFrom E sk utxos feeAtoms tx ∧
      ∃ carrier back, tx.outputs = carrier ++ ⟨0, opReturnScript (encodeOp op)⟩ :: back ∧
        CarriedTo P dest carrier := by
  let needed := satAdd64 (dest.elim 0 Prod.snd) feeAtoms
  have hneeded : needed.toNat
      = min ((dest.elim 0 Prod.snd).toNat + feeAtoms.toNat) (2 ^ 64 - 1) := toNat_satAdd64 _ _
  have hcases := selectMature_cases needed hbound
  unfold buildAssetTxViaRpc
  dsimp only
  change needed.toNat = _ at hneeded
  generalize hselect : selectMature needed 0 utxos = select at hcases
  obtain ⟨selected, got⟩ := select
  dsimp only at hcases ⊢
  have hlt := got.toNat_lt
  rcases hcases with ⟨hshort, hsmall⟩ | ⟨hcovers, hcovered, hfirst, hexact⟩
  · rw [if_pos hshort]
    refine ⟨⟨?_, ?_⟩, ?_⟩
    · intro ⟨tx, htx⟩
      cases htx
    · intro ⟨_, hcovered⟩
      omega
    · intro tx htx
      cases htx
  · have hle := rpcAtoms_prefix hfirst
    have hchange : (got - needed).toNat = got.toNat - needed.toNat :=
      UInt64.toNat_sub_of_le _ _ (UInt64.not_lt.mp hcovers)
    have hspent := UInt64.le_iff_toNat_le.mp (UInt64.not_lt.mp hcovers)
    rw [if_neg hcovers]
    obtain ⟨hoks, hshape⟩ := buildOutputs_spec op dest hwallet.address_eq hcovers
    cases houtputs : buildOutputs P op dest wallet.address got feeAtoms with
    | error e =>
      rw [houtputs] at hoks
      dsimp only
      refine ⟨⟨?_, ?_⟩, ?_⟩
      · intro ⟨tx, htx⟩
        cases htx
      · intro ⟨hpayable, _⟩
        obtain ⟨outputs, h⟩ := hoks.mpr hpayable
        cases h
      · intro tx htx
        cases htx
    | ok outputs =>
      obtain ⟨carrier, back, hlaid, hcarrier, hback⟩ := hshape outputs houtputs
      obtain ⟨tx, htx, hsigned⟩ := signTransaction_fromSigningKey hE sk
        (.payment P (selected.map fun utxo => (⟨utxo.outpoint, []⟩ : TxInput)) outputs)
      have hatoms : outputAtoms outputs
          = outputAtoms carrier + outputAtoms back := by
        rw [hlaid]
        simp [outputAtoms]
      have hcarried := hcarrier.outputAtoms_eq
      dsimp only
      rw [hwallet.keypair_eq, htx]
      dsimp only
      refine ⟨⟨?_, ?_⟩, ?_⟩
      · intro _
        exact ⟨hoks.mp ⟨outputs, houtputs⟩, by omega⟩
      · intro _
        exact ⟨tx, rfl⟩
      · intro tx' htx'
        obtain rfl := Except.ok.inj htx'
        refine ⟨.of_signed hE hfirst hsigned ?_, carrier, back, ?_, hcarrier⟩
        · change outputAtoms back = (got - needed).toNat at hback
          omega
        · rw [hsigned.outputs_eq]
          exact hlaid

/-! ## The indexer -/

/-- The indexer writes an address so. -/
def Resolves (P : Primitives) (encode : String → Bytes → String) (addr name : String) : Prop :=
  ∀ script, Script.p2pkhFromAddress P addr = .ok script →
    Script.extractAddress encode script = some name

/-- What the commands ask for: only a transfer has a recipient, and it names the output
    in front. -/
theorem AssetCommand.op_cases {command : AssetCommand} {op : AssetOp}
    (hop : command.op = .ok op) :
    (∃ d, op = .issue d ∧ command.dest = none) ∨
      (∃ d, op = .nftMint d ∧ d.royaltyBps ≤ 10000 ∧ command.dest = none) ∨
      ∃ d addr, op = .transfer d ∧ d.destOutputIndex = 0 ∧
        command.dest = some (addr, carrierAtoms) := by
  cases command with
  | issue ticker decimals supply name =>
    obtain rfl := Except.ok.inj hop
    exact Or.inl ⟨_, rfl, rfl⟩
  | mint royaltyBps royaltyAddr contentHashHex uri =>
    unfold AssetCommand.op at hop
    dsimp only at hop
    split_ifs at hop with hroyalty
    cases hbytes : hexDecode contentHashHex with
    | none =>
      rw [hbytes] at hop
      cases hop
    | some bytes =>
      rw [hbytes] at hop
      dsimp only at hop
      split_ifs at hop
      obtain rfl := Except.ok.inj hop
      exact Or.inr (Or.inl ⟨_, rfl, UInt16.not_lt.mp hroyalty, rfl⟩)
  | transfer assetIdHex amount toAddress =>
    unfold AssetCommand.op at hop
    dsimp only at hop
    cases hbytes : hexDecode assetIdHex with
    | none =>
      rw [hbytes] at hop
      cases hop
    | some bytes =>
      rw [hbytes] at hop
      dsimp only at hop
      split_ifs at hop
      obtain rfl := Except.ok.inj hop
      exact Or.inr (Or.inr ⟨_, toAddress, rfl, rfl, rfl⟩)

/-- It passes the decoder. -/
theorem AssetCommand.royaltyOk {command : AssetCommand} {op : AssetOp}
    (hop : command.op = .ok op) : RoyaltyOk op := by
  rcases AssetCommand.op_cases hop with ⟨d, rfl, _⟩ | ⟨d, rfl, hroyalty, _⟩ | ⟨d, _, rfl, _⟩
  · exact trivial
  · exact hroyalty
  · exact trivial

/-- The destination of a transfer is the carrier. -/
theorem CarriedTo.destOf_eq {command : AssetCommand} {op : AssetOp} (hop : command.op = .ok op)
    {carrier back : List TxOutput} {tx : Transaction} (h : CarriedTo P command.dest carrier)
    (houtputs : tx.outputs = carrier ++ ⟨0, opReturnScript (encodeOp op)⟩ :: back) {dest : String}
    (hdest : ∀ d ∈ command.dest, Resolves P encode d.1 dest) :
    ∀ d, stored op = .transfer d → Indexer.destOf encode tx (stored op) = some dest := by
  intro d hstored
  rcases AssetCommand.op_cases hop with ⟨_, rfl, _⟩ | ⟨_, rfl, _⟩ | ⟨d', addr, rfl, hfront, hto⟩
  · cases hstored
  · cases hstored
  · rw [hto] at h hdest
    obtain ⟨script, hscript, rfl⟩ := h
    show tx.outputs[d'.destOutputIndex.toNat]?.bind _ = _
    rw [houtputs, hfront]
    exact hdest _ rfl script hscript

/-- A transaction that leaves a fee spends, first, an output that the node's chain has
    created for the key. -/
theorem BuiltFrom.first_created {U : Set Block} {params : ConsensusParams} {node node' : Node}
    {sk : E.SecretKey} {wallet : WalletFile} (hwallet : wallet.Holds E sk) {utxos : List RpcUtxo}
    {script : Bytes} {u : UtxoSet}
    (hlisted : Node.Listed P params U node wallet.address utxos node' script u) {fee : UInt64}
    (hfee : 0 < fee.toNat) {tx : Transaction} (h : BuiltFrom E sk utxos fee tx) :
    ∃ input entry, tx.inputs.head? = some input ∧
      (input.previousOutput, entry) ∈ chainCreates node'.canonicalChain ∧
      Script.p2pkhFromAddress P wallet.address = .ok entry.output.scriptPubkey := by
  obtain ⟨selected, hfirst, houtpoints, hsum⟩ := h.spends
  have hscript : script = Script.p2pkhFromPubkey P (E.publicKey sk) :=
    Option.some.inj (hlisted.param_eq.symm.trans hwallet.utxoParam_eq)
  cases hselected : selected with
  | nil =>
    rw [hselected] at hsum
    have hzero : rpcAtoms [] = 0 := rfl
    omega
  | cons utxo rest =>
    rw [hselected] at houtpoints hfirst
    obtain ⟨input, inputs, hinputs⟩ : ∃ input inputs, tx.inputs = input :: inputs := by
      cases hinputs : tx.inputs with
      | nil =>
        unfold Transaction.outpoints at houtpoints
        rw [hinputs] at houtpoints
        cases houtpoints
      | cons input inputs => exact ⟨input, inputs, rfl⟩
    have hspent : input.previousOutput = utxo.outpoint := by
      unfold Transaction.outpoints at houtpoints
      rw [hinputs, List.map_cons, List.map_cons] at houtpoints
      exact (List.cons.inj houtpoints).1
    obtain ⟨entry, hentry, houtput, _⟩ := hlisted.lists.held utxo
      (List.mem_of_mem_filter (hfirst.subset List.mem_cons_self))
    refine ⟨input, entry, ?_, ?_, ?_⟩
    · rw [hinputs]
      rfl
    · rw [hspent]
      exact replayUtxo_mem_creates hlisted.replays hentry
    · rw [hwallet.address_eq, houtput, hscript]

/-- **The asset commands do what they say, from the wallet to the books of the indexer.**
    On every sound node, below the largest `u64` of the emission schedule: a command is
    built from what the node has listed exactly if its arguments make an operation, the
    recipient's address decodes and the mature outputs cover the carrier and the fee. The
    transaction is valid on that node with the relay fee, and broadcast with success
    exactly if the mempool takes it. Wherever it is mined behind the node's chain, as long
    as no outpoint changes its address, the indexer does the operation in the name of the
    wallet's address if its books admit it, and nothing otherwise. -/
theorem asset_commands (P : Primitives) (params : ConsensusParams) (U : Set Block)
    (hU : HashFaithful P U) (E : Ecdsa P) (hE : E.Lawful) (encode : String → Bytes → String)
    (node : Node) (hs : Node.Sound P params U node)
    (hbound : emissionSchedule params (node.loadState.height.getD 0) < 2 ^ 64 - 1)
    (wallet : WalletFile) (sk : E.SecretKey) (hwallet : wallet.Holds E sk)
    (utxos : List RpcUtxo) (node' : Node)
    (hlist : node.getUtxos P params wallet.address = (some utxos, node'))
    (command : AssetCommand) :
    ((∃ tx, command.run E wallet utxos = .ok tx) ↔
      (∃ op, command.op = .ok op) ∧ Payable P command.dest ∧
        (command.dest.elim 0 Prod.snd).toNat + minRelayFeeAtoms.toNat
          ≤ rpcAtoms (utxos.filter RpcUtxo.mature)) ∧
    ∀ tx, command.run E wallet utxos = .ok tx → ∃ op, command.op = .ok op ∧
      node'.ValidNow P params tx minRelayFeeAtoms ∧
      (∀ order, (∃ reply, (node'.sendRawTransaction P params order tx).1 = .ok reply) ↔
        node'.mempool.Takes tx minRelayFeeAtoms) ∧
      ∀ (pre : List Block) (b : Block) (before after : List Transaction) (owner dest : String),
        node'.canonicalChain <+: pre → b.transactions = before ++ tx :: after →
        AddressStable encode (pre ++ [b]) → Resolves P encode wallet.address owner →
        (∀ d ∈ command.dest, Resolves P encode d.1 dest) →
        ∃ idx idx', Indexer.Round encode pre b before tx idx idx' ∧
          ((idx.state.Admits tx.id owner (stored op) ∧ idx.state.Performs idx'.state tx.id
              b.header.height owner dest (stored op)) ∨
            (¬ idx.state.Admits tx.id owner (stored op) ∧ idx'.state = idx.state)) := by
  obtain ⟨script, u, hlisted⟩ := Node.getUtxos_listed hU hs hlist
  have hbound' := hbound
  rw [← hlisted.height_eq] at hbound'
  have hsupply := hlisted.sound.exactSupply_lt hU hbound' hlisted.replays
  obtain ⟨_, hmature⟩ := hlisted.lists.atoms (List.filter_sublist (p := RpcUtxo.mature))
  unfold AssetCommand.run
  cases hop : command.op with
  | error e => simp
  | ok op =>
    dsimp only
    obtain ⟨hbuilt, hall⟩ := buildAssetTxViaRpc_spec hE hwallet
      (lt_of_le_of_lt hmature hsupply) op command.dest minRelayFeeAtoms
    refine ⟨hbuilt.trans (by simp), fun tx htx => ⟨op, rfl, ?_⟩⟩
    obtain ⟨hfrom, carrier, back, houtputs, hcarrier⟩ := hall tx htx
    have hvalid := hfrom.validNow hU hwallet hlisted hbound
    refine ⟨hvalid, ?_, ?_⟩
    · intro order
      rw [Node.sendRawTransaction_isOk]
      exact Node.acceptPeerTx_iff hU hlisted.sound hvalid order
    · intro pre b before after owner dest hextends htxs hstable howner hdest
      obtain ⟨input, entry, hinput, hcreated, hscript⟩ :=
        hfrom.first_created hwallet hlisted (by decide)
      have hstored := hcarrier.extractAssetOp_eq (AssetCommand.royaltyOk hop) houtputs
      have hpre : (input.previousOutput, entry) ∈ chainCreates pre := by
        obtain ⟨more, rfl⟩ := hextends
        unfold chainCreates at hcreated ⊢
        rw [List.flatMap_append]
        exact List.mem_append_left _ hcreated
      exact Indexer.exists_round_of_operation htxs hstable hstored hinput hpre
        (howner _ hscript) (hcarrier.destOf_eq hop houtputs hdest)

/-- The miner of the genesis block issues an asset in block 11. -/
def issueGold : AssetCommand := .issue "GLD" 2 100000 "Gold"

def goldBlock (tx : Transaction) : Block := Indexer.plainBlock 11 [tx]

def genesisOwner : String :=
  (Script.extractAddress Indexer.sampleEncode
    (Script.p2pkhFromPubkey Primitives.sample (Ecdsa.sample.publicKey genesisSigner))).getD ""

theorem asset_commands_gold :
    ∃ tx node', Node.minedNode.getUtxos Primitives.sample testParams genesisWallet.address
        = (some genesisListing, node') ∧
      issueGold.run Ecdsa.sample genesisWallet genesisListing = .ok tx ∧
      node'.ValidNow Primitives.sample testParams tx minRelayFeeAtoms ∧
      ∃ op idx idx', issueGold.op = .ok op ∧
        Indexer.Round Indexer.sampleEncode node'.canonicalChain (goldBlock tx)
          [Transaction.coinbase Primitives.sample 11 0 "a"] tx idx idx' ∧
        ((idx.state.Admits tx.id genesisOwner (stored op) ∧
            idx.state.Performs idx'.state tx.id 11 genesisOwner "" (stored op)) ∨
          (¬ idx.state.Admits tx.id genesisOwner (stored op) ∧ idx'.state = idx.state)) := by
  have heval : (Node.minedNode.getUtxos Primitives.sample testParams genesisWallet.address).1
        = some genesisListing ∧
      emissionSchedule testParams (Node.minedNode.loadState.height.getD 0) < 2 ^ 64 - 1 := by
    decide +kernel
  -- The change is the only output that the block adds for an address.
  have hcreates : ∀ tx ∈ (issueGold.run Ecdsa.sample genesisWallet genesisListing).toOption,
      ∀ c ∈ chainCreates ((Node.minedNode.getUtxos Primitives.sample testParams
        genesisWallet.address).2.canonicalChain ++ [goldBlock tx]),
      ∀ c' ∈ chainCreates ((Node.minedNode.getUtxos Primitives.sample testParams
        genesisWallet.address).2.canonicalChain ++ [goldBlock tx]), c.1 = c'.1 →
      Script.extractAddress Indexer.sampleEncode c.2.output.scriptPubkey
        = Script.extractAddress Indexer.sampleEncode c'.2.output.scriptPubkey := by
    decide +kernel
  obtain ⟨hlisting, hbound⟩ := heval
  cases hlist : Node.minedNode.getUtxos Primitives.sample testParams genesisWallet.address with
  | mk listing node' =>
  rw [hlist] at hlisting hcreates
  obtain rfl : listing = some genesisListing := hlisting
  obtain ⟨hbuilt, hall⟩ := asset_commands Primitives.sample testParams _
    Node.minedFork_faithful Ecdsa.sample WalletKeypair.ecdsaSample_lawful Indexer.sampleEncode
    Node.minedNode Node.minedNode_sound hbound genesisWallet genesisSigner genesisWallet_holds
    genesisListing node' hlist issueGold
  obtain ⟨tx, htx⟩ := hbuilt.mpr ⟨⟨_, rfl⟩, by simp [Payable, issueGold, AssetCommand.dest],
    by decide⟩
  obtain ⟨op, hop, hvalid, _, hindexed⟩ := hall tx htx
  obtain ⟨idx, idx', hround, hbooks⟩ := hindexed node'.canonicalChain (goldBlock tx)
    [Transaction.coinbase Primitives.sample 11 0 "a"] [] genesisOwner "" (List.prefix_refl _) rfl
    (fun outpoint e e' h h' => hcreates tx (by rw [htx]; rfl) (outpoint, e) h (outpoint, e') h' rfl)
    (fun script hscript => by
      rw [genesisWallet_holds.address_eq] at hscript
      obtain rfl := Except.ok.inj hscript
      decide)
    (by simp [issueGold, AssetCommand.dest])
  exact ⟨tx, node', rfl, htx, hvalid, op, idx, idx', hop, hround, hbooks⟩

end Tensorium
