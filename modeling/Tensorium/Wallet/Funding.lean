import Tensorium.Node.Admission
import Tensorium.Node.Rpc
import Tensorium.Utxo.Supply
import Tensorium.Wallet.Payment

/-! # Spending what the node lists

    A wallet reads the unspent outputs of a script from `GET /getutxos`, and builds
    transactions that spend some of the mature ones. What the listing promises, and
    when the node takes such a transaction as valid.
-/

namespace Tensorium

open Saturating BulkMap

variable {P : Primitives} {params : ConsensusParams} {U : Set Block}

/-- The value of listed outputs. -/
def rpcAtoms (utxos : List RpcUtxo) : Nat := (utxos.map fun utxo => utxo.valueAtoms.toNat).sum

/-- The listing of a script against a set: different outputs that the set holds with
    this script and value, and that are mature where it says so. -/
structure Lists (params : ConsensusParams) (u : UtxoSet) (height : Nat) (script : Bytes)
    (utxos : List RpcUtxo) : Prop where
  nodup : (utxos.map RpcUtxo.outpoint).Nodup
  held : ∀ utxo ∈ utxos, ∃ entry, u.lookup utxo.outpoint = some entry ∧
    entry.output = ⟨utxo.valueAtoms, script⟩ ∧
    (utxo.mature = true → entry.coinbase = true →
      satAdd 64 entry.createdHeight params.coinbaseMaturityBlocks ≤ height)

/-! ## The listing -/

/-- `utxos_for_script`, with the fields of the reply. -/
theorem lists_utxosForScript (s : ChainState) (script : Bytes) (height : Nat) :
    Lists params s.db.utxo height script ((s.utxosForScript script).map fun e =>
      { outpoint := e.1
        valueAtoms := e.2.output.valueAtoms
        mature := !e.2.coinbase
          || decide (height ≥ satAdd 64 e.2.createdHeight params.coinbaseMaturityBlocks) }) where
  nodup := by
    rw [List.map_map]
    have hsub : ((s.utxosForScript script).map Prod.fst).Sublist
        ((sortedEntries s.db.utxo).map Prod.fst) := List.filter_sublist.map _
    exact hsub.nodup (Iteration.sorted.nodup s.db.utxo)
  held := by
    intro utxo hutxo
    obtain ⟨⟨op, entry⟩, hmem, rfl⟩ := List.mem_map.mp hutxo
    obtain ⟨hsorted, hscript⟩ := List.mem_filter.mp hmem
    refine ⟨entry, (mem_sortedEntries _ _ _).mp hsorted, ?_, ?_⟩
    · rw [← of_decide_eq_true hscript]
    · intro hmature hcoinbase
      simpa [hcoinbase] using hmature

namespace Node

variable {node node' : Node}

/-- What `GET /getutxos` has read, and the node behind it. -/
structure Listed (P : Primitives) (params : ConsensusParams) (U : Set Block) (node : Node)
    (param : String) (utxos : List RpcUtxo) (node' : Node) (script : Bytes) (u : UtxoSet) :
    Prop where
  param_eq : utxoParam P param = some script
  sound : Sound P params U node'
  mempool_eq : node'.mempool = node.mempool
  height_eq : node'.loadState.height = node.loadState.height
  replays : replayUtxo P params node'.canonicalChain = .ok u
  lists : Lists params u (node'.loadState.height.getD 0) script utxos

theorem getUtxos_listed (hU : HashFaithful P U) (hs : Sound P params U node) {param : String}
    {utxos : List RpcUtxo} (h : node.getUtxos P params param = (some utxos, node')) :
    ∃ script u, Listed P params U node param utxos node' script u := by
  obtain ⟨L, hR, hL⟩ := hs.represents hU
  unfold getUtxos at h
  cases hparam : utxoParam P param with
  | none =>
    rw [hparam] at h
    cases h
  | some script =>
    rw [hparam] at h
    dsimp only at h
    cases hsync : node.loadState.ensureUtxoSynced P params with
    | mk result s =>
      rw [hsync] at h
      cases result with
      | error e => cases h
      | ok _ =>
        obtain ⟨hutxos, rfl⟩ := Prod.mk.inj h
        obtain rfl := Option.some.inj hutxos
        have hR₁ := hR.ensureUtxoSynced hL
        have hreach := ChainState.Reachable.ensureUtxoSynced hs hU
        rw [hsync] at hR₁ hreach
        have hR' : ChainState.Represents P params
            (loadState { node with db := s.db }) L := represents_of_db hR₁ hL rfl
        have hheight : (loadState { node with db := s.db }).height = s.height := by
          unfold ChainState.height
          rw [hR'.heightCache, hR₁.heightCache]
        refine ⟨script, s.db.utxo, hparam, .of_reachable hreach hU rfl, rfl, ?_, ?_, ?_⟩
        · rw [hheight]
          unfold ChainState.height
          rw [hR₁.heightCache, hR.heightCache]
        · unfold canonicalChain
          rw [hR'.canonicalBlocksIter_eq hL, ← hR₁.canonicalBlocksIter_eq hL]
          exact replay_of_synced hU hs hsync
        · rw [hheight]
          exact lists_utxosForScript s script _

/-- Under the emission schedule the canonical set never holds as much as a `u64`. -/
theorem Sound.exactSupply_lt (hU : HashFaithful P U) (hs : Sound P params U node)
    (hbound : emissionSchedule params (node.loadState.height.getD 0) < 2 ^ 64 - 1) {u : UtxoSet}
    (hu : replayUtxo P params node.canonicalChain = .ok u) : exactSupply u < 2 ^ 64 - 1 := by
  obtain ⟨L, hR, hL⟩ := hs.represents hU
  unfold canonicalChain at hu
  rw [hR.canonicalBlocksIter_eq hL] at hu
  by_cases hempty : L.chain = []
  · rw [hempty] at hu
    obtain rfl : (∅ : UtxoSet) = u := Except.ok.inj hu
    simp [exactSupply]
  · obtain ⟨tip, rest, hchain⟩ := List.exists_cons_of_ne_nil hempty
    have hhead : L.chain.head? = some tip := by rw [hchain]; rfl
    have hlen := hL.chain_length hhead
    unfold ChainState.height at hbound
    rw [hR.heightCache, hhead, Option.map_some, Option.getD_some, ← sum_mintAllowance, hlen,
      ← List.length_reverse] at hbound
    have hsupply := exactSupply_replay_le hu
      (fun k b hk => hL.height_of_getElem (hL.chain_ancestry hempty) hk) hbound
    omega

end Node

/-! ## Spending -/

/-- Listed outputs hold no more than the set. -/
theorem Lists.atoms {u : UtxoSet} {height : Nat} {script : Bytes} {utxos selected : List RpcUtxo}
    (h : Lists params u height script utxos) (hsub : selected.Sublist utxos) :
    ((selected.map RpcUtxo.outpoint).map (atomsAt u)).sum = rpcAtoms selected ∧
      rpcAtoms selected ≤ exactSupply u := by
  have hsame : (selected.map RpcUtxo.outpoint).map (atomsAt u)
      = selected.map fun utxo => utxo.valueAtoms.toNat := by
    rw [List.map_map]
    refine List.map_congr_left fun utxo hutxo => ?_
    obtain ⟨entry, hentry, houtput, _⟩ := h.held utxo (hsub.subset hutxo)
    simp [atomsAt, weightAt, hentry, houtput]
  have hspent := weight_eraseAll (fun e : UtxoEntry => e.output.valueAtoms.toNat) u
    (selected.map RpcUtxo.outpoint) ((hsub.map _).nodup h.nodup)
  have hsum : ((selected.map RpcUtxo.outpoint).map (atomsAt u)).sum = rpcAtoms selected := by
    rw [hsame]
    rfl
  refine ⟨hsum, ?_⟩
  rw [← hsum]
  unfold exactSupply
  rw [← hspent]
  exact Nat.le_add_right _ _

/-- The entries behind the inputs of a transaction that spends listed, mature outputs. -/
theorem Lists.entry_of_input {u : UtxoSet} {height : Nat} {script : Bytes}
    {utxos selected : List RpcUtxo} (h : Lists params u height script utxos)
    (hsub : selected.Sublist (utxos.filter RpcUtxo.mature)) {tx : Transaction}
    (houtpoints : tx.outpoints = selected.map RpcUtxo.outpoint) :
    ∀ input ∈ tx.inputs, ∃ entry, u.lookup input.previousOutput = some entry ∧
      entry.output.scriptPubkey = script ∧ (entry.coinbase = true →
        satAdd 64 entry.createdHeight params.coinbaseMaturityBlocks ≤ height) := by
  intro input hinput
  have hop : input.previousOutput ∈ tx.outpoints := List.mem_map.mpr ⟨input, hinput, rfl⟩
  rw [houtpoints] at hop
  obtain ⟨utxo, hutxo, heq⟩ := List.mem_map.mp hop
  obtain ⟨hlisted, hmature⟩ := List.mem_filter.mp (hsub.subset hutxo)
  obtain ⟨entry, hentry, houtput, hage⟩ := h.held utxo hlisted
  exact ⟨entry, by rw [← heq]; exact hentry, by rw [houtput], hage hmature⟩

/-- If it is valid, whatever the fee, the scripts of its inputs execute. -/
theorem Lists.executes {u : UtxoSet} {height : Nat} {script : Bytes}
    {utxos selected : List RpcUtxo} (h : Lists params u height script utxos)
    (hsub : selected.Sublist (utxos.filter RpcUtxo.mature)) {tx : Transaction}
    (houtpoints : tx.outpoints = selected.map RpcUtxo.outpoint) {fee : UInt64}
    (hvalid : validateTransaction P u tx height params = .ok fee) :
    ∀ input ∈ tx.inputs, Script.execute P input.signatureScript script
      ⟨tx.signatureHash P, height⟩ = .ok true := by
  intro input hinput
  obtain ⟨_, hall, _⟩ := validateTransaction_iff.mp hvalid
  obtain ⟨entry, hlookup, _, hexec⟩ := hall input hinput
  obtain ⟨entry', hlookup', hscript, _⟩ := h.entry_of_input hsub houtpoints input hinput
  obtain rfl := Option.some.inj (hlookup.symm.trans hlookup')
  rw [← hscript]
  exact hexec

/-- If they do, and it leaves a fee, it is valid with that fee. -/
theorem Lists.validate {u : UtxoSet} {height : Nat} {script : Bytes}
    {utxos selected : List RpcUtxo} (h : Lists params u height script utxos)
    (hsupply : exactSupply u < 2 ^ 64 - 1)
    (hsub : selected.Sublist (utxos.filter RpcUtxo.mature)) {tx : Transaction} {fee : UInt64}
    (houtpoints : tx.outpoints = selected.map RpcUtxo.outpoint)
    (hsum : outputAtoms tx.outputs + fee.toNat = rpcAtoms selected)
    (hexec : ∀ input ∈ tx.inputs, Script.execute P input.signatureScript script
      ⟨tx.signatureHash P, height⟩ = .ok true) :
    validateTransaction P u tx height params = .ok fee := by
  have hsubAll := hsub.trans List.filter_sublist
  obtain ⟨hatoms, hle⟩ := h.atoms hsubAll
  have hinput : tx.inputAtoms u = rpcAtoms selected := by
    unfold Transaction.inputAtoms
    rw [houtpoints, hatoms]
  refine validateTransaction_of_exact ?_ ?_ (by rw [hinput, hsum]) (by omega)
  · rw [houtpoints]
    exact (hsubAll.map _).nodup h.nodup
  · intro input hinput
    obtain ⟨entry, hlookup, hscript, hmature⟩ := h.entry_of_input hsub houtpoints input hinput
    refine ⟨entry, hlookup, hmature, ?_⟩
    rw [hscript]
    exact hexec input hinput

/-- It is broadcast with success exactly if its scripts execute at the height of the node
    and the mempool takes it. -/
theorem Node.Listed.sent_iff (hU : HashFaithful P U) {node node' : Node} {param : String}
    {utxos selected : List RpcUtxo} {script : Bytes} {u : UtxoSet}
    (h : Node.Listed P params U node param utxos node' script u)
    (hbound : emissionSchedule params (node.loadState.height.getD 0) < 2 ^ 64 - 1)
    (hsub : selected.Sublist (utxos.filter RpcUtxo.mature)) {tx : Transaction} {fee : UInt64}
    (houtpoints : tx.outpoints = selected.map RpcUtxo.outpoint)
    (hsum : outputAtoms tx.outputs + fee.toNat = rpcAtoms selected) (order : PendingOrder) :
    (∃ reply, (node'.sendRawTransaction P params order tx).1 = .ok reply) ↔
      (∀ input ∈ tx.inputs, Script.execute P input.signatureScript script
        ⟨tx.signatureHash P, node.loadState.height.getD 0⟩ = .ok true) ∧
      node'.mempool.Takes tx fee := by
  rw [← h.height_eq] at hbound ⊢
  have hsupply := h.sound.exactSupply_lt hU hbound h.replays
  have hvalid : (∀ input ∈ tx.inputs, Script.execute P input.signatureScript script
      ⟨tx.signatureHash P, node'.loadState.height.getD 0⟩ = .ok true) →
      node'.ValidNow P params tx fee := fun hexec =>
    ⟨u, h.replays, h.lists.validate hsupply hsub houtpoints hsum hexec⟩
  rw [Node.sendRawTransaction_isOk]
  constructor
  · intro hsent
    obtain ⟨fee', ⟨u', hu', hfee⟩, _⟩ := Node.acceptPeerTx_ok hU h.sound hsent
    obtain rfl := Except.ok.inj (hu'.symm.trans h.replays)
    have hexec := h.lists.executes hsub houtpoints hfee
    exact ⟨hexec, (Node.acceptPeerTx_iff hU h.sound (hvalid hexec) order).mp hsent⟩
  · rintro ⟨hexec, htakes⟩
    exact (Node.acceptPeerTx_iff hU h.sound (hvalid hexec) order).mpr htakes

end Tensorium
