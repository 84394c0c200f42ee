import Tensorium.Lib.ExceptFold
import Tensorium.Script.Grammar
import Tensorium.Utxo.Accept
import Tensorium.Wallet.Payment

/-! # Vesting locks of the wallet program

    `build_signed_vesting_via_rpc`: a part of the total is paid at once, the rest in
    time-locked tranches, and what is left of the inputs comes back. The amounts are
    computed with saturating operations, and they are the right ones as long as none of
    them saturates.
-/

namespace Tensorium

open ByteCodec Saturating Script Script.Recognisers

/-! ## The builder -/

/-- `RpcUtxo` of the builder, which reads the transaction id as bytes. -/
structure ListedUtxo where
  txidBytes : Bytes
  outputIndex : UInt32
  valueAtoms : UInt64
  mature : Bool
  deriving DecidableEq

/-- The arguments of the builder that say what is locked. -/
structure VestingTerms where
  recipient : String
  totalAtoms : UInt64
  feeAtoms : UInt64
  startHeight : UInt64
  tranches : UInt64
  interval : UInt64
  liquidBps : UInt64

/-- An entry of the schedule: label, unlock height, atoms and the script in hex. -/
structure ScheduleEntry where
  label : String
  unlockHeight : UInt64
  atoms : UInt64
  scriptHex : String
  deriving DecidableEq

/-- The texts of the errors that signing returns. -/
def WalletError.text : WalletError → String
  | .invalidPrivateKey => "invalid private key"
  | .inputIndexOutOfRange => "input index out of range"

/-- The loop that selects the inputs. -/
def selectInputs (needed : UInt64) :
    UInt64 → List ListedUtxo → Except String (List TxInput × UInt64)
  | atoms, [] => .ok ([], atoms)
  | atoms, utxo :: utxos =>
    if !utxo.mature then selectInputs needed atoms utxos
    else if hsize : utxo.txidBytes.length = 32 then
      let input : TxInput := ⟨⟨⟨utxo.txidBytes, hsize⟩, utxo.outputIndex⟩, []⟩
      let atoms := satAdd64 atoms utxo.valueAtoms
      if atoms ≥ needed then .ok ([input], atoms)
      else (selectInputs needed atoms utxos).map fun (inputs, atoms) => (input :: inputs, atoms)
    else .error "bad txid len"

/-- `copy_from_slice`, which panics if the lengths differ. -/
def copyFromSlice {n : Nat} (dst : ByteVec n) (src : Bytes) : ByteVec n :=
  if hsize : src.length = n then ⟨src, hsize⟩ else dst

/-- The hash in the P2PKH script of the recipient. -/
def rcptHash (rcptSpk : Bytes) : ByteVec 20 :=
  copyFromSlice ⟨List.replicate 20 0, rfl⟩ ((rcptSpk.drop 3).take 20)

namespace VestingTerms

variable (terms : VestingTerms)

def liquid : UInt64 := satMul64 terms.totalAtoms terms.liquidBps / 10000

def vestedTotal : UInt64 := terms.totalAtoms - terms.liquid

def per : UInt64 := terms.vestedTotal / terms.tranches

/-- The amount of a tranche; the last one takes what is left. -/
def amount (i : UInt64) : UInt64 :=
  if i = terms.tranches - 1 then terms.vestedTotal - terms.per * (terms.tranches - 1)
  else terms.per

def unlock (i : UInt64) : UInt64 := terms.startHeight + i * terms.interval

/-- One turn of the loop over the tranches. -/
def tranche (hash20 : ByteVec 20) (i : UInt64) : TxOutput × ScheduleEntry :=
  let spk := cltvP2pkhScript (terms.unlock i) hash20
  (⟨terms.amount i, spk⟩,
    ⟨"tranche " ++ toString (i + 1).toNat, terms.unlock i, terms.amount i, hexEncode spk⟩)

/-- What is paid at once, if anything is. -/
def liquidOutput (rcptSpk : Bytes) : List (TxOutput × ScheduleEntry) :=
  if terms.liquid > 0 then
    [(⟨terms.liquid, rcptSpk⟩, ⟨"liquid", 0, terms.liquid, hexEncode rcptSpk⟩)]
  else []

/-- The loop over the tranches. -/
def trancheOutputs (rcptSpk : Bytes) : List (TxOutput × ScheduleEntry) :=
  (List.range terms.tranches.toNat).map fun i => terms.tranche (rcptHash rcptSpk) (.ofNat i)

/-- The outputs and the schedule, before the change. -/
def lockOutputs (rcptSpk : Bytes) : List (TxOutput × ScheduleEntry) :=
  terms.liquidOutput rcptSpk ++ terms.trancheOutputs rcptSpk

end VestingTerms

/-- The change output, if anything is left. -/
def changeOutput (P : Primitives) (ownAddress : String) (change : UInt64) :
    Except String (List TxOutput) :=
  if change > 0 then
    match p2pkhFromAddress P ownAddress with
    | .error _ => .error "bad wallet addr"
    | .ok own => .ok [⟨change, own⟩]
  else .ok []

/-- `build_signed_vesting_via_rpc`, on what the request for `/getutxos` has come to. -/
def buildSignedVestingViaRpc {P : Primitives} (E : Ecdsa P) (wallet : WalletFile)
    (response : Except String (List ListedUtxo)) (terms : VestingTerms) :
    Except String (Transaction × List ScheduleEntry) :=
  if terms.tranches = 0 then .error "tranches must be >= 1"
  else if terms.liquidBps > 10000 then .error "liquid_bps must be <= 10000"
  else match p2pkhFromAddress P terms.recipient with
  | .error _ => .error ("invalid recipient address: " ++ terms.recipient)
  | .ok rcptSpk => do
    let needed := satAdd64 terms.totalAtoms terms.feeAtoms
    let utxos ← response
    let (inputs, selectedAtoms) ← selectInputs needed 0 utxos
    if selectedAtoms < needed then
      .error ("insufficient mature balance: have " ++ toString selectedAtoms.toNat ++ ", need " ++
        toString needed.toNat)
    else
      let locked := terms.lockOutputs rcptSpk
      let change ← changeOutput P wallet.address
        (selectedAtoms - terms.totalAtoms - terms.feeAtoms)
      match wallet.keypair.signTransaction E
          (.payment P inputs (locked.map Prod.fst ++ change)) with
      | .error e => .error e.text
      | .ok tx => .ok (tx, locked.map Prod.snd)

/-! ## The exact split -/

namespace VestingTerms

variable (terms : VestingTerms)

/-- What is paid at once, rounded down. -/
def liquidAtoms : Nat := terms.totalAtoms.toNat * terms.liquidBps.toNat / 10000

def vestedAtoms : Nat := terms.totalAtoms.toNat - terms.liquidAtoms

end VestingTerms

/-- An even share, rounded down, and for the last one all that is left. -/
def trancheAtoms (vested tranches i : Nat) : Nat :=
  if i + 1 = tranches then vested - vested / tranches * (tranches - 1) else vested / tranches

/-- The values of listed outputs. -/
def listedAtoms (utxos : List ListedUtxo) : Nat := (utxos.map fun u => u.valueAtoms.toNat).sum

/-- The mature outputs that the inputs spend: the first ones of the list. -/
def selectedUtxos (utxos : List ListedUtxo) (inputs : List TxInput) : List ListedUtxo :=
  (utxos.filter ListedUtxo.mature).take inputs.length

/-- The outputs are what is paid at once, the tranches and the change, with the amounts
    and heights the terms ask for. -/
structure SplitsExactly (P : Primitives) (ownAddress : String) (utxos : List ListedUtxo)
    (terms : VestingTerms) (tx : Transaction) (schedule : List ScheduleEntry)
    (liquid locked change : List TxOutput) : Prop where
  outputs : tx.outputs = liquid ++ locked ++ change
  atOnce : ∃ script, p2pkhFromAddress P terms.recipient = .ok script ∧
    liquid.map (fun out => (out.valueAtoms.toNat, out.scriptPubkey))
      = if terms.liquidAtoms = 0 then [] else [(terms.liquidAtoms, script)]
  tranches : locked.length = terms.tranches.toNat
  tranche : ∀ i out, locked[i]? = some out →
    out.valueAtoms.toNat = trancheAtoms terms.vestedAtoms terms.tranches.toNat i ∧
    ∃ height hash20, extractCltvP2pkh out.scriptPubkey = .ok (some (height, hash20)) ∧
      height.toNat = terms.startHeight.toNat + i * terms.interval.toNat ∧
      p2pkhFromAddress P terms.recipient = .ok (p2pkhScript hash20.1)
  total : outputAtoms (liquid ++ locked) = terms.totalAtoms.toNat
  inputs : tx.inputs.map (fun input =>
      (input.previousOutput.txid.bytes, input.previousOutput.outputIndex))
    = (selectedUtxos utxos tx.inputs).map fun utxo => (utxo.txidBytes, utxo.outputIndex)
  funds : listedAtoms (selectedUtxos utxos tx.inputs)
    = terms.totalAtoms.toNat + terms.feeAtoms.toNat + outputAtoms change
  own : change.length ≤ 1 ∧
    ∀ out ∈ change, p2pkhFromAddress P ownAddress = .ok out.scriptPubkey
  schedule : schedule.map (fun entry => (entry.atoms, entry.scriptHex))
    = (liquid ++ locked).map fun out => (out.valueAtoms, hexEncode out.scriptPubkey)

/-- The total times the basis points fits in a `u64`, or is over it by no more than the
    division cuts off. -/
def LiquidFits (terms : VestingTerms) : Prop :=
  terms.totalAtoms.toNat * terms.liquidBps.toNat < 10000 * ((2 ^ 64 - 1) / 10000 + 1)

/-- Some of the first mature outputs cover the total and the fee, with a sum that fits
    in a `u64`. -/
def CoveredBelow (utxos : List ListedUtxo) (terms : VestingTerms) : Prop :=
  ∃ n, terms.totalAtoms.toNat + terms.feeAtoms.toNat
      ≤ listedAtoms ((utxos.filter ListedUtxo.mature).take n) ∧
    listedAtoms ((utxos.filter ListedUtxo.mature).take n) < 2 ^ 64

/-! ## The inputs -/

theorem listedAtoms_take_mono (utxos : List ListedUtxo) {m n : Nat} (h : m ≤ n) :
    listedAtoms (utxos.take m) ≤ listedAtoms (utxos.take n) := by
  unfold listedAtoms
  exact ((List.take_sublist_take_left h).map _).sum_le_sum fun _ _ => Nat.zero_le _

theorem listedAtoms_take_succ (utxos : List ListedUtxo) (n : Nat) :
    listedAtoms (utxos.take (n + 1)) < listedAtoms (utxos.take n) + 2 ^ 64 := by
  unfold listedAtoms
  rw [List.take_add_one, List.map_append, List.sum_append]
  cases utxos[n]? with
  | none => simp
  | some utxo => simpa using utxo.valueAtoms.toNat_lt

/-- What the loop has selected: the first mature outputs, their saturated sum, and no
    more of them than are needed. -/
structure Selected (needed atoms : UInt64) (mature : List ListedUtxo) (inputs : List TxInput)
    (got : UInt64) : Prop where
  named : inputs.map (fun input =>
      (input.previousOutput.txid.bytes, input.previousOutput.outputIndex))
    = (mature.take inputs.length).map fun utxo => (utxo.txidBytes, utxo.outputIndex)
  sum : got.toNat = min (atoms.toNat + listedAtoms (mature.take inputs.length)) (2 ^ 64 - 1)
  least : ∀ n, 0 < n → n < inputs.length → atoms.toNat + listedAtoms (mature.take n) < needed.toNat

theorem listedAtoms_take_cons (utxo : ListedUtxo) (utxos : List ListedUtxo) (n : Nat) :
    listedAtoms ((utxo :: utxos).take (n + 1))
      = utxo.valueAtoms.toNat + listedAtoms (utxos.take n) :=
  List.sum_cons

theorem selectInputs_selected {needed : UInt64} {utxos : List ListedUtxo} {atoms got : UInt64}
    {inputs : List TxInput} (h : selectInputs needed atoms utxos = .ok (inputs, got)) :
    Selected needed atoms (utxos.filter ListedUtxo.mature) inputs got := by
  induction utxos generalizing atoms inputs with
  | nil =>
    obtain ⟨rfl, rfl⟩ := Prod.mk.inj (Except.ok.inj h)
    refine ⟨rfl, ?_, by simp⟩
    have hlt := atoms.toNat_lt
    show atoms.toNat = min (atoms.toNat + 0) (2 ^ 64 - 1)
    omega
  | cons utxo utxos ih =>
    unfold selectInputs at h
    by_cases hmature : utxo.mature = true
    · simp only [hmature, Bool.not_true, Bool.false_eq_true, if_false] at h
      rw [List.filter_cons_of_pos hmature]
      split_ifs at h with hsize henough
      · obtain ⟨rfl, rfl⟩ := Prod.mk.inj (Except.ok.inj h)
        refine ⟨rfl, ?_, ?_⟩
        · rw [toNat_satAdd64]
          rfl
        · intro n hpos hlt
          rw [List.length_singleton] at hlt
          omega
      · obtain ⟨⟨rest, got'⟩, hrest, heq⟩ := ExceptFold.map_eq_ok.mp h
        obtain ⟨rfl, rfl⟩ := Prod.mk.inj heq
        obtain ⟨hnamed, hsum, hleast⟩ := ih hrest
        dsimp only at hnamed hsum hleast ⊢
        have hbelow := UInt64.lt_iff_toNat_lt.mp (UInt64.not_le.mp henough)
        rw [toNat_satAdd64] at hsum hleast hbelow
        refine ⟨?_, ?_, ?_⟩
        · rw [List.length_cons, List.take_succ_cons, List.map_cons, List.map_cons, hnamed]
        · rw [hsum, List.length_cons, listedAtoms_take_cons]
          omega
        · intro n hpos hlt
          obtain ⟨m, rfl⟩ := Nat.exists_eq_succ_of_ne_zero hpos.ne'
          have hneeded := needed.toNat_lt
          rw [listedAtoms_take_cons]
          -- The sum so far did not suffice, and so was not clamped.
          rcases Nat.eq_zero_or_pos m with rfl | hm
          · show atoms.toNat + (utxo.valueAtoms.toNat + 0) < needed.toNat
            omega
          · have hprefix := hleast m hm (by simpa using hlt)
            omega
    · simp only [hmature, Bool.not_false, if_true] at h
      rw [List.filter_cons_of_neg hmature]
      exact ih h

/-- What the saturating sums make of the change is exact if and only if the inputs are
    covered below the largest `u64`. -/
theorem funds_iff {terms : VestingTerms} {utxos : List ListedUtxo} {inputs : List TxInput}
    {got : UInt64}
    (h : Selected (satAdd64 terms.totalAtoms terms.feeAtoms) 0
      (utxos.filter ListedUtxo.mature) inputs got)
    (henough : ¬ got < satAdd64 terms.totalAtoms terms.feeAtoms) :
    listedAtoms (selectedUtxos utxos inputs) = terms.totalAtoms.toNat + terms.feeAtoms.toNat
      + (got - terms.totalAtoms - terms.feeAtoms).toNat ↔ CoveredBelow utxos terms := by
  obtain ⟨_, hsum, hleast⟩ := h
  unfold selectedUtxos CoveredBelow
  rw [UInt64.not_lt, UInt64.le_iff_toNat_le, toNat_satAdd64] at henough
  rw [toNat_satAdd64] at hleast
  simp only [UInt64.toNat_zero, Nat.zero_add] at hsum hleast
  generalize utxos.filter ListedUtxo.mature = mature at *
  have hgot := got.toNat_lt
  have htotal := terms.totalAtoms.toNat_lt
  have hfee := terms.feeAtoms.toNat_lt
  have hnone : listedAtoms (mature.take 0) = 0 := rfl
  -- All but the last input did not suffice.
  have hlast : listedAtoms (mature.take inputs.length) < 2 ^ 65 - 1 := by
    cases hlen : inputs.length with
    | zero => rw [hnone]; decide
    | succ n =>
      have hstep := listedAtoms_take_succ mature n
      rcases Nat.eq_zero_or_pos n with rfl | hn
      · omega
      · have hbefore := hleast n hn (by omega)
        omega
  rw [UInt64.toNat_sub, UInt64.toNat_sub]
  constructor
  · intro hfunds
    exact ⟨inputs.length, by omega, by omega⟩
  · rintro ⟨n, hcovered, hfits⟩
    have hbelow : listedAtoms (mature.take inputs.length) < 2 ^ 64 := by
      rcases Nat.lt_or_ge n inputs.length with hlt | hge
      · rcases Nat.eq_zero_or_pos n with rfl | hn
        · -- Nothing was needed, and there is one input at most.
          rw [hnone] at hcovered
          have hone : inputs.length = 1 := by
            by_contra hne
            have hbefore := hleast 1 (by omega) (by omega)
            omega
          rw [hone]
          have hstep := listedAtoms_take_succ mature 0
          rwa [hnone, Nat.zero_add] at hstep
        · have hbefore := hleast n hn hlt
          omega
      · exact (listedAtoms_take_mono mature hge).trans_lt hfits
    omega

/-! ## The amounts -/

namespace VestingTerms

variable {terms : VestingTerms}

theorem toNat_liquid : terms.liquid.toNat
    = min (terms.totalAtoms.toNat * terms.liquidBps.toNat) (2 ^ 64 - 1) / 10000 := by
  unfold liquid
  rw [UInt64.toNat_div, toNat_satMul64]
  rfl

/-- The share is the one asked for, or too small. -/
theorem toNat_liquid_eq_iff : terms.liquid.toNat = terms.liquidAtoms ↔ LiquidFits terms := by
  rw [toNat_liquid]
  unfold liquidAtoms LiquidFits
  omega

theorem toNat_liquid_le (hbps : terms.liquidBps ≤ 10000) :
    terms.liquid.toNat ≤ terms.totalAtoms.toNat := by
  have hle : terms.liquidBps.toNat ≤ 10000 := UInt64.le_iff_toNat_le.mp hbps
  rw [toNat_liquid]
  have hprod : terms.totalAtoms.toNat * terms.liquidBps.toNat ≤ terms.totalAtoms.toNat * 10000 :=
    Nat.mul_le_mul_left _ hle
  omega

theorem toNat_vestedTotal (hbps : terms.liquidBps ≤ 10000) :
    terms.vestedTotal.toNat = terms.totalAtoms.toNat - terms.liquid.toNat :=
  UInt64.toNat_sub_of_le _ _ (UInt64.le_iff_toNat_le.mpr (toNat_liquid_le hbps))

theorem toNat_amount {i : Nat} (hi : i < terms.tranches.toNat) :
    (terms.amount (.ofNat i)).toNat
      = trancheAtoms terms.vestedTotal.toNat terms.tranches.toNat i := by
  have hlt := terms.tranches.toNat_lt
  have hitoNat : (UInt64.ofNat i).toNat = i := UInt64.toNat_ofNat_of_lt' (hi.trans hlt)
  have hpred : (terms.tranches - 1).toNat = terms.tranches.toNat - 1 :=
    UInt64.toNat_sub_of_le _ _ (UInt64.le_iff_toNat_le.mpr (show 1 ≤ _ by omega))
  have hper : terms.per.toNat = terms.vestedTotal.toNat / terms.tranches.toNat :=
    UInt64.toNat_div _ _
  have hshare : terms.per.toNat * (terms.tranches.toNat - 1) ≤ terms.vestedTotal.toNat := by
    rw [hper]
    exact (Nat.mul_le_mul_left _ (Nat.sub_le _ _)).trans (Nat.div_mul_le_self _ _)
  have hvested := terms.vestedTotal.toNat_lt
  -- All even shares together are at most the vested total, so no product wraps.
  have hmul : (terms.per * (terms.tranches - 1)).toNat
      = terms.per.toNat * (terms.tranches.toNat - 1) := by
    rw [UInt64.toNat_mul, hpred, Nat.mod_eq_of_lt (by omega)]
  have hlast : UInt64.ofNat i = terms.tranches - 1 ↔ i + 1 = terms.tranches.toNat := by
    rw [← UInt64.toNat_inj, hitoNat, hpred]
    omega
  unfold amount trancheAtoms
  by_cases hi' : i + 1 = terms.tranches.toNat
  · have hle : terms.per * (terms.tranches - 1) ≤ terms.vestedTotal := by
      rw [UInt64.le_iff_toNat_le, hmul]
      exact hshare
    rw [if_pos (hlast.mpr hi'), if_pos hi', UInt64.toNat_sub_of_le _ _ hle, hmul, hper]
  · rw [if_neg (mt hlast.mp hi'), if_neg hi', hper]

theorem toNat_unlock (hheights : terms.startHeight.toNat +
      terms.tranches.toNat * terms.interval.toNat < 2 ^ 64)
    {i : Nat} (hi : i < terms.tranches.toNat) :
    (terms.unlock (.ofNat i)).toNat = terms.startHeight.toNat + i * terms.interval.toNat := by
  have hlt := terms.tranches.toNat_lt
  have hitoNat : (UInt64.ofNat i).toNat = i := UInt64.toNat_ofNat_of_lt' (hi.trans hlt)
  have hle : i * terms.interval.toNat ≤ terms.tranches.toNat * terms.interval.toNat :=
    Nat.mul_le_mul_right _ hi.le
  unfold unlock
  rw [UInt64.toNat_add, UInt64.toNat_mul, hitoNat, Nat.add_mod_mod, Nat.mod_eq_of_lt (by omega)]

end VestingTerms

/-- The tranches add up, whatever the remainder. -/
theorem sum_trancheAtoms (vested : Nat) {tranches : Nat} (h : tranches ≠ 0) :
    ((List.range tranches).map (trancheAtoms vested tranches)).sum = vested := by
  obtain ⟨n, rfl⟩ := Nat.exists_eq_succ_of_ne_zero h
  have heven : (List.range n).map (trancheAtoms vested (n + 1))
      = (List.range n).map fun _ => vested / (n + 1) := by
    apply List.map_congr_left
    intro i hi
    have hlt := List.mem_range.mp hi
    unfold trancheAtoms
    rw [if_neg (by omega)]
  have hle : vested / (n + 1) * n ≤ vested :=
    (Nat.mul_le_mul_left _ (Nat.le_succ n)).trans (Nat.div_mul_le_self _ _)
  rw [List.range_succ, List.map_append, List.sum_append, heven, List.map_const',
    List.sum_replicate, List.length_range, smul_eq_mul, List.map_singleton, List.sum_singleton]
  unfold trancheAtoms
  rw [if_pos rfl, Nat.succ_eq_add_one, Nat.add_sub_cancel, Nat.mul_comm n]
  omega

/-! ## What is built -/

variable {P : Primitives} {E : Ecdsa P} {wallet : WalletFile}

/-- What has happened when the builder returns `Ok`. -/
structure Built (P : Primitives) (wallet : WalletFile) (utxos : List ListedUtxo)
    (terms : VestingTerms) (tx : Transaction) (schedule : List ScheduleEntry) (rcptSpk : Bytes)
    (inputs : List TxInput) (got : UInt64) (change : List TxOutput) : Prop where
  tranches : terms.tranches ≠ 0
  liquidBps : terms.liquidBps ≤ 10000
  recipient : p2pkhFromAddress P terms.recipient = .ok rcptSpk
  selected : selectInputs (satAdd64 terms.totalAtoms terms.feeAtoms) 0 utxos = .ok (inputs, got)
  enough : ¬ got < satAdd64 terms.totalAtoms terms.feeAtoms
  inputs : tx.inputs.map TxInput.previousOutput = inputs.map TxInput.previousOutput
  outputs : tx.outputs = (terms.lockOutputs rcptSpk).map Prod.fst ++ change
  schedule : schedule = (terms.lockOutputs rcptSpk).map Prod.snd
  leftOver : changeOutput P wallet.address (got - terms.totalAtoms - terms.feeAtoms) = .ok change

/-- Signing keeps what the inputs spend. -/
theorem signTransaction_inputs {k : WalletKeypair} {tx tx' : Transaction}
    (h : k.signTransaction E tx = .ok tx') :
    tx'.inputs.map TxInput.previousOutput = tx.inputs.map TxInput.previousOutput := by
  unfold WalletKeypair.signTransaction at h
  cases hscript : k.scriptSig E tx with
  | error e =>
    rw [hscript] at h
    cases h
  | ok script =>
    rw [hscript] at h
    obtain rfl := Except.ok.inj h
    show (tx.inputs.map _).map _ = _
    rw [List.map_map]
    rfl

theorem buildSignedVestingViaRpc_built {utxos : List ListedUtxo} {terms : VestingTerms}
    {tx : Transaction} {schedule : List ScheduleEntry}
    (h : buildSignedVestingViaRpc E wallet (.ok utxos) terms = .ok (tx, schedule)) :
    ∃ rcptSpk inputs got change,
      Built P wallet utxos terms tx schedule rcptSpk inputs got change := by
  unfold buildSignedVestingViaRpc at h
  split_ifs at h with htranches hbps
  split at h
  · cases h
  next rcptSpk hspk =>
    obtain ⟨utxos', hresponse, h⟩ := ExceptFold.bind_eq_ok.mp h
    obtain rfl := Except.ok.inj hresponse
    obtain ⟨⟨inputs, got⟩, hselect, h⟩ := ExceptFold.bind_eq_ok.mp h
    dsimp only at h
    split_ifs at h with henough
    obtain ⟨change, hchange, h⟩ := ExceptFold.bind_eq_ok.mp h
    split at h
    · cases h
    next signed hsign =>
      obtain ⟨rfl, rfl⟩ := Prod.mk.inj (Except.ok.inj h)
      exact ⟨rcptSpk, inputs, got, change, htranches, UInt64.not_lt.mp hbps, hspk, hselect,
        henough, signTransaction_inputs hsign, signTransaction_outputs hsign, rfl, hchange⟩

theorem p2pkhFromAddress_rcptHash {addr : String} {spk : Bytes}
    (h : p2pkhFromAddress P addr = .ok spk) : spk = p2pkhScript (rcptHash spk).1 := by
  unfold p2pkhFromAddress at h
  split at h
  · cases h
  next hrp data hdecode =>
    split_ifs at h
    split at h
    · cases h
    next hash20 hdata =>
      split_ifs at h with hsize
      obtain rfl := Except.ok.inj h
      rw [not_not] at hsize
      have hslice : ((p2pkhScript hash20).drop 3).take 20 = hash20 := by
        rw [← hsize]
        exact List.take_left
      unfold rcptHash copyFromSlice
      rw [dif_pos (by rw [hslice, hsize])]
      exact congrArg p2pkhScript hslice.symm

theorem map_values {outs : List TxOutput} {pairs : List (Nat × Bytes)}
    (h : outs.map (fun out => (out.valueAtoms.toNat, out.scriptPubkey)) = pairs) :
    outs.map (fun out => out.valueAtoms.toNat) = pairs.map Prod.fst := by
  rw [← h, List.map_map]
  rfl

@[simp] theorem outputAtoms_append (as bs : List TxOutput) :
    outputAtoms (as ++ bs) = outputAtoms as + outputAtoms bs := by
  unfold outputAtoms
  rw [List.map_append, List.sum_append]

theorem outputAtoms_changeOutput {ownAddress : String} {change : UInt64} {outputs : List TxOutput}
    (h : changeOutput P ownAddress change = .ok outputs) :
    outputAtoms outputs = change.toNat ∧ outputs.length ≤ 1 ∧
      ∀ out ∈ outputs, p2pkhFromAddress P ownAddress = .ok out.scriptPubkey := by
  unfold changeOutput at h
  split_ifs at h with hpos
  · split at h
    · cases h
    next own hown =>
      obtain rfl := Except.ok.inj h
      exact ⟨by simp [outputAtoms], by simp, by simpa using hown⟩
  · obtain rfl := Except.ok.inj h
    have hzero : change = 0 := by
      rw [← UInt64.toNat_inj]
      exact Nat.eq_zero_of_not_pos fun hlt => hpos (UInt64.lt_iff_toNat_lt.mpr hlt)
    exact ⟨by rw [hzero]; rfl, by simp, by simp⟩

namespace VestingTerms

variable {terms : VestingTerms}

theorem liquidOutput_fst (terms : VestingTerms) (rcptSpk : Bytes) :
    ((terms.liquidOutput rcptSpk).map Prod.fst).map (fun out =>
        (out.valueAtoms.toNat, out.scriptPubkey))
      = if terms.liquid.toNat = 0 then [] else [(terms.liquid.toNat, rcptSpk)] := by
  unfold liquidOutput
  by_cases hpos : terms.liquid > 0
  · have hne : terms.liquid.toNat ≠ 0 := (UInt64.lt_iff_toNat_lt.mp hpos).ne'
    rw [if_pos hpos, if_neg hne]
    rfl
  · have hzero : terms.liquid.toNat = 0 :=
      Nat.eq_zero_of_not_pos fun hlt => hpos (UInt64.lt_iff_toNat_lt.mpr hlt)
    rw [if_neg hpos, if_pos hzero]
    rfl

theorem outputAtoms_liquidOutput (rcptSpk : Bytes) :
    outputAtoms ((terms.liquidOutput rcptSpk).map Prod.fst) = terms.liquid.toNat := by
  unfold outputAtoms
  rw [map_values (liquidOutput_fst terms rcptSpk)]
  split_ifs with hzero
  · exact hzero.symm
  · simp

theorem outputAtoms_trancheOutputs (htranches : terms.tranches ≠ 0) (rcptSpk : Bytes) :
    outputAtoms ((terms.trancheOutputs rcptSpk).map Prod.fst) = terms.vestedTotal.toNat := by
  have hne : terms.tranches.toNat ≠ 0 := fun h => htranches (UInt64.toNat_inj.mp h)
  have hvalues : ((terms.trancheOutputs rcptSpk).map Prod.fst).map (fun out => out.valueAtoms.toNat)
      = (List.range terms.tranches.toNat).map
        (trancheAtoms terms.vestedTotal.toNat terms.tranches.toNat) := by
    unfold trancheOutputs
    rw [List.map_map, List.map_map]
    apply List.map_congr_left
    intro i hi
    exact toNat_amount (List.mem_range.mp hi)
  unfold outputAtoms
  rw [hvalues, sum_trancheAtoms _ hne]

/-- Nothing of the total is lost or added, also where the share saturates. -/
theorem outputAtoms_lockOutputs (htranches : terms.tranches ≠ 0) (hbps : terms.liquidBps ≤ 10000)
    (rcptSpk : Bytes) :
    outputAtoms ((terms.lockOutputs rcptSpk).map Prod.fst) = terms.totalAtoms.toNat := by
  have hle := toNat_liquid_le hbps
  unfold lockOutputs
  rw [List.map_append, outputAtoms_append, outputAtoms_liquidOutput,
    outputAtoms_trancheOutputs htranches, toNat_vestedTotal hbps]
  omega

theorem schedule_lockOutputs (rcptSpk : Bytes) :
    ((terms.lockOutputs rcptSpk).map Prod.snd).map (fun entry => (entry.atoms, entry.scriptHex))
      = ((terms.lockOutputs rcptSpk).map Prod.fst).map fun out =>
          (out.valueAtoms, hexEncode out.scriptPubkey) := by
  unfold lockOutputs
  simp only [List.map_append, List.map_map]
  congr 1
  · unfold liquidOutput
    split_ifs <;> rfl
  · unfold trancheOutputs
    rw [List.map_map, List.map_map]
    rfl

end VestingTerms

open VestingTerms

variable {utxos : List ListedUtxo} {terms : VestingTerms} {tx : Transaction}
  {schedule : List ScheduleEntry} {rcptSpk : Bytes} {inputs : List TxInput} {got : UInt64}
  {change : List TxOutput}

theorem Built.selectedUtxos_eq
    (h : Built P wallet utxos terms tx schedule rcptSpk inputs got change) :
    selectedUtxos utxos tx.inputs = selectedUtxos utxos inputs := by
  have hlen := congrArg List.length h.inputs
  rw [List.length_map, List.length_map] at hlen
  unfold selectedUtxos
  rw [hlen]

/-- Without saturation the split is the exact one. -/
theorem Built.splitsExactly
    (h : Built P wallet utxos terms tx schedule rcptSpk inputs got change)
    (hheights : terms.startHeight.toNat + terms.tranches.toNat * terms.interval.toNat < 2 ^ 64)
    (hfits : LiquidFits terms) (hcovered : CoveredBelow utxos terms) :
    SplitsExactly P wallet.address utxos terms tx schedule
      ((terms.liquidOutput rcptSpk).map Prod.fst) ((terms.trancheOutputs rcptSpk).map Prod.fst)
      change := by
  have hliquid := toNat_liquid_eq_iff.mpr hfits
  have hselected := selectInputs_selected h.selected
  obtain ⟨hchange, hown⟩ := outputAtoms_changeOutput h.leftOver
  refine ⟨?_, ⟨rcptSpk, h.recipient, ?_⟩, ?_, ?_, ?_, ?_, ?_, hown, ?_⟩
  · rw [h.outputs, ← List.map_append]
    rfl
  · rw [liquidOutput_fst, hliquid]
  · rw [List.length_map]
    unfold trancheOutputs
    rw [List.length_map, List.length_range]
  · -- The script of a tranche gives back its height and the hash of the recipient.
    intro i out hout
    unfold trancheOutputs at hout
    rw [List.map_map, List.getElem?_map, Option.map_eq_some_iff] at hout
    obtain ⟨j, hj, rfl⟩ := hout
    obtain ⟨hi, rfl⟩ := List.getElem?_eq_some_iff.mp hj
    rw [List.length_range] at hi
    rw [List.getElem_range]
    refine ⟨?_, _, rcptHash rcptSpk,
      extractCltvP2pkh_eq_some_iff.mpr ⟨_, length_encodeLocktime _,
        leNat_encodeLocktime _, cltvP2pkhScript_eq_render _ _⟩, toNat_unlock hheights hi, ?_⟩
    · rw [VestingTerms.vestedAtoms, ← hliquid, ← toNat_vestedTotal h.liquidBps]
      exact toNat_amount hi
    · rw [← p2pkhFromAddress_rcptHash h.recipient]
      exact h.recipient
  · rw [← List.map_append]
    exact outputAtoms_lockOutputs h.tranches h.liquidBps rcptSpk
  · rw [h.selectedUtxos_eq, selectedUtxos, ← hselected.named]
    have hnamed := congrArg (List.map fun op : OutPoint => (op.txid.bytes, op.outputIndex)) h.inputs
    rwa [List.map_map, List.map_map] at hnamed
  · rw [h.selectedUtxos_eq, hchange]
    exact (funds_iff hselected h.enough).mpr hcovered
  · rw [h.schedule, ← List.map_append]
    exact schedule_lockOutputs rcptSpk

/-- If anything is to be paid at once, it comes first. -/
theorem SplitsExactly.head_value {liquid locked change : List TxOutput} {ownAddress : String}
    (h : SplitsExactly P ownAddress utxos terms tx schedule liquid locked change)
    (hne : terms.liquidAtoms ≠ 0) :
    (tx.outputs.map fun out => out.valueAtoms.toNat).head? = some terms.liquidAtoms := by
  obtain ⟨script, _, hliquid⟩ := h.atOnce
  rw [if_neg hne] at hliquid
  rw [h.outputs, List.append_assoc, List.map_append, map_values hliquid]
  rfl

/-- What is split exactly was computed without saturating. -/
theorem Built.of_splitsExactly
    (h : Built P wallet utxos terms tx schedule rcptSpk inputs got change)
    {liquid locked change' : List TxOutput}
    (hsplit : SplitsExactly P wallet.address utxos terms tx schedule liquid locked change') :
    LiquidFits terms ∧ CoveredBelow utxos terms := by
  constructor
  · by_contra hover
    -- The share saturates, so there is a liquid output, and it comes first in both.
    have hless : terms.liquid.toNat ≠ 0 ∧ terms.liquid.toNat < terms.liquidAtoms := by
      unfold LiquidFits at hover
      rw [toNat_liquid, VestingTerms.liquidAtoms]
      omega
    have hfirst := hsplit.head_value (by omega)
    have houtputs : tx.outputs = (terms.liquidOutput rcptSpk).map Prod.fst ++
        ((terms.trancheOutputs rcptSpk).map Prod.fst ++ change) := by
      rw [h.outputs, lockOutputs, List.map_append, List.append_assoc]
    have hown := liquidOutput_fst terms rcptSpk
    rw [if_neg hless.1] at hown
    rw [houtputs, List.map_append, map_values hown] at hfirst
    exact hless.2.ne (Option.some.inj hfirst)
  · -- Both ways to add up the outputs give the total, so the changes are the same.
    obtain ⟨hchange, _⟩ := outputAtoms_changeOutput h.leftOver
    have hsum := congrArg outputAtoms (hsplit.outputs.symm.trans h.outputs)
    rw [outputAtoms_append (liquid ++ locked), hsplit.total, outputAtoms_append,
      outputAtoms_lockOutputs h.tranches h.liquidBps, Nat.add_left_cancel_iff, hchange] at hsum
    have hfunds := hsplit.funds
    rw [h.selectedUtxos_eq, hsum] at hfunds
    exact (funds_iff (selectInputs_selected h.selected) h.enough).mp hfunds

/-- **A vesting lock splits exactly if and only if nothing saturates**: neither the product
    of the total and the basis points, nor the sum of the inputs that cover the total and
    the fee. -/
theorem vesting_splits_iff {response : Except String (List ListedUtxo)}
    (hresponse : response = .ok utxos)
    (hbuilt : buildSignedVestingViaRpc E wallet response terms = .ok (tx, schedule))
    (hheights : terms.startHeight.toNat + terms.tranches.toNat * terms.interval.toNat < 2 ^ 64) :
    (∃ liquid locked change,
        SplitsExactly P wallet.address utxos terms tx schedule liquid locked change)
      ↔ LiquidFits terms ∧ CoveredBelow utxos terms := by
  subst hresponse
  obtain ⟨rcptSpk, inputs, got, change, hbuilt⟩ := buildSignedVestingViaRpc_built hbuilt
  constructor
  · rintro ⟨liquid, locked, change', hsplit⟩
    exact hbuilt.of_splitsExactly hsplit
  · rintro ⟨hfits, hcovered⟩
    exact ⟨_, _, _, hbuilt.splitsExactly hheights hfits hcovered⟩

/-- A wallet of the sample instance. -/
def vestingWallet : WalletFile where
  address := "txm1w"
  keypair := .fromSigningKey Ecdsa.sample ⟨List.replicate 33 11, by simp⟩

/-- What the node lists for it: one output of `atoms`. -/
def oneListed (atoms : UInt64) : List ListedUtxo :=
  [⟨List.replicate 32 1, 0, atoms, true⟩]

/-- A tenth at once, and the rest in three tranches. -/
def tenthAtOnce : VestingTerms := ⟨"txm1r", 1004, 5, 100, 3, 10, 1000⟩

/-- Of 1004 atoms 100 are paid at once, and 301, 301 and 302 later. -/
theorem vesting_splits_iff_tenth :
    ∃ tx schedule, buildSignedVestingViaRpc Ecdsa.sample vestingWallet (.ok (oneListed 2000))
        tenthAtOnce = .ok (tx, schedule) ∧
      tx.outputs.map TxOutput.valueAtoms = [100, 301, 301, 302, 991] ∧
      ∃ liquid locked change, SplitsExactly Primitives.sample vestingWallet.address
        (oneListed 2000) tenthAtOnce tx schedule liquid locked change := by
  have hrun : (buildSignedVestingViaRpc Ecdsa.sample vestingWallet (.ok (oneListed 2000))
      tenthAtOnce).map (fun r => r.1.outputs.map TxOutput.valueAtoms)
        = .ok [100, 301, 301, 302, 991] := by
    decide +kernel
  obtain ⟨⟨tx, schedule⟩, hbuilt, hvalues⟩ := ExceptFold.map_eq_ok.mp hrun
  refine ⟨tx, schedule, hbuilt, hvalues,
    (vesting_splits_iff rfl hbuilt (by decide)).mpr ⟨?_, 1, ?_⟩⟩
  · unfold LiquidFits
    decide
  · decide

/-- All coins there can be, to be paid at once. -/
def allAtOnce : VestingTerms := ⟨"txm1r", 33000000 * 100000000, 0, 100, 1, 10, 10000⟩

/-- Little more than half of them is. -/
theorem vesting_liquid_saturates :
    ∃ tx schedule, buildSignedVestingViaRpc Ecdsa.sample vestingWallet
        (.ok (oneListed (33000000 * 100000000))) allAtOnce = .ok (tx, schedule) ∧
      tx.outputs.map TxOutput.valueAtoms = [1844674407370955, 1455325592629045] ∧
      ¬ ∃ liquid locked change, SplitsExactly Primitives.sample vestingWallet.address
        (oneListed (33000000 * 100000000)) allAtOnce tx schedule liquid locked change := by
  have hrun : (buildSignedVestingViaRpc Ecdsa.sample vestingWallet
      (.ok (oneListed (33000000 * 100000000))) allAtOnce).map (fun r =>
        r.1.outputs.map TxOutput.valueAtoms) = .ok [1844674407370955, 1455325592629045] := by
    decide +kernel
  obtain ⟨⟨tx, schedule⟩, hbuilt, hvalues⟩ := ExceptFold.map_eq_ok.mp hrun
  refine ⟨tx, schedule, hbuilt, hvalues, ?_⟩
  rintro ⟨liquid, locked, change, hsplit⟩
  have hfirst := hsplit.head_value (by decide)
  have hpaid := congrArg (fun l => (l.map UInt64.toNat).head?) hvalues
  dsimp only at hpaid
  rw [List.map_map] at hpaid
  exact absurd (hfirst.symm.trans hpaid) (by decide)

end Tensorium
