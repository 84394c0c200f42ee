import Tensorium.Lib.Apportion
import Tensorium.Settlement.Layout

/-! # The dues of a settlement

    Two dues owed to one address may be found in one output. For which terms a
    transaction that passes the check pays every due separately, and how another
    one passes by when they are not such terms.
-/

namespace Tensorium

open Assets

variable {encode : String → Bytes → String} {terms : SettlementTerms} {tx : Transaction}

/-! ## Amounts by address -/

/-- What a list of dues holds for an address. -/
def sumTo (addr : String) (dues : List (String × Nat)) : Nat :=
  ((dues.filter fun due => due.1 = addr).map Prod.snd).sum

theorem sumTo_nil (addr : String) : sumTo addr [] = 0 := rfl

theorem sumTo_cons (addr : String) (due : String × Nat) (dues : List (String × Nat)) :
    sumTo addr (due :: dues) = (if due.1 = addr then due.2 else 0) + sumTo addr dues := by
  unfold sumTo
  by_cases haddr : due.1 = addr
  · rw [List.filter_cons_of_pos (by simpa using haddr), if_pos haddr, List.map_cons, List.sum_cons]
  · rw [List.filter_cons_of_neg (by simpa using haddr), if_neg haddr, Nat.zero_add]

/-- Dues of zero add nothing. -/
theorem sumTo_filter_pos (addr : String) (dues : List (String × Nat)) :
    sumTo addr (dues.filter fun due => 0 < due.2) = sumTo addr dues := by
  induction dues with
  | nil => rfl
  | cons due dues ih =>
    by_cases hpos : 0 < due.2
    · rw [List.filter_cons_of_pos (by simpa using hpos), sumTo_cons, sumTo_cons, ih]
    · rw [List.filter_cons_of_neg (by simpa using hpos), sumTo_cons, ih]
      split_ifs
      · omega
      · omega

/-- Distinct values that are all among others add up to no more. -/
theorem sum_le_of_nodup {values others : List Nat} (hnodup : values.Nodup)
    (hsub : values ⊆ others) : values.sum ≤ others.sum := by
  simpa using Apportion.sum_map_le_of_nodup id hnodup hsub

/-! ## Dues and terms -/

namespace SettlementTerms

/-- All dues. -/
def dues (terms : SettlementTerms) : List (String × Nat) :=
  (terms.sellerAddr, terms.netPrice) :: terms.exactDues

/-- What is due to an address. -/
def dueTo (terms : SettlementTerms) (addr : String) : Nat := sumTo addr terms.dues

/-- Dues that no output can be found for twice: two exact ones to one address differ
    in their amounts, and an exact one to the seller is less than the net price. -/
structure Separated (terms : SettlementTerms) : Prop where
  exact : (terms.exactDues.filter fun due => 0 < due.2).Nodup
  net : ∀ due ∈ terms.exactDues, due.1 = terms.sellerAddr → 0 < terms.netPrice →
    due.2 < terms.netPrice

/-- Terms that some transaction meets: the shares of the price add up without an
    overflow, and every address that must be paid is that of a script. -/
structure Payable (encode : String → Bytes → String) (terms : SettlementTerms) : Prop where
  fees_fit : terms.split.1.toNat + terms.split.2.toNat < 2 ^ 64
  seller : ∃ script, Script.extractAddress encode script = some terms.sellerAddr
  exact : ∀ due ∈ terms.exactDues, 0 < due.2 →
    ∃ script, Script.extractAddress encode script = some due.1

end SettlementTerms

/-! ## Separated dues are paid -/

/-- The outputs that the check finds for the exact dues. -/
theorem exactDues_found (hverified : verifySettlement encode tx terms = some []) :
    ∀ due ∈ terms.exactDues, 0 < due.2 → due.2 ∈ tx.valuesTo encode due.1 := by
  obtain ⟨_, _, hcarrier, hplatform, hroyalty, _⟩ := verifySettlement_nil_iff.mp hverified
  obtain ⟨carrier, rest, houtputs, hvalue, hpays⟩ := hcarrier
  have hcarrierMem : carrier ∈ tx.outputs := by
    rw [houtputs]
    exact List.mem_cons_self
  have hfound : carrierAtoms.toNat ∈ tx.valuesTo encode terms.buyerAddr := by
    rw [← hvalue]
    exact List.mem_map_of_mem (List.mem_filter.mpr ⟨hcarrierMem, hpays⟩)
  intro due hdue hpos
  rcases List.mem_cons.mp hdue with rfl | hdue
  · exact hfound
  · rcases List.mem_cons.mp hdue with rfl | hdue
    · exact hplatform hpos
    · obtain rfl := List.mem_singleton.mp hdue
      exact hroyalty hpos

/-- The positive exact dues to an address. -/
def SettlementTerms.amountsTo (terms : SettlementTerms) (addr : String) : List Nat :=
  ((terms.exactDues.filter fun due => 0 < due.2).filter fun due => due.1 = addr).map Prod.snd

theorem dueTo_eq (terms : SettlementTerms) (addr : String) :
    terms.dueTo addr = (if terms.sellerAddr = addr then terms.netPrice else 0)
      + (terms.amountsTo addr).sum := by
  show sumTo addr (_ :: terms.exactDues) = _
  rw [sumTo_cons, ← sumTo_filter_pos addr terms.exactDues]
  rfl

/-- Separated dues are paid separately. -/
theorem SettlementTerms.Separated.dueTo_le_paidTo (hseparated : terms.Separated)
    (hverified : verifySettlement encode tx terms = some []) (addr : String) :
    terms.dueTo addr ≤ tx.paidTo encode addr := by
  have hmem : ∀ amount ∈ terms.amountsTo addr, (addr, amount) ∈ terms.exactDues ∧ 0 < amount := by
    intro amount hamount
    obtain ⟨due, hdue, rfl⟩ := List.mem_map.mp hamount
    obtain ⟨hdue, haddr⟩ := List.mem_filter.mp hdue
    obtain ⟨hdue, hpos⟩ := List.mem_filter.mp hdue
    rw [← of_decide_eq_true haddr]
    exact ⟨hdue, of_decide_eq_true hpos⟩
  have hsub : terms.amountsTo addr ⊆ tx.valuesTo encode addr := by
    intro amount hamount
    obtain ⟨hdue, hpos⟩ := hmem amount hamount
    exact exactDues_found hverified _ hdue hpos
  have hnodup : (terms.amountsTo addr).Nodup := by
    apply List.Nodup.map_on _ (hseparated.exact.filter _)
    intro due hdue other hother hamounts
    have haddr := of_decide_eq_true (List.mem_filter.mp hdue).2
    have haddr' := of_decide_eq_true (List.mem_filter.mp hother).2
    exact Prod.ext (haddr.trans haddr'.symm) hamounts
  rw [dueTo_eq]
  show _ ≤ (tx.valuesTo encode addr).sum
  by_cases hnet : terms.sellerAddr = addr ∧ 0 < terms.netPrice
  · -- The output of the seller is larger than any found for the exact dues.
    obtain ⟨hseller, hpos⟩ := hnet
    obtain ⟨_, _, _, _, _, value, hvalue, hle⟩ := verifySettlement_nil_iff.mp hverified
    rw [hseller] at hvalue
    have hlarger : value ∉ terms.amountsTo addr := by
      intro hamount
      have hlt := hseparated.net _ (hmem value hamount).1 hseller.symm hpos
      exact absurd hle (Nat.not_le_of_lt hlt)
    have hsum := sum_le_of_nodup (List.nodup_cons.mpr ⟨hlarger, hnodup⟩)
      (List.cons_subset.mpr ⟨hvalue, hsub⟩)
    rw [List.sum_cons] at hsum
    rw [if_pos hseller]
    omega
  · have hsum := sum_le_of_nodup hnodup hsub
    have hzero : (if terms.sellerAddr = addr then terms.netPrice else 0) = 0 := by
      split_ifs with hseller
      · exact Nat.eq_zero_of_not_pos fun hpos => hnet ⟨hseller, hpos⟩
      · rfl
    rw [hzero, Nat.zero_add]
    exact hsum

/-- Only terms that can be met are met. -/
theorem payable_of_verified (hverified : verifySettlement encode tx terms = some []) :
    terms.Payable encode := by
  have hscript : ∀ {addr : String} {value : Nat}, value ∈ tx.valuesTo encode addr →
      ∃ script, Script.extractAddress encode script = some addr := by
    intro addr value hvalue
    obtain ⟨out, hout, _⟩ := List.mem_map.mp hvalue
    exact ⟨out.scriptPubkey, of_decide_eq_true (List.mem_filter.mp hout).2⟩
  obtain ⟨hfit, _, _, _, _, value, hvalue, _⟩ := verifySettlement_nil_iff.mp hverified
  refine ⟨hfit, hscript hvalue, ?_⟩
  intro due hdue hpos
  exact hscript (exactDues_found hverified due hdue hpos)

/-! ## Dues that share an output -/

/-- An output that pays a due, by a script for its address. -/
def dueOutput (script : String → Bytes) (due : String × Nat) : TxOutput :=
  ⟨UInt64.ofNat due.2, script due.1⟩

/-- The carrier, the transfer, and an output for each of some dues. -/
def paying (script : String → Bytes) (terms : SettlementTerms) (kept : List (String × Nat)) :
    Transaction :=
  ⟨Hash256.zero, [], dueOutput script (terms.buyerAddr, carrierAtoms.toNat)
    :: transferOutput terms :: kept.map (dueOutput script), []⟩

theorem paysTo_dueOutput {script : String → Bytes} {due : String × Nat}
    (hscript : Script.extractAddress encode (script due.1) = some due.1) (addr : String) :
    (dueOutput script due).paysTo encode addr = decide (due.1 = addr) := by
  show decide (Script.extractAddress encode (script due.1) = some addr) = _
  rw [hscript]
  exact decide_eq_decide.mpr Option.some_inj

theorem valuesTo_outputs {script : String → Bytes} {dues : List (String × Nat)}
    (hscript : ∀ due ∈ dues, Script.extractAddress encode (script due.1) = some due.1)
    (hfit : ∀ due ∈ dues, due.2 < 2 ^ 64) (addr : String) :
    ((dues.map (dueOutput script)).filter (TxOutput.paysTo encode addr)).map
        (fun o => o.valueAtoms.toNat)
      = (dues.filter fun due => due.1 = addr).map Prod.snd := by
  induction dues with
  | nil => rfl
  | cons due dues ih =>
    have ih := ih (fun other hother => hscript other (List.mem_cons_of_mem _ hother))
      (fun other hother => hfit other (List.mem_cons_of_mem _ hother))
    have hpays := paysTo_dueOutput (hscript due List.mem_cons_self) addr
    have hvalue : (dueOutput script due).valueAtoms.toNat = due.2 :=
      UInt64.toNat_ofNat_of_lt' (hfit due List.mem_cons_self)
    rw [List.map_cons]
    by_cases haddr : due.1 = addr
    · rw [decide_eq_true haddr] at hpays
      rw [List.filter_cons_of_pos hpays, List.filter_cons_of_pos (by simpa using haddr),
        List.map_cons, List.map_cons, hvalue, ih]
    · rw [decide_eq_false haddr] at hpays
      rw [List.filter_cons_of_neg (by rw [hpays]; exact Bool.false_ne_true),
        List.filter_cons_of_neg (by simpa using haddr), ih]

/-- The script of a transfer has no address. -/
theorem paysTo_transferOutput (addr : String) :
    (transferOutput terms).paysTo encode addr = false := by
  have hnone : Script.extractAddress encode (transferOutput terms).scriptPubkey = none := by
    apply Script.extractAddress_opReturn
    show (opReturnScript _).head? = _
    unfold opReturnScript
    dsimp only
    split_ifs
    · rfl
    · rfl
    · rfl
  unfold TxOutput.paysTo
  rw [hnone]
  exact decide_eq_false (by simp)

/-- A script with an address carries no operation. -/
theorem carriesNone_dueOutput {script : String → Bytes} {due : String × Nat}
    (hscript : Script.extractAddress encode (script due.1) = some due.1) :
    CarriesNone (dueOutput script due) := by
  intro data hdata
  have hhead : (script due.1).head? = some Script.opReturnByte := by
    by_contra hother
    have hnone : opReturnData (script due.1) = none := if_pos hother
    change opReturnData (script due.1) = some data at hdata
    rw [hnone] at hdata
    cases hdata
  rw [Script.extractAddress_opReturn encode hhead] at hscript
  cases hscript

section Paying

variable {script : String → Bytes} {kept : List (String × Nat)}

theorem valuesTo_paying
    (hscript : ∀ due ∈ (terms.buyerAddr, carrierAtoms.toNat) :: kept,
      Script.extractAddress encode (script due.1) = some due.1)
    (hfit : ∀ due ∈ kept, due.2 < 2 ^ 64) (addr : String) :
    (paying script terms kept).valuesTo encode addr
      = (((terms.buyerAddr, carrierAtoms.toNat) :: kept).filter fun due => due.1 = addr).map
        Prod.snd := by
  have hfit : ∀ due ∈ (terms.buyerAddr, carrierAtoms.toNat) :: kept, due.2 < 2 ^ 64 := by
    intro due hdue
    rcases List.mem_cons.mp hdue with rfl | hdue
    · exact carrierAtoms.toNat_lt
    · exact hfit due hdue
  rw [← valuesTo_outputs hscript hfit addr]
  unfold Transaction.valuesTo paying
  rw [List.map_cons, List.filter_cons, List.filter_cons, List.filter_cons, paysTo_transferOutput,
    if_neg Bool.false_ne_true]

/-- Outputs for some dues pass the check if they include all exact ones and something
    for the seller. -/
theorem paying_verified (hfees : terms.split.1.toNat + terms.split.2.toNat < 2 ^ 64)
    (hscript : ∀ due ∈ (terms.buyerAddr, carrierAtoms.toNat) :: kept,
      Script.extractAddress encode (script due.1) = some due.1)
    (hfit : ∀ due ∈ kept, due.2 < 2 ^ 64)
    (hexact : ∀ due ∈ terms.exactDues, 0 < due.2 →
      due ∈ (terms.buyerAddr, carrierAtoms.toNat) :: kept)
    (hseller : ∃ value, (terms.sellerAddr, value) ∈ (terms.buyerAddr, carrierAtoms.toNat) :: kept ∧
      terms.netPrice ≤ value) :
    verifySettlement encode (paying script terms kept) terms = some [] := by
  have hfound : ∀ {addr : String} {value : Nat},
      (addr, value) ∈ (terms.buyerAddr, carrierAtoms.toNat) :: kept →
        value ∈ (paying script terms kept).valuesTo encode addr := by
    intro addr value hdue
    rw [valuesTo_paying hscript hfit]
    exact List.mem_map_of_mem (List.mem_filter.mpr ⟨hdue, decide_eq_true rfl⟩)
  have hcarrier := hscript _ List.mem_cons_self
  apply verifySettlement_nil_iff.mpr
  refine ⟨hfees, extractAssetOp_transferOutput rfl (carriesNone_dueOutput hcarrier), ?_, ?_, ?_, ?_⟩
  · refine ⟨_, _, rfl, rfl, ?_⟩
    rw [paysTo_dueOutput hcarrier]
    exact decide_eq_true rfl
  · intro hpos
    exact hfound (hexact (platformFeeAddress, _) (by simp [SettlementTerms.exactDues]) hpos)
  · intro hpos
    exact hfound (hexact (terms.royaltyAddr, _) (by simp [SettlementTerms.exactDues]) hpos)
  · obtain ⟨value, hdue, hle⟩ := hseller
    exact ⟨value, hfound hdue, hle⟩

end Paying

/-- Some transaction pays the dues that are kept, and no others. -/
theorem exists_paying {kept : List (String × Nat)} (hpayable : terms.Payable encode)
    (hscript : ∀ due ∈ kept, ∃ script, Script.extractAddress encode script = some due.1)
    (hfit : ∀ due ∈ kept, due.2 < 2 ^ 64)
    (hexact : ∀ due ∈ terms.exactDues, 0 < due.2 →
      due ∈ (terms.buyerAddr, carrierAtoms.toNat) :: kept)
    (hseller : ∃ value, (terms.sellerAddr, value) ∈ (terms.buyerAddr, carrierAtoms.toNat) :: kept ∧
      terms.netPrice ≤ value) :
    ∃ tx, verifySettlement encode tx terms = some [] ∧
      ∀ addr, tx.paidTo encode addr
        = sumTo addr ((terms.buyerAddr, carrierAtoms.toNat) :: kept) := by
  classical
  have hscripts : ∀ due ∈ (terms.buyerAddr, carrierAtoms.toNat) :: kept,
      ∃ script, Script.extractAddress encode script = some due.1 := by
    intro due hdue
    rcases List.mem_cons.mp hdue with rfl | hdue
    · exact hpayable.exact _ List.mem_cons_self (show 0 < carrierAtoms.toNat by decide)
    · exact hscript due hdue
  -- The encoding only goes from scripts to addresses: one script is chosen for each.
  obtain ⟨script, hscript⟩ : ∃ script : String → Bytes,
      ∀ due ∈ (terms.buyerAddr, carrierAtoms.toNat) :: kept,
        Script.extractAddress encode (script due.1) = some due.1 := by
    refine ⟨fun addr => if h : ∃ script, Script.extractAddress encode script = some addr then
      h.choose else [], ?_⟩
    intro due hdue
    dsimp only
    rw [dif_pos (hscripts due hdue)]
    exact (hscripts due hdue).choose_spec
  exact ⟨paying script terms kept, paying_verified hpayable.fees_fit hscript hfit hexact hseller,
    fun addr => congrArg List.sum (valuesTo_paying hscript hfit addr)⟩

theorem exactDues_lt (terms : SettlementTerms) : ∀ due ∈ terms.exactDues, due.2 < 2 ^ 64 := by
  intro due hdue
  rcases List.mem_cons.mp hdue with rfl | hdue
  · exact carrierAtoms.toNat_lt
  · rcases List.mem_cons.mp hdue with rfl | hdue
    · exact terms.split.1.toNat_lt
    · obtain rfl := List.mem_singleton.mp hdue
      exact terms.split.2.toNat_lt

/-- The positive exact dues begin with the carrier. -/
theorem exactDues_filter (terms : SettlementTerms) :
    terms.exactDues.filter (fun due => 0 < due.2)
      = (terms.buyerAddr, carrierAtoms.toNat) ::
        [(platformFeeAddress, terms.split.1.toNat),
          (terms.royaltyAddr, terms.split.2.toNat)].filter fun due => 0 < due.2 := by
  unfold SettlementTerms.exactDues
  exact List.filter_cons_of_pos (decide_eq_true (show 0 < carrierAtoms.toNat by decide))

/-- The net price is found in an output for an exact due. -/
theorem exists_short_net (hpayable : terms.Payable encode) {due : String × Nat}
    (hdue : due ∈ terms.exactDues) (hseller : due.1 = terms.sellerAddr)
    (hpos : 0 < terms.netPrice) (hle : terms.netPrice ≤ due.2) :
    ∃ tx addr, verifySettlement encode tx terms = some [] ∧
      tx.paidTo encode addr < terms.dueTo addr := by
  -- Only the exact dues are paid: the seller's output is the one for `due`.
  have hkept := exactDues_filter terms
  have hmem : ∀ other ∈ [(platformFeeAddress, terms.split.1.toNat),
      (terms.royaltyAddr, terms.split.2.toNat)].filter (fun due => 0 < due.2),
      other ∈ terms.exactDues ∧ 0 < other.2 := by
    intro other hother
    have hother := hkept ▸ List.mem_cons_of_mem (terms.buyerAddr, carrierAtoms.toNat) hother
    obtain ⟨hexact, hpos⟩ := List.mem_filter.mp hother
    exact ⟨hexact, of_decide_eq_true hpos⟩
  have hexact : ∀ other ∈ terms.exactDues, 0 < other.2 →
      other ∈ terms.exactDues.filter fun due => 0 < due.2 := by
    intro other hother hpos
    exact List.mem_filter.mpr ⟨hother, decide_eq_true hpos⟩
  obtain ⟨tx, hverified, hpaid⟩ := exists_paying hpayable
    (fun other hother => hpayable.exact other (hmem other hother).1 (hmem other hother).2)
    (fun other hother => exactDues_lt terms other (hmem other hother).1)
    (fun other hother hpos => hkept ▸ hexact other hother hpos)
    ⟨due.2, hkept ▸ hseller ▸ hexact due hdue (Nat.lt_of_lt_of_le hpos hle), hle⟩
  refine ⟨tx, terms.sellerAddr, hverified, ?_⟩
  rw [hpaid, ← hkept, sumTo_filter_pos]
  unfold SettlementTerms.dueTo SettlementTerms.dues
  rw [sumTo_cons, if_pos rfl]
  omega

/-- A due that is the same as another is found in the output for it. -/
theorem exists_short_twin (hpayable : terms.Payable encode) {twin other : String × Nat}
    (hexact : ∀ due, due ∈ terms.exactDues ↔
      due = (terms.buyerAddr, carrierAtoms.toNat) ∨ due = twin ∨ due = other)
    (hsum : ∀ addr, sumTo addr terms.exactDues
      = sumTo addr [(terms.buyerAddr, carrierAtoms.toNat), twin, other])
    (hpos : 0 < twin.2)
    (htwin : twin = (terms.buyerAddr, carrierAtoms.toNat) ∨ twin = other) :
    ∃ tx addr, verifySettlement encode tx terms = some [] ∧
      tx.paidTo encode addr < terms.dueTo addr := by
  -- Everything but `twin` is paid: its output is the one of the carrier or of `other`.
  have hkept : ∀ due ∈ (terms.sellerAddr, terms.netPrice) :: [other].filter (fun due => 0 < due.2),
      due = (terms.sellerAddr, terms.netPrice) ∨ due = other ∧ 0 < due.2 := by
    intro due hdue
    rcases List.mem_cons.mp hdue with hnet | hother
    · exact Or.inl hnet
    · obtain ⟨hmem, hpos⟩ := List.mem_filter.mp hother
      exact Or.inr ⟨List.mem_singleton.mp hmem, of_decide_eq_true hpos⟩
  have hotherExact : other ∈ terms.exactDues := (hexact other).mpr (Or.inr (Or.inr rfl))
  have hfound : 0 < other.2 →
      other ∈ (terms.sellerAddr, terms.netPrice) :: [other].filter (fun due => 0 < due.2) :=
    fun hpos => List.mem_cons_of_mem _
      (List.mem_filter.mpr ⟨List.mem_singleton_self other, decide_eq_true hpos⟩)
  obtain ⟨tx, hverified, hpaid⟩ := @exists_paying encode terms
    ((terms.sellerAddr, terms.netPrice) :: [other].filter fun due => 0 < due.2) hpayable
    (by
      intro due hdue
      rcases hkept due hdue with rfl | ⟨rfl, hpos⟩
      · exact hpayable.seller
      · exact hpayable.exact due hotherExact hpos)
    (by
      intro due hdue
      rcases hkept due hdue with rfl | ⟨rfl, _⟩
      · exact Nat.lt_of_le_of_lt (Nat.sub_le _ _) terms.priceAtoms.toNat_lt
      · exact exactDues_lt terms due hotherExact)
    (by
      intro due hdue hpos
      rcases (hexact due).mp hdue with rfl | rfl | rfl
      · exact List.mem_cons_self
      · rcases htwin with rfl | rfl
        · exact List.mem_cons_self
        · exact List.mem_cons_of_mem _ (hfound hpos)
      · exact List.mem_cons_of_mem _ (hfound hpos))
    ⟨terms.netPrice, List.mem_cons_of_mem _ List.mem_cons_self, Nat.le_refl _⟩
  refine ⟨tx, twin.1, hverified, ?_⟩
  unfold SettlementTerms.dueTo SettlementTerms.dues
  rw [hpaid, sumTo_cons, sumTo_cons, sumTo_filter_pos, sumTo_cons twin.1 (_, terms.netPrice), hsum]
  simp only [sumTo_cons, sumTo_nil, if_pos]
  omega

/-- Among three dues that are not distinct, one that is positive is the same as
    another. -/
theorem twin_of_not_nodup {carrier fee royalty : String × Nat}
    (h : ¬ (carrier :: [fee, royalty].filter fun due => 0 < due.2).Nodup) :
    0 < fee.2 ∧ (fee = carrier ∨ fee = royalty) ∨ 0 < royalty.2 ∧ royalty = carrier := by
  by_contra hdistinct
  apply h
  rw [List.nodup_cons]
  constructor
  · intro hmem
    obtain ⟨hmem, hpos⟩ := List.mem_filter.mp hmem
    have hpos := of_decide_eq_true hpos
    rcases List.mem_cons.mp hmem with rfl | hmem
    · exact hdistinct (Or.inl ⟨hpos, Or.inl rfl⟩)
    · obtain rfl := List.mem_singleton.mp hmem
      exact hdistinct (Or.inr ⟨hpos, rfl⟩)
  · by_cases hsame : fee = royalty
    · -- Equal dues are left out only together, when they are zero.
      have hzero : ¬ 0 < fee.2 := fun hpos => hdistinct (Or.inl ⟨hpos, Or.inr hsame⟩)
      rw [← hsame, List.filter_cons_of_neg (by simpa using hzero),
        List.filter_cons_of_neg (by simpa using hzero)]
      exact List.nodup_nil
    · have hpair : [fee, royalty].Nodup :=
        List.nodup_cons.mpr ⟨fun hmem => hsame (List.mem_singleton.mp hmem), List.nodup_singleton _⟩
      exact hpair.filter _

/-- A due that an output for another stands in for leaves its address short. -/
theorem exists_short (hpayable : terms.Payable encode) (hseparated : ¬ terms.Separated) :
    ∃ tx addr, verifySettlement encode tx terms = some [] ∧
      tx.paidTo encode addr < terms.dueTo addr := by
  by_cases hnodup : (terms.exactDues.filter fun due => 0 < due.2).Nodup
  · -- All exact dues differ, so one of them stands in for the proceeds.
    have hnet : ∃ due ∈ terms.exactDues, due.1 = terms.sellerAddr ∧ 0 < terms.netPrice ∧
        terms.netPrice ≤ due.2 := by
      by_contra hnone
      apply hseparated ⟨hnodup, ?_⟩
      intro due hdue hseller hpos
      by_contra hlt
      exact hnone ⟨due, hdue, hseller, hpos, Nat.le_of_not_lt hlt⟩
    obtain ⟨due, hdue, hseller, hpos, hle⟩ := hnet
    exact exists_short_net hpayable hdue hseller hpos hle
  · set fee : String × Nat := (platformFeeAddress, terms.split.1.toNat) with hfee
    set royalty : String × Nat := (terms.royaltyAddr, terms.split.2.toNat) with hroyalty
    have hdues : terms.exactDues = [(terms.buyerAddr, carrierAtoms.toNat), fee, royalty] := rfl
    -- Two exact dues are one output: the fee or the royalty has a twin.
    rw [exactDues_filter] at hnodup
    rcases twin_of_not_nodup hnodup with ⟨hpos, htwin⟩ | ⟨hpos, htwin⟩
    · apply @exists_short_twin encode terms hpayable fee royalty _ _ hpos htwin
      · intro due
        rw [hdues]
        simp
      · intro addr
        rw [hdues]
    · apply @exists_short_twin encode terms hpayable royalty fee _ _ hpos (Or.inl htwin)
      · intro due
        rw [hdues]
        simp [or_comm]
      · intro addr
        rw [hdues]
        simp only [sumTo_cons]
        omega

/-- **The check finds each due by itself.** Every transaction that passes pays every
    address all its dues if and only if no two dues of the terms can be found in one
    output, unless no transaction passes. -/
theorem verified_pays_every_due_iff (encode : String → Bytes → String) (terms : SettlementTerms) :
    (∀ tx, verifySettlement encode tx terms = some [] →
        ∀ addr, terms.dueTo addr ≤ tx.paidTo encode addr) ↔
      (terms.Payable encode → terms.Separated) := by
  constructor
  · intro hpaid hpayable
    by_contra hseparated
    obtain ⟨tx, addr, hverified, hshort⟩ := exists_short hpayable hseparated
    exact absurd (hpaid tx hverified addr) (Nat.not_le_of_lt hshort)
  · intro hseparated tx hverified addr
    exact (hseparated (payable_of_verified hverified)).dueTo_le_paidTo hverified addr

/-! ## A creator at the platform's address -/

/-- A stand-in for the encoding of addresses that knows three hashes. -/
def threeAddresses (_hrp : String) (hash20 : Bytes) : String :=
  if hash20.head? = some 0 then platformFeeAddress
  else if hash20.head? = some 1 then "txm1seller" else "txm1buyer"

/-- A script for each of its addresses. -/
def scriptFor (addr : String) : Bytes :=
  Script.p2pkhScript (List.replicate 20
    (if addr = platformFeeAddress then 0 else if addr = "txm1seller" then 1 else 2))

/-- A sale with a royalty of the same share, to the same address, as the platform fee. -/
def twinFees : SettlementTerms where
  assetId := Hash256.zero
  amount := 1
  priceAtoms := 1000000
  royaltyBps := 250
  royaltyAddr := platformFeeAddress
  sellerAddr := "txm1seller"
  buyerAddr := "txm1buyer"
  minerFeeAtoms := 10000

/-- A settlement of it with one output to that address. -/
def mergedFees : Transaction :=
  paying scriptFor twinFees [("txm1seller", 950000), (platformFeeAddress, 25000)]

/-- One output of the platform stands for the fee and the royalty. -/
theorem royalty_found_in_fee :
    verifySettlement threeAddresses mergedFees twinFees = some [] ∧
      mergedFees.paidTo threeAddresses platformFeeAddress = 25000 ∧
      twinFees.dueTo platformFeeAddress = 50000 := by
  have hscript : ∀ due ∈ [("txm1buyer", 1000), ("txm1seller", 950000), (platformFeeAddress, 25000)],
      Script.extractAddress threeAddresses (scriptFor due.1) = some due.1 := by
    decide
  have hfit : ∀ due ∈ [("txm1seller", 950000), (platformFeeAddress, 25000)], due.2 < 2 ^ 64 := by
    decide
  refine ⟨?_, ?_, by decide⟩
  · exact paying_verified (by decide) hscript hfit (by decide)
      ⟨950000, by simp [twinFees], by decide⟩
  · show (mergedFees.valuesTo threeAddresses platformFeeAddress).sum = _
    rw [mergedFees, valuesTo_paying hscript hfit]
    decide

end Tensorium
