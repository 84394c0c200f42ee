import Tensorium.Bridge.Contracts
import Tensorium.Lib.ExceptFold
import Tensorium.Lib.GuardedRun

/-! # Bridge supply and replay

    Over every sequence of transactions of any accounts, with the controller of
    the token fixed: the supply is what was minted less what was withdrawn, no
    id is minted twice or after a withdrawal used it, and every mint and every
    withdrawal kept to the limits in force.
-/

namespace Tensorium.Bridge

open ExceptFold

variable {Z : OpenZeppelin} {keccak256 : Bytes → Bytes32}

/-! ## Histories -/

/-- A transaction that went through: what it found, and the events it left. -/
structure Receipt (Z : OpenZeppelin) where
  before : World Z
  message : Message
  events : List Event

/-- One more transaction; one that reverts leaves everything as it was. -/
def exec (keccak256 : Bytes → Bytes32) (h : World Z × List (Receipt Z)) (m : Message) :
    World Z × List (Receipt Z) :=
  match h.1.run keccak256 m with
  | .ok (w, events) => (w, h.2 ++ [⟨h.1, m, events⟩])
  | .error _ => h

/-- The world after some transactions and the receipts of those that went through. -/
def history (keccak256 : Bytes → Bytes32) (w : World Z) (ms : List Message) :
    World Z × List (Receipt Z) :=
  ms.foldl (exec keccak256) (w, [])

/-- The id and the amount of a mint. -/
def Event.mint? : Event → Option (Bytes32 × UInt256)
  | depositMinted bridgeEventId _ _ amount => some (bridgeEventId, amount)
  | _ => none

/-- The id and the amount of a withdrawal. -/
def Event.withdrawal? : Event → Option (Bytes32 × UInt256)
  | withdrawalRequested bridgeEventId _ _ amount => some (bridgeEventId, amount)
  | _ => none

namespace Receipt

def mint? (r : Receipt Z) : Option (Bytes32 × UInt256) := r.events.findSome? Event.mint?

def withdrawal? (r : Receipt Z) : Option (Bytes32 × UInt256) :=
  r.events.findSome? Event.withdrawal?

/-- The transaction minted under this id. -/
def Mints (r : Receipt Z) (id : Bytes32) : Prop := ∃ amount, r.mint? = some (id, amount)

/-- The transaction withdrew under this id. -/
def Withdraws (r : Receipt Z) (id : Bytes32) : Prop := ∃ amount, r.withdrawal? = some (id, amount)

/-- What a withdrawal hashed. -/
def preimage? (r : Receipt Z) : Option Bytes :=
  match r.message with
  | .requestWithdrawalToTensorium msgSender tensoriumAddress amount =>
    some (encodePacked (r.before.controller.withdrawalNonce + 1) msgSender amount
      tensoriumAddress)
  | _ => none

/-- Both contracts were unpaused, and the amount within the limit then in force. -/
structure Allowed (r : Receipt Z) (amount : UInt256) : Prop where
  controller_unpaused : Z.paused r.before.controller.pausable = false
  token_unpaused : Z.paused r.before.token.pausable = false
  amount_pos : 1 ≤ amount.toNat
  amount_le : amount.toNat ≤ r.before.controller.maxPerTx.toNat

end Receipt

/-- The sum of the amounts that were minted. -/
def minted (log : List (Receipt Z)) : Nat :=
  ((log.filterMap Receipt.mint?).map fun p => p.2.toNat).sum

/-- The sum of the amounts that were withdrawn. -/
def withdrawn (log : List (Receipt Z)) : Nat :=
  ((log.filterMap Receipt.withdrawal?).map fun p => p.2.toNat).sum

/-- What the bridge promises of a history. -/
structure Safe (w : World Z) (log : List (Receipt Z)) : Prop where
  supply : (Z.totalSupply w.token.erc20).toNat + withdrawn log = minted log
  minted_once : log.Pairwise fun r r' => ∀ id, r.Mints id → ¬ r'.Mints id
  not_minted_after : log.Pairwise fun r r' => ∀ id, r.Withdraws id → ¬ r'.Mints id
  withdrawals_distinct : log.Pairwise fun r r' => ∀ id, r.Withdraws id → ¬ r'.Withdraws id
  mint_allowed : ∀ r ∈ log, ∀ id amount, r.mint? = some (id, amount) →
    r.Allowed amount ∧ r.before.controller.operators r.message.sender = true
  withdrawal_allowed : ∀ r ∈ log, ∀ id amount, r.withdrawal? = some (id, amount) →
    r.Allowed amount

/-- A transaction of an account that is not the controller, and that leaves the
    controller of the token what it is. -/
structure Message.External (controllerAddress : Address) (m : Message) : Prop where
  sender : m.sender ≠ controllerAddress
  fixed : ∀ msgSender newController,
    m = .token msgSender (.setBridgeController newController) → newController = controllerAddress

/-! ## What one transaction does -/

theorem revertIf_eq_ok {p : Prop} [Decidable p] {e : Revert} {u : Unit} :
    revertIf p e = .ok u ↔ ¬ p := by
  unfold revertIf
  split_ifs with hp
  · exact iff_of_false (by simp) (not_not_intro hp)
  · exact iff_of_true rfl hp

theorem inherited_eq_ok {α : Type} {x : Option α} {a : α} :
    inherited x = .ok a ↔ x = some a := by
  cases x <;> simp [inherited]

theorem bridgeMint_ok {msgSender to_ : Address} {amount : UInt256} {t t' : WrappedTensorium Z}
    (h : t.bridgeMint msgSender to_ amount = .ok t') :
    msgSender = t.bridgeController ∧ Z.whenNotPaused t.pausable = some () ∧
      ∃ erc20, Z.mint to_ amount t.erc20 = some erc20 ∧ t' = { t with erc20 } := by
  obtain ⟨_, hsender, h⟩ := bind_eq_ok.mp h
  obtain ⟨_, hpaused, h⟩ := bind_eq_ok.mp h
  obtain ⟨erc20, hmint, h⟩ := bind_eq_ok.mp h
  exact ⟨not_not.mp (revertIf_eq_ok.mp hsender), inherited_eq_ok.mp hpaused, erc20,
    inherited_eq_ok.mp hmint, (Except.ok.inj h).symm⟩

theorem bridgeBurnFrom_ok {msgSender account : Address} {amount : UInt256}
    {t t' : WrappedTensorium Z} (h : t.bridgeBurnFrom msgSender account amount = .ok t') :
    msgSender = t.bridgeController ∧ Z.whenNotPaused t.pausable = some () ∧
      ∃ erc20, Z.burn account amount t.erc20 = some erc20 ∧ t' = { t with erc20 } := by
  obtain ⟨_, hsender, h⟩ := bind_eq_ok.mp h
  obtain ⟨_, hpaused, h⟩ := bind_eq_ok.mp h
  obtain ⟨erc20, hburn, h⟩ := bind_eq_ok.mp h
  exact ⟨not_not.mp (revertIf_eq_ok.mp hsender), inherited_eq_ok.mp hpaused, erc20,
    inherited_eq_ok.mp hburn, (Except.ok.inj h).symm⟩

/-- A transaction to the token changes neither the supply nor, by the assumption
    on it, the controller. -/
theorem token_run_ok (hZ : Z.Lawful) {t t' : WrappedTensorium Z} {msgSender : Address}
    {call : TokenCall} {events : List Event} (hsender : msgSender ≠ t.bridgeController)
    (hset : ∀ newController, call = .setBridgeController newController →
      newController = t.bridgeController)
    (h : t.run msgSender call = .ok (t', events)) :
    Z.totalSupply t'.erc20 = Z.totalSupply t.erc20 ∧
      t'.bridgeController = t.bridgeController ∧
      events.findSome? Event.mint? = none ∧ events.findSome? Event.withdrawal? = none := by
  cases call with
  | setBridgeController newController =>
    obtain ⟨_, _, h⟩ := bind_eq_ok.mp h
    obtain ⟨_, _, h⟩ := bind_eq_ok.mp h
    cases h
    exact ⟨rfl, hset newController rfl, rfl, rfl⟩
  | setPauser newPauser =>
    obtain ⟨_, _, h⟩ := bind_eq_ok.mp h
    cases h
    exact ⟨rfl, rfl, rfl, rfl⟩
  | pause =>
    obtain ⟨_, _, h⟩ := bind_eq_ok.mp h
    obtain ⟨_, _, h⟩ := bind_eq_ok.mp h
    cases h
    exact ⟨rfl, rfl, rfl, rfl⟩
  | unpause =>
    obtain ⟨_, _, h⟩ := bind_eq_ok.mp h
    obtain ⟨_, _, h⟩ := bind_eq_ok.mp h
    cases h
    exact ⟨rfl, rfl, rfl, rfl⟩
  -- Both functions of the bridge refuse everybody but the controller.
  | bridgeMint to_ amount =>
    obtain ⟨t'', hmint, _⟩ := bind_eq_ok.mp h
    exact absurd (bridgeMint_ok hmint).1 hsender
  | bridgeBurnFrom account amount =>
    obtain ⟨t'', hburn, _⟩ := bind_eq_ok.mp h
    exact absurd (bridgeBurnFrom_ok hburn).1 hsender
  | transfer to_ amount =>
    obtain ⟨erc20, htransfer, h⟩ := bind_eq_ok.mp h
    cases h
    exact ⟨hZ.transfer_supply (inherited_eq_ok.mp htransfer), rfl, rfl, rfl⟩
  | approve spender amount =>
    obtain ⟨erc20, happrove, h⟩ := bind_eq_ok.mp h
    cases h
    exact ⟨hZ.approve_supply (inherited_eq_ok.mp happrove), rfl, rfl, rfl⟩
  | transferFrom account to_ amount =>
    obtain ⟨erc20, htransfer, h⟩ := bind_eq_ok.mp h
    cases h
    exact ⟨hZ.transferFrom_supply (inherited_eq_ok.mp htransfer), rfl, rfl, rfl⟩
  | ownable call =>
    obtain ⟨ownable, _, h⟩ := bind_eq_ok.mp h
    cases h
    exact ⟨rfl, rfl, rfl, rfl⟩

/-- A transaction to the controller that does not call the token. -/
theorem controller_run_ok {c c' : TensoriumBridgeController Z} {msgSender : Address}
    {call : ControllerCall} {events : List Event}
    (h : c.run msgSender call = .ok (c', events)) :
    c'.withdrawalNonce = c.withdrawalNonce ∧ c'.processedEventIds = c.processedEventIds ∧
      events.findSome? Event.mint? = none ∧ events.findSome? Event.withdrawal? = none := by
  cases call with
  | pause =>
    obtain ⟨_, _, h⟩ := bind_eq_ok.mp h
    obtain ⟨_, _, h⟩ := bind_eq_ok.mp h
    cases h
    exact ⟨rfl, rfl, rfl, rfl⟩
  | unpause =>
    obtain ⟨_, _, h⟩ := bind_eq_ok.mp h
    obtain ⟨_, _, h⟩ := bind_eq_ok.mp h
    cases h
    exact ⟨rfl, rfl, rfl, rfl⟩
  | _ =>
    obtain ⟨_, _, h⟩ := bind_eq_ok.mp h
    cases h
    exact ⟨rfl, rfl, rfl, rfl⟩

theorem whenNotPaused_ok (hZ : Z.Lawful) {p : Z.Pausable} {u : Unit}
    (h : inherited (Z.whenNotPaused p) = .ok u) : Z.paused p = false :=
  (hZ.whenNotPaused_iff p).mp (inherited_eq_ok.mp h)

theorem amount_pos {amount : UInt256} (h : ¬ amount = 0) : 1 ≤ amount.toNat := by
  rw [Nat.one_le_iff_ne_zero]
  intro hzero
  exact h (BitVec.eq_of_toNat_eq hzero)

/-- What a mint that goes through found and did. -/
structure MintDone (w w' : World Z) (msgSender : Address) (bridgeEventId : Bytes32)
    (amount : UInt256) : Prop where
  allowed : ∀ m events, (⟨w, m, events⟩ : Receipt Z).Allowed amount
  operator : w.controller.operators msgSender = true
  unused : w.controller.processedEventIds bridgeEventId = false
  supply : (Z.totalSupply w'.token.erc20).toNat
    = (Z.totalSupply w.token.erc20).toNat + amount.toNat
  fixed : w'.token.bridgeController = w.token.bridgeController
  address : w'.controllerAddress = w.controllerAddress
  nonce : w'.controller.withdrawalNonce = w.controller.withdrawalNonce
  processed : w'.controller.processedEventIds
    = Function.update w.controller.processedEventIds bridgeEventId true

theorem mintFromTensoriumDeposit_ok (hZ : Z.Lawful) {w w' : World Z} {msgSender : Address}
    {bridgeEventId tensoriumTxid : Bytes32} {recipient : Address} {amount : UInt256}
    {events : List Event}
    (h : w.mintFromTensoriumDeposit msgSender bridgeEventId tensoriumTxid recipient amount
      = .ok (w', events)) :
    MintDone w w' msgSender bridgeEventId amount ∧
      events = [.depositMinted bridgeEventId tensoriumTxid recipient amount] := by
  obtain ⟨_, hoperator, h⟩ := bind_eq_ok.mp h
  obtain ⟨_, hpaused, h⟩ := bind_eq_ok.mp h
  obtain ⟨_, _, h⟩ := bind_eq_ok.mp h
  obtain ⟨_, hpos, h⟩ := bind_eq_ok.mp h
  obtain ⟨_, hmax, h⟩ := bind_eq_ok.mp h
  obtain ⟨_, hunused, h⟩ := bind_eq_ok.mp h
  obtain ⟨token, htoken, h⟩ := bind_eq_ok.mp h
  cases h
  obtain ⟨_, htokenPaused, erc20, hmint, rfl⟩ := bridgeMint_ok htoken
  have hallowed : ∀ m events, (⟨w, m, events⟩ : Receipt Z).Allowed amount := fun m events =>
    { controller_unpaused := whenNotPaused_ok hZ hpaused
      token_unpaused := (hZ.whenNotPaused_iff _).mp htokenPaused
      amount_pos := amount_pos (revertIf_eq_ok.mp hpos)
      amount_le := Nat.le_of_not_lt (revertIf_eq_ok.mp hmax) }
  exact ⟨⟨hallowed, not_not.mp (revertIf_eq_ok.mp hoperator),
    Bool.eq_false_iff.mpr (revertIf_eq_ok.mp hunused), hZ.mint_supply hmint, rfl, rfl, rfl, rfl⟩,
    rfl⟩

/-- What a withdrawal that goes through found and did. -/
structure WithdrawalDone (w w' : World Z) (bridgeEventId : Bytes32) (amount : UInt256) :
    Prop where
  allowed : ∀ m events, (⟨w, m, events⟩ : Receipt Z).Allowed amount
  supply : (Z.totalSupply w'.token.erc20).toNat + amount.toNat
    = (Z.totalSupply w.token.erc20).toNat
  fixed : w'.token.bridgeController = w.token.bridgeController
  address : w'.controllerAddress = w.controllerAddress
  nonce : w'.controller.withdrawalNonce = w.controller.withdrawalNonce + 1
  nonce_toNat : w'.controller.withdrawalNonce.toNat = w.controller.withdrawalNonce.toNat + 1
  processed : w'.controller.processedEventIds
    = Function.update w.controller.processedEventIds bridgeEventId true

theorem checkedAdd_ok {a b c : UInt256} (h : checkedAdd a b = .ok c) :
    c = a + b ∧ c.toNat = a.toNat + b.toNat := by
  unfold checkedAdd at h
  split_ifs at h with hlt
  cases h
  exact ⟨rfl, by rw [BitVec.toNat_add, Nat.mod_eq_of_lt hlt]⟩

theorem requestWithdrawalToTensorium_ok (hZ : Z.Lawful) {w w' : World Z} {msgSender : Address}
    {tensoriumAddress : Bytes} {amount : UInt256} {events : List Event}
    (h : w.requestWithdrawalToTensorium keccak256 msgSender tensoriumAddress amount
      = .ok (w', events)) :
    ∃ bridgeEventId, bridgeEventId = keccak256 (encodePacked
        (w.controller.withdrawalNonce + 1) msgSender amount tensoriumAddress) ∧
      WithdrawalDone w w' bridgeEventId amount ∧
      events = [.withdrawalRequested bridgeEventId msgSender tensoriumAddress amount] := by
  obtain ⟨_, hpaused, h⟩ := bind_eq_ok.mp h
  obtain ⟨_, _, h⟩ := bind_eq_ok.mp h
  obtain ⟨_, hpos, h⟩ := bind_eq_ok.mp h
  obtain ⟨_, hmax, h⟩ := bind_eq_ok.mp h
  obtain ⟨withdrawalNonce, hnonce, h⟩ := bind_eq_ok.mp h
  obtain ⟨token, htoken, h⟩ := bind_eq_ok.mp h
  cases h
  obtain ⟨_, htokenPaused, erc20, hburn, rfl⟩ := bridgeBurnFrom_ok htoken
  obtain ⟨rfl, htoNat⟩ := checkedAdd_ok hnonce
  have hallowed : ∀ m events, (⟨w, m, events⟩ : Receipt Z).Allowed amount := fun m events =>
    { controller_unpaused := whenNotPaused_ok hZ hpaused
      token_unpaused := (hZ.whenNotPaused_iff _).mp htokenPaused
      amount_pos := amount_pos (revertIf_eq_ok.mp hpos)
      amount_le := Nat.le_of_not_lt (revertIf_eq_ok.mp hmax) }
  exact ⟨_, rfl, ⟨hallowed, hZ.burn_supply hburn, rfl, rfl, rfl, htoNat, rfl⟩, rfl⟩

/-- A packed string starts with its nonce. -/
theorem encodePacked_nonce {n n' : UInt256} {msgSender msgSender' : Address}
    {amount amount' : UInt256} {addr addr' : Bytes}
    (h : encodePacked n msgSender amount addr = encodePacked n' msgSender' amount' addr') :
    n = n' := by
  unfold encodePacked at h
  rw [List.append_assoc, List.append_assoc, List.append_assoc, List.append_assoc] at h
  have hbytes := (List.append_inj h (by simp)).1
  have hbound : ∀ k : UInt256, k.toNat < 256 ^ 32 := fun k => lt_of_lt_of_eq k.isLt (by norm_num)
  have hnat := congrArg ByteCodec.beNat hbytes
  rw [ByteCodec.beNat_beBytes (hbound n), ByteCodec.beNat_beBytes (hbound n')] at hnat
  exact BitVec.eq_of_toNat_eq hnat

/-! ## The invariant -/

/-- What holds after every transaction. -/
structure Invariant (keccak256 : Bytes → Bytes32) (w : World Z) (log : List (Receipt Z)) :
    Prop where
  fixed : w.token.bridgeController = w.controllerAddress
  supply : (Z.totalSupply w.token.erc20).toNat + withdrawn log = minted log
  processed : ∀ r ∈ log, ∀ id, r.Mints id ∨ r.Withdraws id →
    w.controller.processedEventIds id = true
  fresh : log.Pairwise fun r r' => ∀ id, r.Mints id ∨ r.Withdraws id → ¬ r'.Mints id
  hashed : ∀ r ∈ log, ∀ id, r.Withdraws id → ∃ p, r.preimage? = some p ∧ keccak256 p = id
  nonce : ∀ r ∈ log, ∀ p, r.preimage? = some p →
    r.before.controller.withdrawalNonce.toNat + 1 ≤ w.controller.withdrawalNonce.toNat
  preimages : log.Pairwise fun r r' => ∀ p p', r.preimage? = some p → r'.preimage? = some p' →
    p ≠ p'
  mint_allowed : ∀ r ∈ log, ∀ id amount, r.mint? = some (id, amount) →
    r.Allowed amount ∧ r.before.controller.operators r.message.sender = true
  withdrawal_allowed : ∀ r ∈ log, ∀ id amount, r.withdrawal? = some (id, amount) →
    r.Allowed amount

theorem minted_append (log log' : List (Receipt Z)) :
    minted (log ++ log') = minted log + minted log' := by
  simp [minted]

theorem withdrawn_append (log log' : List (Receipt Z)) :
    withdrawn (log ++ log') = withdrawn log + withdrawn log' := by
  simp [withdrawn]

/-- Withdrawals with different nonces hash different strings. -/
theorem preimage_ne {r r' : Receipt Z} {p p' : Bytes} (hp : r.preimage? = some p)
    (hp' : r'.preimage? = some p')
    (hlt : r.before.controller.withdrawalNonce.toNat
      < r'.before.controller.withdrawalNonce.toNat) : p ≠ p' := by
  obtain ⟨before, message, events⟩ := r
  obtain ⟨before', message', events'⟩ := r'
  cases message <;> cases hp
  cases message' <;> cases hp'
  intro heq
  have hnonce : before.controller.withdrawalNonce = before'.controller.withdrawalNonce :=
    (BitVec.add_left_inj 1).mp (encodePacked_nonce heq)
  exact absurd (congrArg BitVec.toNat hnonce) (Nat.ne_of_lt hlt)

/-- One more receipt: what has to be checked of it. -/
theorem Invariant.append {w w' : World Z} {log : List (Receipt Z)}
    (h : Invariant keccak256 w log) {m : Message} {events : List Event} {r : Receipt Z}
    (hr : r = ⟨w, m, events⟩) (hfixed : w'.token.bridgeController = w'.controllerAddress)
    (hsupply : (Z.totalSupply w'.token.erc20).toNat + withdrawn [r]
      = (Z.totalSupply w.token.erc20).toNat + minted [r])
    (hprocessed : ∀ id, w.controller.processedEventIds id = true ∨ r.Mints id ∨ r.Withdraws id →
      w'.controller.processedEventIds id = true)
    (hunused : ∀ id, r.Mints id → w.controller.processedEventIds id = false)
    (hhashed : ∀ id, r.Withdraws id → ∃ p, r.preimage? = some p ∧ keccak256 p = id)
    (hnonce : w.controller.withdrawalNonce.toNat ≤ w'.controller.withdrawalNonce.toNat)
    (hnext : ∀ p, r.preimage? = some p →
      w.controller.withdrawalNonce.toNat + 1 ≤ w'.controller.withdrawalNonce.toNat)
    (hmint : ∀ id amount, r.mint? = some (id, amount) →
      r.Allowed amount ∧ r.before.controller.operators r.message.sender = true)
    (hwithdrawal : ∀ id amount, r.withdrawal? = some (id, amount) → r.Allowed amount) :
    Invariant keccak256 w' (log ++ [r]) where
  fixed := hfixed
  supply := by
    have hsum := h.supply
    rw [withdrawn_append, minted_append]
    omega
  processed := by
    intro r' hmem id hid
    rcases List.mem_append.mp hmem with hmem | hmem
    · exact hprocessed id (.inl (h.processed r' hmem id hid))
    · cases List.mem_singleton.mp hmem
      exact hprocessed id (.inr hid)
  -- What the new receipt mints was not processed, and all in the log was.
  fresh := by
    refine List.pairwise_append.mpr ⟨h.fresh, List.pairwise_singleton _ _, ?_⟩
    intro r₀ hmem r' hr' id hid hmints
    cases List.mem_singleton.mp hr'
    have hused := h.processed r₀ hmem id hid
    rw [hunused id hmints] at hused
    cases hused
  hashed := by
    intro r' hmem id hid
    rcases List.mem_append.mp hmem with hmem | hmem
    · exact h.hashed r' hmem id hid
    · cases List.mem_singleton.mp hmem
      exact hhashed id hid
  nonce := by
    intro r' hmem p hp
    rcases List.mem_append.mp hmem with hmem | hmem
    · exact (h.nonce r' hmem p hp).trans hnonce
    · cases List.mem_singleton.mp hmem
      subst hr
      exact hnext p hp
  -- The new request has a nonce above those in the log.
  preimages := by
    refine List.pairwise_append.mpr ⟨h.preimages, List.pairwise_singleton _ _, ?_⟩
    intro r₀ hmem r' hr' p p' hp hp'
    cases List.mem_singleton.mp hr'
    subst hr
    exact preimage_ne hp hp' (h.nonce r₀ hmem p hp)
  mint_allowed := by
    intro r' hmem
    rcases List.mem_append.mp hmem with hmem | hmem
    · exact h.mint_allowed r' hmem
    · cases List.mem_singleton.mp hmem
      exact hmint
  withdrawal_allowed := by
    intro r' hmem
    rcases List.mem_append.mp hmem with hmem | hmem
    · exact h.withdrawal_allowed r' hmem
    · cases List.mem_singleton.mp hmem
      exact hwithdrawal

/-- A transaction that neither mints nor withdraws. -/
theorem Invariant.quiet {w w' : World Z} {log : List (Receipt Z)}
    (h : Invariant keccak256 w log) {m : Message} {events : List Event}
    (hm : (⟨w, m, events⟩ : Receipt Z).preimage? = none)
    (hfixed : w'.token.bridgeController = w'.controllerAddress)
    (hsupply : Z.totalSupply w'.token.erc20 = Z.totalSupply w.token.erc20)
    (hnonce : w'.controller.withdrawalNonce = w.controller.withdrawalNonce)
    (hprocessed : w'.controller.processedEventIds = w.controller.processedEventIds)
    (hmint : events.findSome? Event.mint? = none)
    (hwithdrawal : events.findSome? Event.withdrawal? = none) :
    Invariant keccak256 w' (log ++ [⟨w, m, events⟩]) := by
  have hno : (⟨w, m, events⟩ : Receipt Z).mint? = none := hmint
  have hno' : (⟨w, m, events⟩ : Receipt Z).withdrawal? = none := hwithdrawal
  apply h.append rfl hfixed
  · simp [withdrawn, minted, hno, hno', hsupply]
  · rintro id (hid | ⟨amount, hid⟩ | ⟨amount, hid⟩)
    · rwa [hprocessed]
    · rw [hno] at hid
      cases hid
    · rw [hno'] at hid
      cases hid
  · rintro id ⟨amount, hid⟩
    rw [hno] at hid
    cases hid
  · rintro id ⟨amount, hid⟩
    rw [hno'] at hid
    cases hid
  · rw [hnonce]
  · intro p hp
    rw [hm] at hp
    cases hp
  · intro id amount hid
    rw [hno] at hid
    cases hid
  · intro id amount hid
    rw [hno'] at hid
    cases hid

/-- Every transaction of an account keeps the invariant. -/
theorem Invariant.step (hZ : Z.Lawful) {w w' : World Z} {log : List (Receipt Z)}
    (h : Invariant keccak256 w log) {m : Message} {events : List Event}
    (hm : m.External w.controllerAddress) (hrun : w.run keccak256 m = .ok (w', events)) :
    Invariant keccak256 w' (log ++ [⟨w, m, events⟩]) ∧
      w'.controllerAddress = w.controllerAddress := by
  cases m with
  | token msgSender call =>
    obtain ⟨⟨token, events'⟩, htoken, hrun⟩ := bind_eq_ok.mp hrun
    cases hrun
    have hsender : msgSender ≠ w.token.bridgeController := by
      rw [h.fixed]
      exact hm.sender
    have hset : ∀ newController, call = .setBridgeController newController →
        newController = w.token.bridgeController := by
      rintro newController rfl
      rw [h.fixed]
      exact hm.fixed msgSender newController rfl
    obtain ⟨hsupply, hcontroller, hmint, hwithdrawal⟩ := token_run_ok hZ hsender hset htoken
    exact ⟨h.quiet rfl (hcontroller.trans h.fixed) hsupply rfl rfl hmint hwithdrawal, rfl⟩
  | controller msgSender call =>
    obtain ⟨⟨controller, events'⟩, hcontroller, hrun⟩ := bind_eq_ok.mp hrun
    cases hrun
    obtain ⟨hnonce, hprocessed, hmint, hwithdrawal⟩ := controller_run_ok hcontroller
    exact ⟨h.quiet rfl h.fixed rfl hnonce hprocessed hmint hwithdrawal, rfl⟩
  | mintFromTensoriumDeposit msgSender bridgeEventId tensoriumTxid recipient amount =>
    obtain ⟨hdone, rfl⟩ := mintFromTensoriumDeposit_ok hZ hrun
    refine ⟨?_, hdone.address⟩
    have hmints : ∀ id, (⟨w, .mintFromTensoriumDeposit msgSender bridgeEventId tensoriumTxid
        recipient amount, [.depositMinted bridgeEventId tensoriumTxid recipient amount]⟩ :
        Receipt Z).Mints id → id = bridgeEventId := by
      rintro id ⟨amount', hid⟩
      cases hid
      rfl
    -- Only the id of the event becomes processed, and it was not before.
    apply h.append rfl
    · rw [hdone.fixed, hdone.address, h.fixed]
    · exact hdone.supply
    · rintro id (hid | hid | ⟨amount', hid⟩)
      · rw [hdone.processed]
        by_cases hsame : id = bridgeEventId
        · rw [hsame, Function.update_self]
        · rwa [Function.update_of_ne hsame]
      · rw [hdone.processed, hmints id hid, Function.update_self]
      · cases hid
    · intro id hid
      rw [hmints id hid]
      exact hdone.unused
    · rintro id ⟨amount', hid⟩
      cases hid
    · rw [hdone.nonce]
    · intro p hp
      cases hp
    · intro id amount' hid
      cases hid
      exact ⟨hdone.allowed _ _, hdone.operator⟩
    · intro id amount' hid
      cases hid
  | requestWithdrawalToTensorium msgSender tensoriumAddress amount =>
    obtain ⟨bridgeEventId, hid, hdone, rfl⟩ := requestWithdrawalToTensorium_ok hZ hrun
    refine ⟨?_, hdone.address⟩
    -- The id is the hash of the request, and becomes processed with it.
    apply h.append rfl
    · rw [hdone.fixed, hdone.address, h.fixed]
    · exact hdone.supply
    · rintro id (hused | ⟨amount', hmint⟩ | ⟨amount', hwithdrawal⟩)
      · rw [hdone.processed]
        by_cases hsame : id = bridgeEventId
        · rw [hsame, Function.update_self]
        · rwa [Function.update_of_ne hsame]
      · cases hmint
      · cases hwithdrawal
        rw [hdone.processed, Function.update_self]
    · rintro id ⟨amount', hmint⟩
      cases hmint
    · rintro id ⟨amount', hwithdrawal⟩
      cases hwithdrawal
      exact ⟨_, rfl, hid.symm⟩
    · rw [hdone.nonce_toNat]
      exact Nat.le_succ _
    · intro p _
      rw [hdone.nonce_toNat]
    · intro id amount' hmint
      cases hmint
    · intro id amount' hwithdrawal
      cases hwithdrawal
      exact hdone.allowed _ _

/-! ## Every history -/

theorem deploy_invariant (hZ : Z.Lawful) {name symbol : String}
    {tokenOwner controllerOwner tokenAddress controllerAddress : Address} {maxPerTx : UInt256}
    {w : World Z}
    (h : World.deploy Z name symbol tokenOwner controllerOwner tokenAddress controllerAddress
      maxPerTx = .ok w) :
    Invariant keccak256 w [] ∧ w.controllerAddress = controllerAddress := by
  obtain ⟨token, htoken, h⟩ := bind_eq_ok.mp h
  obtain ⟨controller, _, h⟩ := bind_eq_ok.mp h
  obtain ⟨ownable, _, htoken⟩ := bind_eq_ok.mp htoken
  cases htoken
  cases h
  refine ⟨?_, rfl⟩
  constructor
  case supply => simp [withdrawn, minted, hZ.newErc20_supply]
  all_goals simp

theorem history_invariant (hZ : Z.Lawful) {w : World Z} (h : Invariant keccak256 w [])
    {ms : List Message} (hms : ∀ m ∈ ms, m.External w.controllerAddress) :
    Invariant keccak256 (history keccak256 w ms).1 (history keccak256 w ms).2 := by
  suffices hrun : ∀ (r : World Z × List (Receipt Z)), Invariant keccak256 r.1 r.2 →
      (∀ m ∈ ms, m.External r.1.controllerAddress) →
      Invariant keccak256 (ms.foldl (exec keccak256) r).1 (ms.foldl (exec keccak256) r).2 from
    hrun (w, []) h hms
  clear h hms
  induction ms with
  | nil => exact fun r hr _ => hr
  | cons m ms ih =>
    intro r hr hms
    rw [List.foldl_cons]
    have hm := hms m List.mem_cons_self
    have hrest : ∀ m' ∈ ms, m'.External r.1.controllerAddress := fun m' hmem =>
      hms m' (List.mem_cons_of_mem m hmem)
    unfold exec
    cases hrun : r.1.run keccak256 m with
    | error e => exact ih r hr hrest
    | ok next =>
      obtain ⟨hnext, haddress⟩ := hr.step hZ hm hrun
      refine ih _ hnext ?_
      rwa [haddress]

/-- Without collisions among the strings that were hashed, the invariant is what is
    promised. -/
theorem Invariant.safe {w : World Z} {log : List (Receipt Z)} (h : Invariant keccak256 w log)
    (hkeccak : ∀ r ∈ log, ∀ r' ∈ log, ∀ p p', r.preimage? = some p → r'.preimage? = some p' →
      keccak256 p = keccak256 p' → p = p') : Safe w log where
  supply := h.supply
  minted_once := h.fresh.imp fun hfresh id hmints => hfresh id (.inl hmints)
  not_minted_after := h.fresh.imp fun hfresh id hwithdraws => hfresh id (.inr hwithdraws)
  withdrawals_distinct := by
    refine h.preimages.imp_of_mem ?_
    intro r r' hr hr' hne id hid hid'
    obtain ⟨p, hp, rfl⟩ := h.hashed r hr id hid
    obtain ⟨p', hp', heq⟩ := h.hashed r' hr' _ hid'
    exact hne p p' hp hp' (hkeccak r hr r' hr' p p' hp hp' heq.symm)
  mint_allowed := h.mint_allowed
  withdrawal_allowed := h.withdrawal_allowed

/-- **Bridge supply and replay safety**, for every sequence of transactions of any
    accounts. -/
theorem bridge_safe (hZ : Z.Lawful) (keccak256 : Bytes → Bytes32) {name symbol : String}
    {tokenOwner controllerOwner tokenAddress controllerAddress : Address} {maxPerTx : UInt256}
    {w : World Z}
    (hdeploy : World.deploy Z name symbol tokenOwner controllerOwner tokenAddress
      controllerAddress maxPerTx = .ok w)
    (ms : List Message) (hms : ∀ m ∈ ms, m.External controllerAddress)
    (hkeccak : ∀ r ∈ (history keccak256 w ms).2, ∀ r' ∈ (history keccak256 w ms).2, ∀ p p',
      r.preimage? = some p → r'.preimage? = some p' → keccak256 p = keccak256 p' → p = p') :
    Safe (history keccak256 w ms).1 (history keccak256 w ms).2 := by
  obtain ⟨hstart, haddress⟩ := deploy_invariant hZ hdeploy
  rw [← haddress] at hms
  exact (history_invariant hZ hstart hms).safe hkeccak

/-! ## A bridge with two transactions -/

/-- The contracts of OpenZeppelin, with balances and allowances as functions. -/
def ledgerZeppelin : OpenZeppelin where
  Erc20 := UInt256 × (Address → UInt256) × (Address → Address → UInt256)
  Ownable2Step := Address × Address
  Pausable := Bool
  newErc20 _ _ := (0, fun _ => 0, fun _ _ => 0)
  totalSupply t := t.1
  mint to_ amount t :=
    if to_ = 0 ∨ 2 ^ 256 ≤ t.1.toNat + amount.toNat then none
    else some (t.1 + amount, Function.update t.2.1 to_ (t.2.1 to_ + amount), t.2.2)
  burn account amount t :=
    if account = 0 ∨ t.2.1 account < amount ∨ t.1 < amount then none
    else some (t.1 - amount, Function.update t.2.1 account (t.2.1 account - amount), t.2.2)
  transfer sender to_ amount t :=
    if to_ = 0 ∨ t.2.1 sender < amount then none
    else
      let balances := Function.update t.2.1 sender (t.2.1 sender - amount)
      some (t.1, Function.update balances to_ (balances to_ + amount), t.2.2)
  approve sender spender amount t :=
    if spender = 0 then none
    else some (t.1, t.2.1,
      Function.update t.2.2 sender (Function.update (t.2.2 sender) spender amount))
  transferFrom sender account to_ amount t :=
    if to_ = 0 ∨ t.2.1 account < amount ∨ t.2.2 account sender < amount then none
    else
      let balances := Function.update t.2.1 account (t.2.1 account - amount)
      some (t.1, Function.update balances to_ (balances to_ + amount),
        Function.update t.2.2 account
          (Function.update (t.2.2 account) sender (t.2.2 account sender - amount)))
  newOwnable initialOwner := if initialOwner = 0 then none else some (initialOwner, 0)
  owner o := o.1
  onlyOwner sender o := if sender = o.1 then some () else none
  transferOwnership sender newOwner o := if sender = o.1 then some (o.1, newOwner) else none
  acceptOwnership sender o := if sender = o.2 then some (sender, 0) else none
  renounceOwnership sender o := if sender = o.1 then some (0, 0) else none
  newPausable := false
  paused p := p
  whenNotPaused p := if p then none else some ()
  pause p := if p then none else some true
  unpause p := if p then some false else none

theorem ledgerZeppelin_lawful : ledgerZeppelin.Lawful where
  newErc20_supply := fun _ _ => rfl
  mint_supply := by
    intro to_ amount t t' h
    simp only [ledgerZeppelin] at h
    split_ifs at h with hfull
    cases h
    -- Minting reverts if the supply would wrap.
    have hlt : t.1.toNat + amount.toNat < 2 ^ 256 := Nat.lt_of_not_le (not_or.mp hfull).2
    show (t.1 + amount).toNat = t.1.toNat + amount.toNat
    rw [BitVec.toNat_add, Nat.mod_eq_of_lt hlt]
  burn_supply := by
    intro account amount t t' h
    simp only [ledgerZeppelin] at h
    split_ifs at h with hlow
    cases h
    have hle : amount.toNat ≤ t.1.toNat := Nat.le_of_not_lt (not_or.mp (not_or.mp hlow).2).2
    show (t.1 - amount).toNat + amount.toNat = t.1.toNat
    rw [BitVec.toNat_sub_of_le hle]
    exact Nat.sub_add_cancel hle
  transfer_supply := by
    intro sender to_ amount t t' h
    simp only [ledgerZeppelin] at h
    split_ifs at h
    cases h
    rfl
  approve_supply := by
    intro sender spender amount t t' h
    simp only [ledgerZeppelin] at h
    split_ifs at h
    cases h
    rfl
  transferFrom_supply := by
    intro sender account to_ amount t t' h
    simp only [ledgerZeppelin] at h
    split_ifs at h
    cases h
    rfl
  whenNotPaused_iff := by
    rintro (- | -)
    · exact iff_of_true rfl rfl
    · exact iff_of_false (fun h => by cases h) (fun h => by cases h)

/-- Account 1 owns both contracts and makes account 2 an operator, who mints 100
    to account 3 and tries the same again; account 3 withdraws 40. -/
def twoTransfers : List Message :=
  [.controller 1 (.setOperator 2 true),
    .mintFromTensoriumDeposit 2 Hash256.zero Hash256.zero 3 100,
    .mintFromTensoriumDeposit 2 Hash256.zero Hash256.zero 3 100,
    .requestWithdrawalToTensorium 3 [0x74, 0x78, 0x6d, 0x31] 40]

/-- The string account 3 hashes, and its digest. -/
def twoTransfersPreimage : Bytes := encodePacked 1 3 40 [0x74, 0x78, 0x6d, 0x31]

def twoTransfersKeccak (bytes : Bytes) : Bytes32 :=
  if bytes = twoTransfersPreimage then
    ⟨[39, 171, 56, 168, 181, 75, 189, 140, 140, 254, 212, 67, 54, 178, 87, 69,
      190, 255, 136, 80, 10, 22, 223, 251, 8, 164, 158, 140, 17, 25, 161, 31], rfl⟩
  else Hash256.zero

/-- The deployed contracts at addresses 8 and 9, with a limit of 1000. -/
def twoTransfersStart : World ledgerZeppelin where
  token := ⟨(0, fun _ => 0, fun _ _ => 0), (1, 0), false, 9, 0⟩
  controller := ⟨(1, 0), false, 8, 0, 1000, 0, fun _ => false, fun _ => false⟩
  controllerAddress := 9

theorem bridge_safe_twoTransfers :
    Safe (history twoTransfersKeccak twoTransfersStart twoTransfers).1
        (history twoTransfersKeccak twoTransfersStart twoTransfers).2 ∧
      minted (history twoTransfersKeccak twoTransfersStart twoTransfers).2 = 100 ∧
      withdrawn (history twoTransfersKeccak twoTransfersStart twoTransfers).2 = 40 := by
  have hdeploy : World.deploy ledgerZeppelin "Wrapped Tensorium" "wTXM" 1 1 8 9 1000
      = .ok twoTransfersStart := rfl
  have hexternal : ∀ m ∈ twoTransfers, m.External 9 := by
    intro m hm
    constructor
    · revert m
      decide
    · rintro msgSender newController rfl
      simp [twoTransfers] at hm
  have hpreimages : (history twoTransfersKeccak twoTransfersStart twoTransfers).2.filterMap
      Receipt.preimage? = [twoTransfersPreimage] := by decide
  have honly : ∀ r ∈ (history twoTransfersKeccak twoTransfersStart twoTransfers).2, ∀ p,
      r.preimage? = some p → p = twoTransfersPreimage := by
    intro r hr p hp
    have hmem : p ∈ [twoTransfersPreimage] := by
      rw [← hpreimages]
      exact List.mem_filterMap.mpr ⟨r, hr, hp⟩
    exact List.mem_singleton.mp hmem
  refine ⟨bridge_safe ledgerZeppelin_lawful twoTransfersKeccak hdeploy twoTransfers hexternal ?_,
    by decide, by decide⟩
  intro r hr r' hr' p p' hp hp' _
  rw [honly r hr p hp, honly r' hr' p' hp']

end Tensorium.Bridge
