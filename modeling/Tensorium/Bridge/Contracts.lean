import Tensorium.Core.Hash

/-! # The bridge contracts

    `WrappedTensorium.sol` and `TensoriumBridgeController.sol`. The OpenZeppelin
    contracts they inherit from are a parameter: the state each of them keeps,
    and its operations, which revert (`none`) or return the new state. A call
    that reverts changes nothing.
-/

namespace Tensorium.Bridge

/-- `address`. -/
abbrev Address : Type := BitVec 160

/-- `uint256`. -/
abbrev UInt256 : Type := BitVec 256

/-- `bytes32`. -/
abbrev Bytes32 : Type := Hash256

/-! ## OpenZeppelin -/

/-- `ERC20`, `Ownable2Step` and `Pausable`: an operation takes the caller first. -/
structure OpenZeppelin where
  Erc20 : Type
  Ownable2Step : Type
  Pausable : Type
  newErc20 : String → String → Erc20
  totalSupply : Erc20 → UInt256
  mint : Address → UInt256 → Erc20 → Option Erc20
  burn : Address → UInt256 → Erc20 → Option Erc20
  transfer : Address → Address → UInt256 → Erc20 → Option Erc20
  approve : Address → Address → UInt256 → Erc20 → Option Erc20
  transferFrom : Address → Address → Address → UInt256 → Erc20 → Option Erc20
  newOwnable : Address → Option Ownable2Step
  owner : Ownable2Step → Address
  onlyOwner : Address → Ownable2Step → Option Unit
  transferOwnership : Address → Address → Ownable2Step → Option Ownable2Step
  acceptOwnership : Address → Ownable2Step → Option Ownable2Step
  renounceOwnership : Address → Ownable2Step → Option Ownable2Step
  newPausable : Pausable
  paused : Pausable → Bool
  whenNotPaused : Pausable → Option Unit
  pause : Pausable → Option Pausable
  unpause : Pausable → Option Pausable

/-- What the documentation of these contracts promises and the bridge relies on:
    minting and burning change the supply by their amount, the other operations
    of a token leave it alone, and `whenNotPaused` stops a call while paused. -/
structure OpenZeppelin.Lawful (Z : OpenZeppelin) : Prop where
  newErc20_supply : ∀ name symbol, Z.totalSupply (Z.newErc20 name symbol) = 0
  mint_supply : ∀ {to_ amount t t'}, Z.mint to_ amount t = some t' →
    (Z.totalSupply t').toNat = (Z.totalSupply t).toNat + amount.toNat
  burn_supply : ∀ {account amount t t'}, Z.burn account amount t = some t' →
    (Z.totalSupply t').toNat + amount.toNat = (Z.totalSupply t).toNat
  transfer_supply : ∀ {sender to_ amount t t'}, Z.transfer sender to_ amount t = some t' →
    Z.totalSupply t' = Z.totalSupply t
  approve_supply : ∀ {sender spender amount t t'}, Z.approve sender spender amount t = some t' →
    Z.totalSupply t' = Z.totalSupply t
  transferFrom_supply : ∀ {sender account to_ amount t t'},
    Z.transferFrom sender account to_ amount t = some t' → Z.totalSupply t' = Z.totalSupply t
  whenNotPaused_iff : ∀ p, Z.whenNotPaused p = some () ↔ Z.paused p = false

/-! ## Errors and events -/

/-- The errors of the two contracts, the panic of checked arithmetic, and the errors
    of OpenZeppelin. -/
inductive Revert where
  | notBridgeController
  | invalidBridgeController
  | notOperator
  | notPauser
  | invalidToken
  | invalidRecipient
  | invalidAmount
  | invalidTensoriumAddress
  | bridgeEventAlreadyProcessed
  | exceedsMaxPerTx
  | arithmeticOverflow
  | openZeppelin
  deriving DecidableEq

/-- The events of the two contracts. -/
inductive Event where
  | bridgeControllerUpdated (previousController newController : Address)
  | tokenPauserUpdated (previousPauser newPauser : Address)
  | operatorUpdated (operator : Address) (allowed : Bool)
  | pauserUpdated (previousPauser newPauser : Address)
  | maxPerTxUpdated (previousMax newMax : UInt256)
  | bridgePaused (by_ : Address)
  | bridgeUnpaused (by_ : Address)
  | depositMinted (bridgeEventId tensoriumTxid : Bytes32) (recipient : Address)
      (amount : UInt256)
  | withdrawalRequested (bridgeEventId : Bytes32) (requester : Address)
      (tensoriumAddress : Bytes) (amount : UInt256)
  deriving DecidableEq

/-- `if (p) revert e;`. -/
def revertIf (p : Prop) [Decidable p] (e : Revert) : Except Revert Unit :=
  if p then .error e else .ok ()

/-- An operation of OpenZeppelin. -/
def inherited {α : Type} : Option α → Except Revert α
  | some a => .ok a
  | none => .error .openZeppelin

/-- `a + b` of Solidity 0.8. -/
def checkedAdd (a b : UInt256) : Except Revert UInt256 :=
  if a.toNat + b.toNat < 2 ^ 256 then .ok (a + b) else .error .arithmeticOverflow

variable {Z : OpenZeppelin}

/-! ## The token -/

/-- The state of `WrappedTensorium`. -/
structure WrappedTensorium (Z : OpenZeppelin) where
  erc20 : Z.Erc20
  ownable : Z.Ownable2Step
  pausable : Z.Pausable
  bridgeController : Address
  pauser : Address

namespace WrappedTensorium

/-- `constructor`. -/
def new (Z : OpenZeppelin) (name symbol : String) (initialOwner : Address) :
    Except Revert (WrappedTensorium Z) := do
  let ownable ← inherited (Z.newOwnable initialOwner)
  return ⟨Z.newErc20 name symbol, ownable, Z.newPausable, 0, 0⟩

/-- `setBridgeController`. -/
def setBridgeController (msgSender newController : Address) (t : WrappedTensorium Z) :
    Except Revert (WrappedTensorium Z × List Event) := do
  inherited (Z.onlyOwner msgSender t.ownable)
  revertIf (newController = 0) .invalidBridgeController
  return ({ t with bridgeController := newController },
    [.bridgeControllerUpdated t.bridgeController newController])

/-- `setPauser`. -/
def setPauser (msgSender newPauser : Address) (t : WrappedTensorium Z) :
    Except Revert (WrappedTensorium Z × List Event) := do
  inherited (Z.onlyOwner msgSender t.ownable)
  return ({ t with pauser := newPauser }, [.tokenPauserUpdated t.pauser newPauser])

/-- `pause`. -/
def pause (msgSender : Address) (t : WrappedTensorium Z) :
    Except Revert (WrappedTensorium Z × List Event) := do
  revertIf (msgSender ≠ t.pauser ∧ msgSender ≠ Z.owner t.ownable) .notPauser
  let pausable ← inherited (Z.pause t.pausable)
  return ({ t with pausable }, [])

/-- `unpause`. -/
def unpause (msgSender : Address) (t : WrappedTensorium Z) :
    Except Revert (WrappedTensorium Z × List Event) := do
  inherited (Z.onlyOwner msgSender t.ownable)
  let pausable ← inherited (Z.unpause t.pausable)
  return ({ t with pausable }, [])

/-- `bridgeMint`. -/
def bridgeMint (msgSender to_ : Address) (amount : UInt256) (t : WrappedTensorium Z) :
    Except Revert (WrappedTensorium Z) := do
  revertIf (msgSender ≠ t.bridgeController) .notBridgeController
  inherited (Z.whenNotPaused t.pausable)
  let erc20 ← inherited (Z.mint to_ amount t.erc20)
  return { t with erc20 }

/-- `bridgeBurnFrom`. -/
def bridgeBurnFrom (msgSender account : Address) (amount : UInt256) (t : WrappedTensorium Z) :
    Except Revert (WrappedTensorium Z) := do
  revertIf (msgSender ≠ t.bridgeController) .notBridgeController
  inherited (Z.whenNotPaused t.pausable)
  let erc20 ← inherited (Z.burn account amount t.erc20)
  return { t with erc20 }

end WrappedTensorium

/-! ## The controller -/

/-- The state of `TensoriumBridgeController`. -/
structure TensoriumBridgeController (Z : OpenZeppelin) where
  ownable : Z.Ownable2Step
  pausable : Z.Pausable
  token : Address
  withdrawalNonce : UInt256
  maxPerTx : UInt256
  pauser : Address
  operators : Address → Bool
  processedEventIds : Bytes32 → Bool

namespace TensoriumBridgeController

/-- `constructor`. -/
def new (Z : OpenZeppelin) (token_ initialOwner : Address) (maxPerTx_ : UInt256) :
    Except Revert (TensoriumBridgeController Z) := do
  let ownable ← inherited (Z.newOwnable initialOwner)
  revertIf (token_ = 0) .invalidToken
  return ⟨ownable, Z.newPausable, token_, 0, maxPerTx_, 0, fun _ => false, fun _ => false⟩

/-- `setOperator`. -/
def setOperator (msgSender account : Address) (allowed : Bool)
    (c : TensoriumBridgeController Z) :
    Except Revert (TensoriumBridgeController Z × List Event) := do
  inherited (Z.onlyOwner msgSender c.ownable)
  return ({ c with operators := Function.update c.operators account allowed },
    [.operatorUpdated account allowed])

/-- `setPauser`. -/
def setPauser (msgSender newPauser : Address) (c : TensoriumBridgeController Z) :
    Except Revert (TensoriumBridgeController Z × List Event) := do
  inherited (Z.onlyOwner msgSender c.ownable)
  return ({ c with pauser := newPauser }, [.pauserUpdated c.pauser newPauser])

/-- `setMaxPerTx`. -/
def setMaxPerTx (msgSender : Address) (newMax : UInt256) (c : TensoriumBridgeController Z) :
    Except Revert (TensoriumBridgeController Z × List Event) := do
  inherited (Z.onlyOwner msgSender c.ownable)
  return ({ c with maxPerTx := newMax }, [.maxPerTxUpdated c.maxPerTx newMax])

/-- `pause`. -/
def pause (msgSender : Address) (c : TensoriumBridgeController Z) :
    Except Revert (TensoriumBridgeController Z × List Event) := do
  revertIf (msgSender ≠ c.pauser ∧ msgSender ≠ Z.owner c.ownable) .notPauser
  let pausable ← inherited (Z.pause c.pausable)
  return ({ c with pausable }, [.bridgePaused msgSender])

/-- `unpause`. -/
def unpause (msgSender : Address) (c : TensoriumBridgeController Z) :
    Except Revert (TensoriumBridgeController Z × List Event) := do
  inherited (Z.onlyOwner msgSender c.ownable)
  let pausable ← inherited (Z.unpause c.pausable)
  return ({ c with pausable }, [.bridgeUnpaused msgSender])

end TensoriumBridgeController

/-- `abi.encodePacked(withdrawalNonce, msg.sender, amount, tensoriumAddress)`. -/
def encodePacked (withdrawalNonce : UInt256) (msgSender : Address) (amount : UInt256)
    (tensoriumAddress : Bytes) : Bytes :=
  ByteCodec.beBytes 32 withdrawalNonce.toNat ++ ByteCodec.beBytes 20 msgSender.toNat
    ++ ByteCodec.beBytes 32 amount.toNat ++ tensoriumAddress

/-! ## Both of them on a chain -/

/-- The token, and the controller whose `token` it is, at its address. -/
structure World (Z : OpenZeppelin) where
  token : WrappedTensorium Z
  controller : TensoriumBridgeController Z
  controllerAddress : Address

namespace World

/-- `mintFromTensoriumDeposit`. -/
def mintFromTensoriumDeposit (msgSender : Address) (bridgeEventId tensoriumTxid : Bytes32)
    (recipient : Address) (amount : UInt256) (w : World Z) :
    Except Revert (World Z × List Event) := do
  revertIf (¬ w.controller.operators msgSender) .notOperator
  inherited (Z.whenNotPaused w.controller.pausable)
  revertIf (recipient = 0) .invalidRecipient
  revertIf (amount = 0) .invalidAmount
  revertIf (amount > w.controller.maxPerTx) .exceedsMaxPerTx
  revertIf (w.controller.processedEventIds bridgeEventId) .bridgeEventAlreadyProcessed
  let controller := { w.controller with
    processedEventIds := Function.update w.controller.processedEventIds bridgeEventId true }
  let token ← w.token.bridgeMint w.controllerAddress recipient amount
  return ({ w with token, controller },
    [.depositMinted bridgeEventId tensoriumTxid recipient amount])

/-- `requestWithdrawalToTensorium`. -/
def requestWithdrawalToTensorium (keccak256 : Bytes → Bytes32) (msgSender : Address)
    (tensoriumAddress : Bytes) (amount : UInt256) (w : World Z) :
    Except Revert (World Z × List Event) := do
  inherited (Z.whenNotPaused w.controller.pausable)
  revertIf (tensoriumAddress.length = 0) .invalidTensoriumAddress
  revertIf (amount = 0) .invalidAmount
  revertIf (amount > w.controller.maxPerTx) .exceedsMaxPerTx
  let withdrawalNonce ← checkedAdd w.controller.withdrawalNonce 1
  let bridgeEventId :=
    keccak256 (encodePacked withdrawalNonce msgSender amount tensoriumAddress)
  let controller := { w.controller with
    withdrawalNonce
    processedEventIds := Function.update w.controller.processedEventIds bridgeEventId true }
  let token ← w.token.bridgeBurnFrom w.controllerAddress msgSender amount
  return ({ w with token, controller },
    [.withdrawalRequested bridgeEventId msgSender tensoriumAddress amount])

end World

/-! ## Calls -/

/-- The operations the two contracts inherit from `Ownable2Step`. -/
inductive OwnableCall where
  | transferOwnership (newOwner : Address)
  | acceptOwnership
  | renounceOwnership

def OwnableCall.run (msgSender : Address) (o : Z.Ownable2Step) :
    OwnableCall → Except Revert Z.Ownable2Step
  | transferOwnership newOwner => inherited (Z.transferOwnership msgSender newOwner o)
  | acceptOwnership => inherited (Z.acceptOwnership msgSender o)
  | renounceOwnership => inherited (Z.renounceOwnership msgSender o)

/-- The external functions of the token. -/
inductive TokenCall where
  | setBridgeController (newController : Address)
  | setPauser (newPauser : Address)
  | pause
  | unpause
  | bridgeMint (to_ : Address) (amount : UInt256)
  | bridgeBurnFrom (account : Address) (amount : UInt256)
  | transfer (to_ : Address) (amount : UInt256)
  | approve (spender : Address) (amount : UInt256)
  | transferFrom (account to_ : Address) (amount : UInt256)
  | ownable (call : OwnableCall)

/-- The external functions of the controller that do not call the token. -/
inductive ControllerCall where
  | setOperator (account : Address) (allowed : Bool)
  | setPauser (newPauser : Address)
  | setMaxPerTx (newMax : UInt256)
  | pause
  | unpause
  | ownable (call : OwnableCall)

/-- A transaction of an account. -/
inductive Message where
  | token (msgSender : Address) (call : TokenCall)
  | controller (msgSender : Address) (call : ControllerCall)
  | mintFromTensoriumDeposit (msgSender : Address) (bridgeEventId tensoriumTxid : Bytes32)
      (recipient : Address) (amount : UInt256)
  | requestWithdrawalToTensorium (msgSender : Address) (tensoriumAddress : Bytes)
      (amount : UInt256)

/-- The account behind a transaction. -/
def Message.sender : Message → Address
  | token msgSender _ => msgSender
  | controller msgSender _ => msgSender
  | mintFromTensoriumDeposit msgSender .. => msgSender
  | requestWithdrawalToTensorium msgSender .. => msgSender

def WrappedTensorium.run (msgSender : Address) (t : WrappedTensorium Z) :
    TokenCall → Except Revert (WrappedTensorium Z × List Event)
  | .setBridgeController newController => t.setBridgeController msgSender newController
  | .setPauser newPauser => t.setPauser msgSender newPauser
  | .pause => t.pause msgSender
  | .unpause => t.unpause msgSender
  | .bridgeMint to_ amount => do
    return (← t.bridgeMint msgSender to_ amount, [])
  | .bridgeBurnFrom account amount => do
    return (← t.bridgeBurnFrom msgSender account amount, [])
  | .transfer to_ amount => do
    return ({ t with erc20 := ← inherited (Z.transfer msgSender to_ amount t.erc20) }, [])
  | .approve spender amount => do
    return ({ t with erc20 := ← inherited (Z.approve msgSender spender amount t.erc20) }, [])
  | .transferFrom account to_ amount => do
    return ({ t with
      erc20 := ← inherited (Z.transferFrom msgSender account to_ amount t.erc20) }, [])
  | .ownable call => do
    return ({ t with ownable := ← call.run msgSender t.ownable }, [])

def TensoriumBridgeController.run (msgSender : Address) (c : TensoriumBridgeController Z) :
    ControllerCall → Except Revert (TensoriumBridgeController Z × List Event)
  | .setOperator account allowed => c.setOperator msgSender account allowed
  | .setPauser newPauser => c.setPauser msgSender newPauser
  | .setMaxPerTx newMax => c.setMaxPerTx msgSender newMax
  | .pause => c.pause msgSender
  | .unpause => c.unpause msgSender
  | .ownable call => do
    return ({ c with ownable := ← call.run msgSender c.ownable }, [])

namespace World

/-- One transaction. -/
def run (keccak256 : Bytes → Bytes32) (w : World Z) :
    Message → Except Revert (World Z × List Event)
  | .token msgSender call => do
    let (token, events) ← w.token.run msgSender call
    return ({ w with token }, events)
  | .controller msgSender call => do
    let (controller, events) ← w.controller.run msgSender call
    return ({ w with controller }, events)
  | .mintFromTensoriumDeposit msgSender bridgeEventId tensoriumTxid recipient amount =>
    w.mintFromTensoriumDeposit msgSender bridgeEventId tensoriumTxid recipient amount
  | .requestWithdrawalToTensorium msgSender tensoriumAddress amount =>
    w.requestWithdrawalToTensorium keccak256 msgSender tensoriumAddress amount

/-- Both contracts as they are deployed, with the controller set as the one of the
    token. -/
def deploy (Z : OpenZeppelin) (name symbol : String) (tokenOwner controllerOwner : Address)
    (tokenAddress controllerAddress : Address) (maxPerTx : UInt256) :
    Except Revert (World Z) := do
  let token ← WrappedTensorium.new Z name symbol tokenOwner
  let controller ← TensoriumBridgeController.new Z tokenAddress controllerOwner maxPerTx
  return ⟨{ token with bridgeController := controllerAddress }, controller, controllerAddress⟩

end World

end Tensorium.Bridge
