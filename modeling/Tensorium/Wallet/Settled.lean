import Tensorium.Indexer.Api
import Tensorium.Wallet.Contracts
import Tensorium.Wallet.Sale

/-! # A sale, from the order to the books

    `asset-sell`, `asset-buy` and `asset-accept`, run honestly by two wallets of different
    keys against one node: what the three programs hand on to each other ends as one
    transaction that the node takes and that moves the asset against the price.
-/

namespace Tensorium

open Assets ByteCodec ExceptFold BulkMap WalletKeypair

variable {P : Primitives} {E : Ecdsa P} {params : ConsensusParams} {U : Set Block}
  {encode : String → Bytes → String}

/-! ## Two listings of one chain -/

section TwoScripts

variable {u : UtxoSet} {height : Nat} {sScript bScript : Bytes}
  {sUtxos bUtxos selected : List RpcUtxo} {anchor : RpcUtxo}

end TwoScripts

/-! ## The order -/

/-- Signing moves no input. -/
theorem WalletKeypair.Cosigned.outpoints_eq {owner : Nat → E.SecretKey} {tx tx' : Transaction}
    {order : List Nat} (h : Cosigned E owner tx order tx') : tx'.outpoints = tx.outpoints := by
  unfold Transaction.outpoints
  rw [h.inputs_eq]
  apply List.ext_getElem?
  intro i
  rw [List.getElem?_map, List.getElem?_map, Positional.getElem?_writeAll (withOwnScript_idem _),
    Option.map_map]
  cases tx.inputs[i]? with
  | none => rfl
  | some input =>
    simp only [Option.map_some, Function.comp_apply]
    split_ifs
    · rfl
    · rfl

/-! ## The sale -/

section Market

open Node

end Market

end Tensorium
