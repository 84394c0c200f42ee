import Tensorium.Wallet.Contracts

/-! # Spending from a multisig script

    `txmwallet send-from-script` and `p2sh-multisig-spend` build what the signers sign
    and `multisig-combine` puts together. From the listing of the node to the answer of
    the node.
-/

namespace Tensorium

open ByteCodec OrderedMatching Panicking Saturating Script

variable {P : Primitives} {E : Ecdsa P} {params : ConsensusParams} {U : Set Block}

/-! ## The builder -/

section Sample

open Node

end Sample

end Tensorium
