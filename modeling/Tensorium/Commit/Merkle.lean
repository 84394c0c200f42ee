import Tensorium.Commit.Header

/-! # What a merkle root commits to

    `merkle_root` writes the last node of an odd layer twice. The root therefore
    commits to the list of identifiers as far as it is padded in this way: a
    list that already contains the repetition has the same root as the one
    without it.
-/

namespace Tensorium

open LayeredTree

/-- The identifiers of a list of transactions. -/
abbrev ids (transactions : List Transaction) : List Hash256 := transactions.map Transaction.id

/-- The byte strings that `merkle_root` hashes for a list of transactions. -/
def rootPreimages (P : Primitives) (transactions : List Transaction) : List Bytes :=
  merklePreimages P transactions.length (ids transactions)

theorem merkleRoot_eq_root (P : Primitives) (transactions : List Transaction) :
    merkleRoot P transactions = root (merkleNode P) Hash256.zero (ids transactions) := by
  unfold merkleRoot root
  rw [merkleLoop_eq, List.length_map]

/-- **What equal roots say.** For two lists that are not empty, when
    `double_sha256` is collision free on what their roots hash and no identifier
    is an inner node: the roots are equal exactly when the padded lists of
    identifiers are; and then the lists of identifiers are equal if they have
    the same length, or if neither repeats an identifier. -/
theorem merkleRoot_eq_iff_padded (P : Primitives) (txs txs' : List Transaction)
    (hne : txs ≠ []) (hne' : txs' ≠ [])
    (hfree : CollisionFree P {x | x ∈ rootPreimages P txs ∨ x ∈ rootPreimages P txs'})
    (hinner : ∀ id ∈ ids txs ++ ids txs', ∀ x ∈ rootPreimages P txs ++ rootPreimages P txs',
      id ≠ P.doubleSha256 x) :
    (merkleRoot P txs = merkleRoot P txs' ↔ padded (ids txs) = padded (ids txs')) ∧
    (merkleRoot P txs = merkleRoot P txs' →
      txs.length = txs'.length ∨ ((ids txs).Nodup ∧ (ids txs').Nodup) → ids txs = ids txs') := by
  have hpadded : merkleRoot P txs = merkleRoot P txs' ↔ padded (ids txs) = padded (ids txs') := by
    rw [merkleRoot_eq_root, merkleRoot_eq_root]
    refine root_eq_iff (L := {id | id ∈ ids txs ++ ids txs'}) Hash256.zero (merkleNode_inj hfree)
      ?_ (by simpa using hne) (by simpa using hne') (loopPairs_subset ?_) (loopPairs_subset ?_)
      ?_ ?_
    · intro id hid p hp
      exact hinner id hid _ (List.mem_append.mpr hp)
    · rw [List.length_map]
      exact fun x hx => Or.inl hx
    · rw [List.length_map]
      exact fun x hx => Or.inr hx
    · exact fun id hid => List.mem_append_left _ hid
    · exact fun id hid => List.mem_append_right _ hid
  refine ⟨hpadded, fun hroot hor => ?_⟩
  refine eq_of_padded (hpadded.mp hroot) ?_
  simpa using hor

/-! ## A repeated transaction -/

/-- A digest that tells the nodes of the trees below apart: it marks what it
    hashes with its length. -/
def lengthMarked : Primitives :=
  { Primitives.sample with
    sha256 := fun bytes => Hash256.ofSuffix (bytes ++ [UInt8.ofNat bytes.length]) }

/-- A transaction whose identifier is the byte `n`. -/
def numbered (n : UInt8) : Transaction where
  id := Hash256.ofSuffix [n]
  inputs := []
  outputs := []
  payload := []

/-- Three transactions, and the same with the last one repeated. -/
def threeTxs : List Transaction := [numbered 1, numbered 2, numbered 3]

def fourTxs : List Transaction := [numbered 1, numbered 2, numbered 3, numbered 3]

theorem threeTxs_collisionFree : CollisionFree lengthMarked
    {x | x ∈ rootPreimages lengthMarked threeTxs ∨ x ∈ rootPreimages lengthMarked fourTxs} := by
  have hall : ∀ x ∈ rootPreimages lengthMarked threeTxs ++ rootPreimages lengthMarked fourTxs,
      ∀ y ∈ rootPreimages lengthMarked threeTxs ++ rootPreimages lengthMarked fourTxs,
      lengthMarked.doubleSha256 x = lengthMarked.doubleSha256 y → x = y := by
    decide
  intro x hx y hy
  exact hall x (List.mem_append.mpr hx) y (List.mem_append.mpr hy)

theorem threeTxs_not_inner : ∀ id ∈ ids threeTxs ++ ids fourTxs,
    ∀ x ∈ rootPreimages lengthMarked threeTxs ++ rootPreimages lengthMarked fourTxs,
      id ≠ lengthMarked.doubleSha256 x := by
  decide

/-- The two lists have the same root. -/
theorem repeated_transaction_same_root :
    CollisionFree lengthMarked
      {x | x ∈ rootPreimages lengthMarked threeTxs ∨ x ∈ rootPreimages lengthMarked fourTxs} ∧
    (∀ id ∈ ids threeTxs ++ ids fourTxs,
      ∀ x ∈ rootPreimages lengthMarked threeTxs ++ rootPreimages lengthMarked fourTxs,
        id ≠ lengthMarked.doubleSha256 x) ∧
    merkleRoot lengthMarked threeTxs = merkleRoot lengthMarked fourTxs ∧
    ids threeTxs ≠ ids fourTxs ∧ threeTxs.length ≠ fourTxs.length := by
  exact ⟨threeTxs_collisionFree, threeTxs_not_inner, by decide, by decide,
    by decide⟩

theorem threeTxs_padded_like_fourTxs :
    padded (ids threeTxs) = padded (ids fourTxs) ∧
    merkleRoot lengthMarked threeTxs = merkleRoot lengthMarked fourTxs := by
  have hpadded : padded (ids threeTxs) = padded (ids fourTxs) := by decide
  exact ⟨hpadded, (merkleRoot_eq_iff_padded lengthMarked threeTxs fourTxs (by decide) (by decide)
    threeTxs_collisionFree threeTxs_not_inner).1.mpr hpadded⟩

end Tensorium
