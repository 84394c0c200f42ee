import Tensorium.Lib.BulkMap
import Tensorium.Core.Utxo

/-! # The database

    `storage/mod.rs` and the use `state.rs` makes of RocksDB. The four column
    families are maps with typed keys and values: the byte encodings of the
    keys are injective and keep their order, and the values are written and
    read through one codec each. A write batch is applied as a whole.
-/

namespace Tensorium

open ByteCodec BulkMap

/-! ## Key encodings -/

/-- `encode_height`. -/
def encodeHeight (h : Nat) : Bytes := beBytes 8 h

/-- `decode_height`; the source panics on a key of another length. -/
def decodeHeight (key : Bytes) : Option Nat :=
  if key.length = 8 then some (beNat key) else none

/-- `encode_outpoint`. -/
def encodeOutpoint (op : OutPoint) : Bytes :=
  op.txid.bytes ++ beBytes 4 op.outputIndex.toNat

/-- `decode_outpoint`; the source panics on a key shorter than 36 bytes. -/
def decodeOutpoint (key : Bytes) : Option OutPoint :=
  if h : 36 ≤ key.length then
    some ⟨⟨key.take 32, by rw [List.length_take]; omega⟩,
      UInt32.ofNat (beNat ((key.drop 32).take 4))⟩
  else none

theorem decodeHeight_encodeHeight {h : Nat} (hh : h < 2 ^ 64) :
    decodeHeight (encodeHeight h) = some h := by
  unfold decodeHeight encodeHeight
  rw [if_pos (length_beBytes 8 h), beNat_beBytes (by omega)]

/-- Height keys sort numerically. -/
theorem encodeHeight_lt_iff {a b : Nat} (ha : a < 2 ^ 64) (hb : b < 2 ^ 64) :
    encodeHeight a < encodeHeight b ↔ a < b := by
  unfold encodeHeight
  rw [lt_iff_beNat_lt (by simp), beNat_beBytes (by omega), beNat_beBytes (by omega)]

@[simp] theorem length_encodeOutpoint (op : OutPoint) : (encodeOutpoint op).length = 36 := by
  simp [encodeOutpoint, op.txid.size]

theorem decodeOutpoint_encodeOutpoint (op : OutPoint) :
    decodeOutpoint (encodeOutpoint op) = some op := by
  have hsize := op.txid.size
  have hindex : op.outputIndex.toNat < 256 ^ 4 := op.outputIndex.toNat_lt
  unfold decodeOutpoint
  rw [dif_pos (by simp)]
  -- The identifier and the index are cut out at fixed positions.
  congr 2
  · exact Hash256.ext (by simp [encodeOutpoint, hsize])
  · unfold encodeOutpoint
    rw [← hsize, List.drop_left, List.take_of_length_le (by simp), beNat_beBytes hindex,
      UInt32.ofNat_toNat]

theorem encodeOutpoint_injective : Function.Injective encodeOutpoint := by
  intro a b h
  have hdec := congrArg decodeOutpoint h
  rw [decodeOutpoint_encodeOutpoint, decodeOutpoint_encodeOutpoint] at hdec
  exact Option.some.inj hdec

/-- The key of an outpoint, read as a big-endian number. -/
def outpointKey (op : OutPoint) : Nat := beNat (encodeOutpoint op)

theorem outpointKey_injective : Function.Injective outpointKey := by
  intro a b h
  exact encodeOutpoint_injective (beNat_injective (by simp) h)

/-- Outpoints are ordered as their keys are. -/
instance : LinearOrder OutPoint where
  le a b := outpointKey a ≤ outpointKey b
  le_refl a := le_refl (outpointKey a)
  le_trans a b c := le_trans (a := outpointKey a) (b := outpointKey b) (c := outpointKey c)
  le_antisymm _ _ hab hba := outpointKey_injective (le_antisymm hab hba)
  le_total a b := le_total (outpointKey a) (outpointKey b)
  toDecidableLE a b := Nat.decLe (outpointKey a) (outpointKey b)
  toDecidableEq := inferInstance

/-! ## Column families and write batches -/

/-- The column families `CF_BLOCKS`, `CF_CANONICAL`, `CF_UTXO`, and the keys of
    `CF_META`. -/
structure Db where
  blocks : Map Hash256 Block
  canonical : Map Nat Hash256
  utxo : UtxoSet
  metaTip : Option Hash256
  metaHeight : Option Nat
  metaChainId : Option String
  metaUtxoTip : Option Hash256

namespace Db

/-- A database that was just created. -/
def empty : Db where
  blocks := ∅
  canonical := ∅
  utxo := ∅
  metaTip := none
  metaHeight := none
  metaChainId := none
  metaUtxoTip := none

end Db

/-- One operation of a `WriteBatch`. -/
inductive WriteOp where
  | putBlock (hash : Hash256) (block : Block)
  | putCanonical (height : Nat) (hash : Hash256)
  | deleteCanonical (height : Nat)
  | putUtxo (op : OutPoint) (entry : UtxoEntry)
  | deleteUtxo (op : OutPoint)
  | putMetaTip (hash : Hash256)
  | putMetaHeight (height : Nat)
  | putMetaChainId (chainId : String)
  | putMetaUtxoTip (hash : Hash256)

abbrev WriteBatch : Type := List WriteOp

namespace Db

/-- The effect of one operation. -/
def apply (db : Db) : WriteOp → Db
  | .putBlock hash block => { db with blocks := db.blocks.insert hash block }
  | .putCanonical height hash => { db with canonical := db.canonical.insert height hash }
  | .deleteCanonical height => { db with canonical := db.canonical.erase height }
  | .putUtxo op entry => { db with utxo := db.utxo.insert op entry }
  | .deleteUtxo op => { db with utxo := db.utxo.erase op }
  | .putMetaTip hash => { db with metaTip := some hash }
  | .putMetaHeight height => { db with metaHeight := some height }
  | .putMetaChainId chainId => { db with metaChainId := some chainId }
  | .putMetaUtxoTip hash => { db with metaUtxoTip := some hash }

/-- `DB::write`: the operations of a batch take effect in order, all together. -/
def write (db : Db) (batch : WriteBatch) : Db := batch.foldl apply db

theorem write_append (db : Db) (b₁ b₂ : WriteBatch) :
    db.write (b₁ ++ b₂) = (db.write b₁).write b₂ :=
  List.foldl_append

/-! ## Batches that write one column family -/

theorem write_putCanonical (db : Db) (l : List (Nat × Hash256)) :
    db.write (l.map fun e => .putCanonical e.1 e.2)
      = { db with canonical := insertAll db.canonical l } := by
  induction l generalizing db with
  | nil => rfl
  | cons e l ih => exact ih _

theorem write_deleteCanonical (db : Db) (l : List Nat) :
    db.write (l.map .deleteCanonical) = { db with canonical := eraseAll db.canonical l } := by
  induction l generalizing db with
  | nil => rfl
  | cons e l ih => exact ih _

theorem write_putUtxo (db : Db) (l : List (OutPoint × UtxoEntry)) :
    db.write (l.map fun e => .putUtxo e.1 e.2) = { db with utxo := insertAll db.utxo l } := by
  induction l generalizing db with
  | nil => rfl
  | cons e l ih => exact ih _

theorem write_deleteUtxo (db : Db) (l : List OutPoint) :
    db.write (l.map .deleteUtxo) = { db with utxo := eraseAll db.utxo l } := by
  induction l generalizing db with
  | nil => rfl
  | cons e l ih => exact ih _

end Db

end Tensorium
