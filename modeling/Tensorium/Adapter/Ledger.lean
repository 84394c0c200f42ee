import Tensorium.Lib.KeyedLog
import Tensorium.Indexer.Scan

/-! # The deposit ledger of the RPC adapter

    `txm-rpc-adapter/src/scan.rs`, and the methods of `main.rs` that report from
    the ledger. The adapter reads every block above the last one it has read,
    records the outputs to addresses of its wallet, and never takes an entry back.
-/

namespace Tensorium

namespace Adapter

open BulkMap KeyedLog

/-- `LedgerEntry`. The index is a `u32`, of which no transaction has enough outputs
    to run out. -/
structure LedgerEntry where
  txid : String
  address : String
  category : String
  amountAtoms : UInt64
  vout : Nat
  blockHeight : Nat
  blockHash : String
  time : Nat
  deriving DecidableEq

/-- `Ledger`, less the path of its file. -/
structure Ledger where
  lastHeight : Nat
  entries : List LedgerEntry
  heights : Map Nat String
  seen : Finset String

/-- `format!("{txid}:{vout}")`. -/
def seenKey (txid : String) (vout : Nat) : String := txid ++ ":" ++ Nat.repr vout

/-- The key of an entry. -/
def LedgerEntry.key (e : LedgerEntry) : String := seenKey e.txid e.vout

namespace Ledger

/-- `Ledger::default`. -/
def default : Ledger := ⟨0, [], ∅, ∅⟩

/-! ## Scanning -/

section scan

variable (encode : String → Bytes → String) (isMine : String → Bool)

/-- The entry for an output, if it is to an address of the wallet. -/
def entryFor (height : Nat) (hash : String) (time : Nat) (txid : String) (o : TxOutput × Nat) :
    Option LedgerEntry :=
  match Script.extractAddress encode o.1.scriptPubkey with
  | none => none
  | some addr =>
    if isMine addr then
      some
        { txid := txid, address := addr, category := "receive", amountAtoms := o.1.valueAtoms,
          vout := o.2, blockHeight := height, blockHash := hash, time := time }
    else none

/-- The entry is pushed, unless its key has been seen. -/
def push (l : Ledger) (e : LedgerEntry) : Ledger :=
  if e.key ∈ l.seen then l
  else { l with seen := insert e.key l.seen, entries := l.entries ++ [e] }

/-- One round of the loop over the outputs of a transaction. -/
def recordOutput (height : Nat) (hash : String) (time : Nat) (txid : String) (l : Ledger)
    (o : TxOutput × Nat) : Ledger :=
  match entryFor encode isMine height hash time txid o with
  | none => l
  | some e => l.push e

/-- One round of the loop over the transactions of a block. -/
def recordTx (height : Nat) (hash : String) (time : Nat) (l : Ledger) (tx : Transaction) :
    Ledger :=
  tx.outputs.zipIdx.foldl (recordOutput encode isMine height hash time tx.id.toHex) l

/-- One round of the loop of `scan`. -/
def takeBlock (l : Ledger) (height : Nat) (served : Served) : Ledger :=
  let hash := served.1.toHex
  let l := { l with heights := l.heights.insert height hash }
  let l := served.2.transactions.foldl
    (recordTx encode isMine height hash served.2.header.timestampSeconds) l
  { l with lastHeight := height }

/-- The loop of `scan`, over the given number of heights. -/
def scanLoop (fetch : Nat → Except String Served) :
    Nat → Nat → Ledger → Ledger × Except String Unit
  | 0, _, l => (l, .ok ())
  | rounds + 1, height, l =>
    match fetch height with
    | .error e => (l, .error e)
    | .ok served => scanLoop fetch rounds (height + 1) (l.takeBlock encode isMine height served)

/-- The height a scan starts at. -/
def start (l : Ledger) : Nat :=
  if l.lastHeight = 0 ∧ l.entries = [] then 0 else l.lastHeight + 1

/-- `Ledger::scan`, given the answers of the node. It returns the number of the
    entries it has pushed. -/
def scan (l : Ledger) (count : Except String Nat) (fetch : Nat → Except String Served) :
    Ledger × Except String Nat :=
  match count with
  | .error e => (l, .error e)
  | .ok tip =>
    let r := scanLoop encode isMine fetch (tip + 1 - l.start) l.start l
    (r.1, r.2.map fun _ => r.1.entries.length - l.entries.length)

end scan

/-! ## Reporting -/

/-- `confirmations`. -/
def confirmations (entry : LedgerEntry) (tip : Nat) : Nat := tip - entry.blockHeight + 1

/-- The height that `since_block` finds for a hash; the order in which a hash map
    is searched is not specified. -/
def heightOf (order : Iteration Nat String) (l : Ledger) (blockHash : String) : Option Nat :=
  ((order.list l.heights).find? fun h => decide (h.2 = blockHash)).map Prod.fst

/-- `since_block`. -/
def sinceBlock (order : Iteration Nat String) (l : Ledger) (blockHash : String) :
    List LedgerEntry :=
  match l.heightOf order blockHash with
  | some fromHeight => l.entries.filter fun e => decide (e.blockHeight > fromHeight)
  | none => l.entries

end Ledger

/-- What `entry_json` renders. The amount is rendered as a decimal. -/
structure DepositReport where
  txid : String
  address : String
  category : String
  amountAtoms : UInt64
  vout : Nat
  confirmations : Nat
  blockhash : String
  blockheight : Nat
  time : Nat
  deriving DecidableEq

/-- `entry_json`. -/
def entryJson (tip : Nat) (e : LedgerEntry) : DepositReport where
  txid := e.txid
  address := e.address
  category := e.category
  amountAtoms := e.amountAtoms
  vout := e.vout
  confirmations := Ledger.confirmations e tip
  blockhash := e.blockHash
  blockheight := e.blockHeight
  time := e.time

namespace Ledger

/-- The transactions of `listsinceblock`. -/
def listSinceBlock (order : Iteration Nat String) (l : Ledger) (blockHash : String) (tip : Nat) :
    List DepositReport :=
  (l.sinceBlock order blockHash).map (entryJson tip)

/-- `listtransactions`. -/
def listTransactions (l : Ledger) (count skip tip : Nat) : List DepositReport :=
  ((l.entries.reverse.drop skip).take count).map (entryJson tip)

/-- The details and the confirmations of `gettransaction`; `none` for its error. -/
def getTransaction (l : Ledger) (txid : String) (tip : Nat) : Option (List DepositReport × Nat) :=
  match l.entries.filter fun e => decide (e.txid = txid) with
  | [] => none
  | e :: es => some ((e :: es).map (entryJson tip), confirmations e tip)

theorem sinceBlock_subset (order : Iteration Nat String) (l : Ledger) (blockHash : String) :
    l.sinceBlock order blockHash ⊆ l.entries := by
  intro e he
  unfold sinceBlock at he
  split at he
  · exact List.mem_of_mem_filter he
  · exact he

/-! ## What a scan records -/

variable {encode : String → Bytes → String} {isMine : String → Bool} {l : Ledger}

/-- The entries for the outputs of a block, in order. -/
def depositsOf (encode : String → Bytes → String) (isMine : String → Bool) (height : Nat)
    (served : Served) : List LedgerEntry :=
  served.2.transactions.flatMap fun tx =>
    tx.outputs.zipIdx.filterMap
      (entryFor encode isMine height served.1.toHex served.2.header.timestampSeconds tx.id.toHex)

/-- The same of blocks from a height on. -/
def depositsFrom (encode : String → Bytes → String) (isMine : String → Bool) :
    Nat → List Served → List LedgerEntry
  | _, [] => []
  | height, served :: chain =>
    depositsOf encode isMine height served ++ depositsFrom encode isMine (height + 1) chain

/-- The blocks of a list, taken in one after the other. -/
def takeBlocks (encode : String → Bytes → String) (isMine : String → Bool) :
    Nat → Ledger → List Served → Ledger
  | _, l, [] => l
  | height, l, served :: chain =>
    takeBlocks encode isMine (height + 1) (l.takeBlock encode isMine height served) chain

theorem mem_depositsOf {height : Nat} {served : Served} {e : LedgerEntry} :
    e ∈ depositsOf encode isMine height served ↔
      ∃ tx ∈ served.2.transactions, ∃ out, tx.outputs[e.vout]? = some out ∧
        Script.extractAddress encode out.scriptPubkey = some e.address ∧
        isMine e.address = true ∧
        e = ⟨tx.id.toHex, e.address, "receive", out.valueAtoms, e.vout, height, served.1.toHex,
          served.2.header.timestampSeconds⟩ := by
  unfold depositsOf
  simp only [List.mem_flatMap, List.mem_filterMap]
  constructor
  · rintro ⟨tx, htx, ⟨out, vout⟩, hout, hentry⟩
    rw [List.mem_zipIdx_iff_getElem?] at hout
    unfold entryFor at hentry
    dsimp only at hentry hout
    cases haddr : Script.extractAddress encode out.scriptPubkey with
    | none =>
      rw [haddr] at hentry
      cases hentry
    | some addr =>
      rw [haddr] at hentry
      dsimp only at hentry
      split_ifs at hentry with hmine
      obtain rfl := Option.some.inj hentry
      exact ⟨tx, htx, out, hout, haddr, hmine, rfl⟩
  · rintro ⟨tx, htx, out, hout, haddr, hmine, heq⟩
    refine ⟨tx, htx, (out, e.vout), ?_, ?_⟩
    · rw [List.mem_zipIdx_iff_getElem?]
      exact hout
    · unfold entryFor
      rw [haddr, heq]
      simp [hmine]

/-- Entries pushed one after the other. -/
def pushAll (l : Ledger) (es : List LedgerEntry) : Ledger := es.foldl push l

theorem pushAll_spec (l : Ledger) (es : List LedgerEntry) :
    l.pushAll es = { l with
      entries := l.entries ++ fresh LedgerEntry.key l.seen es
      seen := l.seen ∪ (es.map LedgerEntry.key).toFinset } := by
  induction es generalizing l with
  | nil => simp [pushAll, fresh]
  | cons e es ih =>
    show (l.push e).pushAll es = _
    by_cases hseen : e.key ∈ l.seen
    · have hpush : l.push e = l := if_pos hseen
      rw [hpush, ih, fresh, if_pos hseen, List.map_cons, List.toFinset_cons, Finset.union_insert,
        Finset.insert_eq_of_mem (Finset.mem_union_left _ hseen)]
    · have hpush : l.push e
          = { l with seen := insert e.key l.seen, entries := l.entries ++ [e] } := if_neg hseen
      rw [hpush, ih, fresh, if_neg hseen, List.map_cons, List.toFinset_cons]
      congr 1
      · rw [List.append_assoc]
        rfl
      · rw [Finset.union_insert, Finset.insert_union]

theorem recordTx_eq (height : Nat) (hash : String) (time : Nat) (l : Ledger) (tx : Transaction) :
    recordTx encode isMine height hash time l tx
      = l.pushAll (tx.outputs.zipIdx.filterMap
          (entryFor encode isMine height hash time tx.id.toHex)) := by
  unfold recordTx pushAll
  rw [List.foldl_filterMap]
  congr 1
  funext l o
  unfold recordOutput
  cases entryFor encode isMine height hash time tx.id.toHex o with
  | none => rfl
  | some e => rfl

/-- What taking in a block does. -/
theorem takeBlock_eq (l : Ledger) (height : Nat) (served : Served) :
    l.takeBlock encode isMine height served =
      { lastHeight := height
        entries := l.entries
          ++ fresh LedgerEntry.key l.seen (depositsOf encode isMine height served)
        heights := l.heights.insert height served.1.toHex
        seen := l.seen
          ∪ ((depositsOf encode isMine height served).map LedgerEntry.key).toFinset } := by
  have hfold : served.2.transactions.foldl
      (recordTx encode isMine height served.1.toHex served.2.header.timestampSeconds)
      { l with heights := l.heights.insert height served.1.toHex }
      = pushAll { l with heights := l.heights.insert height served.1.toHex }
          (depositsOf encode isMine height served) := by
    unfold depositsOf pushAll
    rw [List.foldl_flatMap]
    congr 1
    funext l tx
    exact recordTx_eq _ _ _ _ _
  unfold takeBlock
  dsimp only
  rw [hfold, pushAll_spec]

/-- What taking in blocks does to the entries. -/
theorem takeBlocks_entries (height : Nat) (l : Ledger) (chain : List Served) :
    (takeBlocks encode isMine height l chain).entries
      = l.entries
        ++ fresh LedgerEntry.key l.seen (depositsFrom encode isMine height chain) := by
  induction chain generalizing height l with
  | nil => simp [takeBlocks, depositsFrom, fresh]
  | cons served chain ih =>
    rw [takeBlocks, ih, takeBlock_eq, depositsFrom, fresh_append, List.append_assoc]

theorem takeBlocks_lastHeight (height : Nat) (l : Ledger) {chain : List Served}
    (hne : chain ≠ []) :
    (takeBlocks encode isMine height l chain).lastHeight = height + chain.length - 1 := by
  induction chain generalizing height l with
  | nil => exact absurd rfl hne
  | cons served chain ih =>
    rw [takeBlocks]
    cases chain with
    | nil =>
      rw [takeBlocks, takeBlock_eq]
      rfl
    | cons next chain =>
      rw [ih _ _ (List.cons_ne_nil _ _)]
      simp only [List.length_cons]
      omega

theorem takeBlocks_heights (height : Nat) (l : Ledger) (chain : List Served) (k : Nat) :
    (takeBlocks encode isMine height l chain).heights.lookup k
      = if height ≤ k ∧ k < height + chain.length then
          chain[k - height]?.map fun served => served.1.toHex
        else l.heights.lookup k := by
  induction chain generalizing height l with
  | nil =>
    rw [takeBlocks, if_neg]
    simp
  | cons served chain ih =>
    rw [takeBlocks, ih, takeBlock_eq]
    dsimp only
    rw [lookup_insert_ite, List.length_cons]
    by_cases hlater : height + 1 ≤ k ∧ k < height + 1 + chain.length
    · rw [if_pos hlater, if_pos ⟨by omega, by omega⟩]
      obtain ⟨n, hn⟩ : ∃ n, k - height = n + 1 := ⟨k - height - 1, by omega⟩
      rw [hn, List.getElem?_cons_succ, show k - (height + 1) = n by omega]
    · rw [if_neg hlater]
      by_cases hfirst : height = k
      · subst hfirst
        rw [if_pos rfl, if_pos ⟨le_rfl, by omega⟩, Nat.sub_self]
        rfl
      · rw [if_neg hfirst, if_neg]
        omega

/-- No key is recorded twice, and the keys seen are those recorded. -/
structure Unique (l : Ledger) : Prop where
  nodup : (l.entries.map LedgerEntry.key).Nodup
  seen : l.seen = (l.entries.map LedgerEntry.key).toFinset

theorem Unique.default : Unique Ledger.default := ⟨List.nodup_nil, rfl⟩

theorem Unique.takeBlocks (h : Unique l) (height : Nat) (chain : List Served) :
    Unique (takeBlocks encode isMine height l chain) := by
  induction chain generalizing height l with
  | nil => exact h
  | cons served chain ih =>
    apply ih
    rw [takeBlock_eq]
    constructor
    · rw [h.seen]
      exact nodup_append_fresh h.nodup
    · rw [List.map_append, List.toFinset_append, ← h.seen]
      exact (union_fresh _ _).symm

/-- A deposit is found in the blocks from a height on exactly at its height. -/
theorem mem_depositsFrom {height : Nat} {chain : List Served} {e : LedgerEntry} :
    e ∈ depositsFrom encode isMine height chain ↔
      ∃ n served, chain[n]? = some served ∧ e ∈ depositsOf encode isMine (height + n) served := by
  induction chain generalizing height with
  | nil => simp [depositsFrom]
  | cons served chain ih =>
    rw [depositsFrom, List.mem_append, ih]
    constructor
    · rintro (hfirst | ⟨n, served', hn, he⟩)
      · exact ⟨0, served, rfl, hfirst⟩
      · exact ⟨n + 1, served', hn, by rwa [Nat.add_assoc, Nat.add_comm 1] at he⟩
    · rintro ⟨n, served', hn, he⟩
      cases n with
      | zero =>
        obtain rfl := Option.some.inj hn
        exact Or.inl he
      | succ n =>
        right
        exact ⟨n, served', hn, by rwa [Nat.add_assoc, Nat.add_comm 1]⟩

/-! ## Against a chain -/

/-- The answer to `getblockcount` of a node with a chain, if it is reached. -/
def nodeCount (chain : List Served) (reached : Bool) : Except String Nat :=
  if !reached then .error "node connect"
  else if chain = [] then .error "no height"
  else .ok (chain.length - 1)

/-- Its answer to `getblock`, if it is reached. -/
def nodeBlock (chain : List Served) (reached : Nat → Bool) (height : Nat) :
    Except String Served :=
  if !reached height then .error "node connect"
  else match chain[height]? with
    | none => .error "node 404"
    | some served => .ok served

/-- The blocks from a height on up to the first that is not reached. -/
def reachedFrom (reached : Nat → Bool) : Nat → List Served → List Served
  | _, [] => []
  | height, served :: chain =>
    if reached height then served :: reachedFrom reached (height + 1) chain else []

/-- The blocks a scan takes in. -/
def taken (l : Ledger) (chain : List Served) (counted : Bool) (reached : Nat → Bool) :
    List Served :=
  if counted then reachedFrom reached l.start (chain.drop l.start) else []

theorem reachedFrom_prefix (reached : Nat → Bool) (height : Nat) (chain : List Served) :
    reachedFrom reached height chain <+: chain := by
  induction chain generalizing height with
  | nil => exact List.prefix_refl _
  | cons served chain ih =>
    unfold reachedFrom
    split_ifs
    · exact (List.prefix_cons_inj served).mpr (ih (height + 1))
    · exact List.nil_prefix

theorem taken_prefix (l : Ledger) (chain : List Served) (counted : Bool) (reached : Nat → Bool) :
    l.taken chain counted reached <+: chain.drop l.start := by
  unfold taken
  split_ifs
  · exact reachedFrom_prefix _ _ _
  · exact List.nil_prefix

theorem getElem?_taken {l : Ledger} {chain : List Served} {counted : Bool} {reached : Nat → Bool}
    {n : Nat} {served : Served} (h : (l.taken chain counted reached)[n]? = some served) :
    chain[l.start + n]? = some served := by
  obtain ⟨rest, hrest⟩ := taken_prefix l chain counted reached
  rw [← List.getElem?_drop, ← hrest, List.getElem?_append_left (List.getElem?_eq_some_iff.mp h).1]
  exact h

theorem scanLoop_node (chain : List Served) (reached : Nat → Bool) (height : Nat) (l : Ledger) :
    (scanLoop encode isMine (nodeBlock chain reached) (chain.length - height) height l).1
      = takeBlocks encode isMine height l (reachedFrom reached height (chain.drop height)) := by
  induction hrounds : chain.length - height generalizing height l with
  | zero =>
    rw [List.drop_eq_nil_of_le (by omega)]
    rfl
  | succ rounds ih =>
    have hlt : height < chain.length := by omega
    rw [List.drop_eq_getElem_cons hlt, scanLoop, nodeBlock, reachedFrom]
    cases hreached : reached height with
    | false => rfl
    | true =>
      rw [List.getElem?_eq_getElem hlt]
      exact ih (height + 1) _ (by omega)

/-- A scan of a chain takes in the blocks it reaches. -/
theorem scan_node (l : Ledger) (chain : List Served) (counted : Bool) (reached : Nat → Bool) :
    (l.scan encode isMine (nodeCount chain counted) (nodeBlock chain reached)).1
      = takeBlocks encode isMine l.start l (l.taken chain counted reached) := by
  unfold taken scan nodeCount
  cases counted with
  | false => rfl
  | true =>
    by_cases hnil : chain = []
    · subst hnil
      simp [reachedFrom, takeBlocks]
    · have hpos := List.length_pos_of_ne_nil hnil
      simp only [Bool.not_true, Bool.false_eq_true, if_false, if_neg hnil, if_true]
      rw [show chain.length - 1 + 1 - l.start = chain.length - l.start by omega]
      exact scanLoop_node chain reached l.start l

end Ledger

end Adapter

end Tensorium
