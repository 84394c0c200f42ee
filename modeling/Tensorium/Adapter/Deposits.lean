import Tensorium.Lib.GuardedRun
import Tensorium.Adapter.Ledger
import Tensorium.Indexer.Incremental

/-! # Reported deposits

    The node's chain grows and is reorganised, addresses are added to the wallet,
    and the ledger is scanned. The ledger does not look back: what it reports is
    on the chain as long as no reorganisation has touched a deposit in a block it
    has read, and no two deposits have one key.
-/

namespace Tensorium

namespace Adapter

open GuardedRun KeyedLog Ledger

/-! ## Reports -/

/-- One of the methods reports the deposit. -/
inductive Reported (l : Ledger) (tip : Nat) (report : DepositReport) : Prop where
  | since (order : BulkMap.Iteration Nat String) (blockHash : String) :
      report ∈ l.listSinceBlock order blockHash tip → Reported l tip report
  | list (count skip : Nat) :
      report ∈ l.listTransactions count skip tip → Reported l tip report
  | get (txid : String) (details : List DepositReport) (confirmations : Nat) :
      l.getTransaction txid tip = some (details, confirmations) → report ∈ details →
        Reported l tip report

/-- Every report is of an entry. -/
theorem Reported.entry {l : Ledger} {tip : Nat} {report : DepositReport}
    (h : Reported l tip report) : ∃ e ∈ l.entries, report = entryJson tip e := by
  cases h with
  | since order blockHash hmem =>
    obtain ⟨e, he, rfl⟩ := List.mem_map.mp hmem
    exact ⟨e, sinceBlock_subset _ _ _ he, rfl⟩
  | list count skip hmem =>
    obtain ⟨e, he, rfl⟩ := List.mem_map.mp hmem
    have hrev := List.mem_of_mem_drop (List.mem_of_mem_take he)
    exact ⟨e, List.mem_reverse.mp hrev, rfl⟩
  | get txid details confirmations hget hmem =>
    unfold getTransaction at hget
    split at hget
    · cases hget
    · rename_i e es hfilter
      obtain ⟨rfl, _⟩ := Prod.mk.inj (Option.some.inj hget)
      obtain ⟨e', he', rfl⟩ := List.mem_map.mp hmem
      rw [← hfilter] at he'
      exact ⟨e', List.mem_of_mem_filter he', rfl⟩

/-- The report is of an output on the chain, with its block and its depth. -/
def Canonical (encode : String → Bytes → String) (chain : List Served) (report : DepositReport) :
    Prop :=
  ∃ served tx out, chain[report.blockheight]? = some served ∧
    report.blockhash = served.1.toHex ∧
    tx ∈ served.2.transactions ∧ report.txid = tx.id.toHex ∧
    tx.outputs[report.vout]? = some out ∧
    Script.extractAddress encode out.scriptPubkey = some report.address ∧
    report.amountAtoms = out.valueAtoms ∧
    report.confirmations = chain.length - 1 - report.blockheight + 1

/-- An output is reported exactly once. -/
def Once (txid : String) (vout : Nat) (reports : List DepositReport) : Prop :=
  (reports.filter fun r => decide (r.txid = txid ∧ r.vout = vout)).length = 1

/-- A deposit among entries without repeated keys is reported once. -/
theorem once_of_mem {es : List LedgerEntry} (hnodup : (es.map LedgerEntry.key).Nodup)
    {e : LedgerEntry} (he : e ∈ es) (tip : Nat) :
    Once e.txid e.vout (es.map (entryJson tip)) := by
  unfold Once
  rw [List.filter_map, List.length_map]
  apply le_antisymm
  · -- Two of them would have one key.
    have hone : ∀ a ∈ (es.filter ((fun r : DepositReport =>
        decide (r.txid = e.txid ∧ r.vout = e.vout)) ∘ entryJson tip)).map LedgerEntry.key,
        a = e.key := by
      intro a ha
      obtain ⟨e', he', rfl⟩ := List.mem_map.mp ha
      have hsame := of_decide_eq_true (List.mem_filter.mp he').2
      show seenKey e'.txid e'.vout = seenKey e.txid e.vout
      rw [show e'.txid = e.txid from hsame.1, show e'.vout = e.vout from hsame.2]
    have hsub := hnodup.sublist ((List.filter_sublist (l := es) (p := (fun r : DepositReport =>
      decide (r.txid = e.txid ∧ r.vout = e.vout)) ∘ entryJson tip)).map LedgerEntry.key)
    rw [List.eq_replicate_of_mem hone, List.nodup_replicate, List.length_map] at hsub
    exact hsub
  · apply List.length_pos_of_mem (a := e)
    exact List.mem_filter.mpr ⟨he, by simp [entryJson]⟩

/-! ## Runs -/

/-- The adapter and its node, and which block was taken in at every height, with
    the addresses the wallet had then. -/
structure World where
  chain : List Served
  managed : Finset String
  ledger : Ledger
  log : List (Served × Finset String)

/-- What can happen: the node has another chain, an address is added to the
    wallet, or the ledger is scanned, with the node reached for some of the
    questions. -/
inductive Event where
  | node (chain : List Served)
  | newAddress (addr : String)
  | scan (counted : Bool) (reached : Nat → Bool)

/-- `is_mine`. -/
def mine (managed : Finset String) (addr : String) : Bool := decide (addr ∈ managed)

namespace World

/-- The blocks that a scan takes in, with the addresses of the wallet. -/
def logged (w : World) (blocks : List Served) : List (Served × Finset String) :=
  if blocks = [] then w.log
  else w.log.take w.ledger.start ++ blocks.map fun served => (served, w.managed)

def step (encode : String → Bytes → String) (w : World) : Event → World
  | .node chain => { w with chain := chain }
  | .newAddress addr => { w with managed := insert addr w.managed }
  | .scan counted reached =>
    { w with
      ledger := (w.ledger.scan encode (mine w.managed) (nodeCount w.chain counted)
        (nodeBlock w.chain reached)).1
      log := w.logged (w.ledger.taken w.chain counted reached) }

/-- An adapter that has not scanned yet. -/
def boot (chain : List Served) (managed : Finset String) : World :=
  ⟨chain, managed, Ledger.default, []⟩

/-- The height `getblockcount` answers. -/
def tip (w : World) : Nat := w.chain.length - 1

/-- What the methods report is on the chain, and every deposit in a block that was
    read while its address was in the wallet is reported exactly once. -/
structure Faithful (encode : String → Bytes → String) (w : World) : Prop where
  sound : ∀ report, Reported w.ledger w.tip report → 0 < report.confirmations →
    Canonical encode w.chain report
  complete : ∀ height read managed served tx vout out addr, height ≤ w.ledger.lastHeight →
    w.log[height]? = some (read, managed) → w.chain[height]? = some served →
    tx ∈ served.2.transactions → tx.outputs[vout]? = some out →
    Script.extractAddress encode out.scriptPubkey = some addr → addr ∈ managed →
      Once tx.id.toHex vout (w.ledger.listTransactions w.ledger.entries.length 0 w.tip) ∧
      (∀ order, Once tx.id.toHex vout (w.ledger.listSinceBlock order "" w.tip)) ∧
      ∃ details confirmations, w.ledger.getTransaction tx.id.toHex w.tip
        = some (details, confirmations) ∧ Once tx.id.toHex vout details

/-! ## Steady runs -/

variable {encode : String → Bytes → String} {w : World}

/-- The deposits at a height of a chain. -/
def depositsAt (encode : String → Bytes → String) (chain : List Served) (managed : Finset String)
    (height : Nat) : List LedgerEntry :=
  match chain[height]? with
  | some served => depositsOf encode (mine managed) height served
  | none => []

/-- No reorganisation has touched a deposit in a block that was read: at every
    such height the chain has the same deposits as that block. -/
def Unmoved (encode : String → Bytes → String) (w : World) : Prop :=
  ∀ height read managed, w.log[height]? = some (read, managed) →
    depositsAt encode w.chain managed height = depositsOf encode (mine managed) height read

instance (encode : String → Bytes → String) (w : World) : Decidable (Unmoved encode w) :=
  decidable_of_iff (∀ height < w.log.length, ∀ read ∈ w.log[height]?,
    depositsAt encode w.chain read.2 height
      = depositsOf encode (mine read.2) height read.1) <| by
    constructor
    · intro h height read managed hlog
      exact h height (List.getElem?_eq_some_iff.mp hlog).1 _ hlog
    · intro h height _ read hlog
      exact h height read.1 read.2 hlog

/-- No deposit in the blocks that are read has the key of another one. -/
def FreshKeys (encode : String → Bytes → String) (w : World) (blocks : List Served) : Prop :=
  ((w.ledger.entries ++ depositsFrom encode (mine w.managed) w.ledger.start blocks).map
    LedgerEntry.key).Nodup

instance (encode : String → Bytes → String) (w : World) (blocks : List Served) :
    Decidable (FreshKeys encode w blocks) :=
  inferInstanceAs (Decidable (List.Nodup _))

/-- A scan happens in such a state only. -/
def Steady (encode : String → Bytes → String) (w : World) : Event → Prop
  | .scan counted reached =>
    w.Unmoved encode ∧ w.FreshKeys encode (w.ledger.taken w.chain counted reached)
  | .node _ | .newAddress _ => True

instance (encode : String → Bytes → String) (w : World) :
    (event : Event) → Decidable (Steady encode w event)
  | .scan _ _ => inferInstanceAs (Decidable (_ ∧ _))
  | .node _ => .isTrue trivial
  | .newAddress _ => .isTrue trivial

/-- The entries are the deposits of the blocks that were read. -/
structure Books (encode : String → Bytes → String) (w : World) : Prop where
  unique : w.ledger.Unique
  recorded : ∀ e, e ∈ w.ledger.entries ↔ ∃ height read managed,
    w.log[height]? = some (read, managed) ∧ e ∈ depositsOf encode (mine managed) height read
  start : w.log.length = w.ledger.start ∨ (w.ledger.start = 0 ∧ w.ledger.entries = [])
  heights : ∀ k, w.ledger.heights.lookup k ≠ some ""

theorem Books.boot (encode : String → Bytes → String) (chain : List Served)
    (managed : Finset String) : Books encode (boot chain managed) where
  unique := Unique.default
  recorded := by
    intro e
    simp [World.boot, Ledger.default]
  start := Or.inl rfl
  heights := by
    intro k
    simp [World.boot, Ledger.default]

/-- The heights below the start of a scan, and those it reads. -/
theorem Books.getElem?_logged (h : Books encode w) {blocks : List Served} (hne : blocks ≠ [])
    (height : Nat) :
    (w.logged blocks)[height]? = if height < w.ledger.start then w.log[height]?
      else blocks[height - w.ledger.start]?.map fun served => (served, w.managed) := by
  have hlength : (w.log.take w.ledger.start).length = w.ledger.start := by
    rw [List.length_take]
    rcases h.start with hstart | ⟨hstart, _⟩
    · omega
    · omega
  rw [logged, if_neg hne]
  split_ifs with hlt
  · rw [List.getElem?_append_left (by omega), List.getElem?_take_of_lt hlt]
  · rw [List.getElem?_append_right (by omega), hlength, List.getElem?_map]

/-- What was recorded before a scan is logged below its start. -/
theorem Books.recorded_below (h : Books encode w) (e : LedgerEntry) :
    e ∈ w.ledger.entries ↔ ∃ height read managed, height < w.ledger.start ∧
      w.log[height]? = some (read, managed) ∧ e ∈ depositsOf encode (mine managed) height read := by
  rw [h.recorded]
  constructor
  · rintro ⟨height, read, managed, hlog, he⟩
    refine ⟨height, read, managed, ?_, hlog, he⟩
    rcases h.start with hstart | ⟨_, hnil⟩
    · rw [← hstart]
      exact (List.getElem?_eq_some_iff.mp hlog).1
    · have hmem := (h.recorded e).mpr ⟨height, read, managed, hlog, he⟩
      rw [hnil] at hmem
      cases hmem
  · rintro ⟨height, read, managed, _, hlog, he⟩
    exact ⟨height, read, managed, hlog, he⟩

theorem ledger_scan (encode : String → Bytes → String) (w : World) (counted : Bool)
    (reached : Nat → Bool) :
    (w.step encode (.scan counted reached)).ledger
      = takeBlocks encode (mine w.managed) w.ledger.start w.ledger
        (w.ledger.taken w.chain counted reached) :=
  scan_node _ _ _ _

/-- A scan with fresh keys records all deposits of the blocks it takes in. -/
theorem entries_scan (h : Books encode w) {counted : Bool} {reached : Nat → Bool}
    (hkeys : FreshKeys encode w (w.ledger.taken w.chain counted reached)) :
    (w.step encode (.scan counted reached)).ledger.entries = w.ledger.entries
      ++ depositsFrom encode (mine w.managed) w.ledger.start
        (w.ledger.taken w.chain counted reached) := by
  rw [ledger_scan, takeBlocks_entries]
  congr 1
  unfold FreshKeys at hkeys
  rw [List.map_append] at hkeys
  have hnodup := List.nodup_append.mp hkeys
  apply fresh_eq_self hnodup.2.1
  intro e he hseen
  rw [h.unique.seen, List.mem_toFinset] at hseen
  exact hnodup.2.2 _ hseen _ (List.mem_map_of_mem he) rfl

/-- A scan that takes in no block changes nothing. -/
theorem step_scan_nil {counted : Bool} {reached : Nat → Bool}
    (hnil : w.ledger.taken w.chain counted reached = []) :
    w.step encode (.scan counted reached) = w := by
  unfold World.step
  dsimp only
  rw [scan_node, logged, hnil, if_pos rfl]
  rfl

/-- The deposits of the blocks taken in are logged with those read before. -/
theorem Books.recorded_scan (h : Books encode w) {blocks : List Served} (hne : blocks ≠ [])
    (e : LedgerEntry) :
    e ∈ w.ledger.entries ++ depositsFrom encode (mine w.managed) w.ledger.start blocks ↔
      ∃ height read managed, (w.logged blocks)[height]? = some (read, managed) ∧
        e ∈ depositsOf encode (mine managed) height read := by
  rw [List.mem_append, h.recorded_below, mem_depositsFrom]
  simp only [h.getElem?_logged hne]
  constructor
  · rintro (⟨height, read, managed, hlt, hlog, he⟩ | ⟨n, served, hn, he⟩)
    · exact ⟨height, read, managed, by rw [if_pos hlt, hlog], he⟩
    · refine ⟨w.ledger.start + n, served, w.managed, ?_, he⟩
      rw [if_neg (by omega), Nat.add_sub_cancel_left, hn]
      rfl
  · rintro ⟨height, read, managed, hlog, he⟩
    split_ifs at hlog with hlt
    · exact Or.inl ⟨height, read, managed, hlt, hlog, he⟩
    · right
      obtain ⟨served, hserved, heq⟩ := Option.map_eq_some_iff.mp hlog
      obtain ⟨rfl, rfl⟩ := Prod.mk.inj heq
      refine ⟨height - w.ledger.start, served, hserved, ?_⟩
      rwa [Nat.add_sub_cancel' (not_lt.mp hlt)]

theorem Books.length_logged (h : Books encode w) {blocks : List Served} (hne : blocks ≠ []) :
    (w.logged blocks).length = w.ledger.start + blocks.length := by
  rw [logged, if_neg hne, List.length_append, List.length_map, List.length_take]
  rcases h.start with hstart | ⟨hstart, _⟩
  · omega
  · omega

theorem Books.scan (h : Books encode w) {counted : Bool} {reached : Nat → Bool}
    (hkeys : FreshKeys encode w (w.ledger.taken w.chain counted reached)) :
    Books encode (w.step encode (.scan counted reached)) := by
  -- A scan that takes no block changes nothing.
  by_cases hnil : w.ledger.taken w.chain counted reached = []
  · rw [step_scan_nil hnil]
    exact h
  · constructor
    · rw [ledger_scan]
      exact h.unique.takeBlocks _ _
    · intro e
      rw [entries_scan h hkeys]
      exact h.recorded_scan hnil e
    · have hlength := h.length_logged hnil
      have hlast : (w.step encode (.scan counted reached)).ledger.lastHeight
          = w.ledger.start + (w.ledger.taken w.chain counted reached).length - 1 := by
        rw [ledger_scan]
        exact takeBlocks_lastHeight _ _ hnil
      have hpos := List.length_pos_of_ne_nil hnil
      show (w.logged _).length = _ ∨ _
      unfold Ledger.start
      split_ifs with hempty
      · exact Or.inr ⟨rfl, hempty.2⟩
      · left
        rw [hlast, hlength]
        omega
    · intro k
      rw [ledger_scan, takeBlocks_heights]
      split_ifs
      · intro hempty
        obtain ⟨served, _, hhash⟩ := Option.map_eq_some_iff.mp hempty
        exact Hash256.toHex_ne_empty _ hhash
      · exact h.heights k

theorem Books.step (h : Books encode w) {event : Event} (hsteady : w.Steady encode event) :
    Books encode (w.step encode event) := by
  cases event with
  | node chain => exact ⟨h.unique, h.recorded, h.start, h.heights⟩
  | newAddress addr => exact ⟨h.unique, h.recorded, h.start, h.heights⟩
  | scan counted reached => exact h.scan hsteady.2

/-- After a scan no deposit that was read has moved: the blocks below its start
    had not before, and those it has taken in are on the chain. -/
theorem Unmoved.scan (h : Books encode w) {counted : Bool} {reached : Nat → Bool}
    (hsteady : w.Steady encode (.scan counted reached)) :
    Unmoved encode (w.step encode (.scan counted reached)) := by
  intro height read managed hlog
  replace hlog : (w.logged (w.ledger.taken w.chain counted reached))[height]?
      = some (read, managed) := hlog
  show depositsAt encode w.chain managed height = _
  by_cases hnil : w.ledger.taken w.chain counted reached = []
  · rw [logged, if_pos hnil] at hlog
    exact hsteady.1 height read managed hlog
  · rw [h.getElem?_logged hnil] at hlog
    split_ifs at hlog with hlt
    · exact hsteady.1 height read managed hlog
    · obtain ⟨served, hserved, heq⟩ := Option.map_eq_some_iff.mp hlog
      obtain ⟨rfl, rfl⟩ := Prod.mk.inj heq
      have hchain := getElem?_taken hserved
      rw [Nat.add_sub_cancel' (not_lt.mp hlt)] at hchain
      unfold depositsAt
      rw [hchain]

/-- Books whose deposits have not moved are reported faithfully. -/
theorem Books.faithful (h : Books encode w) (hmoved : Unmoved encode w) : Faithful encode w := by
  constructor
  · -- Every report comes from an entry, which comes from a deposit that is still there.
    intro report hreport _
    obtain ⟨e, he, rfl⟩ := hreport.entry
    obtain ⟨height, read, managed, hlog, hdeposit⟩ := (h.recorded e).mp he
    rw [← hmoved height read managed hlog, depositsAt] at hdeposit
    split at hdeposit
    · rename_i served hserved
      obtain ⟨tx, htx, out, hout, haddr, _, heq⟩ := mem_depositsOf.mp hdeposit
      have hheight : e.blockHeight = height := by rw [heq]
      refine ⟨served, tx, out, ?_, ?_, htx, ?_, hout, haddr, ?_, rfl⟩
      · show w.chain[e.blockHeight]? = _
        rw [hheight]
        exact hserved
      · show e.blockHash = _
        rw [heq]
      · show e.txid = _
        rw [heq]
      · show e.amountAtoms = _
        rw [heq]
    · cases hdeposit
  · intro height read managed served tx vout out addr _ hlog hserved htx hout haddr hmanaged
    -- The entry that the log asks for; keys are unique, so each list has it once.
    let e : LedgerEntry := ⟨tx.id.toHex, addr, "receive", out.valueAtoms, vout, height,
      served.1.toHex, served.2.header.timestampSeconds⟩
    have hdeposit : e ∈ depositsOf encode (mine managed) height served :=
      mem_depositsOf.mpr ⟨tx, htx, out, hout, haddr, decide_eq_true hmanaged, rfl⟩
    have he : e ∈ w.ledger.entries := by
      apply (h.recorded e).mpr
      refine ⟨height, read, managed, hlog, ?_⟩
      rw [← hmoved height read managed hlog, depositsAt, hserved]
      exact hdeposit
    have hnodup := h.unique.nodup
    refine ⟨?_, ?_, ?_⟩
    · unfold listTransactions
      rw [List.drop_zero, ← List.length_reverse, List.take_length]
      have hreverse : (w.ledger.entries.reverse.map LedgerEntry.key).Nodup := by
        rw [List.map_reverse]
        exact List.nodup_reverse.mpr hnodup
      exact once_of_mem hreverse (List.mem_reverse.mpr he) _
    · intro order
      -- The empty hash is not in the book of heights, so nothing is left out.
      have hnone : w.ledger.heightOf order "" = none := by
        unfold heightOf
        rw [Option.map_eq_none_iff, List.find?_eq_none]
        intro binding hbinding hempty
        have hlookup := (order.mem_iff w.ledger.heights binding.1 binding.2).mp hbinding
        rw [of_decide_eq_true hempty] at hlookup
        exact h.heights _ hlookup
      unfold listSinceBlock sinceBlock
      rw [hnone]
      exact once_of_mem hnodup he _
    · have hmem : e ∈ w.ledger.entries.filter fun e => decide (e.txid = tx.id.toHex) :=
        List.mem_filter.mpr ⟨he, by simp [e]⟩
      have hsub : ((w.ledger.entries.filter fun e => decide (e.txid = tx.id.toHex)).map
          LedgerEntry.key).Nodup := hnodup.sublist (List.filter_sublist.map _)
      unfold getTransaction
      split
      · rename_i hfilter
        rw [hfilter] at hmem
        cases hmem
      · rename_i first rest hfilter
        rw [hfilter] at hmem hsub
        exact ⟨_, _, rfl, once_of_mem hsub hmem _⟩

/-- **Deposits are reported as they are on the chain.** In every run in which each
    scan finds the deposits of the blocks read before where they were, and no two
    deposits with one key, the reports are faithful after every scan until the
    node has another chain. -/
theorem reports_faithful (encode : String → Bytes → String) (chain : List Served)
    (managed : Finset String) (before after : List Event) (counted : Bool)
    (reached : Nat → Bool)
    (hsteady : Along (World.step encode) (World.Steady encode) (boot chain managed)
      (before ++ .scan counted reached :: after))
    (hafter : ∀ event ∈ after, ∀ chain, event ≠ .node chain) :
    Faithful encode
      ((before ++ .scan counted reached :: after).foldl (World.step encode)
        (boot chain managed)) := by
  obtain ⟨hbefore, hscan, hrest⟩ := along_append.mp hsteady
  have hbooks : Books encode (before.foldl (World.step encode) (boot chain managed)) :=
    hbefore.invariant (Books encode) (Books.boot encode chain managed)
      fun w event h hsteady => h.step hsteady
  have hmoved := Unmoved.scan hbooks hscan
  replace hbooks := hbooks.step hscan
  rw [List.foldl_append, List.foldl_cons]
  generalize World.step encode _ (.scan counted reached) = w at hbooks hmoved hrest ⊢
  clear hsteady
  -- From here on the chain stays.
  suffices h : Books encode (after.foldl (World.step encode) w) ∧
      Unmoved encode (after.foldl (World.step encode) w) from h.1.faithful h.2
  induction after generalizing w with
  | nil => exact ⟨hbooks, hmoved⟩
  | cons event after ih =>
    obtain ⟨hevent, hrest⟩ := hrest
    have hmoved' : Unmoved encode (w.step encode event) := by
      cases event with
      | node chain => exact absurd rfl (hafter _ List.mem_cons_self chain)
      | newAddress addr => exact hmoved
      | scan counted reached => exact Unmoved.scan hbooks hevent
    exact ih (fun e he => hafter e (List.mem_cons_of_mem _ he)) _ (hbooks.step hevent) hmoved'
      hrest

/-! ## A deposit on an orphaned block -/

/-- The address that a block of the sample chains pays. -/
def paidBy (name : UInt8) : String :=
  Indexer.sampleEncode Script.addressHrp (List.replicate 20 name)

/-- The node is always reached. -/
def scanAll : Event := .scan true fun _ => true

/-- The wallet is paid in block 1 of the first branch, which is read; the node goes
    over to the second one, and the next scan succeeds. -/
def orphanedRun : List Event := [scanAll, .node SyncIndexer.grownB, scanAll]

/-- The deposit is still reported, with three confirmations. -/
theorem orphan_reported :
    ¬ Faithful Indexer.sampleEncode (orphanedRun.foldl (World.step Indexer.sampleEncode)
      (boot SyncIndexer.branchA {paidBy 2})) := by
  intro h
  have hreport : ∃ report ∈ Ledger.listTransactions (orphanedRun.foldl
      (World.step Indexer.sampleEncode) (boot SyncIndexer.branchA {paidBy 2})).ledger 1 0 3,
      report.confirmations = 3 ∧ ∀ served ∈ SyncIndexer.grownB,
        report.blockhash ≠ served.1.toHex := by
    decide
  obtain ⟨report, hmem, hconfirmations, hblock⟩ := hreport
  obtain ⟨served, _, _, hserved, hhash, _⟩ := h.sound report (.list 1 0 hmem) (by omega)
  exact hblock served (List.mem_of_getElem? hserved) hhash

/-- A run in which the chain only grows: the deposit in block 1 of the second branch
    is reported faithfully, and an address added later changes nothing. -/
theorem grown_faithful :
    Faithful Indexer.sampleEncode
      (([scanAll, .node SyncIndexer.grownB] ++ scanAll :: [.newAddress (paidBy 14)]).foldl
        (World.step Indexer.sampleEncode) (boot SyncIndexer.branchB {paidBy 12})) := by
  apply reports_faithful
  · decide
  · intro event hevent chain hnode
    simp only [List.mem_singleton] at hevent
    rw [hevent] at hnode
    cases hnode

end World

end Adapter

end Tensorium
