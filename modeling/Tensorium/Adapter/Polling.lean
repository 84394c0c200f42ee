import Tensorium.Adapter.Deposits

/-! # Polling for deposits

    A client calls `listsinceblock` again and again, each time with the
    `lastblock` of the response before. That block is the tip of the node, which
    the ledger may not have read yet; what it records later at or below that
    height is left out once the ledger knows the block.
-/

namespace Tensorium

namespace Adapter

open GuardedRun KeyedLog Ledger

/-- A response of `listsinceblock`, with the height of its `lastblock`. -/
structure Response where
  transactions : List DepositReport
  tip : Nat
  lastblock : String

/-- The node, the ledger and a client: the cursor it passes next, what the call in
    progress has read from the node, the responses so far, and the number of the
    entries when the last of them was made. -/
structure Polling where
  chain : List Served
  ledger : Ledger
  cursor : String
  asked : Option (Nat × String)
  responses : List Response
  read : Nat

namespace Polling

/-- What can happen: the chain grows by a block, the ledger is scanned for the
    addresses of the wallet, a call reads the tip of the node, and it reads the
    ledger and answers. -/
inductive Event where
  | block (served : Served)
  | scan (managed : Finset String) (counted : Bool) (reached : Nat → Bool)
  | ask
  | answer (order : BulkMap.Iteration Nat String)

/-- `listsinceblock` takes two steps: it asks the node before it locks the ledger. -/
def step (encode : String → Bytes → String) (w : Polling) : Event → Polling
  | .block served => { w with chain := w.chain ++ [served] }
  | .scan managed counted reached =>
    { w with ledger := (w.ledger.scan encode (mine managed) (nodeCount w.chain counted)
        (nodeBlock w.chain reached)).1 }
  | .ask =>
    match w.chain[w.chain.length - 1]? with
    | none => w
    | some served => { w with asked := some (w.chain.length - 1, served.1.toHex) }
  | .answer order =>
    match w.asked with
    | none => w
    | some (tip, tiphash) =>
      { w with
        asked := none
        cursor := tiphash
        responses := w.responses ++ [⟨w.ledger.listSinceBlock order w.cursor tip, tip, tiphash⟩]
        read := w.ledger.entries.length }

/-- Nothing has been scanned, and the first call passes the empty string. -/
def boot (chain : List Served) : Polling := ⟨chain, Ledger.default, "", none, [], 0⟩

/-- An entry is in a response. -/
def Response.Has (r : Response) (e : LedgerEntry) : Prop := entryJson r.tip e ∈ r.transactions

/-- Every entry recorded so far at or below the height of a returned `lastblock` is
    in that response, an earlier one, or the next one, once it has been made. -/
def MissesNothing (w : Polling) : Prop :=
  ∀ k response, w.responses[k]? = some response → k + 1 < w.responses.length →
    ∀ e ∈ w.ledger.entries, e.blockHeight ≤ response.tip →
      ∃ j r, j ≤ k + 1 ∧ w.responses[j]? = some r ∧ Response.Has r e

/-! ## Timely scans -/

/-- The entries a scan adds. -/
def added (encode : String → Bytes → String) (w : Polling) (managed : Finset String)
    (counted : Bool) (reached : Nat → Bool) : List LedgerEntry :=
  fresh LedgerEntry.key w.ledger.seen
    (depositsFrom encode (mine managed) w.ledger.start (w.ledger.taken w.chain counted reached))

/-- Every deposit a scan adds is above every `lastblock` but the latest one; and if
    the ledger has read the block that a call passes, every deposit recorded since
    the call before is above that block. -/
def Timely (encode : String → Bytes → String) (w : Polling) : Event → Prop
  | .scan managed counted reached =>
    ∀ response ∈ w.responses.dropLast, ∀ e ∈ w.added encode managed counted reached,
      response.tip < e.blockHeight
  | .answer order => w.asked ≠ none → ∀ height ∈ w.ledger.heightOf order w.cursor,
      ∀ e ∈ w.ledger.entries.drop w.read, height < e.blockHeight
  | .block _ | .ask => True

instance (encode : String → Bytes → String) (w : Polling) :
    (event : Event) → Decidable (Timely encode w event)
  | .scan managed counted reached =>
    inferInstanceAs (Decidable (∀ response ∈ w.responses.dropLast,
      ∀ e ∈ w.added encode managed counted reached, response.tip < e.blockHeight))
  | .answer order =>
    inferInstanceAs (Decidable (w.asked ≠ none → ∀ height ∈ w.ledger.heightOf order w.cursor,
      ∀ e ∈ w.ledger.entries.drop w.read, height < e.blockHeight))
  | .block _ => .isTrue trivial
  | .ask => .isTrue trivial

variable {encode : String → Bytes → String} {w : Polling}

theorem ledger_scan (encode : String → Bytes → String) (w : Polling) (managed : Finset String)
    (counted : Bool) (reached : Nat → Bool) :
    (w.step encode (.scan managed counted reached)).ledger
      = takeBlocks encode (mine managed) w.ledger.start w.ledger
        (w.ledger.taken w.chain counted reached) :=
  scan_node _ _ _ _

theorem entries_scan (encode : String → Bytes → String) (w : Polling) (managed : Finset String)
    (counted : Bool) (reached : Nat → Bool) :
    (w.step encode (.scan managed counted reached)).ledger.entries
      = w.ledger.entries ++ w.added encode managed counted reached := by
  rw [ledger_scan, takeBlocks_entries]
  rfl

theorem step_answer {tip : Nat} {tiphash : String} (hasked : w.asked = some (tip, tiphash))
    (order : BulkMap.Iteration Nat String) :
    w.step encode (.answer order) = { w with
      asked := none
      cursor := tiphash
      responses := w.responses ++ [⟨w.ledger.listSinceBlock order w.cursor tip, tip, tiphash⟩]
      read := w.ledger.entries.length } := by
  unfold Polling.step
  rw [hasked]

theorem step_answer_none (hasked : w.asked = none) (order : BulkMap.Iteration Nat String) :
    w.step encode (.answer order) = w := by
  unfold Polling.step
  rw [hasked]

/-- Renderings of two entries for one tip differ. -/
theorem entryJson_injective (tip : Nat) : Function.Injective (entryJson tip) := by
  intro e e' h
  cases e
  cases e'
  simp only [entryJson, DepositReport.mk.injEq] at h
  simp only [LedgerEntry.mk.injEq]
  tauto

/-! ## What holds in every run -/

/-- The block with a hash is on the chain at the height. -/
def At (chain : List Served) (height : Nat) (hash : String) : Prop :=
  ∃ served, chain[height]? = some served ∧ hash = served.1.toHex

theorem At.append {chain : List Served} {height : Nat} {hash : String} (h : At chain height hash)
    (rest : List Served) : At (chain ++ rest) height hash := by
  obtain ⟨served, hserved, hhash⟩ := h
  refine ⟨served, ?_, hhash⟩
  rw [List.getElem?_append_left (List.getElem?_eq_some_iff.mp hserved).1]
  exact hserved

/-- Blocks with one hash are at one height, if no two blocks share a hash. -/
theorem At.unique {chain : List Served} (hdistinct : (chain.map Prod.fst).Nodup)
    {height height' : Nat} {hash : String} (h : At chain height hash)
    (h' : At chain height' hash) : height = height' := by
  obtain ⟨served, hserved, rfl⟩ := h
  obtain ⟨served', hserved', hhash⟩ := h'
  have hsame := Hash256.toHex_injective hhash
  have hlt : height < (chain.map Prod.fst).length := by
    rw [List.length_map]
    exact (List.getElem?_eq_some_iff.mp hserved).1
  apply (List.getElem?_inj hlt hdistinct).mp
  rw [List.getElem?_map, List.getElem?_map, hserved, hserved']
  exact congrArg some hsame

/-- The cursor is the last `lastblock`, every hash was that of a block of the chain
    at its height, and what was reported is among the entries of that time. -/
structure Sound (w : Polling) : Prop where
  unique : w.ledger.Unique
  heights : ∀ height hash, w.ledger.heights.lookup height = some hash → At w.chain height hash
  asked : ∀ tip hash, w.asked = some (tip, hash) → At w.chain tip hash
  responses : ∀ r ∈ w.responses, At w.chain r.tip r.lastblock
  cursor : w.cursor = (w.responses.getLast?.map Response.lastblock).getD ""
  reported : ∀ r ∈ w.responses, ∀ e, Response.Has r e → e ∈ w.ledger.entries.take w.read
  read : w.read ≤ w.ledger.entries.length

theorem Sound.boot (chain : List Served) : Sound (boot chain) where
  unique := Unique.default
  heights := by simp [Polling.boot, Ledger.default]
  asked := by simp [Polling.boot]
  responses := by simp [Polling.boot]
  cursor := rfl
  reported := by simp [Polling.boot]
  read := Nat.zero_le _

/-- A height that the ledger finds for the cursor is that of the last `lastblock`. -/
theorem Sound.heightOf_cursor (h : Sound w) (hdistinct : (w.chain.map Prod.fst).Nodup)
    {order : BulkMap.Iteration Nat String} {height : Nat}
    (hheight : w.ledger.heightOf order w.cursor = some height) :
    ∃ r, w.responses.getLast? = some r ∧ r.tip = height := by
  obtain ⟨⟨k, hash⟩, hfind, rfl⟩ := Option.map_eq_some_iff.mp hheight
  have hhash : hash = w.cursor := by simpa using List.find?_some hfind
  have hlookup := (order.mem_iff _ _ _).mp (List.mem_of_find?_eq_some hfind)
  have hat := h.heights k hash hlookup
  cases hlast : w.responses.getLast? with
  | none =>
    -- No recorded hash is empty.
    have hempty := h.cursor
    rw [hlast] at hempty
    obtain ⟨served, _, hserved⟩ := hat
    exact absurd (hserved.symm.trans (hhash.trans hempty)) (Hash256.toHex_ne_empty _)
  | some r =>
    have hcursor := h.cursor
    rw [hlast] at hcursor
    have hr := h.responses r (List.mem_of_getLast? hlast)
    rw [show r.lastblock = hash from (hhash.trans hcursor).symm] at hr
    exact ⟨r, rfl, hr.unique hdistinct hat⟩

theorem Sound.scan (h : Sound w) (managed : Finset String) (counted : Bool)
    (reached : Nat → Bool) : Sound (w.step encode (.scan managed counted reached)) := by
  refine ⟨?_, ?_, h.asked, h.responses, h.cursor, ?_, ?_⟩
  · rw [ledger_scan]
    exact h.unique.takeBlocks _ _
  · intro height hash hlookup
    rw [ledger_scan, takeBlocks_heights] at hlookup
    split_ifs at hlookup with hrange
    · obtain ⟨served, hserved, rfl⟩ := Option.map_eq_some_iff.mp hlookup
      refine ⟨served, ?_, rfl⟩
      have hchain := getElem?_taken hserved
      rwa [Nat.add_sub_cancel' hrange.1] at hchain
    · exact h.heights height hash hlookup
  · intro r hr e he
    rw [entries_scan]
    show e ∈ (w.ledger.entries ++ _).take w.read
    rw [List.take_append_of_le_length h.read]
    exact h.reported r hr e he
  · rw [entries_scan, List.length_append]
    exact le_trans h.read (Nat.le_add_right _ _)

theorem Sound.answer (h : Sound w) (order : BulkMap.Iteration Nat String) :
    Sound (w.step encode (.answer order)) := by
  cases hasked : w.asked with
  | none => rwa [step_answer_none hasked]
  | some called =>
    obtain ⟨tip, tiphash⟩ := called
    rw [step_answer hasked]
    refine ⟨h.unique, h.heights, ?_, ?_, ?_, ?_, le_rfl⟩
    · intro tip' hash' hnone
      cases hnone
    · intro r hr
      rcases List.mem_append.mp hr with hold | hnew
      · exact h.responses r hold
      · rw [List.mem_singleton.mp hnew]
        exact h.asked tip tiphash hasked
    · simp
    · intro r hr e he
      rw [List.take_length]
      rcases List.mem_append.mp hr with hold | hnew
      · exact List.mem_of_mem_take (h.reported r hold e he)
      · rw [List.mem_singleton.mp hnew] at he
        obtain ⟨e', he', heq⟩ := List.mem_map.mp he
        obtain rfl := entryJson_injective tip heq
        exact sinceBlock_subset _ _ _ he'

theorem Sound.step (h : Sound w) (event : Event) : Sound (w.step encode event) := by
  cases event with
  | block served =>
    refine ⟨h.unique, ?_, ?_, ?_, h.cursor, h.reported, h.read⟩
    · intro height hash hlookup
      exact (h.heights height hash hlookup).append _
    · intro tip hash hasked
      exact (h.asked tip hash hasked).append _
    · intro r hr
      exact (h.responses r hr).append _
  | scan managed counted reached => exact h.scan managed counted reached
  | ask =>
    unfold Polling.step
    dsimp only
    split
    · exact h
    · rename_i served hserved
      refine ⟨h.unique, h.heights, ?_, h.responses, h.cursor, h.reported, h.read⟩
      intro tip hash hasked
      obtain ⟨rfl, rfl⟩ := Prod.mk.inj (Option.some.inj hasked)
      exact ⟨served, hserved, rfl⟩
  | answer order => exact h.answer order

/-! ## Missed deposits -/

/-- What was recorded when the last response was made is in one of the responses. -/
def Covered (w : Polling) : Prop :=
  ∀ e ∈ w.ledger.entries.take w.read, ∃ r ∈ w.responses, Response.Has r e

/-- The entries and the responses only grow. -/
theorem step_grows (encode : String → Bytes → String) (w : Polling) (event : Event) :
    w.ledger.entries <+: (w.step encode event).ledger.entries ∧
      w.responses <+: (w.step encode event).responses ∧
      w.chain <+: (w.step encode event).chain := by
  cases event with
  | block served => exact ⟨List.prefix_rfl, List.prefix_rfl, List.prefix_append _ _⟩
  | scan managed counted reached =>
    rw [entries_scan]
    exact ⟨List.prefix_append _ _, List.prefix_rfl, List.prefix_rfl⟩
  | ask =>
    unfold Polling.step
    dsimp only
    split <;> exact ⟨List.prefix_rfl, List.prefix_rfl, List.prefix_rfl⟩
  | answer order =>
    unfold Polling.step
    dsimp only
    split
    · exact ⟨List.prefix_rfl, List.prefix_rfl, List.prefix_rfl⟩
    · exact ⟨List.prefix_rfl, List.prefix_append _ _, List.prefix_rfl⟩

/-- A deposit that is missed is missed for good. -/
theorem MissesNothing.of_step {event : Event} (h : MissesNothing (w.step encode event)) :
    MissesNothing w := by
  intro k response hresponse hnext e he hle
  obtain ⟨hentries, ⟨rest, hrest⟩, _⟩ := step_grows encode w event
  have hsame : ∀ j < w.responses.length, (w.step encode event).responses[j]? = w.responses[j]? := by
    intro j hj
    rw [← hrest, List.getElem?_append_left hj]
  have hlonger : k + 1 < (w.step encode event).responses.length := by
    rw [← hrest, List.length_append]
    omega
  rw [← hsame k (by omega)] at hresponse
  obtain ⟨j, r, hj, hr, hhas⟩ := h k response hresponse hlonger e (hentries.subset he) hle
  exact ⟨j, r, hj, by rwa [← hsame j (by omega)], hhas⟩

theorem Covered.scan (hsound : Sound w) (hcovered : Covered w) (managed : Finset String)
    (counted : Bool) (reached : Nat → Bool) :
    Covered (w.step encode (.scan managed counted reached)) := by
  intro e he
  rw [entries_scan] at he
  apply hcovered e
  rwa [← List.take_append_of_le_length hsound.read]

theorem MissesNothing.scan (hmisses : MissesNothing w) {managed : Finset String}
    {counted : Bool} {reached : Nat → Bool}
    (htimely : w.Timely encode (.scan managed counted reached)) :
    MissesNothing (w.step encode (.scan managed counted reached)) := by
  intro k response hresponse hnext e he hle
  rw [entries_scan] at he
  rcases List.mem_append.mp he with hold | hnew
  · exact hmisses k response hresponse hnext e hold hle
  · -- The entry comes after the next response, so it is above this one.
    have hdrop : response ∈ w.responses.dropLast := by
      apply List.mem_of_getElem? (i := k)
      replace hnext : k + 1 < w.responses.length := hnext
      rw [List.getElem?_dropLast, if_pos (by omega)]
      exact hresponse
    exact absurd hle (not_le.mpr (htimely response hdrop e hnew))

/-- After a timely call every entry has been in a response: what was recorded
    before the last one is covered, and this one has whatever was recorded after it. -/
theorem Covered.answered (hcovered : Covered w) {order : BulkMap.Iteration Nat String}
    (htimely : w.Timely encode (.answer order)) {tip : Nat} {tiphash : String}
    (hasked : w.asked = some (tip, tiphash)) :
    ∀ e ∈ w.ledger.entries, ∃ r ∈ w.responses
      ++ [⟨w.ledger.listSinceBlock order w.cursor tip, tip, tiphash⟩], Response.Has r e := by
  intro e he
  rw [← List.take_append_drop w.read w.ledger.entries] at he
  rcases List.mem_append.mp he with hbefore | hsince
  · obtain ⟨r, hr, hhas⟩ := hcovered e hbefore
    exact ⟨r, List.mem_append_left _ hr, hhas⟩
  · refine ⟨_, List.mem_append_right _ (List.mem_singleton_self _), ?_⟩
    apply List.mem_map_of_mem
    unfold sinceBlock
    cases hheight : w.ledger.heightOf order w.cursor with
    | none => exact List.mem_of_mem_drop hsince
    | some height =>
      apply List.mem_filter.mpr
      refine ⟨List.mem_of_mem_drop hsince, decide_eq_true ?_⟩
      exact htimely (by simp [hasked]) height hheight e hsince

theorem MissesNothing.answer (hcovered : Covered w) (hmisses : MissesNothing w)
    {order : BulkMap.Iteration Nat String} (htimely : w.Timely encode (.answer order))
    {tip : Nat} {tiphash : String} (hasked : w.asked = some (tip, tiphash)) :
    MissesNothing (w.step encode (.answer order)) := by
  rw [step_answer hasked]
  intro k response hresponse hnext e he hle
  dsimp only at hresponse hnext he ⊢
  rw [List.length_append, List.length_singleton] at hnext
  by_cases hold : k + 1 < w.responses.length
  · rw [List.getElem?_append_left (by omega)] at hresponse
    obtain ⟨j, r, hj, hr, hhas⟩ := hmisses k response hresponse hold e he hle
    refine ⟨j, r, hj, ?_, hhas⟩
    rw [List.getElem?_append_left (by omega)]
    exact hr
  · -- The response after this one is the new one.
    obtain ⟨r, hr, hhas⟩ := hcovered.answered htimely hasked e he
    obtain ⟨j, hj⟩ := List.mem_iff_getElem?.mp hr
    have hlt := (List.getElem?_eq_some_iff.mp hj).1
    rw [List.length_append, List.length_singleton] at hlt
    exact ⟨j, r, by omega, hj, hhas⟩

/-- Timely steps miss nothing. -/
theorem Covered.step {event : Event} (hsound : Sound w) (hcovered : Covered w)
    (hmisses : MissesNothing w) (htimely : w.Timely encode event) :
    Covered (w.step encode event) ∧ MissesNothing (w.step encode event) := by
  cases event with
  | block served => exact ⟨hcovered, hmisses⟩
  | scan managed counted reached =>
    exact ⟨hcovered.scan hsound managed counted reached, hmisses.scan htimely⟩
  | ask =>
    unfold Polling.step
    dsimp only
    split <;> exact ⟨hcovered, hmisses⟩
  | answer order =>
    cases hasked : w.asked with
    | none =>
      rw [step_answer_none hasked]
      exact ⟨hcovered, hmisses⟩
    | some called =>
      refine ⟨?_, hmisses.answer hcovered htimely hasked⟩
      rw [step_answer hasked]
      intro e he
      exact hcovered.answered htimely hasked e (List.mem_of_mem_take he)

/-- A step that is not timely misses a deposit. -/
theorem Timely.of_missesNothing {event : Event} (hsound : Sound w)
    (hdistinct : (w.chain.map Prod.fst).Nodup) (h : MissesNothing (w.step encode event)) :
    w.Timely encode event := by
  cases event with
  | block served => trivial
  | ask => trivial
  | scan managed counted reached =>
    intro response hresponse e he
    by_contra hle
    obtain ⟨k, hk⟩ := List.mem_iff_getElem?.mp hresponse
    rw [List.getElem?_dropLast] at hk
    split_ifs at hk with hlt
    have hentry : e ∈ (w.step encode (.scan managed counted reached)).ledger.entries := by
      rw [entries_scan]
      exact List.mem_append_right _ he
    obtain ⟨j, r, _, hr, hhas⟩ := h k response hk (by show _ < w.responses.length; omega) e hentry
      (not_lt.mp hle)
    -- An entry in a response had been seen before the scan.
    have hold := List.mem_of_mem_take (hsound.reported r (List.mem_of_getElem? hr) e hhas)
    apply notMem_of_mem_fresh he
    rw [hsound.unique.seen, List.mem_toFinset]
    exact List.mem_map_of_mem hold
  | answer order =>
    intro hasked height hheight e he
    by_contra hle
    obtain ⟨⟨tip, tiphash⟩, hcalled⟩ := Option.ne_none_iff_exists'.mp hasked
    rw [step_answer hcalled] at h
    obtain ⟨last, hlast, rfl⟩ := hsound.heightOf_cursor hdistinct hheight
    have hpos := List.length_pos_of_mem (List.mem_of_getLast? hlast)
    rw [List.getLast?_eq_getElem?] at hlast
    obtain ⟨j, r, _, hr, hhas⟩ := h (w.responses.length - 1) last
      (by rw [List.getElem?_append_left (by omega)]; exact hlast)
      (by rw [List.length_append, List.length_singleton]; omega)
      e (List.mem_of_mem_drop he) (not_lt.mp hle)
    rcases List.mem_append.mp (List.mem_of_getElem? hr) with hold | hnew
    · -- The entry was recorded after every response but the new one.
      have hbefore := hsound.reported r hold e hhas
      have hnodup := hsound.unique.nodup.of_map
      rw [← List.take_append_drop w.read w.ledger.entries] at hnodup
      exact List.disjoint_of_nodup_append hnodup hbefore he
    · -- The new response leaves it out.
      rw [List.mem_singleton.mp hnew] at hhas
      obtain ⟨e', he', heq⟩ := List.mem_map.mp hhas
      obtain rfl := entryJson_injective tip heq
      unfold sinceBlock at he'
      rw [hheight] at he'
      exact hle (of_decide_eq_true (List.mem_filter.mp he').2)

/-- **Polling misses nothing exactly if it is timely.** If every step of a run is
    timely, no deposit is missed; and if the blocks of the chain have different
    hashes, one is missed as soon as a step is not. -/
theorem missesNothing_iff_timely (encode : String → Bytes → String) (chain : List Served)
    (events : List Event) :
    (Along (Polling.step encode) (Timely encode) (boot chain) events →
      MissesNothing (events.foldl (Polling.step encode) (boot chain))) ∧
    (((events.foldl (Polling.step encode) (boot chain)).chain.map Prod.fst).Nodup →
      MissesNothing (events.foldl (Polling.step encode) (boot chain)) →
        Along (Polling.step encode) (Timely encode) (boot chain) events) := by
  constructor
  · intro htimely
    have hinv := htimely.invariant
      (fun w => Sound w ∧ Covered w ∧ MissesNothing w)
      ⟨Sound.boot chain, by simp [Covered, boot], by simp [MissesNothing, boot]⟩
      (fun w event h ht => ⟨h.1.step event, h.2.1.step h.1 h.2.2 ht⟩)
    exact hinv.2.2
  · intro hdistinct hmisses
    -- Down from the end of the run: there both hold in every state before it.
    induction events using List.reverseRecOn with
    | nil => trivial
    | append_singleton events event ih =>
      rw [List.foldl_append, List.foldl_cons, List.foldl_nil] at hdistinct hmisses
      have hsound : Sound (events.foldl (Polling.step encode) (boot chain)) :=
        foldl_invariant Sound (Sound.boot chain) fun w event h => h.step event
      obtain ⟨_, _, hchain⟩ := step_grows encode (events.foldl (Polling.step encode) (boot chain))
        event
      replace hdistinct := hdistinct.sublist (hchain.map Prod.fst).sublist
      apply along_append.mpr
      exact ⟨ih hdistinct hmisses.of_step, Timely.of_missesNothing hsound hdistinct hmisses,
        trivial⟩

/-! ## A call before the scan -/

/-- The ledger is scanned for one address of the sample chain. -/
def sampleScan (name : UInt8) : Event := .scan {World.paidBy name} true fun _ => true

/-- Both steps of a call. -/
def sampleCall : List Event := [.ask, .answer BulkMap.Iteration.sorted]

/-- The first call is answered before the block at the tip is scanned, and the
    second one after it. -/
def lateScan : List Event := sampleCall ++ sampleScan 13 :: sampleCall

/-- The deposit in that block is in neither response. -/
theorem late_deposit_missed :
    ¬ MissesNothing (lateScan.foldl (Polling.step Indexer.sampleEncode)
      (boot SyncIndexer.branchB)) := by
  intro h
  have hmissed : ∃ response ∈ (lateScan.foldl (Polling.step Indexer.sampleEncode)
      (boot SyncIndexer.branchB)).responses[0]?,
      ∃ e ∈ (lateScan.foldl (Polling.step Indexer.sampleEncode)
        (boot SyncIndexer.branchB)).ledger.entries, e.blockHeight ≤ response.tip ∧
      ∀ r ∈ (lateScan.foldl (Polling.step Indexer.sampleEncode)
        (boot SyncIndexer.branchB)).responses, entryJson r.tip e ∉ r.transactions := by
    decide
  obtain ⟨response, hresponse, e, he, hle, hnone⟩ := hmissed
  obtain ⟨j, r, _, hr, hhas⟩ := h 0 response hresponse (by decide) e he hle
  exact hnone r (List.mem_of_getElem? hr) hhas

/-- A call after each of two scans, with a block in between. -/
theorem prompt_scans_miss_nothing :
    MissesNothing ((sampleScan 13 :: sampleCall ++ .block (SyncIndexer.sampleServed 14 13 3)
      :: sampleScan 14 :: sampleCall).foldl (Polling.step Indexer.sampleEncode)
        (boot SyncIndexer.branchB)) ∧
    Along (Polling.step Indexer.sampleEncode) (Timely Indexer.sampleEncode)
      (boot SyncIndexer.branchB) (sampleScan 13 :: sampleCall ++
        .block (SyncIndexer.sampleServed 14 13 3) :: sampleScan 14 :: sampleCall) := by
  have hboth := missesNothing_iff_timely Indexer.sampleEncode SyncIndexer.branchB
    (sampleScan 13 :: sampleCall ++ .block (SyncIndexer.sampleServed 14 13 3)
      :: sampleScan 14 :: sampleCall)
  have hmisses := hboth.1 (by decide)
  exact ⟨hmisses, hboth.2 (by decide) hmisses⟩

end Polling

end Adapter

end Tensorium
