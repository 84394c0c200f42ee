import Tensorium.Indexer.Incremental

/-! # What a poll leaves

    A poll of the node asks for its height first and does not scan at all if the
    indexer has scanned that far. The hash at its last height is then not looked
    at, and a chain of the same height or of a lower one goes unnoticed.
-/

namespace Tensorium

open Replay

namespace SyncIndexer

variable {encode : String → Bytes → String} {genesis : Served} {chain : List Served}
  {seen : List (List Served)} {fetch : Fetch} {s t : SyncIndexer}

/-- The height `getblockcount` answers. -/
def tipOf (chain : List Served) : Option Nat :=
  if chain = [] then none else some (chain.length - 1)

/-- One call of `tick`, against a node whose chain does not change while it runs,
    and which may fail to answer at any point. -/
structure Poll where
  chain : List Served
  count : Except String (Option Nat)
  countFrom : ∀ answer, count = .ok answer → answer = tipOf chain
  fetch : Fetch
  fromChain : FromChain chain fetch
  saved : Except String Unit

/-- The call of `tick`. -/
def poll (encode : String → Bytes → String) (s : SyncIndexer) (p : Poll) :
    Option (SyncIndexer × Except String Unit) :=
  s.tick encode p.count p.fetch p.saved

/-- Poll after poll on one indexer, whatever each of them returns. -/
def polls (encode : String → Bytes → String) (s : SyncIndexer) (ps : List Poll) :
    Option SyncIndexer :=
  ps.foldlM (fun s p => (s.poll encode p).map Prod.fst) s

/-- The state and the outpoints are those of the replay of a chain. -/
def OnChain (encode : String → Bytes → String) (chain : List Served) (s : SyncIndexer) : Prop :=
  ∃ idx : Indexer, feed (Indexer.apply encode) 0 Indexer.default (blocksOf chain) = some idx ∧
    s.state = idx.state ∧ s.outpoints = idx.outpoints

/-- The poll does not leave before it scans: the node has a block above the last
    one that was applied. -/
def Scans (s : SyncIndexer) (p : Poll) : Prop :=
  ∃ tip, p.count = .ok (some tip) ∧ ¬ (s.scannedAny = true ∧ s.lastHeight ≥ tip)

/-- What a poll does: it scans up to the tip, or nothing. -/
theorem poll_cases {p : Poll} {result : Except String Unit}
    (h : s.poll encode p = some (t, result)) :
    (t = s ∧ (result = .ok () → ¬ s.Scans p)) ∨
    ∃ tip r, p.count = .ok (some tip) ∧ s.Scans p ∧ s.scan encode tip p.fetch = some (t, r) ∧
      (result = .ok () → ∃ applied, r = .ok applied) := by
  unfold poll tick at h
  cases hcount : p.count with
  | error e =>
    rw [hcount] at h
    obtain ⟨rfl, rfl⟩ := Prod.mk.inj (Option.some.inj h)
    left
    refine ⟨rfl, ?_⟩
    intro hok
    cases hok
  | ok answer =>
    rw [hcount] at h
    cases answer with
    | none =>
      obtain ⟨rfl, rfl⟩ := Prod.mk.inj (Option.some.inj h)
      left
      refine ⟨rfl, ?_⟩
      rintro _ ⟨tip, htip, _⟩
      rw [hcount] at htip
      cases htip
    | some tip =>
      dsimp only at h
      split_ifs at h with hearly
      · obtain ⟨rfl, rfl⟩ := Prod.mk.inj (Option.some.inj h)
        left
        refine ⟨rfl, ?_⟩
        rintro _ ⟨tip', htip', hlate⟩
        rw [hcount] at htip'
        cases htip'
        exact hlate hearly
      · obtain ⟨⟨s', r⟩, hscan, heq⟩ := Option.map_eq_some_iff.mp h
        right
        cases r with
        | error e =>
          obtain ⟨rfl, rfl⟩ := Prod.mk.inj heq
          refine ⟨tip, _, rfl, ⟨tip, hcount, hearly⟩, hscan, ?_⟩
          intro hok
          cases hok
        | ok applied =>
          obtain ⟨rfl, _⟩ := Prod.mk.inj heq
          exact ⟨tip, _, rfl, ⟨tip, hcount, hearly⟩, hscan, fun _ => ⟨applied, rfl⟩⟩

/-- A poll keeps the books sound; one that scans and returns `Ok` leaves the whole
    chain replayed. -/
theorem Sound.poll {p : Poll} {result : Except String Unit} (h : Sound encode seen s)
    (hchains : Compatible genesis seen) (hmem : p.chain ∈ seen)
    (ht : s.poll encode p = some (t, result)) :
    Sound encode seen t ∧ (result = .ok () → s.Scans p →
      Tracks encode p.chain p.chain.length t.toIndexer t.lastHash) := by
  rcases poll_cases ht with ⟨rfl, hskip⟩ | ⟨tip, r, hcount, hscans, hscan, hok⟩
  · exact ⟨h, fun hresult hscans => absurd hscans (hskip hresult)⟩
  · have htip := p.countFrom _ hcount
    unfold tipOf at htip
    split_ifs at htip with hne
    obtain rfl := Option.some.inj htip
    obtain ⟨hsound, htracks⟩ := h.scan hchains hmem hne p.fromChain hscan
    refine ⟨hsound, ?_⟩
    intro hresult _
    obtain ⟨applied, rfl⟩ := hok hresult
    have hpos := List.length_pos_of_ne_nil hne
    rw [show p.chain.length = p.chain.length - 1 + 1 by omega]
    apply htracks applied rfl
    obtain ⟨tip', htip', hlate⟩ := hscans
    rw [hcount] at htip'
    cases htip'
    by_cases hscanned : s.scannedAny = true
    · exact (not_le.mp fun hle => hlate ⟨hscanned, hle⟩).le
    · -- Nothing scanned yet: the last height is 0.
      have hheight := (h.tracks_empty hscanned p.chain).books.height.1
      omega

theorem Sound.polls {ps : List Poll} (h : Sound encode seen s)
    (hchains : Compatible genesis seen) (hps : ∀ p ∈ ps, p.chain ∈ seen)
    (ht : s.polls encode ps = some t) : Sound encode seen t := by
  induction ps generalizing s with
  | nil =>
    obtain rfl := Option.some.inj ht
    exact h
  | cons p ps ih =>
    obtain ⟨s', hpoll, hrest⟩ := Option.bind_eq_some_iff.mp ht
    obtain ⟨⟨_, result⟩, hp, rfl⟩ := Option.map_eq_some_iff.mp hpoll
    exact ih (h.poll hchains (hps p List.mem_cons_self) hp).1
      (fun q hq => hps q (List.mem_cons_of_mem _ hq)) hrest

/-- **A poll that does not scan may leave an orphaned chain.** After any polls of
    chains with one genesis block, a poll that returns `Ok` leaves the state and
    the outpoints of the node's chain exactly if it scans, or had them already. -/
theorem poll_onChain_iff (encode : String → Bytes → String) (genesis : Served)
    (ps : List Poll) (p : Poll)
    (hgenesis : ∀ q ∈ ps ++ [p], ∀ served, q.chain[0]? = some served → served = genesis)
    (hagree : ∀ q ∈ ps ++ [p], ∀ q' ∈ ps ++ [p], Agree q.chain q'.chain)
    {s t : SyncIndexer} (hs : SyncIndexer.default.polls encode ps = some s)
    (ht : s.poll encode p = some (t, .ok ())) :
    OnChain encode p.chain t ↔ s.Scans p ∨ OnChain encode p.chain s := by
  have hchains : Compatible genesis ((ps ++ [p]).map Poll.chain) := by
    constructor
    · intro chain hchain
      obtain ⟨q, hq, rfl⟩ := List.mem_map.mp hchain
      exact hgenesis q hq
    · intro chain hchain chain' hchain'
      obtain ⟨q, hq, rfl⟩ := List.mem_map.mp hchain
      obtain ⟨q', hq', rfl⟩ := List.mem_map.mp hchain'
      exact hagree q hq q' hq'
  have hsound := (Sound.default encode _).polls hchains
    (fun q hq => List.mem_map_of_mem (List.mem_append_left _ hq)) hs
  have hscanned := (hsound.poll hchains (List.mem_map_of_mem (by simp)) ht).2 rfl
  by_cases hscans : s.Scans p
  · apply iff_of_true _ (Or.inl hscans)
    have hbooks := (hscanned hscans).books
    rw [← length_blocksOf] at hbooks
    exact ⟨t.toIndexer, Upto.all_iff.mp hbooks, rfl, rfl⟩
  · -- Nothing happens.
    rcases poll_cases ht with ⟨rfl, _⟩ | ⟨_, _, _, hscans', _, _⟩
    · simp [hscans]
    · exact absurd hscans' hscans

/-! ## A reorganisation at one height -/

/-- A poll that the node answers from its chain. -/
def Poll.served (chain : List Served) : Poll where
  chain := chain
  count := .ok (tipOf chain)
  countFrom := fun _ h => (Except.ok.inj h).symm
  fetch := serve chain
  fromChain := fromChain_serve chain
  saved := .ok ()

/-- The indexer has followed the first branch to height 2, the node goes over to
    the second one, and the next poll says `Ok` and changes nothing. -/
theorem poll_misses_reorg :
    ∃ s t, SyncIndexer.default.polls Indexer.sampleEncode [.served branchA] = some s ∧
      s.poll Indexer.sampleEncode (.served branchB) = some (t, .ok ()) ∧
      ¬ OnChain Indexer.sampleEncode branchB t := by
  have heval : ((SyncIndexer.default.polls Indexer.sampleEncode [.served branchA]).bind fun s =>
      (s.poll Indexer.sampleEncode (.served branchB)).map fun r =>
        (r.2.toOption, (feed (Indexer.apply Indexer.sampleEncode) 0 Indexer.default
          (blocksOf branchB)).map fun idx => decide (r.1.outpoints = idx.outpoints)))
        = some (some (), some false) := by
    decide
  obtain ⟨s, hs, hpoll⟩ := Option.bind_eq_some_iff.mp heval
  obtain ⟨⟨t, result⟩, ht, heq⟩ := Option.map_eq_some_iff.mp hpoll
  obtain ⟨hresult, hdiffer⟩ := Prod.mk.inj heq
  cases result with
  | error e => cases hresult
  | ok _ =>
    refine ⟨s, t, hs, ht, ?_⟩
    rintro ⟨idx, hidx, _, houtpoints⟩
    rw [hidx] at hdiffer
    exact of_decide_eq_false (Option.some.inj hdiffer) houtpoints

/-- A poll that does scan: the second branch has grown. -/
theorem poll_onChain_iff_grown :
    ∃ s t, SyncIndexer.default.polls Indexer.sampleEncode [.served branchA] = some s ∧
      s.poll Indexer.sampleEncode (.served grownB) = some (t, .ok ()) ∧
      (OnChain Indexer.sampleEncode grownB t ↔
        s.Scans (.served grownB) ∨
          OnChain Indexer.sampleEncode grownB s) := by
  have heval : ((SyncIndexer.default.polls Indexer.sampleEncode [.served branchA]).bind fun s =>
      (s.poll Indexer.sampleEncode (.served grownB)).map fun r =>
        r.2.toOption) = some (some ()) := by
    decide
  obtain ⟨s, hs, hpoll⟩ := Option.bind_eq_some_iff.mp heval
  obtain ⟨⟨t, result⟩, ht, hresult⟩ := Option.map_eq_some_iff.mp hpoll
  cases result with
  | error e => cases hresult
  | ok _ =>
    exact ⟨s, t, hs, ht, poll_onChain_iff Indexer.sampleEncode (sampleServed 1 0 0)
      [.served branchA] (.served grownB) (by decide)
      (by decide) hs ht⟩

end SyncIndexer

end Tensorium
