import Tensorium.Indexer.Store

/-! # Scanning on after a restart

    An indexer that starts again from its snapshot lacks the checkpoint and nothing else.
    As long as no reorg is found, that makes no difference to any scan. A reorg takes the
    one back to its checkpoint and the other one to the start, and both end with the same
    books when they have caught up.
-/

namespace Tensorium

namespace SyncIndexer

variable {encode : String → Bytes → String} {fetch : Fetch} {s r t : SyncIndexer}
  {tip height : Nat}

/-! ## Without a reorg -/

/-- The second indexer differs from the first one in nothing but the checkpoint, which it
    may lack. -/
structure SameButCheckpoint (s r : SyncIndexer) : Prop where
  books : r.toIndexer = s.toIndexer
  hash : r.lastHash = s.lastHash
  checkpoint : r.checkpoint = s.checkpoint ∨ r.checkpoint = none

theorem sameButCheckpoint_restart (orders : MapOrders) (s : SyncIndexer) :
    SameButCheckpoint s (s.restart orders) := by
  rw [restart_eq]
  exact ⟨rfl, rfl, Or.inr rfl⟩

/-- The node still reports the recorded hash, if it is asked. -/
def Undisturbed (s : SyncIndexer) (fetch : Fetch) : Prop :=
  s.scannedAny = true → 0 < s.lastHeight → ∀ served, fetch 0 s.lastHeight = .ok served →
    served.1.toHex = s.lastHash

/-- The check then only asks. -/
theorem reorgCheck_undisturbed (h : s.Undisturbed fetch) :
    s.reorgCheck fetch = if s.scannedAny ∧ s.lastHeight > 0 then
      (fetch 0 s.lastHeight).map fun _ => s else .ok s := by
  split_ifs with hcheck
  · obtain ⟨hscanned, hpos⟩ := hcheck
    rw [reorgCheck_asked hscanned hpos]
    cases hlast : fetch 0 s.lastHeight with
    | error e => rfl
    | ok served =>
      have hsame : ¬ s.needsRebuild served.1.toHex = true := by
        rw [needsRebuild_iff hscanned hpos, not_not]
        exact (h hscanned hpos served hlast).symm
      exact if_neg hsame
  · exact reorgCheck_unasked hcheck

/-- Both panic, or both return the same and stay the same. -/
def Alike {ρ : Type} (a b : Option (SyncIndexer × ρ)) : Prop :=
  a = none ∧ b = none ∨
    ∃ t u result, a = some (t, result) ∧ b = some (u, result) ∧ SameButCheckpoint t u

theorem SameButCheckpoint.advance {served : Served} (h : SameButCheckpoint s r) :
    s.advance encode tip height served = none ∧ r.advance encode tip height served = none ∨
      ∃ t u, s.advance encode tip height served = some t ∧
        r.advance encode tip height served = some u ∧ SameButCheckpoint t u := by
  unfold SyncIndexer.advance
  rw [h.books]
  cases s.applyBlock encode served.2 height with
  | none => exact Or.inl ⟨rfl, rfl⟩
  | some idx =>
    right
    refine ⟨_, _, rfl, rfl, ?_⟩
    dsimp only
    split_ifs
    · -- A new checkpoint is the same for both.
      exact ⟨rfl, rfl, Or.inl rfl⟩
    · exact ⟨rfl, rfl, h.checkpoint⟩

theorem SameButCheckpoint.scanLoop {rounds applied : Nat} (h : SameButCheckpoint s r) :
    Alike (scanLoop encode fetch tip rounds height applied s)
      (scanLoop encode fetch tip rounds height applied r) := by
  induction rounds generalizing height applied s r with
  | zero => exact Or.inr ⟨s, r, _, rfl, rfl, h⟩
  | succ rounds ih =>
    unfold SyncIndexer.scanLoop
    cases fetch (2 + applied) height with
    | error e => exact Or.inr ⟨s, r, _, rfl, rfl, h⟩
    | ok served =>
      dsimp only
      rcases @SameButCheckpoint.advance encode s r tip height served h with
        ⟨hs, hr⟩ | ⟨t, u, hs, hr, hsame⟩
      · rw [hs, hr]
        exact Or.inl ⟨rfl, rfl⟩
      · rw [hs, hr]
        exact ih hsame

theorem SameButCheckpoint.start_eq (h : SameButCheckpoint s r) : r.start = s.start := by
  unfold SyncIndexer.start
  rw [h.books]

theorem SameButCheckpoint.undisturbed (h : SameButCheckpoint s r) (hs : s.Undisturbed fetch) :
    r.Undisturbed fetch := by
  unfold Undisturbed
  rw [h.books, h.hash]
  exact hs

theorem SameButCheckpoint.scan (h : SameButCheckpoint s r) (hs : s.Undisturbed fetch) :
    Alike (s.scan encode tip fetch) (r.scan encode tip fetch) := by
  unfold SyncIndexer.scan
  rw [reorgCheck_undisturbed hs, reorgCheck_undisturbed (h.undisturbed hs), h.books]
  split_ifs
  · cases fetch 0 s.lastHeight with
    | error e => exact Or.inr ⟨s, r, _, rfl, rfl, h⟩
    | ok served =>
      show Alike (SyncIndexer.scanLoop _ _ _ _ _ _ s) (SyncIndexer.scanLoop _ _ _ _ _ _ r)
      rw [h.start_eq]
      exact h.scanLoop
  · dsimp only
    rw [h.start_eq]
    exact h.scanLoop

/-- Scan after scan, and what each of them returns. -/
def scanAll (encode : String → Bytes → String) :
    SyncIndexer → List (Nat × Fetch) → Option (SyncIndexer × List (Except String Nat))
  | s, [] => some (s, [])
  | s, call :: calls =>
    (s.scan encode call.1 call.2).bind fun r =>
      (scanAll encode r.1 calls).map fun rest => (rest.1, r.2 :: rest.2)

/-- None of the scans finds a reorg. -/
def NoReorg (encode : String → Bytes → String) : SyncIndexer → List (Nat × Fetch) → Prop
  | _, [] => True
  | s, call :: calls => s.Undisturbed call.2 ∧
      ∀ r, s.scan encode call.1 call.2 = some r → NoReorg encode r.1 calls

theorem SameButCheckpoint.scanAll {calls : List (Nat × Fetch)} (h : SameButCheckpoint s r)
    (hs : NoReorg encode s calls) : Alike (s.scanAll encode calls) (r.scanAll encode calls) := by
  induction calls generalizing s r with
  | nil => exact Or.inr ⟨s, r, [], rfl, rfl, h⟩
  | cons call calls ih =>
    obtain ⟨hfirst, hrest⟩ := hs
    unfold SyncIndexer.scanAll
    rcases @SameButCheckpoint.scan encode call.2 s r call.1 h hfirst with
      ⟨hscan, hscan'⟩ | ⟨t, u, result, hscan, hscan', hsame⟩
    · rw [hscan, hscan']
      exact Or.inl ⟨rfl, rfl⟩
    · rw [hscan, hscan', Option.bind_some, Option.bind_some]
      rcases ih hsame (hrest _ hscan) with ⟨hnone, hnone'⟩ | ⟨t', u', results, hall, hall', hend⟩
      · rw [hnone, hnone']
        exact Or.inl ⟨rfl, rfl⟩
      · rw [hall, hall']
        exact Or.inr ⟨t', u', result :: results, rfl, rfl, hend⟩

/-! ## With reorgs -/

/-- Books without a checkpoint are as sound as with one. -/
theorem Sound.restart {seen : List (List Served)} (orders : MapOrders) (h : Sound encode seen s) :
    Sound encode seen (s.restart orders) := by
  rw [restart_eq]
  refine ⟨h.tracks, ?_⟩
  intro cp hcp
  cases hcp

/-- Whatever the scans before it were, one that catches up ends with the replay of its
    chain. -/
theorem Sound.catchesUp {genesis : Served} {seen : List (List Served)} {calls : List ScanCall}
    {call : ScanCall} {k : Nat} (h : Sound encode seen s) (hchains : Compatible genesis seen)
    (hmem : ∀ c ∈ calls ++ [call], c.chain ∈ seen) (hne : ∀ c ∈ calls ++ [call], c.chain ≠ [])
    (hs : s.scans encode calls = some r)
    (ht : r.scan encode call.tip call.fetch = some (t, .ok k)) (htip : r.lastHeight ≤ call.tip) :
    Tracks encode call.chain (call.tip + 1) t.toIndexer t.lastHash := by
  have hr := h.scans hchains (fun c hc => hmem c (List.mem_append_left _ hc))
    (fun c hc => hne c (List.mem_append_left _ hc)) hs
  exact (hr.scan hchains (hmem call (by simp)) (hne call (by simp)) call.fromChain ht).2 k rfl htip

/-- **A restart loses the checkpoint and nothing else.** Whatever the orders in which the
    maps are written and read, the snapshot of an indexer restores all it has but the
    checkpoint. Without a reorg every scan after it returns what it would have returned,
    and leaves the same but for the checkpoint. After any scans of chains with one genesis
    block, restarted in between or not, a scan that returns `Ok` and does not end below
    where the indexer was leaves the same books. -/
theorem restart_continues (orders : MapOrders) (encode : String → Bytes → String)
    (idx : SyncIndexer) :
    idx.restart orders = { idx with checkpoint := none } ∧
    (∀ calls, NoReorg encode idx calls →
      Alike (idx.scanAll encode calls) ((idx.restart orders).scanAll encode calls)) ∧
    ∀ (genesis : Served) (before more : List ScanCall) (call : ScanCall),
      (∀ c ∈ before ++ more ++ [call], c.chain[0]? = some genesis) →
      (∀ c ∈ before ++ more ++ [call], ∀ c' ∈ before ++ more ++ [call], Agree c.chain c'.chain) →
      SyncIndexer.default.scans encode before = some idx →
      ∀ s r t u k k', idx.scans encode more = some s →
        (idx.restart orders).scans encode more = some r →
        s.scan encode call.tip call.fetch = some (t, .ok k) →
        r.scan encode call.tip call.fetch = some (u, .ok k') →
        s.lastHeight ≤ call.tip → r.lastHeight ≤ call.tip → t.SameBooks u := by
  refine ⟨restart_eq orders idx, ?_, ?_⟩
  · intro calls hcalls
    exact (sameButCheckpoint_restart orders idx).scanAll hcalls
  · intro genesis before more call hgenesis hagree hidx s r t u k k' hs hr ht hu htip htip'
    have hchains := compatible_calls hgenesis hagree
    have hbefore : ∀ c ∈ before, c ∈ before ++ more ++ [call] := by
      intro c hc
      simp [hc]
    have hmore : ∀ c ∈ more ++ [call], c ∈ before ++ more ++ [call] := by
      intro c hc
      rw [List.append_assoc]
      exact List.mem_append_right before hc
    have hsound := (Sound.default encode _).scans hchains
      (fun c hc => List.mem_map_of_mem (hbefore c hc))
      (fun c hc => chain_ne_nil (hgenesis c (hbefore c hc))) hidx
    have hmem : ∀ c ∈ more ++ [call], c.chain ∈ (before ++ more ++ [call]).map ScanCall.chain :=
      fun c hc => List.mem_map_of_mem (hmore c hc)
    have hne : ∀ c ∈ more ++ [call], c.chain ≠ [] :=
      fun c hc => chain_ne_nil (hgenesis c (hmore c hc))
    -- Both go on from sound books, and end with the replay of one chain.
    have ht' := hsound.catchesUp hchains hmem hne hs ht htip
    have hu' := (hsound.restart orders).catchesUp hchains hmem hne hr hu htip'
    have hbooks : t.toIndexer = u.toIndexer := ht'.books.unique hu'.books
    exact ⟨by rw [hbooks], by rw [hbooks], by rw [hbooks], by rw [hbooks],
      ht'.hash.trans hu'.hash.symm⟩

end SyncIndexer

end Tensorium
