import Tensorium.Lib.CatchUp
import Tensorium.Node.Runs
import Tensorium.State.PeerChain

/-! # Sync as catching up by position

    Against a peer that serves one fixed chain, `sync_blocks` is the loop of
    `Lib/CatchUp`: how far the chain of the peer is stored tells what every
    submission answers, which chain is canonical and what was disconnected
    last.
-/

namespace Tensorium

open BulkMap ParentLinked

namespace Node

variable {P : Primitives} {params : ConsensusParams} {U : Set Block}
variable {A Q : List Block} {K₀ K : Nat} {s : ChainState}

/-! ## The peer -/

/-- What a peer with the given canonical chain sends for `GetBlocks`. -/
def servedBy (Q : List Block) (fromHeight : Nat) : Except String (List Block) :=
  .ok ((Q.filter fun b => decide (b.header.height ≥ fromHeight)).take syncBatchSize)

/-- A peer that runs this node serves its canonical chain. -/
theorem servedBy_canonicalBlocksIter (peer : ChainState) (fromHeight : Nat) :
    servedBy peer.canonicalBlocksIter fromHeight = .ok (getBlocks peer fromHeight) := rfl

/-- The loop of `sync_blocks` against a peer, for a local chain `A` and a chain of
    the peer that is stored up to `K₀`. -/
def catchUp (P : Primitives) (params : ConsensusParams) (now : Block → Nat) (A Q : List Block)
    (K₀ remoteHeight : Nat) : CatchUp.Setting where
  length := Q.length
  goal := remoteHeight
  batch := syncBatchSize
  depth := maxForkSearchDepth
  base := A.length - 1
  ready := Replays P params A.reverse
  passes := Passes P params now A Q K₀
  wins := Overtakes A Q K₀

/-- Heights are positions, so a batch is a piece of the chain. -/
theorem servedBy_eq (params : ConsensusParams) (now : Block → Nat) (A : List Block)
    (K₀ remoteHeight : Nat) (hQ : PeerChain P U Q) (fetchFrom : Nat) :
    servedBy Q fetchFrom = .ok ((Q.drop fetchFrom).take
      ((catchUp P params now A Q K₀ remoteHeight).count fetchFrom)) := by
  have hlow : (Q.take fetchFrom).filter (fun b => decide (b.header.height ≥ fetchFrom)) = [] := by
    rw [List.filter_eq_nil_iff]
    intro b hb
    obtain ⟨j, hj⟩ := List.mem_iff_getElem?.mp hb
    obtain ⟨hlt, _⟩ := List.getElem?_eq_some_iff.mp hj
    rw [List.length_take] at hlt
    rw [List.getElem?_take_of_lt (by omega)] at hj
    have hheight := hQ.height j b hj
    simp only [ge_iff_le, decide_eq_true_eq]
    omega
  have hhigh : (Q.drop fetchFrom).filter (fun b => decide (b.header.height ≥ fetchFrom))
      = Q.drop fetchFrom := by
    rw [List.filter_eq_self]
    intro b hb
    obtain ⟨j, hj⟩ := List.mem_iff_getElem?.mp hb
    rw [List.getElem?_drop] at hj
    have hheight := hQ.height (fetchFrom + j) b hj
    simp only [ge_iff_le, decide_eq_true_eq]
    omega
  unfold servedBy
  rw [← List.take_append_drop fetchFrom Q, List.filter_append, hlow, hhigh, List.nil_append,
    List.take_append_drop]
  congr 1
  rw [List.take_eq_take_iff, List.length_drop]
  show min syncBatchSize (Q.length - fetchFrom)
    = min (min syncBatchSize (Q.length - fetchFrom)) (Q.length - fetchFrom)
  omega

/-! ## Positions of the chain state -/

/-- The chain of the peer is stored up to `K`, and the blocks of the last
    reorganisation are those the copy has taken off the canonical chain, if it
    has just overtaken it. -/
structure At (P : Primitives) (params : ConsensusParams) (U : Set Block) (A Q : List Block)
    (K₀ : Nat) (s : ChainState) (K : Nat) : Prop where
  copied : ∃ L, ChainState.Represents P params s L ∧ L.Copied P params U A Q K₀ K
  extended : Overtakes A Q K₀ K → Overtakes A Q K₀ (K - 1) → s.lastDisconnected = []
  reorganized : Overtakes A Q K₀ K → ¬ Overtakes A Q K₀ (K - 1) →
    ∀ b ∈ A, b ∉ upTo Q K → b ∈ s.lastDisconnected

/-- The canonical chain of a position, in a state that may hold one more block. -/
def ChainIs (P : Primitives) (params : ConsensusParams) (U : Set Block) (A Q : List Block)
    (K₀ : Nat) (s : ChainState) (K : Nat) : Prop :=
  ∃ L, ChainState.Represents P params s L ∧ L.WellFormed P U ∧ L.chain = chainAt A Q K₀ K

theorem At.chainIs (h : At P params U A Q K₀ s K) : ChainIs P params U A Q K₀ s K := by
  obtain ⟨L, hR, hcopied⟩ := h.copied
  exact ⟨L, hR, hcopied.wellFormed, hcopied.chain⟩

/-- The height of a position is the one the abstract loop computes. -/
theorem At.height_eq (h : At P params U A Q K₀ s K) (now : Block → Nat) (remoteHeight : Nat)
    (hA : A ≠ []) :
    s.height.getD 0 = (catchUp P params now A Q K₀ remoteHeight).height K := by
  obtain ⟨L, hR, hcopied⟩ := h.copied
  have hlength : ∀ b, L.chain.head? = some b → b.header.height = L.chain.length - 1 := by
    intro b hb
    have hlen := hcopied.wellFormed.chain_length hb
    omega
  have hchain := hcopied.chain
  unfold ChainState.height CatchUp.Setting.height
  rw [hR.heightCache]
  unfold chainAt at hchain
  -- The chain is the remote one up to `K`, or still the local one.
  by_cases hover : Overtakes A Q K₀ K
  · rw [if_pos hover] at hchain
    obtain ⟨b, hb⟩ : ∃ b, Q[K]? = some b := ⟨_, List.getElem?_eq_getElem hcopied.bound⟩
    have hhead : L.chain.head? = some b := by
      rw [hchain]
      exact upTo_head hb
    have hheight := hlength b hhead
    rw [hchain, upTo_length hcopied.bound] at hheight
    have hwins : (catchUp P params now A Q K₀ remoteHeight).wins K := hover
    rw [if_pos hwins, hhead]
    show b.header.height = K
    omega
  · rw [if_neg hover] at hchain
    obtain ⟨b, t, hcons⟩ := List.exists_cons_of_ne_nil hA
    have hhead : L.chain.head? = some b := by
      rw [hchain, hcons]
      rfl
    have hheight := hlength b hhead
    rw [hchain] at hheight
    have hwins : ¬ (catchUp P params now A Q K₀ remoteHeight).wins K := hover
    rw [if_neg hwins, hhead]
    exact hheight

/-! ## Submissions -/

section submissions

variable {b : Block} {j : Nat}

theorem At.submit_stored (h : At P params U A Q K₀ s K) (hb : Q[j]? = some b) (hj : j ≤ K)
    (nowSeconds : Nat) :
    s.submitBlock P params b nowSeconds = (.error .alreadyKnown, s) := by
  obtain ⟨L, hR, hcopied⟩ := h.copied
  have hknown : s.blockKnown (b.hash P) = true := by
    have hget : s.getBlockByHash (b.hash P) = some b := by
      rw [hR.known]
      exact hcopied.stored j b hb hj
    unfold ChainState.blockKnown
    unfold ChainState.getBlockByHash at hget
    rw [hget]
    rfl
  unfold ChainState.submitBlock
  rw [if_pos hknown]

theorem lastDisconnected_of_syncStep {s' : ChainState} (h : ChainState.SyncStep P params s s') :
    s'.lastDisconnected = s.lastDisconnected := by
  cases h with
  | same => rfl
  | rebuilt _ _ _ _ => rfl

theorem At.submit_beyond (h : At P params U A Q K₀ s K) (hU : HashFaithful P U)
    (hQ : PeerChain P U Q) (hb : Q[j]? = some b) (hj : K + 1 < j) (nowSeconds : Nat) :
    (Replays P params A.reverse →
      ∃ s', s.submitBlock P params b nowSeconds = (.error .unknownParent, s') ∧
        At P params U A Q K₀ s' K) ∧
    (¬ Replays P params A.reverse →
      ∃ e s', s.submitBlock P params b nowSeconds = (.error (.utxo e), s') ∧
        ChainIs P params U A Q K₀ s' K) := by
  obtain ⟨L, hR, hcopied⟩ := h.copied
  obtain ⟨hknown, hunsynced⟩ := hcopied.submit_beyond hQ hb hj nowSeconds
  have hbU := hQ.mem b (List.mem_of_getElem? hb)
  obtain ⟨hres, hR', hL'⟩ := hR.submitBlock hcopied.wellFormed hU nowSeconds (fun _ => hbU)
  constructor
  · intro hready
    rw [hknown hready] at hres hR' hL'
    have hpair : s.submitBlock P params b nowSeconds
        = (.error .unknownParent, (s.submitBlock P params b nowSeconds).2) := Prod.ext hres rfl
    have hsame : (s.submitBlock P params b nowSeconds).2.lastDisconnected
        = s.lastDisconnected := by
      -- Nothing is stored without the parent.
      obtain ⟨s₁, hsync, hs' | ⟨_, hs'⟩⟩ := ChainState.submitBlock_error hpair
      · rw [hs', lastDisconnected_of_syncStep hsync]
      · have hget : (s.submitBlock P params b nowSeconds).2.getBlockByHash (b.hash P) = some b := by
          rw [hs']
          exact Finmap.lookup_insert _
        rw [hR'.known, hcopied.fresh j b hb (by omega)] at hget
        cases hget
    refine ⟨_, hpair, ⟨L, hR', hcopied⟩, ?_, ?_⟩
    · rw [hsame]
      exact h.extended
    · rw [hsame]
      exact h.reorganized
  · intro hready
    obtain ⟨e, hsubmit⟩ := hunsynced hready
    rw [hsubmit] at hres hR' hL'
    exact ⟨e, _, Prod.ext hres rfl, L, hR', hcopied.wellFormed, hcopied.chain⟩

theorem At.submit_next (h : At P params U A Q K₀ s K) (now : Block → Nat) (hU : HashFaithful P U)
    (hQ : PeerChain P U Q) (hmodest : ModestDifficulty params) (hlength : Q.length ≤ 2 ^ 64)
    (hb : Q[K + 1]? = some b) :
    (Passes P params now A Q K₀ (K + 1) →
      ∃ s', s.submitBlock P params b (now b) = (.ok b, s') ∧ At P params U A Q K₀ s' (K + 1)) ∧
    (¬ Passes P params now A Q K₀ (K + 1) →
      ∃ e s', s.submitBlock P params b (now b) = (.error e, s') ∧ e ≠ .alreadyKnown ∧
        e ≠ .unknownParent ∧ ChainIs P params U A Q K₀ s' K) := by
  obtain ⟨L, hR, hcopied⟩ := h.copied
  obtain ⟨hpasses, hfails⟩ := hcopied.submit_next now hU hQ hmodest hlength hb
  have hbU := hQ.mem b (List.mem_of_getElem? hb)
  obtain ⟨hres, hR', hL'⟩ := hR.submitBlock hcopied.wellFormed hU (now b) (fun _ => hbU)
  constructor
  · intro hpass
    obtain ⟨hok, hcopied'⟩ := hpasses hpass
    obtain ⟨hextends, hgone⟩ := hR.submitBlock_disconnected hcopied.wellFormed hU hbU hok
    refine ⟨_, Prod.ext (hres.trans hok) rfl, ⟨_, hR', hcopied'⟩, ?_, ?_⟩
    · -- The copy is canonical already, so the block extends the tip.
      intro _ hover
      rw [Nat.add_sub_cancel] at hover
      refine hextends ?_
      obtain ⟨p, hp⟩ : ∃ p, Q[K]? = some p := ⟨_, List.getElem?_eq_getElem hcopied.bound⟩
      unfold Ledger.tipHash
      rw [hcopied.chain, chainAt, if_pos hover, upTo_head hp]
      exact hQ.link K p b hp hb
    · intro hover hbefore c hc hcopy
      rw [Nat.add_sub_cancel] at hbefore
      refine hgone c ?_ ?_
      · rw [hcopied.chain, chainAt, if_neg hbefore]
        exact hc
      · rw [hcopied'.chain, chainAt, if_pos hover]
        exact hcopy
  · intro hfail
    obtain ⟨e, herror, hknown, horphan, hchain⟩ := hfails hfail
    refine ⟨e, _, Prod.ext (hres.trans herror) rfl, hknown, horphan, _, hR', hL', ?_⟩
    rw [hchain, hcopied.chain]

end submissions

/-! ## Batches, rounds and runs -/

section simulation

variable (now : Block → Nat) (remoteHeight : Nat) (hU : HashFaithful P U) (hQ : PeerChain P U Q)
  (hmodest : ModestDifficulty params) (hlength : Q.length ≤ 2 ^ 64)

include hU hQ hmodest hlength

/-- A batch that starts no further than behind the stored part is stored as the
    abstract loop says. -/
theorem applyBatch_store (count j applied fetchFrom : Nat) (h : At P params U A Q K₀ s K)
    (hj : j ≤ K + 1) (hcount : j + count ≤ Q.length) :
    match (catchUp P params now A Q K₀ remoteHeight).store count j K with
    | (K', true) => ∃ applied' s',
        applyBatch P params now fetchFrom ((Q.drop j).take count) applied s
          = (.applied applied', s') ∧ At P params U A Q K₀ s' K'
    | (K', false) => ∃ e s',
        applyBatch P params now fetchFrom ((Q.drop j).take count) applied s
          = (.failed e, s') ∧ ChainIs P params U A Q K₀ s' K' := by
  induction count generalizing j applied K s with
  | zero => exact ⟨applied, s, rfl, h⟩
  | succ count ih =>
    obtain ⟨b, hb⟩ : ∃ b, Q[j]? = some b := ⟨_, List.getElem?_eq_getElem (by omega)⟩
    have hbatch : (Q.drop j).take (count + 1) = b :: (Q.drop (j + 1)).take count := by
      obtain ⟨hlt, rfl⟩ := List.getElem?_eq_some_iff.mp hb
      rw [List.drop_eq_getElem_cons hlt, List.take_succ_cons]
    rw [hbatch]
    unfold CatchUp.Setting.store applyBatch
    -- A block that is stored is passed over; the next one is submitted.
    by_cases hold : j ≤ K
    · rw [if_pos hold, h.submit_stored hb hold (now b)]
      exact ih (j + 1) (applied + 1) h (by omega) (by omega)
    · rw [if_neg hold]
      obtain rfl : j = K + 1 := by omega
      obtain ⟨hpasses, hfails⟩ := h.submit_next now hU hQ hmodest hlength hb
      by_cases hpass : Passes P params now A Q K₀ (K + 1)
      · obtain ⟨s', hsubmit, h'⟩ := hpasses hpass
        rw [if_pos (show (catchUp P params now A Q K₀ remoteHeight).passes (K + 1) from hpass),
          hsubmit]
        exact ih (K + 1 + 1) (applied + 1) h' (by omega) (by omega)
      · obtain ⟨e, s', hsubmit, hknown, horphan, hchain⟩ := hfails hpass
        rw [if_neg (show ¬ (catchUp P params now A Q K₀ remoteHeight).passes (K + 1) from hpass),
          hsubmit]
        refine ⟨.failedAt b.header.height e, s', ?_, hchain⟩
        -- The error is none of those that the batch goes on from.
        cases e with
        | alreadyKnown => exact absurd rfl hknown
        | unknownParent => exact absurd rfl horphan
        | _ => rfl

/-- One round of `sync_blocks` is one round of the abstract loop. -/
theorem syncRound_round (hA : A ≠ []) {st : SyncLoop} {a : CatchUp.Loop}
    (h : At P params U A Q K₀ st.state a.known) (hfrom : st.fetchFrom = a.fetchFrom)
    (hback : st.backtrack = a.back) :
    match (catchUp P params now A Q K₀ remoteHeight).round a with
    | .done true K' => ∃ synced s',
        syncRound P params now remoteHeight (servedBy Q) st = .done (.ok synced) s' ∧
        At P params U A Q K₀ s' K'
    | .done false K' => ∃ e s',
        syncRound P params now remoteHeight (servedBy Q) st = .done (.error e) s' ∧
        ChainIs P params U A Q K₀ s' K'
    | .again a' => ∃ st',
        syncRound P params now remoteHeight (servedBy Q) st = .again st' ∧
        At P params U A Q K₀ st'.state a'.known ∧ st'.fetchFrom = a'.fetchFrom ∧
        st'.backtrack = a'.back := by
  unfold CatchUp.Setting.round syncRound
  rw [hfrom, servedBy_eq params now A K₀ remoteHeight hQ, hback]
  have hcount : (catchUp P params now A Q K₀ remoteHeight).count a.fetchFrom
      = min syncBatchSize (Q.length - a.fetchFrom) := rfl
  by_cases hend : (catchUp P params now A Q K₀ remoteHeight).length ≤ a.fetchFrom
  · rw [if_pos hend]
    have hempty : Q.drop a.fetchFrom = [] := List.drop_eq_nil_of_le hend
    rw [hempty, List.take_nil]
    exact ⟨_, _, rfl, h⟩
  rw [if_neg hend]
  have hlt : a.fetchFrom < Q.length := not_le.mp hend
  obtain ⟨b, hb⟩ : ∃ b, Q[a.fetchFrom]? = some b := ⟨_, List.getElem?_eq_getElem hlt⟩
  obtain ⟨rest, hbatch⟩ : ∃ rest, (Q.drop a.fetchFrom).take
      ((catchUp P params now A Q K₀ remoteHeight).count a.fetchFrom) = b :: rest := by
    obtain ⟨_, rfl⟩ := List.getElem?_eq_some_iff.mp hb
    obtain ⟨c, hc⟩ : ∃ c, (catchUp P params now A Q K₀ remoteHeight).count a.fetchFrom = c + 1 := by
      refine ⟨(catchUp P params now A Q K₀ remoteHeight).count a.fetchFrom - 1, ?_⟩
      have hsize : syncBatchSize = 50 := rfl
      omega
    exact ⟨_, by rw [hc, List.drop_eq_getElem_cons hlt, List.take_succ_cons]⟩
  by_cases hfar : a.known + 1 < a.fetchFrom
  · -- The batch starts beyond what is stored.
    rw [if_pos hfar, hbatch]
    dsimp only
    unfold applyBatch
    obtain ⟨hknown, hunsynced⟩ := h.submit_beyond hU hQ hb hfar (now b)
    by_cases hready : Replays P params A.reverse
    · obtain ⟨s', hsubmit, h'⟩ := hknown hready
      rw [hsubmit]
      dsimp only
      rw [if_pos (show a.fetchFrom > 1 by omega)]
      dsimp only
      by_cases hdepth : a.back + 1 ≤ maxForkSearchDepth
      · rw [if_pos ⟨hready, hdepth⟩, if_neg (by omega)]
        exact ⟨_, rfl, h', rfl, rfl⟩
      · rw [if_neg fun hboth => hdepth hboth.2, if_pos (by omega)]
        exact ⟨_, _, rfl, h'.chainIs⟩
    · obtain ⟨e, s', hsubmit, hchain⟩ := hunsynced hready
      rw [if_neg fun hboth => hready hboth.1, hsubmit]
      exact ⟨_, _, rfl, hchain⟩
  · rw [if_neg hfar]
    have hstore := applyBatch_store now remoteHeight hU hQ hmodest hlength
      ((catchUp P params now A Q K₀ remoteHeight).count a.fetchFrom) a.fetchFrom 0 a.fetchFrom h
      (by omega) (by omega)
    rw [hbatch] at hstore ⊢
    dsimp only
    cases hcase : (catchUp P params now A Q K₀ remoteHeight).store
        ((catchUp P params now A Q K₀ remoteHeight).count a.fetchFrom) a.fetchFrom a.known with
    | mk K' stored =>
      rw [hcase] at hstore
      cases stored with
      | false =>
        obtain ⟨e, s', hrun, hchain⟩ := hstore
        rw [hrun]
        exact ⟨_, _, rfl, hchain⟩
      | true =>
        obtain ⟨applied, s', hrun, h'⟩ := hstore
        rw [hrun]
        dsimp only
        rw [h'.height_eq now remoteHeight hA]
        have hsame : (catchUp P params now A Q K₀ remoteHeight).goal = remoteHeight := rfl
        rw [hsame]
        by_cases hgoal : remoteHeight ≤ (catchUp P params now A Q K₀ remoteHeight).height K'
        · rw [if_pos hgoal, if_pos hgoal]
          exact ⟨_, _, rfl, h'⟩
        · rw [if_neg hgoal, if_neg hgoal]
          exact ⟨_, rfl, h', rfl, rfl⟩

/-- **`sync_blocks` runs as the abstract loop does.** -/
theorem syncLoop_run (hA : A ≠ []) (fuel : Nat) {st : SyncLoop} {a : CatchUp.Loop}
    (h : At P params U A Q K₀ st.state a.known) (hfrom : st.fetchFrom = a.fetchFrom)
    (hback : st.backtrack = a.back) :
    match (catchUp P params now A Q K₀ remoteHeight).run fuel a with
    | none => syncLoop P params now remoteHeight (servedBy Q) fuel st = none
    | some (true, K') => ∃ synced s',
        syncLoop P params now remoteHeight (servedBy Q) fuel st = some (.ok synced, s') ∧
        At P params U A Q K₀ s' K'
    | some (false, K') => ∃ e s',
        syncLoop P params now remoteHeight (servedBy Q) fuel st = some (.error e, s') ∧
        ChainIs P params U A Q K₀ s' K' := by
  induction fuel generalizing st a with
  | zero => rfl
  | succ fuel ih =>
    -- One round of the one is one round of the other.
    have hround := syncRound_round now remoteHeight hU hQ hmodest hlength hA h hfrom hback
    unfold CatchUp.Setting.run syncLoop
    cases hcase : (catchUp P params now A Q K₀ remoteHeight).round a with
    | done ok K' =>
      rw [hcase] at hround
      cases ok with
      | true =>
        obtain ⟨synced, s', hrun, h'⟩ := hround
        rw [hrun]
        exact ⟨synced, s', rfl, h'⟩
      | false =>
        obtain ⟨e, s', hrun, hchain⟩ := hround
        rw [hrun]
        exact ⟨e, s', rfl, hchain⟩
    | again a' =>
      rw [hcase] at hround
      obtain ⟨st', hrun, h', hfrom', hback'⟩ := hround
      rw [hrun]
      exact ih h' hfrom' hback'

end simulation

end Node

end Tensorium
