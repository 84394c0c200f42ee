import Tensorium.Core.Hash
import Tensorium.Lib.BulkMap
import Tensorium.Lib.ReadModifyWrite
import Tensorium.Lib.Saturating
import Tensorium.Pool.Notify

/-! # The ban list of the node

    `record_violation` of the connection handlers and `/unban` of the RPC server load the
    ban list from its file, change it and write it back, each in its own thread and
    without a lock. Violations add up as long as no save falls between the load and the
    save of another call. JSON is taken to lose nothing.
-/

namespace Tensorium

open BulkMap Saturating ReadModifyWrite

/-- `BAN_THRESHOLD`. -/
def banThreshold : UInt32 := 100

/-- `BAN_DURATION_SECS`. -/
def banDurationSecs : Nat := 3600

/-- `BanEntry`. -/
structure BanEntry where
  score : UInt32
  bannedUntil : Option Nat
  deriving DecidableEq

/-- `BanEntry::default`. -/
def BanEntry.default : BanEntry := ⟨0, none⟩

/-- A ban that is over. -/
def BanEntry.expired (e : BanEntry) (now : Nat) : Bool :=
  e.bannedUntil.any fun until_ => until_ ≤ now

/-- `BanList`. -/
structure BanList where
  entries : Map String BanEntry

namespace BanList

def default : BanList := ⟨∅⟩

/-- `is_banned`. -/
def isBanned (b : BanList) (ip : String) (now : Nat) : Bool :=
  ((b.entries.lookup ip).bind BanEntry.bannedUntil).any fun until_ => until_ > now

/-- `record`, with whether a new ban is imposed. -/
def record (b : BanList) (ip : String) (score : UInt32) (now : Nat) : BanList × Bool :=
  let entry := (b.entries.lookup ip).getD .default
  let entry := { entry with score := satAdd32 entry.score score }
  let alreadyBanned := entry.bannedUntil.any fun until_ => until_ > now
  if !alreadyBanned && entry.score ≥ banThreshold then
    (⟨b.entries.insert ip { entry with bannedUntil := some (now + banDurationSecs) }⟩, true)
  else (⟨b.entries.insert ip entry⟩, false)

/-- `unban`. -/
def unban (b : BanList) (ip : String) : BanList := ⟨b.entries.erase ip⟩

/-- `prune_expired`. -/
def pruneExpired (b : BanList) (now : Nat) : BanList :=
  ⟨retain (fun _ e => !e.expired now) b.entries⟩

/-- The bytes of an entry in the text that `to_string_pretty` makes. -/
def entrySize (ip : String) (e : BanEntry) : Nat :=
  55 + (JsonValue.stringBytes ip).length + (asBytes (toString e.score.toNat)).length +
    (e.bannedUntil.elim 4 fun until_ => (asBytes (toString until_)).length)

/-- The bytes of the whole text. -/
def textSize (b : BanList) : Nat :=
  if b.entries = ∅ then 19
  else 21 + (b.entries.entries.map fun e => entrySize e.1 e.2).sum

end BanList

/-! ## Calls -/

/-- What is asked of the ban list; the clock is read after the list. -/
inductive BanRequest where
  /-- `record_violation`. -/
  | violation (ip : String) (score : UInt32) (now : Nat)
  /-- `GET /unban/<ip>`. -/
  | unban (ip : String)
  deriving DecidableEq

namespace BanRequest

/-- What the call saves, given what it has loaded. -/
def update : BanRequest → BanList → BanList
  | .violation ip score now, b => ((b.pruneExpired now).record ip score now).1
  | .unban ip, b => b.unban ip

end BanRequest

/-- `load_banlist` and `save_banlist` on the ban file. -/
def banFile : Shared BanRequest BanList where
  absent := .default
  size := BanList.textSize
  update := BanRequest.update

/-! ## What has been recorded -/

namespace BanRequest

/-- The score the call records for a peer. -/
def scoreFor (ip : String) : BanRequest → Nat
  | .violation ip' score _ => if ip' = ip then score.toNat else 0
  | .unban _ => 0

/-- When a violation was recorded. -/
def recordedAt : BanRequest → Option Nat
  | .violation _ _ now => some now
  | .unban _ => none

/-- The call, which has loaded `b`, neither unbans the peer nor prunes its entry. -/
def Spares (ip : String) (b : BanList) : BanRequest → Prop
  | .violation _ _ now => ∀ e ∈ b.entries.lookup ip, e.expired now = false
  | .unban ip' => ip' ≠ ip

end BanRequest

/-- All that has been recorded for a peer. -/
def recorded (ip : String) (saved : List (BanRequest × BanList)) : Nat :=
  (saved.map fun call => call.1.scoreFor ip).sum

/-- When the last violation was recorded. -/
def lastRecordedAt (saved : List (BanRequest × BanList)) : Option Nat :=
  (saved.filterMap fun call => call.1.recordedAt).getLast?

/-- The peer was neither unbanned nor pruned. -/
def Spared (ip : String) (saved : List (BanRequest × BanList)) : Prop :=
  ∀ call ∈ saved, call.1.Spares ip call.2

/-- The score in the list. -/
def BanList.scoreOf (b : BanList) (ip : String) : Nat :=
  ((b.entries.lookup ip).getD .default).score.toNat

/-- What the list holds of a peer is all that has been recorded for it, and with enough
    of it the peer is banned. -/
structure Kept (ip : String) (b : BanList) (saved : List (BanRequest × BanList)) : Prop where
  score : b.scoreOf ip = min (recorded ip saved) (2 ^ 32 - 1)
  banned : banThreshold.toNat ≤ recorded ip saved →
    ∀ now ∈ lastRecordedAt saved, b.isBanned ip now = true

/-- Whenever no save is under way, no score is lost. -/
def ScoresKept (w : World BanRequest BanList) : Prop :=
  w.Quiet → ∀ ip, Spared ip w.saved → Kept ip (banFile.read w.file) w.saved

/-! ## Calls one after the other -/

/-- A list that holds what was recorded, with every ban in force. -/
structure Tallied (ip : String) (b : BanList) (saved : List (BanRequest × BanList)) : Prop where
  score : b.scoreOf ip = min (recorded ip saved) (2 ^ 32 - 1)
  banned : banThreshold.toNat ≤ recorded ip saved →
    ∃ e ∈ b.entries.lookup ip, ∃ until_ ∈ e.bannedUntil, ∀ now ∈ lastRecordedAt saved, now < until_

theorem Tallied.kept {ip : String} {b : BanList} {saved : List (BanRequest × BanList)}
    (h : Tallied ip b saved) : Kept ip b saved := by
  refine ⟨h.score, ?_⟩
  intro hthreshold now hnow
  obtain ⟨e, he, until_, huntil, hlater⟩ := h.banned hthreshold
  unfold BanList.isBanned
  rw [Option.mem_def.mp he, Option.bind_some, Option.mem_def.mp huntil]
  exact decide_eq_true (hlater now hnow)

theorem lookup_pruneExpired {ip : String} {b : BanList} {now : Nat}
    (h : ∀ e ∈ b.entries.lookup ip, e.expired now = false) :
    (b.pruneExpired now).entries.lookup ip = b.entries.lookup ip := by
  unfold BanList.pruneExpired
  rw [lookup_retain]
  cases hlookup : b.entries.lookup ip with
  | none => rfl
  | some e => rw [Option.filter_some, h e hlookup]; rfl

/-- A violation of another peer leaves the entry alone. -/
theorem lookup_record_ne {ip ip' : String} (hne : ip' ≠ ip) (b : BanList) (score : UInt32)
    (now : Nat) : (b.record ip' score now).1.entries.lookup ip = b.entries.lookup ip := by
  unfold BanList.record
  dsimp only
  split_ifs <;> exact Finmap.lookup_insert_of_ne _ hne.symm

/-- A violation of the peer itself adds to its score, and once the threshold is reached
    there is a ban. -/
theorem lookup_record_self (b : BanList) (ip : String) (score : UInt32) (now : Nat) :
    ∃ e, (b.record ip score now).1.entries.lookup ip = some e ∧
      e.score = satAdd32 ((b.entries.lookup ip).getD .default).score score ∧
      (banThreshold ≤ e.score → ∃ until_ ∈ e.bannedUntil, now < until_) := by
  unfold BanList.record
  dsimp only
  split_ifs with hnew
  · refine ⟨_, Finmap.lookup_insert _, rfl, ?_⟩
    intro _
    exact ⟨now + banDurationSecs, rfl, Nat.lt_add_of_pos_right (by decide)⟩
  · refine ⟨_, Finmap.lookup_insert _, rfl, ?_⟩
    intro hthreshold
    -- The threshold is reached and no new ban imposed, so there is one already.
    dsimp only at hthreshold ⊢
    simp only [ge_iff_le, hthreshold, decide_true, Bool.and_true, Bool.not_eq_true',
      Bool.not_eq_false] at hnew
    cases huntil : ((b.entries.lookup ip).getD .default).bannedUntil with
    | none =>
      rw [huntil] at hnew
      cases hnew
    | some until_ =>
      rw [huntil] at hnew
      exact ⟨until_, rfl, of_decide_eq_true hnew⟩

theorem recorded_concat (ip : String) (saved : List (BanRequest × BanList))
    (call : BanRequest × BanList) :
    recorded ip (saved ++ [call]) = recorded ip saved + call.1.scoreFor ip := by
  unfold recorded
  rw [List.map_append, List.sum_append, List.map_singleton, List.sum_singleton]

theorem lastRecordedAt_violation (saved : List (BanRequest × BanList)) (ip : String)
    (score : UInt32) (now : Nat) (b : BanList) :
    lastRecordedAt (saved ++ [(.violation ip score now, b)]) = some now := by
  unfold lastRecordedAt
  rw [List.filterMap_append]
  exact List.getLast?_concat

theorem lastRecordedAt_unban (saved : List (BanRequest × BanList)) (ip : String) (b : BanList) :
    lastRecordedAt (saved ++ [(.unban ip, b)]) = lastRecordedAt saved := by
  unfold lastRecordedAt
  rw [List.filterMap_append]
  exact congrArg List.getLast? (List.append_nil _)

/-- A call of another peer changes nothing for this one. -/
theorem Tallied.other {ip : String} {b b' : BanList} {saved saved' : List (BanRequest × BanList)}
    (h : Tallied ip b saved) (hlookup : b'.entries.lookup ip = b.entries.lookup ip)
    (hrecorded : recorded ip saved' = recorded ip saved)
    (hlast : ∀ e ∈ b.entries.lookup ip, ∀ until_ ∈ e.bannedUntil,
      (∀ now ∈ lastRecordedAt saved, now < until_) → ∀ now ∈ lastRecordedAt saved', now < until_) :
    Tallied ip b' saved' := by
  constructor
  · rw [hrecorded, ← h.score]
    unfold BanList.scoreOf
    rw [hlookup]
  · intro hthreshold
    rw [hrecorded] at hthreshold
    obtain ⟨e, he, until_, huntil, hlater⟩ := h.banned hthreshold
    exact ⟨e, hlookup ▸ he, until_, huntil, hlast e he until_ huntil hlater⟩

/-- A recorded violation, behind a list that holds what was recorded. -/
theorem Tallied.violation {ip : String} {b : BanList} {saved : List (BanRequest × BanList)}
    (h : Tallied ip b saved) (ip' : String) (score : UInt32) (now : Nat)
    (hspares : (BanRequest.violation ip' score now).Spares ip b) :
    Tallied ip ((b.pruneExpired now).record ip' score now).1
      (saved ++ [(.violation ip' score now, b)]) := by
  have hprune := lookup_pruneExpired hspares
  -- Either the score grows, and with it the ban; or the ban in force outlasts this call.
  by_cases hip : ip' = ip
  · subst hip
    obtain ⟨e, he, hscore, hban⟩ := lookup_record_self (b.pruneExpired now) ip' score now
    have hrecorded : recorded ip' (saved ++ [(.violation ip' score now, b)])
        = recorded ip' saved + score.toNat := by
      rw [recorded_concat]
      exact congrArg _ (if_pos rfl)
    have htotal : e.score.toNat = min (recorded ip' saved + score.toNat) (2 ^ 32 - 1) := by
      have hbefore := h.score
      unfold BanList.scoreOf at hbefore
      rw [hscore, hprune, toNat_satAdd32, hbefore]
      omega
    constructor
    · unfold BanList.scoreOf
      rw [he, Option.getD_some, htotal, hrecorded]
    · intro hthreshold
      have hreached : banThreshold ≤ e.score := by
        rw [UInt32.le_iff_toNat_le, htotal]
        rw [hrecorded] at hthreshold
        exact le_min hthreshold (by decide)
      obtain ⟨until_, huntil, hlater⟩ := hban hreached
      refine ⟨e, he, until_, huntil, ?_⟩
      rw [lastRecordedAt_violation]
      intro now' hnow
      obtain rfl := Option.mem_some_iff.mp hnow
      exact hlater
  · refine h.other ((lookup_record_ne hip _ _ _).trans hprune) ?_ ?_
    · rw [recorded_concat]
      exact congrArg _ (if_neg hip)
    · intro e he until_ huntil _ now' hnow
      rw [lastRecordedAt_violation] at hnow
      obtain rfl := Option.mem_some_iff.mp hnow
      -- The ban is not over, or the call would have pruned it.
      have hexpired := hspares e he
      unfold BanEntry.expired at hexpired
      rw [Option.mem_def.mp huntil, Option.any_some, decide_eq_false_iff_not, not_le] at hexpired
      exact hexpired

/-- An unban of another peer. -/
theorem Tallied.unban {ip : String} {b : BanList} {saved : List (BanRequest × BanList)}
    (h : Tallied ip b saved) {ip' : String} (hne : ip' ≠ ip) :
    Tallied ip (b.unban ip') (saved ++ [(.unban ip', b)]) := by
  refine h.other (Finmap.lookup_erase_ne hne.symm) ?_ ?_
  · rw [recorded_concat]
    rfl
  · intro e he until_ huntil hlater
    rwa [lastRecordedAt_unban]

/-- Calls that act one after the other keep the scores. -/
theorem tallied_of_sequential {ip : String} {saved : List (BanRequest × BanList)}
    (h : banFile.Sequential saved) (hspared : Spared ip saved) :
    Tallied ip (banFile.applyAll saved) saved := by
  induction h with
  | nil =>
    refine ⟨rfl, ?_⟩
    intro hthreshold
    exact absurd (show banThreshold.toNat ≤ 0 from hthreshold) (by decide)
  | @concat saved request _ ih =>
    have hbefore := ih fun call hcall => hspared call (List.mem_append_left _ hcall)
    have hspares := hspared _ (List.mem_append_right _ (List.mem_singleton_self _))
    rw [Shared.applyAll_concat]
    cases request with
    | violation ip' score now => exact hbefore.violation ip' score now hspares
    | unban ip' => exact hbefore.unban hspares

/-- **No score is lost while no save falls between the load and the save of another
    call.** In every run of handlers and unban requests in which every save begins with
    the list in the file that its call has loaded, and with no other save under way, the
    list holds what was recorded, in every state reached, and bans whom it should. -/
theorem no_score_lost (events : List (Event BanRequest))
    (h : GuardedRun.Along banFile.step banFile.Undisturbed World.start events) :
    ∀ n, ScoresKept ((events.take n).foldl banFile.step World.start) := by
  intro n hquiet ip hspared
  -- Every state reached is the last one of a prefix, which is undisturbed too.
  have hprefix : GuardedRun.Along banFile.step banFile.Undisturbed World.start
      (events.take n) := by
    rw [← List.take_append_drop n events] at h
    exact (GuardedRun.along_append.mp h).1
  have hserial := Shared.Serial.run hprefix
  rw [hserial.stored hquiet]
  exact (tallied_of_sequential hserial.sequential hspared).kept

/-- Two violations of one peer, one after the other. -/
def twoViolations : List (Event BanRequest) :=
  Shared.oneCall 0 (.violation "10.0.0.1" 60 5) ++ Shared.oneCall 1 (.violation "10.0.0.1" 60 6)

/-- The second one is enough for a ban. -/
theorem no_score_lost_twoViolations :
    ScoresKept ((twoViolations.take 6).foldl banFile.step World.start) :=
  no_score_lost twoViolations (GuardedRun.along_append.mpr
    ⟨Shared.along_oneCall World.idle_start _ _,
      Shared.along_oneCall (Shared.idle_oneCall World.idle_start _ _) _ _⟩) 6

/-- Two handlers that load the list before either of them saves. -/
def raceRun : List (Event BanRequest) :=
  [.load 0 (.violation "10.0.0.1" 100 5), .load 1 (.violation "10.0.0.2" 2 5),
    .truncate 0, .write 0, .truncate 1, .write 1]

/-- The second save brings back a list without the ban that the first has imposed. -/
theorem ban_overwritten :
    let w := raceRun.foldl banFile.step World.start
    recorded "10.0.0.1" w.saved = 100 ∧ (banFile.read w.file).scoreOf "10.0.0.1" = 0 ∧
      (banFile.read w.file).isBanned "10.0.0.1" 5 = false ∧ ¬ ScoresKept w := by
  intro w
  have hidle : w.Idle := by
    intro caller
    rcases caller with _ | _ | caller <;> rfl
  have hspared : Spared "10.0.0.1" w.saved := by
    intro call hcall
    have hsaved : w.saved = [(.violation "10.0.0.1" 100 5, .default),
        (.violation "10.0.0.2" 2 5, .default)] := rfl
    rw [hsaved] at hcall
    rcases List.mem_cons.mp hcall with rfl | hcall
    · intro e he
      cases he
    · obtain rfl := List.mem_singleton.mp hcall
      intro e he
      cases he
  have hrecorded : recorded "10.0.0.1" w.saved = 100 := by decide
  have hscore : (banFile.read w.file).scoreOf "10.0.0.1" = 0 := by decide +kernel
  refine ⟨hrecorded, hscore, by decide +kernel, ?_⟩
  intro hkept
  have hsame := (hkept hidle.quiet _ hspared).score
  rw [hrecorded, hscore] at hsame
  exact absurd hsame (by decide)

end Tensorium
