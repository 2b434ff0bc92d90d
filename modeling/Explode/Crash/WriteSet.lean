import Explode.Crash.LinuxLog

/-!
# The potential write set of the Linux log

A sector may reach the disk while it is dirty or in flight. The records that
the parser emits name these sectors, as far as unlocked sectors are concerned,
in every run that avoids two situations: a sector that is dirtied again before
its deferred removal or its completed write is handled, and a deferred removal
whose record starts elsewhere than the unlock record.
-/

namespace Explode.Crash

open Loop

structure Pending where
  dirty : Bool
  inFlight : Bool
  locked : Bool
  deriving DecidableEq

def Pending.step (s : Pending) : LinuxRecType → Pending
  | .bhDirty => { s with dirty := true }
  | .bhWrite | .bhWriteSync | .bioStartWrite => { s with inFlight := true }
  | .bhClean => { s with dirty := false }
  | .bioWriteDone => { s with inFlight := false }
  | .bhLock => { s with locked := true }
  | .bhUnlock => { s with locked := false }
  | .bioRead | .bioWrite | .bhWait | .bioWait => s

def LinuxBlockRec.Covers (r : LinuxBlockRec) (loc : SectorLoc) : Prop :=
  ∃ i < r.nsector, r.sectorLoc i = loc

instance (r : LinuxBlockRec) (loc : SectorLoc) : Decidable (r.Covers loc) :=
  decidable_of_iff (∃ i : Fin r.nsector, r.sectorLoc i = loc)
    ⟨fun ⟨i, hi⟩ => ⟨i, i.isLt, hi⟩, fun ⟨i, hLt, hi⟩ => ⟨⟨i, hLt⟩, hi⟩⟩

def pendingAfter (recs : List LinuxBlockRec) (loc : SectorLoc) : Pending :=
  recs.foldl (fun s r => if r.Covers loc then s.step r.type else s) ⟨false, false, false⟩

def writeSet (log : List SectorRec) : Finset SectorLoc :=
  log.foldl (fun set r =>
    match r.type with
    | .add => insert r.loc set
    | .remove | .write => set.erase r.loc
    | .read => set) ∅

def LocksFit (done : List LinuxBlockRec) (r : LinuxBlockRec) : Prop :=
  ∀ i < r.nsector,
    (r.type = .bhLock → (pendingAfter done (r.sectorLoc i)).locked = false) ∧
      (r.type = .bhUnlock → (pendingAfter done (r.sectorLoc i)).locked = true)

instance (done : List LinuxBlockRec) (r : LinuxBlockRec) : Decidable (LocksFit done r) :=
  inferInstanceAs (Decidable (∀ i < r.nsector, _))

/-- Every sector is locked and unlocked alternately. -/
def Alternating (recs : List LinuxBlockRec) : Prop :=
  ∀ k, (hk : k < recs.length) → LocksFit (recs.take k) recs[k]

instance (recs : List LinuxBlockRec) : Decidable (Alternating recs) :=
  inferInstanceAs (Decidable (∀ k, (hk : k < recs.length) → _))

def RemovalFits (done : List LinuxBlockRec) (p : LinuxBlockRecParser) (r : LinuxBlockRec)
    (i : Nat) :
    Prop :=
  (p.getState r i).delayedClear = true ∧ (p.getState r i).submitted = false →
    (pendingAfter done (r.sectorLoc i)).dirty = false ∧
      (p.getState r i).delayedClearRec.map LinuxBlockRec.loc = some r.loc

instance (done : List LinuxBlockRec) (p : LinuxBlockRecParser) (r : LinuxBlockRec) (i : Nat) :
    Decidable (RemovalFits done p r i) :=
  inferInstanceAs (Decidable (_ → _))

/-- A record does not lose a sector that is dirty again: neither by a deferred removal at an
unlock nor by a completed write. -/
def KeepsDirty (done : List LinuxBlockRec) (p : LinuxBlockRecParser) (r : LinuxBlockRec) : Prop :=
  ∀ i < r.nsector, (r.type = .bhUnlock → RemovalFits done p r i) ∧
    (r.type = .bioWriteDone → (pendingAfter done (r.sectorLoc i)).dirty = false)

instance (done : List LinuxBlockRec) (p : LinuxBlockRecParser) (r : LinuxBlockRec) :
    Decidable (KeepsDirty done p r) :=
  inferInstanceAs (Decidable (∀ i < r.nsector, _))

/-- The parser's state of a sector agrees with the reference. A removal that is put off keeps a
clean sector in the set while it is locked. -/
structure Tracks (s : SectorState) (ref : Pending) (inSet : Prop) : Prop where
  locked : s.locked = ref.locked
  submitted : s.submitted = ref.inFlight
  prevDirty : s.prevDirty = none
  delayed : s.delayedClear → s.locked
  delayedRec : s.delayedClear → s.delayedClearRec.isSome
  covered : ref.dirty ∨ ref.inFlight → inSet
  needed : inSet → ref.dirty ∨ ref.inFlight ∨ s.delayedClear

theorem pendingAfter_concat (recs : List LinuxBlockRec) (r : LinuxBlockRec) (loc : SectorLoc) :
    pendingAfter (recs ++ [r]) loc =
      if r.Covers loc then (pendingAfter recs loc).step r.type else pendingAfter recs loc := by
  rw [pendingAfter, List.foldl_append]
  rfl

theorem mem_writeSet_concat (log : List SectorRec) (r : SectorRec) (loc : SectorLoc) :
    loc ∈ writeSet (log ++ [r]) ↔
      match r.type with
      | .add => loc = r.loc ∨ loc ∈ writeSet log
      | .remove | .write => loc ≠ r.loc ∧ loc ∈ writeSet log
      | .read => loc ∈ writeSet log := by
  rw [writeSet, List.foldl_append]
  cases hType : r.type <;> simp [hType, writeSet]

theorem sectorLoc_injective (r : LinuxBlockRec) {i j : Nat}
    (hEq : r.sectorLoc i = r.sectorLoc j) : i = j := by
  have hSnd := congrArg Prod.snd hEq
  simp only [LinuxBlockRec.sectorLoc] at hSnd
  omega

namespace LinuxBlockRecParser

structure Handled (r : LinuxBlockRec) (i : Nat) (ref : Pending) (p p' : LinuxBlockRecParser) :
    Prop where
  others : ∀ loc, loc ≠ r.sectorLoc i →
    p'.states loc = p.states loc ∧ (loc ∈ writeSet p'.log ↔ loc ∈ writeSet p.log)
  own : Tracks (p'.states (r.sectorLoc i)) (ref.step r.type) (r.sectorLoc i ∈ writeSet p'.log)

section
variable {xfs : Bool} {r : LinuxBlockRec} {i : Nat}
  {ref : Pending} {p q : LinuxBlockRecParser} {s : SectorState}

theorem handled_silent (hStates : q.states = p.states) (hLog : q.log = p.log)
    (hTracks : Tracks s (ref.step r.type) (r.sectorLoc i ∈ writeSet p.log)) :
    Handled r i ref p (q.setState r i s) := by
  constructor
  · intro loc hLoc
    constructor
    · simp [setState, hStates, Function.update_of_ne hLoc]
    · rw [setState, hLog]
  · simpa [setState, hLog] using hTracks

theorem handled_logged (hStates : q.states = p.states) (hLog : q.log = p.log)
    {type : SectorRecType} {sig : Signature}
    (hTracks : Tracks s (ref.step r.type)
      (r.sectorLoc i ∈ writeSet (p.log ++ [⟨type, r.sectorLoc i, sig⟩]))) :
    Handled r i ref p ((q.setState r i s).pushBack r type i sig) := by
  constructor
  · intro loc hLoc
    constructor
    · simp [setState, pushBack, hStates, Function.update_of_ne hLoc]
    · rw [setState, pushBack, hLog, mem_writeSet_concat]
      cases type <;> simp [hLoc]
  · simpa [setState, pushBack, hLog] using hTracks

theorem returns_dbWrite [ChunkHash] (r : LinuxBlockRec) (i : Nat) (p : LinuxBlockRecParser) :
    Returns (fun a => a.2.states = p.states ∧ a.2.log = p.log) (· = .collision)
      (p.dbWrite r i) := by
  unfold dbWrite
  split
  · rfl
  · exact ⟨rfl, rfl⟩

variable (hTracks : Tracks (p.getState r i) ref (r.sectorLoc i ∈ writeSet p.log))
include hTracks

theorem handled_lock (hType : r.type = .bhLock) (hFree : ref.locked = false) :
    Returns (Handled r i ref p) (· = .collision) (lockSector r p i) := by
  have hLocked : (p.getState r i).locked = false := hTracks.locked.trans hFree
  rw [lockSector, hLocked]
  apply handled_silent rfl rfl
  rw [hType]
  exact ⟨rfl, hTracks.submitted, hTracks.prevDirty, fun _ => rfl, hTracks.delayedRec,
    hTracks.covered, hTracks.needed⟩

theorem handled_unlock (hType : r.type = .bhUnlock) (hHeld : ref.locked = true)
    (hDue : (p.getState r i).delayedClear = true ∧ (p.getState r i).submitted = false →
      ref.dirty = false ∧
        (p.getState r i).delayedClearRec.map LinuxBlockRec.loc = some r.loc) :
    Returns (Handled r i ref p) (· = .collision) (unlockSector xfs r p i) := by
  have hLocked : (p.getState r i).locked = true := hTracks.locked.trans hHeld
  simp only [unlockSector, hLocked, Bool.not_true, Bool.and_false, Bool.false_eq_true, if_false]
  cases hDelayed : (p.getState r i).delayedClear with
  | false =>
    simp only [Bool.false_eq_true, if_false]
    apply handled_silent rfl rfl
    rw [hType]
    refine ⟨rfl, hTracks.submitted, hTracks.prevDirty, by simp, by simp, hTracks.covered, ?_⟩
    intro hIn
    have hNeeded := hTracks.needed hIn
    rw [hDelayed] at hNeeded
    exact hNeeded
  | true =>
    simp only [if_true]
    cases hSubmitted : (p.getState r i).submitted with
    | true =>
      simp only [SectorState.clear, if_true]
      apply handled_silent rfl rfl
      rw [hType]
      have hFlight : ref.inFlight = true := hTracks.submitted.symm.trans hSubmitted
      refine ⟨rfl, hFlight.symm, rfl, by simp, by simp, hTracks.covered, ?_⟩
      intro _
      exact .inr (.inl hFlight)
    | false =>
      obtain ⟨delayed, hRec⟩ := Option.isSome_iff_exists.mp (hTracks.delayedRec hDelayed)
      obtain ⟨hClean, hStart⟩ := hDue ⟨hDelayed, hSubmitted⟩
      have hLoc : delayed.loc = r.loc := by
        rw [hRec] at hStart
        exact Option.some.inj hStart
      have hFlight : ref.inFlight = false := hTracks.submitted.symm.trans hSubmitted
      simp only [SectorState.clear, Bool.false_eq_true, if_false, hRec]
      have hSame : ∀ q : LinuxBlockRecParser,
          q.parseRemoveReal delayed i = q.pushBack r .remove i 0 := by
        intro q
        simp [parseRemoveReal, pushBack, LinuxBlockRec.sectorLoc, hLoc]
      rw [hSame]
      apply handled_logged rfl rfl
      rw [hType]
      refine ⟨rfl, hFlight.symm, rfl, by simp, by simp, ?_, ?_⟩
      · simp [Pending.step, hClean, hFlight]
      · simp [mem_writeSet_concat]

theorem handled_add [ChunkHash]
    (hDirty : r.type = .bhDirty ∨ r.type = .bhWrite ∨ r.type = .bhWriteSync ∨
      r.type = .bioStartWrite) :
    Returns (Handled r i ref p) (· = .collision) (addSector r p i) := by
  apply Returns.bind (returns_dbWrite r i p)
  rintro ⟨sig, q⟩ ⟨hStates, hLog⟩
  have hSame : q.getState r i = p.getState r i := by rw [getState, getState, hStates]
  have hIn : r.sectorLoc i ∈ writeSet (p.log ++ [⟨.add, r.sectorLoc i, sig⟩]) := by
    simp [mem_writeSet_concat]
  by_cases hType : r.type = .bhDirty
  · simp only [hType, if_true, hSame, hTracks.prevDirty, Option.map_none, reduceCtorEq, if_false]
    apply handled_logged hStates hLog
    rw [hType]
    exact ⟨hTracks.locked, hTracks.submitted, rfl, hTracks.delayed,
      hTracks.delayedRec, fun _ => hIn, fun _ => .inl rfl⟩
  · simp only [hType, if_false, hSame, hTracks.prevDirty, Option.map_none, reduceCtorEq]
    apply handled_logged hStates hLog
    have hStep : ref.step r.type = { ref with inFlight := true } := by
      rcases hDirty with hDirty | hDirty | hDirty | hDirty
      · exact absurd hDirty hType
      · rw [hDirty]; rfl
      · rw [hDirty]; rfl
      · rw [hDirty]; rfl
    rw [hStep]
    exact ⟨hTracks.locked, rfl, rfl, hTracks.delayed,
      hTracks.delayedRec, fun _ => hIn, fun _ => .inr (.inl rfl)⟩

theorem handled_remove (hType : r.type = .bhClean) :
    Returns (Handled r i ref p) (· = .collision) (removeSector r p i) := by
  simp only [removeSector]
  cases hSubmitted : (p.getState r i).submitted with
  | true =>
    have hFlight : ref.inFlight = true := hTracks.submitted.symm.trans hSubmitted
    rw [if_pos rfl]
    apply handled_silent rfl rfl
    rw [hType]
    refine ⟨hTracks.locked, hTracks.submitted, rfl, hTracks.delayed, hTracks.delayedRec, ?_, ?_⟩
    · intro _
      exact hTracks.covered (.inr hFlight)
    · intro _
      exact .inr (.inl hFlight)
  | false =>
    have hFlight : ref.inFlight = false := hTracks.submitted.symm.trans hSubmitted
    rw [if_neg Bool.false_ne_true]
    cases hLocked : (p.getState r i).locked with
    | true =>
      rw [if_pos rfl]
      apply handled_silent rfl rfl
      rw [hType]
      have hHeld : ref.locked = true := hTracks.locked.symm.trans hLocked
      refine ⟨hHeld.symm, hFlight.symm, hTracks.prevDirty, fun _ => rfl, fun _ => rfl, ?_,
        fun _ => .inr (.inr rfl)⟩
      simp [Pending.step, hFlight]
    | false =>
      rw [if_neg Bool.false_ne_true]
      apply handled_logged rfl rfl
      rw [hType]
      refine ⟨hTracks.locked, hTracks.submitted, rfl, hTracks.delayed, hTracks.delayedRec, ?_, ?_⟩
      · simp [Pending.step, hFlight]
      · simp [mem_writeSet_concat]

theorem handled_write [ChunkHash] (hType : r.type = .bioWriteDone) (hClean : ref.dirty = false) :
    Returns (Handled r i ref p) (· = .collision) (writeSector r p i) := by
  apply Returns.bind (returns_dbWrite r i p)
  rintro ⟨sig, q⟩ ⟨hStates, hLog⟩
  have hSame : q.getState r i = p.getState r i := by rw [getState, getState, hStates]
  simp only [hSame]
  apply handled_logged hStates hLog
  rw [hType]
  refine ⟨hTracks.locked, rfl, rfl, by simp [SectorState.write], by simp [SectorState.write],
    ?_, ?_⟩
  · simp [Pending.step, hClean]
  · simp [mem_writeSet_concat]

theorem handled_read [ChunkHash] (hType : r.type = .bioRead) :
    Returns (Handled r i ref p) (· = .collision) (readSector r p i) := by
  apply Returns.bind (returns_dbWrite r i p)
  rintro ⟨sig, q⟩ ⟨hStates, hLog⟩
  have hSet : ∀ loc, loc ∈ writeSet (q.pushBack r .read i sig).log ↔ loc ∈ writeSet p.log := by
    intro loc
    rw [pushBack, hLog, mem_writeSet_concat]
  constructor
  · intro loc _
    exact ⟨congrFun hStates loc, hSet loc⟩
  · rw [hType]
    simp only [hSet]
    have hSame : (q.pushBack r .read i sig).states (r.sectorLoc i) = p.getState r i :=
      congrFun hStates _
    rw [hSame]
    exact hTracks

end

def Agrees (recs : List LinuxBlockRec) (p : LinuxBlockRecParser) : Prop :=
  ∀ loc, Tracks (p.states loc) (pendingAfter recs loc) (loc ∈ writeSet p.log)

/-- After the first k sectors of the record. The induction over the sectors needs that the
others are as they were before the record. -/
def AgreesUpTo (recs : List LinuxBlockRec) (r : LinuxBlockRec) (p₀ : LinuxBlockRecParser)
    (k : Nat) (p : LinuxBlockRecParser) : Prop :=
  (∀ i < k, Tracks (p.states (r.sectorLoc i)) ((pendingAfter recs (r.sectorLoc i)).step r.type)
    (r.sectorLoc i ∈ writeSet p.log)) ∧
  ∀ loc, (∀ i < k, loc ≠ r.sectorLoc i) →
    p.states loc = p₀.states loc ∧ (loc ∈ writeSet p.log ↔ loc ∈ writeSet p₀.log)

section
variable {recs : List LinuxBlockRec} {r : LinuxBlockRec} {p₀ p p' : LinuxBlockRecParser} {k : Nat}

theorem AgreesUpTo.handled (hUpTo : AgreesUpTo recs r p₀ k p)
    (hHandled : Handled r k (pendingAfter recs (r.sectorLoc k)) p p') :
    AgreesUpTo recs r p₀ (k + 1) p' := by
  constructor
  · intro i hi
    rcases Nat.lt_succ_iff_lt_or_eq.mp hi with hLt | rfl
    · have hNe : r.sectorLoc i ≠ r.sectorLoc k := fun hEq =>
        (Nat.ne_of_lt hLt) (sectorLoc_injective r hEq)
      obtain ⟨hStates, hSet⟩ := hHandled.others _ hNe
      rw [hStates]
      simpa only [hSet] using hUpTo.1 i hLt
    · exact hHandled.own
  · intro loc hLoc
    obtain ⟨hStates, hSet⟩ := hHandled.others loc (hLoc k (Nat.lt_succ_self k))
    obtain ⟨hStates', hSet'⟩ := hUpTo.2 loc fun i hi => hLoc i (Nat.lt_succ_of_lt hi)
    exact ⟨hStates.trans hStates', hSet.trans hSet'⟩

theorem agrees_of_upTo (hAgrees : Agrees recs p₀) (hUpTo : AgreesUpTo recs r p₀ r.nsector p) :
    Agrees (recs ++ [r]) p := by
  intro loc
  rw [pendingAfter_concat]
  by_cases hCovers : r.Covers loc
  · obtain ⟨i, hi, rfl⟩ := hCovers
    rw [if_pos ⟨i, hi, rfl⟩]
    exact hUpTo.1 i hi
  · rw [if_neg hCovers]
    obtain ⟨hStates, hSet⟩ := hUpTo.2 loc fun i hi hEq => hCovers ⟨i, hi, hEq.symm⟩
    rw [hStates]
    simpa only [hSet] using hAgrees loc

theorem agrees_forSectors {body : LinuxBlockRecParser → Nat → Parsed} (hAgrees : Agrees recs p)
    (hBody : ∀ i < r.nsector, ∀ q : LinuxBlockRecParser,
      q.getState r i = p.getState r i →
      Tracks (q.getState r i) (pendingAfter recs (r.sectorLoc i)) (r.sectorLoc i ∈ writeSet q.log) →
      Returns (Handled r i (pendingAfter recs (r.sectorLoc i)) q) (· = .collision) (body q i)) :
    Returns (Agrees (recs ++ [r])) (· = .collision) (p.forSectors r body) := by
  have hLoop : Returns (AgreesUpTo recs r p r.nsector) (· = .collision) (p.forSectors r body) := by
    apply range_returns
    · intro i hi q hUpTo
      have hFresh : ∀ j < i, r.sectorLoc i ≠ r.sectorLoc j := fun j hj hEq =>
        (Nat.ne_of_gt hj) (sectorLoc_injective r hEq)
      obtain ⟨hStates, hSet⟩ := hUpTo.2 _ hFresh
      have hTracks : Tracks (q.getState r i) (pendingAfter recs (r.sectorLoc i))
          (r.sectorLoc i ∈ writeSet q.log) := by
        rw [getState, hStates]
        simpa only [hSet] using hAgrees (r.sectorLoc i)
      apply (hBody i hi q hStates hTracks).imp
      intro q' hHandled
      exact hUpTo.handled hHandled
    · constructor
      · intro i hi
        exact absurd hi (Nat.not_lt_zero i)
      · intro loc _
        exact ⟨rfl, Iff.rfl⟩
  exact hLoop.imp fun q hUpTo => agrees_of_upTo hAgrees hUpTo

theorem agrees_ignored (hAgrees : Agrees recs p)
    (hType : r.type = .bioWrite ∨ r.type = .bhWait ∨ r.type = .bioWait) :
    Agrees (recs ++ [r]) p := by
  intro loc
  rw [pendingAfter_concat]
  have hStep : ∀ s : Pending, s.step r.type = s := by
    intro s
    rcases hType with hType | hType | hType
    · rw [hType]; rfl
    · rw [hType]; rfl
    · rw [hType]; rfl
  rw [hStep, ite_self]
  exact hAgrees loc

theorem agrees_parse [ChunkHash] (xfs : Bool) (hAgrees : Agrees recs p)
    (hLocks : LocksFit recs r) (hKeeps : KeepsDirty recs p r) :
    Returns (Agrees (recs ++ [r])) (· = .collision) (p.parse xfs r) := by
  unfold parse
  split
  case _ hType | _ hType | _ hType | _ hType =>
    apply agrees_forSectors hAgrees
    intro i hi q _ hTracks
    exact handled_add hTracks (by simp [hType])
  case _ hType =>
    apply agrees_forSectors hAgrees
    intro i hi q _ hTracks
    exact handled_remove hTracks hType
  case _ hType =>
    apply agrees_forSectors hAgrees
    intro i hi q _ hTracks
    exact handled_write hTracks hType ((hKeeps i hi).2 hType)
  case _ hType =>
    apply agrees_forSectors hAgrees
    intro i hi q _ hTracks
    exact handled_lock hTracks hType ((hLocks i hi).1 hType)
  case _ hType =>
    apply agrees_forSectors hAgrees
    intro i hi q hSame hTracks
    apply handled_unlock hTracks hType ((hLocks i hi).2 hType)
    rw [hSame]
    exact (hKeeps i hi).1 hType
  case _ hType =>
    apply agrees_forSectors hAgrees
    intro i hi q _ hTracks
    exact handled_read hTracks hType
  all_goals
    rename_i hType
    exact agrees_ignored hAgrees (by simp [hType])

end

theorem agrees_start (db : ChunkDB) : Agrees [] (start db) := by
  intro loc
  refine ⟨rfl, rfl, rfl, by simp [start, SectorState.discard],
    by simp [start, SectorState.discard], by simp [pendingAfter], ?_⟩
  simp [start, writeSet]

end LinuxBlockRecParser

open LinuxBlockRecParser

/-- In every stream whose records keep dirty sectors, the unlocked sectors in the set of the emitted
records are those that are dirty or in flight. -/
theorem writeSet_iff_pending [ChunkHash] (xfs : Bool) (db : ChunkDB) (recs : List LinuxBlockRec)
    (hLocks : Alternating recs) (hKeeps : Meets (parse xfs) KeepsDirty [] (start db) recs)
    (done rest : List LinuxBlockRec) (hPrefix : recs = done ++ rest) :
    Returns (fun p => ∀ loc, (pendingAfter done loc).locked = false →
        (loc ∈ writeSet p.log ↔
          (pendingAfter done loc).dirty = true ∨ (pendingAfter done loc).inFlight = true))
      (· = .collision) (parseAll xfs db done) := by
  subst hPrefix
  have hMeets := (hKeeps.and _ hLocks).of_append done rest
  have hAgrees : Returns (Agrees done) (· = .collision) (parseAll xfs db done) :=
    foldlM_returns (I := Agrees) (fun _ _ _ hAgrees hOk => agrees_parse _ hAgrees hOk.1 hOk.2)
      done []
      (agrees_start db) hMeets
  apply hAgrees.imp
  intro p hp loc hFree
  constructor
  · intro hIn
    rcases (hp loc).needed hIn with hDirty | hFlight | hDelayed
    · exact .inl hDirty
    · exact .inr hFlight
    · have hLocked := (hp loc).delayed hDelayed
      rw [(hp loc).locked, hFree] at hLocked
      cases hLocked
  · exact (hp loc).covered

def firstSector (type : LinuxRecType) : LinuxBlockRec := ⟨type, (0, 0), 512, List.replicate 512 0⟩

def cleanedUnderLock : List LinuxBlockRec :=
  [.bhDirty, .bhLock, .bhClean, .bhUnlock].map firstSector

def redirtiedUnderLock : List LinuxBlockRec :=
  [.bhDirty, .bhLock, .bhClean, .bhDirty, .bhUnlock].map firstSector

attribute [local instance] checksumHash

theorem writeSet_iff_pending_cleaned :
    Alternating cleanedUnderLock ∧
      Meets (parse false) KeepsDirty [] (start ⟨[]⟩) cleanedUnderLock ∧
      Returns (fun p => ∀ loc, (pendingAfter cleanedUnderLock loc).locked = false →
        (loc ∈ writeSet p.log ↔ (pendingAfter cleanedUnderLock loc).dirty = true ∨
          (pendingAfter cleanedUnderLock loc).inFlight = true))
        (· = .collision) (parseAll false ⟨[]⟩ cleanedUnderLock) := by
  have hLocks : Alternating cleanedUnderLock := by decide +kernel
  have hKeeps : Meets (parse false) KeepsDirty [] (start ⟨[]⟩) cleanedUnderLock := by
    decide +kernel
  exact ⟨hLocks, hKeeps, writeSet_iff_pending false ⟨[]⟩ _ hLocks hKeeps _ []
    (List.append_nil _).symm⟩

/-- The deferred removal takes the sector out of the set although it is dirty again. -/
theorem redirtied_sector_lost :
    Alternating redirtiedUnderLock ∧
      (pendingAfter redirtiedUnderLock (0, 0)).locked = false ∧
      (pendingAfter redirtiedUnderLock (0, 0)).dirty = true ∧
      Returns (fun p => (0, 0) ∉ writeSet p.log) (fun _ => False)
        (parseAll false ⟨[]⟩ redirtiedUnderLock) := by
  refine ⟨by decide +kernel, by decide +kernel, by decide +kernel, ?_⟩
  have hRun : (match parseAll false ⟨[]⟩ redirtiedUnderLock with
      | .ok p => decide ((0, 0) ∉ writeSet p.log)
      | .error _ => false) = true := by decide +kernel
  revert hRun
  cases parseAll false ⟨[]⟩ redirtiedUnderLock with
  | ok p => exact of_decide_eq_true
  | error e => exact fun hFalse => absurd hFalse Bool.false_ne_true

end Explode.Crash
