import Explode.Crash.Coverage

/-!
# No crash is generated twice

A sector enters the cache only if it differs from what is on the disk, and the
disk changes at a location only when the cache has nothing there.
-/

namespace Explode.Crash

open MixedRadix Machine Mcl BufferPermuter

def Hashed [ChunkHash] (db : ChunkDB) : Prop :=
  ∀ sig b, db.read sig = some b → explodeHash b = sig

structure Fresh [ChunkHash] (disks : BlockDevDataVec) (e : SectorLoc × List Signature) : Prop where
  nonempty : e.2 ≠ []
  nodup : e.2.Nodup
  new : ∃ b, disks.readChunk e.1 = some b ∧ explodeHash b ∉ e.2

structure FreshCache [ChunkHash] (p : VersionedPermuter) : Prop where
  hashed : Hashed p.db
  entries : ∀ e ∈ p.cache, Fresh p.curDisks e

section
variable [ChunkHash] {opt : PermuterOptions} {p q : VersionedPermuter}
  {s : SectorRec}

theorem hashed_haveSector (hHashed : Hashed p.db) {r : Bool × ChunkDB}
    (hHave : p.curDisks.haveSector p.db s = some r) : Hashed r.2 := by
  obtain ⟨⟨sig, db⟩, hRead, rfl⟩ := Option.map_eq_some_iff.mp hHave
  obtain ⟨b, _, hWrite⟩ := Option.bind_eq_some_iff.mp hRead
  intro sig' c hc
  rcases ChunkDB.read_of_write hWrite hc with hOld | ⟨rfl, rfl⟩
  · exact hHashed sig' c hOld
  · rfl

theorem FreshCache.writeDisk (hFresh : FreshCache p)
    (hGone : ∀ e ∈ p.cache, e.1 ≠ s.loc) (hWrite : p.writeDisk s = some q) :
    FreshCache q := by
  unfold BufferPermuter.writeDisk at hWrite
  split at hWrite
  · obtain ⟨disks, hDisks, rfl⟩ := Option.map_eq_some_iff.mp hWrite
    obtain ⟨_, hRead⟩ := BlockDevDataVec.write_spec hDisks
    refine ⟨hFresh.hashed, fun e he => ?_⟩
    obtain ⟨hNonempty, hNodup, b, hb, hNew⟩ := hFresh.entries e he
    refine ⟨hNonempty, hNodup, b, ?_, hNew⟩
    rw [hRead e.1, if_neg (hGone e he)]
    exact hb
  · cases hWrite
    exact hFresh

theorem FreshCache.resume {r : Resume} (hFresh : FreshCache p)
    (hResume : p.resume r = some q) : FreshCache q := by
  cases r with
  | finish =>
    cases hResume
    exact ⟨hFresh.hashed, fun e he => absurd he List.not_mem_nil⟩
  | removeOrWrite s =>
    have hErased : FreshCache
        { p with cache := p.cache.filter fun e => e.1 ≠ s.loc, pc := .ready } :=
      ⟨hFresh.hashed, fun e he => hFresh.entries e (List.mem_of_mem_filter he)⟩
    exact hErased.writeDisk ne_of_mem_erase hResume

theorem FreshCache.checkCrashes {r : Resume} (hFresh : FreshCache p)
    (hCheck : p.checkCrashes opt.versioned r = some q) : FreshCache q := by
  unfold BufferPermuter.checkCrashes at hCheck
  split at hCheck
  · obtain ⟨e, _, rfl⟩ := Option.map_eq_some_iff.mp hCheck
    exact ⟨hFresh.hashed, hFresh.entries⟩
  · exact hFresh.resume hCheck

theorem Fresh.add {disks : BlockDevDataVec} {v : List Signature} {b : Chunk}
    (hFresh : Fresh disks (s.loc, v)) (hRead : disks.readChunk s.loc = some b)
    (hNew : explodeHash b ≠ s.sig) :
    Fresh disks (s.loc, v.erase s.sig ++ [s.sig]) := by
  obtain ⟨_, hNodup, b', hRead', hNot⟩ := hFresh
  obtain rfl : b' = b := Option.some.inj (hRead'.symm.trans hRead)
  refine ⟨by simp, ?_, b', hRead, ?_⟩
  · refine List.nodup_append.mpr ⟨hNodup.erase _, List.nodup_singleton _, ?_⟩
    rintro sig hOld sig' hLast rfl
    rw [List.mem_singleton.mp hLast] at hOld
    exact hNodup.not_mem_erase hOld
  · intro hMem
    rcases List.mem_append.mp hMem with hOld | hLast
    · exact hNot (List.mem_of_mem_erase hOld)
    · exact hNew (List.mem_singleton.mp hLast)

theorem FreshCache.addVersion {b : Chunk} {cache : Versions} (hFresh : FreshCache p)
    (hRead : p.curDisks.readChunk s.loc = some b) (hNew : explodeHash b ≠ s.sig)
    (hAdd : addVersion p.cache s = some cache) :
    FreshCache { p with cache := cache } := by
  refine ⟨hFresh.hashed, fun e he => ?_⟩
  rcases (addVersion_ok hAdd).entries e he with he | rfl | ⟨v, hv, rfl⟩
  · exact hFresh.entries e he
  · exact ⟨by simp, List.nodup_singleton _, b, hRead, fun h => hNew (List.mem_singleton.mp h)⟩
  · exact (hFresh.entries _ hv).add hRead hNew

theorem FreshCache.replay {r : LogRec} (hFresh : FreshCache p)
    (hReplay : p.replay opt.versioned r = some q) : FreshCache q := by
  have hRemove : ∀ s, p.removeOrWrite opt.versioned s = some q → FreshCache q := by
    intro s hRun
    unfold BufferPermuter.removeOrWrite at hRun
    split at hRun
    · rename_i hNone
      exact hFresh.writeDisk (not_mem_of_lookup_none hNone) hRun
    · exact hFresh.checkCrashes hRun
  unfold BufferPermuter.replay at hReplay
  split at hReplay
  · split at hReplay
    · obtain ⟨⟨same, db⟩, hHave, hRun⟩ := Option.bind_eq_some_iff.mp hReplay
      obtain ⟨b, hRead, _, _, hSame⟩ := haveSector_spec hHave
      have hNext : FreshCache { p with db := db } :=
        ⟨hashed_haveSector hFresh.hashed hHave, hFresh.entries⟩
      split at hRun
      · cases hRun
        exact hNext
      · rename_i hDiffers
        obtain ⟨cache, hAdd, rfl⟩ := Option.map_eq_some_iff.mp hRun
        exact hNext.addVersion hRead (fun hEq => hDiffers (hSame.mpr hEq)) hAdd
    · exact hRemove _ hReplay
    · exact hRemove _ hReplay
    · cases hReplay
      exact hFresh
  all_goals
    cases hReplay
    exact ⟨hFresh.hashed, hFresh.entries⟩

theorem FreshCache.permute {e : Combination} {r : Resume} (hFresh : FreshCache p)
    (hPermute : p.permute opt.versioned e r = some q) : FreshCache q := by
  unfold BufferPermuter.permute at hPermute
  split at hPermute
  · cases hPermute
  · rename_i rand _
    have hDrawn : FreshCache { p with rand := rand } := ⟨hFresh.hashed, hFresh.entries⟩
    exact hDrawn.resume hPermute
  · obtain ⟨wset, _, hWrite⟩ := Option.bind_eq_some_iff.mp hPermute
    obtain ⟨disks, _, rfl⟩ := Option.map_eq_some_iff.mp hWrite
    exact ⟨hFresh.hashed, hFresh.entries⟩

theorem FreshCache.step (hFresh : FreshCache p)
    (hStep : p.step opt.versioned = some q) : FreshCache q := by
  unfold BufferPermuter.step at hStep
  split at hStep
  · split at hStep
    · exact hFresh.checkCrashes hStep
    · rename_i rest _
      have hPopped : FreshCache { p with rest := rest } :=
        ⟨hFresh.hashed, hFresh.entries⟩
      exact hPopped.replay hStep
  · exact hFresh.permute hStep
  · cases hStep
    exact hFresh

theorem freshCache_of_reaches {db : ChunkDB} {rand : UnixRandom} {initDisks : BlockDevDataVec}
    {log : List LogRec} (hHashed : Hashed db)
    (hReach : Reaches (step opt.versioned) (start db rand initDisks log) p) :
    FreshCache p := by
  obtain ⟨n, hRun⟩ := hReach
  have hInit : FreshCache (start db rand initDisks log) :=
    ⟨hHashed, fun e he => absurd he List.not_mem_nil⟩
  have hStep : ∀ a b, FreshCache a → BufferPermuter.step opt.versioned a = some b →
      True → FreshCache b := fun _ _ ha hb _ => ha.step hb
  exact steps_invariant hStep hInit n (fun _ _ _ _ _ _ => trivial) hRun

end

theorem wrSet_cons {e : SectorLoc × List Signature} {cache : Versions} {k : Nat}
    {subset : List Nat} {wset : WrSet} (hNew : e.1 ∉ cache.map Prod.fst)
    (hSet : wrSet (e :: cache) (k :: subset) = some wset) :
    ∃ rest, wrSet cache subset = some rest ∧
      wset.lookup e.1 = (if k = 0 then none else e.2[k - 1]?) ∧
      ∀ loc ≠ e.1, wset.lookup loc = rest.lookup loc := by
  cases k with
  | zero =>
    have hRest : wrSet cache subset = some wset := hSet
    refine ⟨wset, hRest, ?_, fun _ _ => rfl⟩
    rw [if_pos rfl, List.lookup_eq_none_iff]
    intro w hw
    rw [bne_iff_ne]
    intro hEq
    exact hNew ((wrSet_spec hRest).2.subset (hEq ▸ List.mem_map_of_mem hw))
  | succ k =>
    rw [wrSet] at hSet
    split at hSet
    · cases hSet
    · rename_i sig hSig
      obtain ⟨rest, hRest, rfl⟩ := Option.map_eq_some_iff.mp hSet
      refine ⟨rest, hRest, ?_, ?_⟩
      · rw [List.lookup_cons_self, if_neg (Nat.succ_ne_zero k), Nat.add_sub_cancel, hSig]
      · intro loc hNe
        rw [List.lookup_cons, beq_false_of_ne hNe]

theorem exists_lookup_ne {cache : Versions} {subset subset' : List Nat} {wset wset' : WrSet}
    (hKeys : (cache.map Prod.fst).Nodup) (hNodup : ∀ e ∈ cache, e.2.Nodup)
    (hBounded : Bounded (cache.map fun e => e.2.length) subset)
    (hBounded' : Bounded (cache.map fun e => e.2.length) subset') (hNe : subset ≠ subset')
    (hSet : wrSet cache subset = some wset) (hSet' : wrSet cache subset' = some wset') :
    ∃ e ∈ cache, wset.lookup e.1 ≠ wset'.lookup e.1 := by
  induction cache generalizing subset subset' wset wset' with
  | nil =>
    cases hBounded
    cases hBounded'
    exact absurd rfl hNe
  | cons e cache ih =>
    obtain ⟨hNew, hKeys'⟩ := List.nodup_cons.mp hKeys
    obtain ⟨hFirst, hRest⟩ := List.forall_mem_cons.mp hNodup
    rw [List.map_cons] at hBounded hBounded'
    cases hBounded with
    | @cons _ k _ xs hk hxs =>
      cases hBounded' with
      | @cons _ k' _ xs' hk' hxs' =>
        obtain ⟨rest, hTail, hHere, hElse⟩ := wrSet_cons hNew hSet
        obtain ⟨rest', hTail', hHere', hElse'⟩ := wrSet_cons hNew hSet'
        by_cases hSame : k = k'
        · have hTails : xs ≠ xs' := by
            rintro rfl
            exact hNe (by rw [hSame])
          obtain ⟨e', he', hDiffers⟩ := ih hKeys' hRest hxs hxs' hTails hTail hTail'
          have hOther : e'.1 ≠ e.1 := by
            intro hEq
            exact hNew (hEq ▸ List.mem_map_of_mem he')
          refine ⟨e', List.mem_cons_of_mem _ he', ?_⟩
          rw [hElse _ hOther, hElse' _ hOther]
          exact hDiffers
        · refine ⟨e, List.mem_cons_self, ?_⟩
          rw [hHere, hHere']
          intro hEq
          -- the first of two equal picks lies within the versions unless both are nothing
          cases k with
          | zero =>
            rw [if_pos rfl, if_neg (Ne.symm hSame), List.getElem?_eq_getElem (by omega)] at hEq
            cases hEq
          | succ k =>
            rw [if_neg (Nat.succ_ne_zero k), Nat.add_sub_cancel] at hEq
            split at hEq
            · rw [List.getElem?_eq_getElem hk] at hEq
              cases hEq
            · have := (List.getElem?_inj hk hFirst).mp hEq
              omega

section
variable [ChunkHash] {opt : PermuterOptions} {p q : VersionedPermuter}

theorem crashOf_ne (hFresh : FreshCache p) (hKeys : (p.cache.map Prod.fst).Nodup)
    {subset subset' : List Nat} {crash crash' : BlockDevDataVec}
    (hBounded : Bounded ((opt.iteration.visit p.cache).map fun e => e.2.length) subset)
    (hBounded' : Bounded ((opt.iteration.visit p.cache).map fun e => e.2.length) subset')
    (hNe : subset ≠ subset') (hCrash : versionedCrash opt p subset = some crash)
    (hCrash' : versionedCrash opt p subset' = some crash') : crash ≠ crash' := by
  obtain ⟨wset, hSet, hWrite⟩ := Option.bind_eq_some_iff.mp hCrash
  obtain ⟨wset', hSet', hWrite'⟩ := Option.bind_eq_some_iff.mp hCrash'
  have hPerm := opt.iteration.perm p.cache
  have hVisited : ((opt.iteration.visit p.cache).map Prod.fst).Nodup :=
    (hPerm.map Prod.fst).nodup_iff.mpr hKeys
  have hEntry : ∀ e ∈ opt.iteration.visit p.cache, Fresh p.curDisks e :=
    fun e he => hFresh.entries e (hPerm.mem_iff.mp he)
  obtain ⟨e, he, hDiffers⟩ := exists_lookup_ne hVisited (fun e he => (hEntry e he).nodup) hBounded
    hBounded' hNe hSet hSet'
  obtain ⟨b, hb, hNew⟩ := (hEntry e he).new
  -- what a combination leaves at the sector has the picked signature, or the one of the disk
  have hReads : ∀ subset wset crash, wrSet (opt.iteration.visit p.cache) subset = some wset →
      p.curDisks.writeSet p.db wset = some crash → ∃ c, crash.readChunk e.1 = some c ∧
        ((wset.lookup e.1 = none ∧ c = b) ∨
          (wset.lookup e.1 = some (explodeHash c) ∧ explodeHash c ∈ e.2)) := by
    intro subset wset crash hSet hWrite
    obtain ⟨hMem, hSub⟩ := wrSet_spec hSet
    obtain ⟨hKnown, hRead⟩ := BlockDevDataVec.writeSet_spec (hSub.nodup hVisited) hWrite
    rw [hRead e.1]
    cases hLookup : wset.lookup e.1 with
    | none => exact ⟨b, hb, .inl ⟨rfl, rfl⟩⟩
    | some sig =>
      obtain ⟨c, hc⟩ := Option.isSome_iff_exists.mp (hKnown _ (mem_of_lookup hLookup))
      obtain ⟨e', he', hLoc, hSig⟩ := hMem _ (mem_of_lookup hLookup)
      have hSame : e' = e := List.inj_on_of_nodup_map hVisited he' he hLoc
      rw [hSame] at hSig
      have hHash : explodeHash c = sig := hFresh.hashed _ _ hc
      exact ⟨c, hc, .inr ⟨by rw [hHash], by rw [hHash]; exact hSig⟩⟩
  obtain ⟨c, hc, hPick⟩ := hReads subset wset crash hSet hWrite
  obtain ⟨c', hc', hPick'⟩ := hReads subset' wset' crash' hSet' hWrite'
  rintro rfl
  obtain rfl : c = c' := Option.some.inj (hc.symm.trans hc')
  rcases hPick with ⟨hNone, rfl⟩ | ⟨hSome, hIn⟩
  · rcases hPick' with ⟨hNone', _⟩ | ⟨_, hIn'⟩
    · exact hDiffers (hNone.trans hNone'.symm)
    · exact hNew hIn'
  · rcases hPick' with ⟨_, rfl⟩ | ⟨hSome', _⟩
    · exact hNew hIn
    · exact hDiffers (hSome.trans hSome'.symm)

theorem steps_handOut {r : Resume} {k : Nat} {e e' : Combination} {rand : UnixRandom}
    {tuples : List (List Nat)} (hPc : p.pc = .permuting e r)
    (hOut : handOut Combination.next Combination.subset k e p.rand = some (tuples, e', rand))
    (hRun : steps (step opt.versioned) k p = some q) :
    ∃ crashes, q = { p with pc := .permuting e' r, rand, crashes := p.crashes ++ crashes } ∧
      List.Forall₂ (fun t crash => versionedCrash opt p t = some crash) tuples crashes := by
  induction k generalizing p e tuples with
  | zero =>
    cases hRun
    cases hOut
    refine ⟨[], ?_, .nil⟩
    rw [List.append_nil, ← hPc]
  | succ k ih =>
    obtain ⟨e₁, rand₁, rest, hNext, hRest, rfl⟩ := handOut_succ hOut
    obtain ⟨mid, hStep, hSteps⟩ := Option.bind_eq_some_iff.mp hRun
    rw [step_permute hPc, permute, opt.versioned_next, hNext] at hStep
    obtain ⟨wset, hSet, hWrite⟩ := Option.bind_eq_some_iff.mp hStep
    obtain ⟨disks, hDisks, rfl⟩ := Option.map_eq_some_iff.mp hWrite
    obtain ⟨crashes, rfl, hAll⟩ := ih rfl hRest hSteps
    refine ⟨disks :: crashes, ?_, .cons (Option.bind_eq_some_iff.mpr ⟨wset, hSet, hDisks⟩) hAll⟩
    simp only [List.append_assoc, List.singleton_append]

end

theorem bounded_handOut {k : Nat} {e e' : Combination} {g g' : UnixRandom}
    {tuples : List (List Nat)} (hFits : e.Fits)
    (hOut : handOut Combination.next Combination.subset k e g = some (tuples, e', g')) :
    ∀ t ∈ tuples, Bounded e.ceils t := by
  induction k generalizing e g tuples with
  | zero =>
    cases hOut
    simp
  | succ k ih =>
    obtain ⟨e₁, g₁, rest, hNext, hRest, rfl⟩ := handOut_succ hOut
    obtain ⟨hBounded, hCeils⟩ := Combination.bounded_of_next hFits hNext
    rw [← hCeils]
    exact List.forall_mem_cons.mpr ⟨hBounded, ih (fun _ => hBounded) hRest⟩

/-- In every state of every replay the crashes that a check generates for different tuples are
different. -/
theorem crashes_distinct [ChunkHash] (opt : PermuterOptions) (db : ChunkDB)
    (rand : UnixRandom) (initDisks : BlockDevDataVec) (log : List LogRec)
    (hHashed : ∀ sig b, db.read sig = some b → explodeHash b = sig) (p : VersionedPermuter)
    (hReach : Reaches (step opt.versioned) (start db rand initDisks log) p) :
    (∀ e ∈ p.cache, e.2 ≠ [] ∧ e.2.Nodup ∧ ∃ b, p.curDisks.readChunk e.1 = some b ∧
      explodeHash b ∉ e.2 ∧ ∀ sig ∈ e.2, p.db.read sig ≠ some b) ∧
    (∃ c, Combination.ceilings opt.deterministicThreshold opt.randomTries
      ((opt.iteration.visit p.cache).map fun e => e.2.length) = some c) ∧
    ∀ e r k tuples e' rand' q, p.pc = .permuting e r →
      handOut Combination.next Combination.subset k e p.rand = some (tuples, e', rand') →
      steps (step opt.versioned) k p = some q →
      ∃ crashes, q.crashes = p.crashes ++ crashes ∧ crashes.length = tuples.length ∧
        (tuples.zip crashes).Pairwise fun a b => a.1 ≠ b.1 → a.2 ≠ b.2 := by
  have hFresh := freshCache_of_reaches hHashed hReach
  have hPerm := opt.iteration.perm p.cache
  refine ⟨fun e he => ?_, ?_, ?_⟩
  · obtain ⟨hNonempty, hNodup, b, hb, hNew⟩ := hFresh.entries e he
    refine ⟨hNonempty, hNodup, b, hb, hNew, fun sig hSig hRead => ?_⟩
    rw [hFresh.hashed sig b hRead] at hNew
    exact hNew hSig
  · have hNonzero : 0 ∉ (opt.iteration.visit p.cache).map fun e => e.2.length := by
      intro hZero
      obtain ⟨e, he, hLength⟩ := List.mem_map.mp hZero
      exact (hFresh.entries e (hPerm.mem_iff.mp he)).nonempty (List.length_eq_zero_iff.mp hLength)
    rw [Combination.ceilings, if_neg hNonzero]
    exact ⟨_, rfl⟩
  · intro e r k tuples e' rand' q hPc hOut hRun
    obtain ⟨n, hn⟩ := hReach
    obtain ⟨crashes, rfl, hAll⟩ := steps_handOut hPc hOut hRun
    refine ⟨crashes, rfl, hAll.length_eq.symm, ?_⟩
    cases (inv_of_run db rand hn).1.located with
    | ready hReady => cases hReady.symm.trans hPc
    | done hDone => cases hDone.symm.trans hPc
    | permuting hPc' _ hAgrees _ hFits hCeils _ =>
      cases hPc'.symm.trans hPc
      have hBounded := bounded_handOut hFits hOut
      rw [hCeils] at hBounded
      refine List.pairwise_of_forall_mem_list fun a ha b hb hNe => ?_
      have hCrash := List.forall₂_iff_zip.mp hAll
      exact crashOf_ne hFresh hAgrees.keys (hBounded _ (List.of_mem_zip ha).1)
        (hBounded _ (List.of_mem_zip hb).1) hNe (hCrash.2 ha) (hCrash.2 hb)

attribute [local instance] checksumHash

/-- The check before the write of a sector hands out two tuples. -/
theorem crashes_distinct_sample :
    ∃ p q, Reaches (step sampleOptions.versioned)
        (start sampleDb sampleRand sampleDisks sampleLog) p ∧
      p.cache.length = 1 ∧ steps (step sampleOptions.versioned) 2 p = some q ∧
      ∃ crashes, q.crashes = p.crashes ++ crashes ∧ crashes.length = 2 ∧
        ([[0], [1]].zip crashes).Pairwise fun a b => a.1 ≠ b.1 → a.2 ≠ b.2 := by
  have hEmpty : WellFormed sampleDb sampleDisks [] := wellFormed_sample (by simp)
  have hRun : ((steps (step sampleOptions.versioned) 3
      (start sampleDb sampleRand sampleDisks sampleLog)).bind fun p =>
        (steps (step sampleOptions.versioned) 2 p).map fun _ => (p.cache.length,
          match p.pc with
          | .permuting e _ => some e
          | _ => none)) = some (1, some ⟨3, 10, 2, 0, [1], []⟩) := by decide +kernel
  obtain ⟨p, hSteps, hMore⟩ := Option.bind_eq_some_iff.mp hRun
  obtain ⟨q, hTwo, hEq⟩ := Option.map_eq_some_iff.mp hMore
  obtain ⟨hLength, hPc⟩ := Prod.mk.inj hEq
  have hReach : Reaches (step sampleOptions.versioned)
      (start sampleDb sampleRand sampleDisks sampleLog) p := ⟨3, hSteps⟩
  have hOut : handOut Combination.next Combination.subset 2 ⟨3, 10, 2, 0, [1], []⟩ p.rand =
      some ([[0], [1]], ⟨3, 10, 2, 2, [1], [1]⟩, p.rand) := rfl
  refine ⟨p, q, hReach, hLength, hTwo, ?_⟩
  split at hPc
  · rename_i e r hHere
    cases hPc
    exact (crashes_distinct sampleOptions sampleDb sampleRand sampleDisks sampleLog
      hEmpty.hashed p hReach).2.2 _ r 2 _ _ _ q hHere hOut hTwo
  · cases hPc

end Explode.Crash
