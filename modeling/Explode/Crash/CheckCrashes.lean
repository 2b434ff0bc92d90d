import Explode.Crash.CrashDisks

/-!
# What a check generates

A check of the versioned cache runs through all combinations of versions. It
generates the crashes that the cache covers and nothing else, and then the
replay goes on.
-/

namespace Explode.Crash

open MixedRadix Machine Mcl BufferPermuter

def Countable (p : VersionedPermuter) : Prop := card (p.cache.map fun e => e.2.length) < 2 ^ 31

instance (p : VersionedPermuter) : Decidable (Countable p) := inferInstanceAs (Decidable (_ < _))

def Coverable (p : VersionedPermuter) (disks : SectorLoc → Option Chunk) : Prop :=
  ∃ choice : SectorLoc → Option Signature,
    (∀ loc sig, choice loc = some sig → ∃ v, p.cache.lookup loc = some v ∧ sig ∈ v) ∧
    ∀ loc, disks loc =
      match choice loc with
      | some sig => p.db.read sig
      | none => p.curDisks.readChunk loc

/-- Every cached version is a known chunk for a sector that the disks have. -/
structure Checkable (p : VersionedPermuter) : Prop where
  keys : (p.cache.map Prod.fst).Nodup
  nonempty : ∀ e ∈ p.cache, e.2 ≠ []
  onDisk : ∀ e ∈ p.cache, (p.curDisks.readChunk e.1).isSome
  known : ∀ e ∈ p.cache, ∀ sig ∈ e.2, (p.db.read sig).isSome

def subsetOf (choice : SectorLoc → Option Signature) (cache : Versions) : List Nat :=
  cache.map fun e =>
    match choice e.1 with
    | some sig => e.2.idxOf sig + 1
    | none => 0

theorem bounded_subsetOf {choice : SectorLoc → Option Signature} {cache : Versions}
    (hChoice : ∀ e ∈ cache, ∀ sig, choice e.1 = some sig → sig ∈ e.2) :
    Bounded (cache.map fun e => e.2.length) (subsetOf choice cache) := by
  induction cache with
  | nil => exact .nil
  | cons e cache ih =>
    obtain ⟨hFirst, hRest⟩ := List.forall_mem_cons.mp hChoice
    apply Bounded.cons _ (ih hRest)
    cases hSig : choice e.1 with
    | none =>
      simp only [hSig]
      exact Nat.zero_le _
    | some sig =>
      simp only [hSig]
      exact List.idxOf_lt_length_of_mem (hFirst sig hSig)

theorem wrSet_subsetOf {choice : SectorLoc → Option Signature} {cache : Versions}
    (hKeys : (cache.map Prod.fst).Nodup)
    (hChoice : ∀ e ∈ cache, ∀ sig, choice e.1 = some sig → sig ∈ e.2) :
    ∃ wset, wrSet cache (subsetOf choice cache) = some wset ∧
      ∀ loc, wset.lookup loc = if loc ∈ cache.map Prod.fst then choice loc else none := by
  induction cache with
  | nil => exact ⟨[], rfl, fun loc => rfl⟩
  | cons e cache ih =>
    obtain ⟨hFirst, hRest⟩ := List.forall_mem_cons.mp hChoice
    obtain ⟨hNew, hKeys'⟩ := List.nodup_cons.mp hKeys
    obtain ⟨wset, hSet, hLookup⟩ := ih hKeys' hRest
    cases hSig : choice e.1 with
    | none =>
      refine ⟨wset, ?_, ?_⟩
      · simp only [subsetOf, List.map_cons, hSig]
        exact hSet
      · intro loc
        rw [hLookup loc, List.map_cons]
        by_cases hLoc : loc = e.1
        · subst hLoc
          rw [if_neg hNew, if_pos List.mem_cons_self, hSig]
        · simp only [List.mem_cons, hLoc, false_or]
    | some sig =>
      have hGet : e.2[e.2.idxOf sig]? = some sig := List.getElem?_idxOf (hFirst sig hSig)
      refine ⟨(e.1, sig) :: wset, ?_, ?_⟩
      · simp only [subsetOf, List.map_cons, hSig]
        have hTail : wrSet cache (subsetOf choice cache) = some wset := hSet
        simp only [subsetOf] at hTail
        rw [wrSet, hGet, hTail]
        rfl
      · intro loc
        rw [List.lookup_cons, List.map_cons]
        by_cases hLoc : loc = e.1
        · subst hLoc
          rw [beq_self_eq_true, if_pos List.mem_cons_self, hSig]
        · rw [beq_false_of_ne hLoc, hLookup loc]
          simp only [List.mem_cons, hLoc, false_or]

/-- The crash of a tuple. -/
def versionedCrash (opt : PermuterOptions) (p : VersionedPermuter) :
    List Nat → Option BlockDevDataVec :=
  p.crashOf (wrSet (opt.iteration.visit p.cache))

theorem lookup_of_mem {α β : Type*} [BEq α] [LawfulBEq α] {cache : List (α × β)}
    (hKeys : (cache.map Prod.fst).Nodup) {e : α × β} (he : e ∈ cache) :
    cache.lookup e.1 = some e.2 := by
  induction cache with
  | nil => cases he
  | cons first cache ih =>
    obtain ⟨hNew, hKeys'⟩ := List.nodup_cons.mp hKeys
    rw [List.lookup_cons]
    rcases List.mem_cons.mp he with rfl | he
    · rw [beq_self_eq_true]
    · have hNe : e.1 ≠ first.1 := by
        intro hEq
        exact hNew (hEq ▸ List.mem_map_of_mem he)
      rw [beq_false_of_ne hNe]
      exact ih hKeys' he

section
variable {opt : PermuterOptions} {p q : VersionedPermuter}

theorem Checkable.congr (hCheckable : Checkable p) (hDisks : q.curDisks = p.curDisks)
    (hCache : q.cache = p.cache) (hDb : q.db = p.db) : Checkable q := by
  obtain ⟨keys, nonempty, onDisk, known⟩ := hCheckable
  rw [← hCache] at keys nonempty onDisk known
  rw [← hDisks] at onDisk
  rw [← hDb] at known
  exact ⟨keys, nonempty, onDisk, known⟩

theorem Checkable.exists_crashOf (hCheckable : Checkable p) {subset : List Nat}
    (hBounded : Bounded ((opt.iteration.visit p.cache).map fun e => e.2.length) subset) :
    ∃ disks, versionedCrash opt p subset = some disks := by
  obtain ⟨wset, hSet⟩ := exists_wrSet hBounded
  obtain ⟨disks, hDisks⟩ : ∃ disks, p.curDisks.writeSet p.db wset = some disks := by
    apply BlockDevDataVec.exists_writeSet
    intro w hw
    obtain ⟨e, he, hLoc, hSig⟩ := (wrSet_spec hSet).1 w hw
    have hMem := (opt.iteration.perm p.cache).mem_iff.mp he
    rw [← hLoc]
    exact ⟨hCheckable.known e hMem w.2 hSig, hCheckable.onDisk e hMem⟩
  refine ⟨disks, ?_⟩
  rw [versionedCrash, crashOf, hSet]
  exact hDisks

theorem crashOf_of_coverable {disks : SectorLoc → Option Chunk}
    (hKeys : (p.cache.map Prod.fst).Nodup) (hCover : Coverable p disks) :
    ∃ subset, Bounded ((opt.iteration.visit p.cache).map fun e => e.2.length) subset ∧
      ∀ crash, versionedCrash opt p subset = some crash →
        ∀ loc, crash.readChunk loc = disks loc := by
  obtain ⟨choice, hCached, hDisks⟩ := hCover
  have hPerm := opt.iteration.perm p.cache
  have hVisited : ((opt.iteration.visit p.cache).map Prod.fst).Nodup :=
    (hPerm.map Prod.fst).nodup_iff.mpr hKeys
  have hChoice : ∀ e ∈ opt.iteration.visit p.cache, ∀ sig, choice e.1 = some sig → sig ∈ e.2 := by
    intro e he sig hSig
    obtain ⟨v, hv, hMem⟩ := hCached e.1 sig hSig
    rw [lookup_of_mem hKeys (hPerm.mem_iff.mp he)] at hv
    cases hv
    exact hMem
  obtain ⟨wset, hSet, hLookup⟩ := wrSet_subsetOf hVisited hChoice
  refine ⟨subsetOf choice _, bounded_subsetOf hChoice, ?_⟩
  intro crash hCrash loc
  rw [versionedCrash, crashOf, hSet, Option.bind_some] at hCrash
  have hNodup := (wrSet_spec hSet).2.nodup hVisited
  rw [(BlockDevDataVec.writeSet_spec hNodup hCrash).2 loc, hDisks loc, hLookup loc]
  split
  · rename_i sig hSome
    split at hSome
    · rw [hSome]
    · cases hSome
  · rename_i hNone
    have hNothing : choice loc = none := by
      cases hSig : choice loc with
      | none => rfl
      | some sig =>
        obtain ⟨v, hv, _⟩ := hCached loc sig hSig
        have hKey : loc ∈ (opt.iteration.visit p.cache).map Prod.fst :=
          List.mem_map_of_mem (hPerm.mem_iff.mpr (mem_of_lookup hv))
        rw [if_pos hKey, hSig] at hNone
        cases hNone
    rw [hNothing]

theorem check_covers [ChunkHash] (hCheckable : Checkable p)
    (hFew : (p.cache.length : Int) ≤ opt.deterministicThreshold) (hCountable : Countable p)
    (hEnabled : opt.wants.crashEnabled p.cur = true) (r : Resume) :
    ∃ q e crashes, p.checkCrashes opt.versioned r = some q ∧
      Reaches (step opt.versioned) q
        { p with pc := .permuting e r, crashes := p.crashes ++ crashes } ∧
      step opt.versioned { p with pc := .permuting e r, crashes := p.crashes ++ crashes } =
        { p with pc := .permuting e r, crashes := p.crashes ++ crashes }.resume r ∧
      (∀ disks, Coverable p disks → ∃ crash ∈ crashes, ∀ loc, crash.readChunk loc = disks loc) ∧
      ∀ crash ∈ crashes, ∃ subset, versionedCrash opt p subset = some crash := by
  have hPerm := opt.iteration.perm p.cache
  have hLengths := hPerm.map fun e : SectorLoc × List Signature => e.2.length
  have hNonzero : 0 ∉ (opt.iteration.visit p.cache).map fun e => e.2.length := by
    intro hZero
    obtain ⟨e, he, hLength⟩ := List.mem_map.mp hZero
    exact hCheckable.nonempty e (hPerm.mem_iff.mp he) (List.length_eq_zero_iff.mp hLength)
  have hFew' : (((opt.iteration.visit p.cache).map fun e => e.2.length).length : Int) ≤
      opt.deterministicThreshold := by
    rw [hLengths.length_eq, List.length_map]
    exact hFew
  have hSmall : card ((opt.iteration.visit p.cache).map fun e => e.2.length) < 2 ^ 31 := by
    rw [card_eq_prod, (hLengths.map (· + 1)).prod_eq, ← card_eq_prod]
    exact hCountable
  obtain ⟨e, tuples, e', e'', hInit, hOut, hLast, hBounded, hValues⟩ :=
    Combination.handOut_ceilings opt.randomTries p.rand hFew' hNonzero hSmall
  have hWr : ∀ e, opt.versioned.wrSet p.cache e =
      wrSet (opt.iteration.visit p.cache) (Combination.subset e) := fun _ => rfl
  obtain ⟨q, crashes, hCheck, hReach, hResume, hEach⟩ := check_reaches hWr hEnabled
    hInit hOut hLast (fun t ht => hCheckable.exists_crashOf (hBounded t ht)) r
  refine ⟨q, e', crashes, hCheck, hReach, hResume, ?_, ?_⟩
  · intro disks hCover
    obtain ⟨subset, hTuple, hRead⟩ := crashOf_of_coverable hCheckable.keys hCover
    have hTuples := Combination.mem_of_values hBounded hValues hTuple
    obtain ⟨crash, hMem, hEq⟩ := List.mem_map.mp (hEach ▸ List.mem_map_of_mem hTuples)
    exact ⟨crash, hMem, hRead crash hEq.symm⟩
  · intro crash hMem
    obtain ⟨subset, -, hEq⟩ := List.mem_map.mp (hEach ▸ List.mem_map_of_mem hMem)
    exact ⟨subset, hEq⟩

end

end Explode.Crash
