import Explode.Crash.CheckCrashes
import Explode.Crash.RegularCache

/-!
# The two caches replay a log in lockstep

Both caches hold the same locations at all times, and the regular one holds
the last version of each. So at every record the crashes of the regular cache
are among those of the versioned one.
-/

namespace Explode.Crash

open MixedRadix Machine Mcl BufferPermuter

def lastVersion (e : SectorLoc × List Signature) : SectorLoc × Signature :=
  (e.1, e.2.getLast?.getD 0)

structure Mirrors (p : RegularPermuter) (q : VersionedPermuter) : Prop where
  disks : p.curDisks = q.curDisks
  cache : p.cache = q.cache.map lastVersion
  cur : p.cur = q.cur
  db : p.db = q.db
  rest : p.rest = q.rest

structure Matches (p : RegularPermuter) (q : VersionedPermuter) : Prop where
  locations : ∀ loc, (p.cache.lookup loc).isSome = (q.cache.lookup loc).isSome
  disks : p.curDisks = q.curDisks

def SameDisks (disks disks' : BlockDevDataVec) : Prop :=
  ∀ loc, disks.readChunk loc = disks'.readChunk loc

/-- What the first cache gives to the checker the second one does. The converse holds if no location
has more than one version and the first cache runs through all subsets. -/
structure ChecksFewer (opt : PermuterOptions) (cache : Versions)
    (crashes crashes' : List BlockDevDataVec) : Prop where
  subset : ∀ crash ∈ crashes, ∃ crash' ∈ crashes', SameDisks crash crash'
  single : opt.kernelWrites = .unordered → (∀ e ∈ cache, e.2.length ≤ 1) →
    ∀ crash' ∈ crashes', ∃ crash ∈ crashes, SameDisks crash crash'

section
variable [ChunkHash] (opt : PermuterOptions) (iteration : Iteration Signature)

structure Meet (p : RegularPermuter) (q : VersionedPermuter) (p' : RegularPermuter)
    (q' : VersionedPermuter) : Prop where
  regular : Reaches (step (opt.regular iteration)) p p'
  versioned : Reaches (step opt.versioned) q q'
  same : Matches p' q'
  crashes : ∃ crashes crashes', p'.crashes = p.crashes ++ crashes ∧
    q'.crashes = q.crashes ++ crashes' ∧ ChecksFewer opt q.cache crashes crashes'

/-- The two replays meet after every record and at the end. If an assertion about a record fails,
it fails in both. -/
inductive Lockstep : RegularPermuter → VersionedPermuter → Prop
  | record {p p' : RegularPermuter} {q q' : VersionedPermuter} {r : LogRec} {rest : List LogRec}
      (hp : p.pc = .ready ∧ p.rest = r :: rest) (hq : q.pc = .ready ∧ q.rest = r :: rest)
      (hMeet : Meet opt iteration p q p' q')
      (hp' : p'.pc = .ready ∧ p'.rest = rest) (hq' : q'.pc = .ready ∧ q'.rest = rest)
      (hNext : Lockstep p' q') : Lockstep p q
  | finish {p p' : RegularPermuter} {q q' : VersionedPermuter}
      (hp : p.pc = .ready ∧ p.rest = []) (hq : q.pc = .ready ∧ q.rest = [])
      (hMeet : Meet opt iteration p q p' q')
      (hp' : p'.pc = .done) (hq' : q'.pc = .done) : Lockstep p q
  | failed {p p' : RegularPermuter} {q q' : VersionedPermuter} {r : LogRec} {rest : List LogRec}
      (hp : p.pc = .ready ∧ p.rest = r :: rest) (hq : q.pc = .ready ∧ q.rest = r :: rest)
      (hMeet : Meet opt iteration p q p' q')
      (hp' : p'.step (opt.regular iteration) = none)
      (hq' : q'.step opt.versioned = none) : Lockstep p q

end

theorem lookup_eq_some_iff {α β : Type*} [BEq α] [LawfulBEq α] {l : List (α × β)}
    (hKeys : (l.map Prod.fst).Nodup) (a : α) (b : β) : l.lookup a = some b ↔ (a, b) ∈ l :=
  ⟨mem_of_lookup, fun hMem => lookup_of_mem hKeys hMem⟩

theorem lookup_map_lastVersion (cache : Versions) (loc : SectorLoc) :
    (cache.map lastVersion).lookup loc =
      (cache.lookup loc).map fun v => v.getLast?.getD 0 := by
  induction cache with
  | nil => rfl
  | cons e cache ih =>
    rw [List.map_cons, List.lookup_cons, List.lookup_cons, ih]
    cases hKey : loc == e.1 with
    | true => simp only [lastVersion, hKey, Option.map_some]
    | false => simp only [lastVersion, hKey]

theorem keys_map_lastVersion (cache : Versions) :
    (cache.map lastVersion).map Prod.fst = cache.map Prod.fst := by
  rw [List.map_map]
  rfl

def Enumerable (opt : PermuterOptions) (q : VersionedPermuter) : Prop :=
  (q.cache.length : Int) ≤ opt.deterministicThreshold ∧ q.cache.length < maxSet ∧ Countable q

section
variable {opt : PermuterOptions} {iteration : Iteration Signature}
  {p p' : RegularPermuter} {q q' : VersionedPermuter} {s : SectorRec}

theorem Checkable.addVersion {cache : Versions} (hCheckable : Checkable q)
    (hAdds : AddsVersion s q.cache cache) (hOn : (q.curDisks.readChunk s.loc).isSome)
    (hKnown : (q.db.read s.sig).isSome) : Checkable { q with cache := cache } where
  keys := hAdds.keys hCheckable.keys
  nonempty := hAdds.nonempty hCheckable.nonempty
  onDisk e he := by
    rcases hAdds.entries e he with he | rfl | ⟨v, _, rfl⟩
    · exact hCheckable.onDisk e he
    · exact hOn
    · exact hOn
  known e he sig hSig := by
    rcases hAdds.mem he hSig with ⟨e', he', _, hSig'⟩ | ⟨_, rfl⟩
    · exact hCheckable.known e' he' sig hSig'
    · exact hKnown

variable (hMirrors : Mirrors p q) (hCheckable : Checkable q)
include hMirrors

theorem Mirrors.matches : Matches p q := by
  refine ⟨?_, hMirrors.disks⟩
  intro loc
  rw [hMirrors.cache, lookup_map_lastVersion, Option.isSome_map]

theorem Mirrors.writeDisk (s : SectorRec) :
    p.writeDisk s = none ∧ q.writeDisk s = none ∨
      ∃ disks, p.writeDisk s = some { p with curDisks := disks } ∧
        q.writeDisk s = some { q with curDisks := disks } ∧
        ∀ loc, (q.curDisks.readChunk loc).isSome → (disks.readChunk loc).isSome := by
  rw [BufferPermuter.writeDisk, BufferPermuter.writeDisk, hMirrors.disks, hMirrors.db]
  split
  · cases hWrite : q.curDisks.write q.db s.loc s.sig with
    | none => exact .inl ⟨rfl, rfl⟩
    | some disks =>
      refine .inr ⟨disks, rfl, rfl, ?_⟩
      intro loc hOn
      obtain ⟨hKnown, hRead⟩ := BlockDevDataVec.write_spec hWrite
      rw [hRead loc]
      split
      · exact hKnown
      · exact hOn
  · refine .inr ⟨q.curDisks, ?_, rfl, fun loc hOn => hOn⟩
    rw [← hMirrors.disks, ← hMirrors.db]

include hCheckable

theorem Mirrors.keys (iteration : Iteration Signature) :
    ((iteration.visit p.cache).map Prod.fst).Nodup := by
  rw [((iteration.perm p.cache).map Prod.fst).nodup_iff, hMirrors.cache, keys_map_lastVersion]
  exact hCheckable.keys

theorem Mirrors.mem_versions {w : SectorLoc × Signature} (hMem : w ∈ iteration.visit p.cache) :
    ∃ e ∈ q.cache, e.1 = w.1 ∧ w.2 ∈ e.2 := by
  rw [(iteration.perm p.cache).mem_iff, hMirrors.cache] at hMem
  obtain ⟨e, he, rfl⟩ := List.mem_map.mp hMem
  refine ⟨e, he, rfl, ?_⟩
  rw [lastVersion, List.getLast?_eq_some_getLast (hCheckable.nonempty e he)]
  exact List.getLast_mem _

theorem Mirrors.exists_crashOf (subset : Finset Nat) :
    ∃ disks, regularCrash iteration p subset = some disks := by
  apply BlockDevDataVec.exists_writeSet
  intro w hw
  obtain ⟨e, he, hLoc, hSig⟩ := hMirrors.mem_versions hCheckable
    ((Cache.wrSet_sublist _ _).subset hw)
  rw [hMirrors.db, hMirrors.disks, ← hLoc]
  exact ⟨hCheckable.known e he w.2 hSig, hCheckable.onDisk e he⟩

theorem Mirrors.coverable {subset : Finset Nat} {crash : BlockDevDataVec}
    (hCrash : regularCrash iteration p subset = some crash) : Coverable q crash.readChunk := by
  have hSub := Cache.wrSet_sublist (iteration.visit p.cache) subset
  have hKeys := (hSub.map Prod.fst).nodup (hMirrors.keys hCheckable iteration)
  refine ⟨fun loc => (Cache.wrSet (iteration.visit p.cache) subset).lookup loc, ?_, ?_⟩
  · intro loc sig hSig
    obtain ⟨e, he, rfl, hVersion⟩ := hMirrors.mem_versions hCheckable
      (hSub.subset (mem_of_lookup hSig))
    exact ⟨e.2, lookup_of_mem hCheckable.keys he, hVersion⟩
  · intro loc
    have hRead := (BlockDevDataVec.writeSet_spec hKeys hCrash).2 loc
    rw [hMirrors.db, hMirrors.disks] at hRead
    exact hRead

theorem Mirrors.exists_subset (hSingle : ∀ e ∈ q.cache, e.2.length ≤ 1) {subset' : List Nat}
    {crash' : BlockDevDataVec} (hCrash' : versionedCrash opt q subset' = some crash') :
    ∃ subset ⊆ Finset.range p.cache.length, ∀ crash,
      regularCrash iteration p subset = some crash → SameDisks crash crash' := by
  obtain ⟨wset', hSet', hWrite'⟩ := Option.bind_eq_some_iff.mp hCrash'
  have hPerm := opt.iteration.perm q.cache
  have hKeys' : (wset'.map Prod.fst).Nodup :=
    (wrSet_spec hSet').2.nodup ((hPerm.map Prod.fst).nodup_iff.mpr hCheckable.keys)
  have hKeys := hMirrors.keys hCheckable iteration
  have hMem' : ∀ w ∈ wset', w ∈ iteration.visit p.cache := by
    intro w hw
    obtain ⟨e, he, hLoc, hSig⟩ := (wrSet_spec hSet').1 w hw
    have he' := hPerm.mem_iff.mp he
    rw [(iteration.perm p.cache).mem_iff, hMirrors.cache]
    refine List.mem_map.mpr ⟨e, he', Prod.ext hLoc ?_⟩
    have hOne : e.2 = [w.2] := by
      have hLength := hSingle e he'
      match hVersions : e.2, hLength, hSig with
      | [sig], _, hSig => rw [List.mem_singleton.mp hSig]
    rw [lastVersion, hOne]
    rfl
  -- the subset of the locations that the combination writes
  refine ⟨Cache.subsetWhere (iteration.visit p.cache) fun w => w.1 ∈ wset'.map Prod.fst, ?_, ?_⟩
  · rw [← (iteration.perm p.cache).length_eq]
    exact Finset.filter_subset _ _
  intro crash hCrash loc
  rw [regularCrash, crashOf, Cache.wrSet_subsetWhere, Option.bind_some] at hCrash
  have hNodup : (((iteration.visit p.cache).filter fun w =>
      w.1 ∈ wset'.map Prod.fst).map Prod.fst).Nodup :=
    (List.filter_sublist.map Prod.fst).nodup hKeys
  rw [(BlockDevDataVec.writeSet_spec hNodup hCrash).2 loc,
    (BlockDevDataVec.writeSet_spec hKeys' hWrite').2 loc, hMirrors.db, hMirrors.disks]
  have hLookup : ((iteration.visit p.cache).filter fun w => w.1 ∈ wset'.map Prod.fst).lookup loc =
      wset'.lookup loc := by
    apply Option.ext
    intro sig
    rw [lookup_eq_some_iff hNodup, lookup_eq_some_iff hKeys', List.mem_filter]
    constructor
    · rintro ⟨hVisited, hWritten⟩
      obtain ⟨w, hw, hLoc⟩ := List.mem_map.mp (of_decide_eq_true hWritten)
      have hSame : w = (loc, sig) := List.inj_on_of_nodup_map hKeys (hMem' w hw) hVisited hLoc
      exact hSame ▸ hw
    · intro hw
      exact ⟨hMem' _ hw, decide_eq_true (List.mem_map_of_mem hw)⟩
  rw [hLookup]

theorem Mirrors.check [ChunkHash] (iteration : Iteration Signature)
    (hWrites : opt.kernelWrites ≠ .interleaved) (hOk : Enumerable opt q)
    (hEnabled : opt.wants.crashEnabled q.cur = true) (r : Resume) :
    ∃ p₁ q₁ e e' crashes crashes', p.checkCrashes (opt.regular iteration) r = some p₁ ∧
      q.checkCrashes opt.versioned r = some q₁ ∧
      Reaches (step (opt.regular iteration)) p₁
        { p with pc := .permuting e r, crashes := p.crashes ++ crashes } ∧
      Reaches (step opt.versioned) q₁
        { q with pc := .permuting e' r, crashes := q.crashes ++ crashes' } ∧
      step (opt.regular iteration)
          { p with pc := .permuting e r, crashes := p.crashes ++ crashes } =
        { p with pc := .permuting e r, crashes := p.crashes ++ crashes }.resume r ∧
      step opt.versioned { q with pc := .permuting e' r, crashes := q.crashes ++ crashes' } =
        { q with pc := .permuting e' r, crashes := q.crashes ++ crashes' }.resume r ∧
      ChecksFewer opt q.cache crashes crashes' := by
  obtain ⟨hFew, hSmall, hCountable⟩ := hOk
  have hLength : p.cache.length = q.cache.length := by rw [hMirrors.cache, List.length_map]
  obtain ⟨p₁, e, crashes, hCheck, hReach, hResume, hAll, hOnly⟩ :=
    regular_check iteration hWrites (hLength ▸ hFew) (hLength ▸ hSmall)
      (hMirrors.cur ▸ hEnabled) (hMirrors.exists_crashOf hCheckable) r
  obtain ⟨q₁, e', crashes', hCheck', hReach', hResume', hAll', hOnly'⟩ :=
    check_covers hCheckable hFew hCountable hEnabled r
  refine ⟨p₁, q₁, e, e', crashes, crashes', hCheck, hCheck', hReach, hReach', hResume, hResume',
    ?_, ?_⟩
  · intro crash hMem
    obtain ⟨subset, hCrash⟩ := hOnly crash hMem
    obtain ⟨crash', hMem', hRead⟩ := hAll' _ (hMirrors.coverable hCheckable hCrash)
    exact ⟨crash', hMem', fun loc => (hRead loc).symm⟩
  · intro hUnordered hSingle crash' hMem'
    obtain ⟨subset', hCrash'⟩ := hOnly' crash' hMem'
    obtain ⟨subset, hSubset, hSame⟩ := hMirrors.exists_subset hCheckable hSingle hCrash'
    obtain ⟨crash, hMem, hCrash⟩ := hAll hUnordered subset hSubset
    exact ⟨crash, hMem, hSame crash hCrash⟩

theorem Mirrors.addVersion (hOn : (q.curDisks.readChunk s.loc).isSome)
    (hKnown : (q.db.read s.sig).isSome) :
    ∃ cache, addVersion q.cache s = some cache ∧ setSector p.cache s = cache.map lastVersion ∧
      Checkable { q with cache := cache } := by
  have hSet : ∃ cache, Crash.addVersion q.cache s = some cache ∧
      setSector p.cache s = cache.map lastVersion := by
    have hLookup := lookup_map_lastVersion q.cache s.loc
    rw [setSector, Crash.addVersion, hMirrors.cache, hLookup]
    cases hSome : q.cache.lookup s.loc with
    | none => exact ⟨_, rfl, rfl⟩
    | some v =>
      have hNonempty := hCheckable.nonempty _ (mem_of_lookup hSome)
      have hEntry : ∀ e ∈ q.cache, e.1 = s.loc → e.2 = v := by
        intro e he hLoc
        have hFound := lookup_of_mem hCheckable.keys he
        rw [hLoc, hSome] at hFound
        exact (Option.some.inj hFound).symm
      simp only [Option.map_some, if_neg hNonempty]
      split
      · rename_i hLast
        refine ⟨q.cache, rfl, ?_⟩
        rw [List.map_map]
        apply List.map_congr_left
        intro e he
        by_cases hLoc : e.1 = s.loc
        · simp [lastVersion, hLoc, hEntry e he hLoc, hLast]
        · simp [lastVersion, hLoc]
      · refine ⟨_, rfl, ?_⟩
        rw [List.map_map, List.map_map]
        apply List.map_congr_left
        intro e _
        by_cases hLoc : e.1 = s.loc
        · simp [lastVersion, hLoc]
        · simp [lastVersion, hLoc]
  obtain ⟨cache, hAdd, hEq⟩ := hSet
  exact ⟨cache, hAdd, hEq, hCheckable.addVersion (addVersion_ok hAdd) hOn hKnown⟩

end

def KnownAdds (db : ChunkDB) (log : List LogRec) : Prop :=
  ∀ s, .sector s ∈ log → s.type = .add → (db.read s.sig).isSome

structure Paired (p : RegularPermuter) (q : VersionedPermuter) : Prop where
  mirrors : Mirrors p q
  regular : p.pc = .ready
  versioned : q.pc = .ready
  checkable : Checkable q
  known : KnownAdds q.db q.rest

inductive Replayed [ChunkHash] (opt : PermuterOptions) (iteration : Iteration Signature)
    (p : RegularPermuter) (q : VersionedPermuter) (rest : List LogRec) : Prop
  | met {p' : RegularPermuter} {q' : VersionedPermuter}
      (hMeet : Meet opt iteration p q p' q') (hPaired : Paired p' q')
      (hRest : q'.rest = rest)
  | failed {p' : RegularPermuter} {q' : VersionedPermuter}
      (hMeet : Meet opt iteration p q p' q')
      (hp' : p'.step (opt.regular iteration) = none)
      (hq' : q'.step opt.versioned = none)

section
variable {opt : PermuterOptions} {iteration : Iteration Signature}
  {p p' : RegularPermuter} {q q' : VersionedPermuter} {s : SectorRec} {rest : List LogRec}

theorem ChecksFewer.nil (cache : Versions) : ChecksFewer opt cache [] [] :=
  ⟨fun _ hMem => absurd hMem List.not_mem_nil, fun _ _ _ hMem => absurd hMem List.not_mem_nil⟩

theorem Mirrors.resume (hMirrors : Mirrors p q) (hCheckable : Checkable q)
    (hKnown : KnownAdds q.db q.rest) (s : SectorRec) :
    p.resume (.removeOrWrite s) = none ∧ q.resume (.removeOrWrite s) = none ∨
      ∃ p' q', p.resume (.removeOrWrite s) = some p' ∧ q.resume (.removeOrWrite s) = some q' ∧
        Paired p' q' ∧ p'.crashes = p.crashes ∧ q'.crashes = q.crashes ∧ q'.rest = q.rest := by
  have hErased : Mirrors { p with cache := p.cache.filter fun e => e.1 ≠ s.loc, pc := .ready }
      { q with cache := q.cache.filter fun e => e.1 ≠ s.loc, pc := .ready } := by
    refine ⟨hMirrors.disks, ?_, hMirrors.cur, hMirrors.db, hMirrors.rest⟩
    simp only [hMirrors.cache, List.filter_map]
    rfl
  rcases hErased.writeDisk s with hNone | ⟨disks, hp, hq, hOn⟩
  · exact .inl hNone
  · refine .inr ⟨_, _, hp, hq, ⟨?_, rfl, rfl, ?_, hKnown⟩, rfl, rfl, rfl⟩
    · exact ⟨rfl, hErased.cache, hMirrors.cur, hMirrors.db, hMirrors.rest⟩
    · refine ⟨(List.filter_sublist.map Prod.fst).nodup hCheckable.keys, ?_, ?_, ?_⟩
      · intro e he
        exact hCheckable.nonempty e (List.mem_of_mem_filter he)
      · intro e he
        exact hOn e.1 (hCheckable.onDisk e (List.mem_of_mem_filter he))
      · intro e he
        exact hCheckable.known e (List.mem_of_mem_filter he)

theorem Checkable.extends (hCheckable : Checkable q) {db : ChunkDB} (hGrows : q.db.Extends db) :
    Checkable { q with db := db } := by
  refine ⟨hCheckable.keys, hCheckable.nonempty, hCheckable.onDisk, ?_⟩
  intro e he sig hSig
  exact hGrows.isSome_read (hCheckable.known e he sig hSig)

variable [ChunkHash]

theorem Meet.refl (hSame : Matches p q) : Meet opt iteration p q p q :=
  ⟨.refl _ _, .refl _ _, hSame, [], [], by simp, by simp, .nil _⟩

theorem Meet.of_step (hp : p.step (opt.regular iteration) = some p')
    (hq : q.step opt.versioned = some q') (hSame : Matches p' q')
    (hCrashes : p'.crashes = p.crashes) (hCrashes' : q'.crashes = q.crashes) :
    Meet opt iteration p q p' q' :=
  ⟨.head hp (.refl _ _), .head hq (.refl _ _), hSame, [], [], by simp [hCrashes],
    by simp [hCrashes'], .nil _⟩

section
variable (hPaired : Paired p q)
include hPaired

theorem Paired.cached (hWrites : opt.kernelWrites ≠ .interleaved)
    (hOk : Enumerable opt q) (hRest : KnownAdds q.db rest)
    (hp : p.step (opt.regular iteration) =
      { p with rest := rest }.checkCrashes (opt.regular iteration) (.removeOrWrite s))
    (hq : q.step opt.versioned =
      { q with rest := rest }.checkCrashes opt.versioned (.removeOrWrite s)) :
    Replayed opt iteration p q rest := by
  have hMirrors : Mirrors { p with rest := rest } { q with rest := rest } :=
    ⟨hPaired.mirrors.disks, hPaired.mirrors.cache, hPaired.mirrors.cur, hPaired.mirrors.db, rfl⟩
  have hCheckable : Checkable { q with rest := rest } := hPaired.checkable.congr rfl rfl rfl
  by_cases hEnabled : opt.wants.crashEnabled q.cur = true
  · obtain ⟨p₁, q₁, e, e', crashes, crashes', hCheck, hCheck', hReach, hReach', hResume, hResume',
      hFewer⟩ := hMirrors.check hCheckable iteration hWrites hOk hEnabled (.removeOrWrite s)
    have hLast : Mirrors
        { p with
          rest := rest, pc := .permuting e (.removeOrWrite s), crashes := p.crashes ++ crashes }
        { q with
          rest := rest, pc := .permuting e' (.removeOrWrite s)
          crashes := q.crashes ++ crashes' } :=
      ⟨hMirrors.disks, hMirrors.cache, hMirrors.cur, hMirrors.db, rfl⟩
    have hLoop := Reaches.head (hp.trans hCheck) hReach
    have hLoop' := Reaches.head (hq.trans hCheck') hReach'
    rcases hLast.resume (hCheckable.congr rfl rfl rfl) hRest s with ⟨hNone, hNone'⟩ |
      ⟨p', q', hp', hq', hNext, hCrashes, hCrashes', hEq⟩
    · exact .failed ⟨hLoop, hLoop', hLast.matches, crashes, crashes', rfl, rfl, hFewer⟩
        (hResume.trans hNone) (hResume'.trans hNone')
    · refine .met ⟨hLoop.trans (.head (hResume.trans hp') (.refl _ _)),
        hLoop'.trans (.head (hResume'.trans hq') (.refl _ _)), hNext.mirrors.matches,
        crashes, crashes', hCrashes, hCrashes', hFewer⟩ hNext hEq
  · have hOff : ¬opt.wants.crashEnabled p.cur = true := by rwa [hPaired.mirrors.cur]
    rw [checkCrashes, if_neg hOff] at hp
    rw [checkCrashes, if_neg hEnabled] at hq
    rcases hMirrors.resume hCheckable hRest s with ⟨hNone, hNone'⟩ |
      ⟨p', q', hp', hq', hNext, hCrashes, hCrashes', hEq⟩
    · exact .failed (.refl hPaired.mirrors.matches) (hp.trans hNone) (hq.trans hNone')
    · exact .met (.of_step (hp.trans hp') (hq.trans hq') hNext.mirrors.matches hCrashes hCrashes')
        hNext hEq

theorem Paired.skip {cur : Epoch} (hRest : KnownAdds q.db rest)
    (hp : p.step (opt.regular iteration) = some { p with rest := rest, cur := cur })
    (hq : q.step opt.versioned = some { q with rest := rest, cur := cur }) :
    Replayed opt iteration p q rest := by
  have hNext : Paired { p with rest := rest, cur := cur } { q with rest := rest, cur := cur } :=
    ⟨⟨hPaired.mirrors.disks, hPaired.mirrors.cache, rfl, hPaired.mirrors.db, rfl⟩,
      hPaired.regular, hPaired.versioned, hPaired.checkable.congr rfl rfl rfl, hRest⟩
  exact .met (.of_step hp hq hNext.mirrors.matches rfl rfl) hNext rfl

theorem Paired.uncached (hRest : KnownAdds q.db rest)
    (hp : p.step (opt.regular iteration) = { p with rest := rest }.writeDisk s)
    (hq : q.step opt.versioned = { q with rest := rest }.writeDisk s) :
    Replayed opt iteration p q rest := by
  have hMirrors : Mirrors { p with rest := rest } { q with rest := rest } :=
    ⟨hPaired.mirrors.disks, hPaired.mirrors.cache, hPaired.mirrors.cur, hPaired.mirrors.db, rfl⟩
  rcases hMirrors.writeDisk s with ⟨hNone, hNone'⟩ | ⟨disks, hp', hq', hOn⟩
  · exact .failed (.refl hPaired.mirrors.matches) (hp.trans hNone) (hq.trans hNone')
  · have hNext : Paired { p with rest := rest, curDisks := disks }
        { q with rest := rest, curDisks := disks } := by
      refine ⟨⟨rfl, hMirrors.cache, hMirrors.cur, hMirrors.db, rfl⟩, hPaired.regular,
        hPaired.versioned, ?_, hRest⟩
      exact ⟨hPaired.checkable.keys, hPaired.checkable.nonempty,
        fun e he => hOn e.1 (hPaired.checkable.onDisk e he), hPaired.checkable.known⟩
    exact .met (.of_step (hp.trans hp') (hq.trans hq') hNext.mirrors.matches rfl rfl) hNext rfl

theorem Paired.add (hKnown : (q.db.read s.sig).isSome) (hRest : KnownAdds q.db rest)
    (hp : p.step (opt.regular iteration) = { p with rest := rest }.add (opt.regular iteration) s)
    (hq : q.step opt.versioned = { q with rest := rest }.add opt.versioned s) :
    Replayed opt iteration p q rest := by
  have hSame : p.curDisks.haveSector p.db s =
      q.curDisks.haveSector q.db s := by
    rw [hPaired.mirrors.disks, hPaired.mirrors.db]
  simp only [BufferPermuter.add, hSame] at hp hq
  cases hHave : q.curDisks.haveSector q.db s with
  | none =>
    rw [hHave] at hp hq
    exact .failed (.refl hPaired.mirrors.matches) hp hq
  | some found =>
    obtain ⟨same, db⟩ := found
    obtain ⟨b, hb, hGrows, -, -⟩ := haveSector_spec hHave
    have hRest' : KnownAdds db rest := by
      intro s' hMem hAdd
      exact hGrows.isSome_read (hRest s' hMem hAdd)
    rw [hHave, Option.bind_some] at hp hq
    have hMirrors : Mirrors { p with rest := rest, db := db } { q with rest := rest, db := db } :=
      ⟨hPaired.mirrors.disks, hPaired.mirrors.cache, hPaired.mirrors.cur, rfl, rfl⟩
    have hCheckable : Checkable { q with rest := rest, db := db } :=
      (hPaired.checkable.extends hGrows).congr rfl rfl rfl
    cases same with
    | true =>
      have hNext : Paired { p with rest := rest, db := db } { q with rest := rest, db := db } :=
        ⟨hMirrors, hPaired.regular, hPaired.versioned, hCheckable, hRest'⟩
      simp only [if_true] at hp hq
      exact .met (.of_step hp hq hNext.mirrors.matches rfl rfl) hNext rfl
    | false =>
      have hOn : (q.curDisks.readChunk s.loc).isSome := by
        rw [hb]
        rfl
      have hSig := hGrows.isSome_read hKnown
      obtain ⟨cache, hAdd, hSet, hCheckable'⟩ := hMirrors.addVersion hCheckable hOn hSig
      have hNext : Paired { p with rest := rest, db := db, cache := cache.map lastVersion }
          { q with rest := rest, db := db, cache := cache } :=
        ⟨⟨hMirrors.disks, rfl, hMirrors.cur, rfl, rfl⟩, hPaired.regular, hPaired.versioned,
          hCheckable', hRest'⟩
      simp only [Bool.false_eq_true, if_false, hSet, hAdd, Option.map_some] at hp hq
      exact .met (.of_step hp hq hNext.mirrors.matches rfl rfl) hNext rfl

theorem Paired.removeOrWrite (hWrites : opt.kernelWrites ≠ .interleaved)
    (hOk : Enumerable opt q) (hRest : KnownAdds q.db rest)
    (hp : p.step (opt.regular iteration) =
      { p with rest := rest }.removeOrWrite (opt.regular iteration) s)
    (hq : q.step opt.versioned = { q with rest := rest }.removeOrWrite opt.versioned s) :
    Replayed opt iteration p q rest := by
  have hLookup := lookup_map_lastVersion q.cache s.loc
  rw [← hPaired.mirrors.cache] at hLookup
  rw [BufferPermuter.removeOrWrite] at hp hq
  cases hFound : q.cache.lookup s.loc with
  | none =>
    simp only [hFound, Option.map_none] at hLookup
    simp only [hLookup] at hp
    simp only [hFound] at hq
    exact hPaired.uncached hRest hp hq
  | some v =>
    simp only [hFound, Option.map_some] at hLookup
    simp only [hLookup] at hp
    simp only [hFound] at hq
    exact hPaired.cached hWrites hOk hRest hp hq

theorem Paired.replay {r : LogRec} (hRest : q.rest = r :: rest)
    (hWrites : opt.kernelWrites ≠ .interleaved) (hOk : Enumerable opt q) :
    Replayed opt iteration p q rest := by
  have hp : p.step (opt.regular iteration) =
      { p with rest := rest }.replay (opt.regular iteration) r :=
    step_record hPaired.regular (hPaired.mirrors.rest.trans hRest)
  have hq : q.step opt.versioned =
      { q with rest := rest }.replay opt.versioned r :=
    step_record hPaired.versioned hRest
  have hKnown : KnownAdds q.db (r :: rest) := hRest ▸ hPaired.known
  have hKnown' : KnownAdds q.db rest := fun s hMem => hKnown s (List.mem_cons_of_mem _ hMem)
  cases r with
  | lastCheck => exact hPaired.skip hKnown' (hp.trans rfl) (hq.trans rfl)
  | curCheck => exact hPaired.skip hKnown' (hp.trans rfl) (hq.trans rfl)
  | other =>
    rw [BufferPermuter.replay, Epoch.replay, hPaired.mirrors.cur] at hp
    exact hPaired.skip hKnown' hp (hq.trans rfl)
  | sector s =>
    rw [BufferPermuter.replay] at hp hq
    cases hType : s.type with
    | add =>
      rw [hType] at hp hq
      exact hPaired.add (hKnown s List.mem_cons_self hType) hKnown' hp hq
    | read =>
      rw [hType] at hp hq
      have hSame : { p with rest := rest } = { p with rest := rest, cur := q.cur } := by
        rw [← hPaired.mirrors.cur]
      rw [hSame] at hp
      exact hPaired.skip hKnown' hp hq
    | remove =>
      rw [hType] at hp hq
      exact hPaired.removeOrWrite hWrites hOk hKnown' hp hq
    | write =>
      rw [hType] at hp hq
      exact hPaired.removeOrWrite hWrites hOk hKnown' hp hq

theorem Paired.finish (hRest : q.rest = [])
    (hWrites : opt.kernelWrites ≠ .interleaved) (hOk : Enumerable opt q) :
    ∃ p' q', Meet opt iteration p q p' q' ∧ p'.pc = .done ∧ q'.pc = .done := by
  have hp : p.step (opt.regular iteration) =
      p.checkCrashes (opt.regular iteration) .finish :=
    step_finish hPaired.regular (hPaired.mirrors.rest.trans hRest)
  have hq : q.step opt.versioned = q.checkCrashes opt.versioned .finish :=
    step_finish hPaired.versioned hRest
  by_cases hEnabled : opt.wants.crashEnabled q.cur = true
  · obtain ⟨p₁, q₁, e, e', crashes, crashes', hCheck, hCheck', hReach, hReach', hResume, hResume',
      hFewer⟩ := hPaired.mirrors.check hPaired.checkable iteration hWrites hOk hEnabled .finish
    exact ⟨_, _, ⟨.head (hp.trans hCheck) (hReach.trans (.head hResume (.refl _ _))),
      .head (hq.trans hCheck') (hReach'.trans (.head hResume' (.refl _ _))),
      ⟨fun _ => rfl, hPaired.mirrors.disks⟩, crashes, crashes', rfl, rfl, hFewer⟩, rfl, rfl⟩
  · have hOff : ¬opt.wants.crashEnabled p.cur = true := by rwa [hPaired.mirrors.cur]
    rw [checkCrashes, if_neg hOff] at hp
    rw [checkCrashes, if_neg hEnabled] at hq
    exact ⟨_, _, .of_step hp hq ⟨fun _ => rfl, hPaired.mirrors.disks⟩ rfl rfl, rfl, rfl⟩

end

theorem Paired.lockstep (rest : List LogRec) (p : RegularPermuter) (q : VersionedPermuter)
    (hPaired : Paired p q) (hRest : q.rest = rest) (hWrites : opt.kernelWrites ≠ .interleaved)
    (hOk : ∀ q', Reaches (step opt.versioned) q q' → Enumerable opt q') :
    Lockstep opt iteration p q := by
  induction rest generalizing p q with
  | nil =>
    obtain ⟨p', q', hMeet, hDone, hDone'⟩ := hPaired.finish hRest hWrites (hOk q (.refl _ _))
    exact .finish ⟨hPaired.regular, hPaired.mirrors.rest.trans hRest⟩ ⟨hPaired.versioned, hRest⟩
      hMeet hDone hDone'
  | cons r rest ih =>
    have hp : p.pc = .ready ∧ p.rest = r :: rest :=
      ⟨hPaired.regular, hPaired.mirrors.rest.trans hRest⟩
    have hReplayed : Replayed opt iteration p q _ :=
      hPaired.replay hRest hWrites (hOk q (.refl _ _))
    cases hReplayed with
    | failed hMeet hNone hNone' => exact .failed hp ⟨hPaired.versioned, hRest⟩ hMeet hNone hNone'
    | @met p' q' hMeet hPaired' hRest' =>
      apply Lockstep.record hp ⟨hPaired.versioned, hRest⟩ hMeet
        ⟨hPaired'.regular, hPaired'.mirrors.rest.trans hRest'⟩ ⟨hPaired'.versioned, hRest'⟩
      apply ih p' q' hPaired' hRest'
      intro last hLast
      exact hOk last (hMeet.versioned.trans hLast)

end

/-- Replaying a log with both caches, as long as neither enumerates at random nor runs out of
numbers. -/
theorem lockstep_start [ChunkHash] (opt : PermuterOptions) (iteration : Iteration Signature)
    (db : ChunkDB) (rand : UnixRandom) (initDisks : BlockDevDataVec) (log : List LogRec)
    (hWrites : opt.kernelWrites ≠ .interleaved)
    (hKnown : ∀ s, .sector s ∈ log → s.type = .add → (db.read s.sig).isSome)
    (hOk : ∀ q, Reaches (step opt.versioned) (start db rand initDisks log) q →
      (q.cache.length : Int) ≤ opt.deterministicThreshold ∧ q.cache.length < maxSet ∧
        Countable q) :
    Lockstep opt iteration (start db rand initDisks log)
      (start db rand initDisks log) := by
  refine Paired.lockstep log _ _ ⟨⟨rfl, rfl, rfl, rfl, rfl⟩, rfl, rfl, ?_, hKnown⟩ rfl hWrites hOk
  refine ⟨.nil, ?_, ?_, ?_⟩
  · intro e he
    cases he
  · intro e he
    cases he
  · intro e he
    cases he

attribute [local instance] checksumHash

theorem lockstep_start_sample :
    (∀ s, .sector s ∈ sampleLog → s.type = .add → (sampleDb.read s.sig).isSome) ∧
      Lockstep sampleOptions ⟨id, fun _ => .refl _⟩
        (start sampleDb sampleRand sampleDisks sampleLog)
        (start sampleDb sampleRand sampleDisks sampleLog) := by
  have hKnown : ∀ s, .sector s ∈ sampleLog → s.type = .add → (sampleDb.read s.sig).isSome := by
    have hSig : (sampleDb.read (checksum (sampleChunk 1))).isSome := by decide +kernel
    intro s hMem _
    simp only [sampleLog, sampleRec, List.mem_cons, List.not_mem_nil, or_false, reduceCtorEq,
      false_or, LogRec.sector.injEq] at hMem
    rcases hMem with rfl | rfl
    · exact hSig
    · exact hSig
  refine ⟨hKnown, lockstep_start _ _ _ _ _ _ (by decide) hKnown ?_⟩
  intro q hReach
  have hEnd : ((steps (step sampleOptions.versioned) 9
      (start sampleDb sampleRand sampleDisks sampleLog)).map
        BufferPermuter.pc) = some .done := by decide +kernel
  have hAll : ∀ k ≤ 9, ∀ q ∈ steps (step sampleOptions.versioned) k
      (start sampleDb sampleRand sampleDisks sampleLog),
      (q.cache.length : Int) ≤ sampleOptions.deterministicThreshold ∧
        q.cache.length < maxSet ∧ Countable q := by decide +kernel
  obtain ⟨last, hLast, hPc⟩ := Option.map_eq_some_iff.mp hEnd
  have hFixed : step sampleOptions.versioned last = some last := by
    simp only [BufferPermuter.step, hPc]
  obtain ⟨k, hk, hRun⟩ := hReach.exists_le hLast hFixed
  exact hAll k hk q hRun

def Miscounts (q : VersionedPermuter) : Prop :=
  ∃ e r k, q.pc = .permuting e r ∧ e.Counted k ∧ k ≤ card e.ceils ∧
    e.total ≠ toInt (card e.ceils)

theorem miscounts_step [ChunkHash] {opt : PermuterOptions}
    {q q' : VersionedPermuter} (hMiscounts : Miscounts q)
    (hStep : q.step opt.versioned = some q') : Miscounts q' ∧ q'.cache = q.cache := by
  obtain ⟨e, r, k, hPc, hCounted, hLe, hTotal⟩ := hMiscounts
  rw [step_permute hPc, permute, opt.versioned_next] at hStep
  rcases Nat.lt_or_eq_of_le hLe with hLt | rfl
  · obtain ⟨e', hNext, hCeils, hSame, hCounted'⟩ := Combination.next_counted hCounted q.rand hLt
    rw [hNext] at hStep
    obtain ⟨wset, _, hWrite⟩ := Option.bind_eq_some_iff.mp hStep
    obtain ⟨disks, _, rfl⟩ := Option.map_eq_some_iff.mp hWrite
    refine ⟨⟨e', r, k + 1, rfl, hCounted', ?_, ?_⟩, rfl⟩
    · rw [hCeils]
      exact hLt
    · rw [hCeils, hSame]
      exact hTotal
  · obtain ⟨e', hNext⟩ := Combination.next_counted_end hCounted q.rand
    rw [if_neg (fun hEq => hTotal (hEq.symm.trans hCounted.iter))] at hNext
    rw [hNext] at hStep
    cases hStep

def wideDb : ChunkDB :=
  ⟨(List.range 11).map fun v => (checksum (sampleChunk v.toUInt8), sampleChunk v.toUInt8)⟩

def wideDisks : BlockDevDataVec := [⟨0, List.replicate 9 (sampleChunk 0)⟩]

def wideOptions : PermuterOptions := { sampleOptions with deterministicThreshold := 9 }

def wideRec (type : SectorRecType) (i v : Nat) : LogRec :=
  .sector ⟨type, (0, i), checksum (sampleChunk v.toUInt8)⟩

def wideLog : List LogRec :=
  .lastCheck ::
    ((List.range 9).flatMap fun i => (List.range 10).map fun v => wideRec .add i (v + 1)) ++
    [wideRec .remove 0 0]

/-- Nine sectors with ten versions have more combinations than an `int` can hold, and only the
regular cache gets past the check. -/
theorem versioned_overflows :
    (∀ q, Reaches (step wideOptions.versioned) (start wideDb sampleRand wideDisks wideLog) q →
      (q.cache.length : Int) ≤ wideOptions.deterministicThreshold ∧ q.cache.length < maxSet ∧
        ¬(q.pc = .ready ∧ q.rest = [])) ∧
    ∃ p, Reaches (step (wideOptions.regular ⟨id, fun _ => .refl _⟩))
      (start wideDb sampleRand wideDisks wideLog) p ∧ p.pc = .ready ∧ p.rest = [] := by
  constructor
  · intro q hReach
    have hBefore : ∀ k < 92, ∀ q ∈ steps (step wideOptions.versioned) k
        (start wideDb sampleRand wideDisks wideLog),
        (q.cache.length : Int) ≤ wideOptions.deterministicThreshold ∧ q.cache.length < maxSet ∧
          ¬(q.pc = .ready ∧ q.rest = []) := by decide +kernel
    have hCheck : ((steps (step wideOptions.versioned) 92
        (start wideDb sampleRand wideDisks wideLog)).map fun q => (q.pc, q.cache.length)) =
        some (.permuting ⟨9, 10, 1000000, 0, List.replicate 9 10, []⟩
          (.removeOrWrite ⟨.remove, (0, 0), checksum (sampleChunk 0)⟩), 9) := by decide +kernel
    obtain ⟨n, hn⟩ := hReach
    rcases Nat.lt_or_ge n 92 with hLt | hGe
    · exact hBefore n hLt q hn
    · obtain ⟨d, rfl⟩ := Nat.exists_eq_add_of_le hGe
      obtain ⟨q₀, hq₀, hEq⟩ := Option.map_eq_some_iff.mp hCheck
      obtain ⟨hPc, hLength⟩ := Prod.mk.inj hEq
      have hInit : Miscounts q₀ ∧ q₀.cache.length = 9 := by
        refine ⟨⟨_, _, 0, hPc, ⟨by decide, by decide, by decide, ?_, ?_⟩, Nat.zero_le _, ?_⟩,
          hLength⟩
        · intro hPos
          exact absurd hPos (Nat.lt_irrefl 0)
        · intro hPos
          exact absurd hPos (Nat.lt_irrefl 0)
        · decide +kernel
      have hStep : ∀ a b : VersionedPermuter, Miscounts a ∧ a.cache.length = 9 →
          step wideOptions.versioned a = some b → True →
            Miscounts b ∧ b.cache.length = 9 := by
        rintro a b ⟨hMiscounts, hNine⟩ hNext -
        obtain ⟨hMiscounts', hCache⟩ := miscounts_step hMiscounts hNext
        exact ⟨hMiscounts', hCache ▸ hNine⟩
      rw [steps_add, hq₀, Option.bind_some] at hn
      obtain ⟨⟨e, r, k, hPc', -⟩, hNine⟩ :=
        steps_invariant hStep hInit d (fun _ _ _ _ _ _ => trivial) hn
      rw [hNine, hPc']
      exact ⟨by decide, by decide, by simp⟩
  · have hBefore : ((steps (step (wideOptions.regular ⟨id, fun _ => .refl _⟩))
        91 (start wideDb sampleRand wideDisks wideLog)).map fun p =>
          (p.pc, p.rest, p.cur, p.cache.length, (p.cache.lookup (0, 0)).isSome,
            p.cache.all fun w => (p.db.read w.2).isSome && (p.curDisks.readChunk w.1).isSome)) =
        some (.ready, [wideRec .remove 0 0], .recentPast, 9, true, true) := by decide +kernel
    obtain ⟨p, hp, hEq⟩ := Option.map_eq_some_iff.mp hBefore
    simp only [Prod.mk.injEq] at hEq
    obtain ⟨hPc, hRest, hCur, hLength, hFound, hWritable⟩ := hEq
    obtain ⟨sig, hSig⟩ := Option.isSome_iff_exists.mp hFound
    have hCrash : ∀ subset, ∃ disks, regularCrash ⟨id, fun _ => .refl _⟩
        { p with rest := [] } subset = some disks := by
      intro subset
      apply BlockDevDataVec.exists_writeSet
      intro w hw
      have hMem : w ∈ p.cache := (Cache.wrSet_sublist p.cache subset).subset hw
      have hBoth := List.all_eq_true.mp hWritable w hMem
      exact Bool.and_eq_true_iff.mp hBoth
    have hSmall : ({ p with rest := [] } : RegularPermuter).cache.length < maxSet := by
      rw [hLength]
      decide
    have hFew : (({ p with rest := [] } : RegularPermuter).cache.length : Int) ≤
        wideOptions.deterministicThreshold := by
      rw [hLength]
      decide
    have hEnabled : wideOptions.wants.crashEnabled p.cur = true := by
      rw [hCur]
      rfl
    obtain ⟨p₁, e, crashes, hCheck, hLoop, hResume, -, -⟩ := regular_check _ (by decide)
      hFew hSmall hEnabled hCrash (.removeOrWrite ⟨.remove, (0, 0), checksum (sampleChunk 0)⟩)
    have hStep : p.step (wideOptions.regular ⟨id, fun _ => .refl _⟩) = some p₁ := by
      have hReplay : p.step (wideOptions.regular ⟨id, fun _ => .refl _⟩) =
          { p with rest := [] }.removeOrWrite (wideOptions.regular ⟨id, fun _ => .refl _⟩)
            ⟨.remove, (0, 0), checksum (sampleChunk 0)⟩ := step_record hPc hRest
      rw [hReplay, removeOrWrite]
      simp only [hSig]
      exact hCheck
    exact ⟨_, Reaches.trans ⟨91, hp⟩ (.head hStep (hLoop.trans (.head hResume (.refl _ _)))),
      rfl, rfl⟩

end Explode.Crash
