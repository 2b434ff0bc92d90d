import Explode.Crash.CheckCrashes

/-!
# No possible crash is missed

Between two checks the cache only grows, so the next check covers every crash
that was possible since the last one.
-/

namespace Explode.Crash

open MixedRadix Machine Mcl BufferPermuter

def Stored (db : ChunkDB) (initDisks : BlockDevDataVec) (b : Chunk) : Prop :=
  (∃ sig, db.read sig = some b) ∨ ∃ loc, initDisks.readChunk loc = some b

/-- A log that fits the disks and the database: no assertion about a record can fail. -/
structure WellFormed [ChunkHash] (db : ChunkDB)
    (initDisks : BlockDevDataVec) (log : List LogRec) : Prop where
  hashed : ∀ sig b, db.read sig = some b → explodeHash b = sig
  collisionFree : ∀ b b', Stored db initDisks b → Stored db initDisks b' →
    explodeHash b = explodeHash b' → b = b'
  onDisk : ∀ s, .sector s ∈ log → s.type = .add ∨ s.type = .write →
    (initDisks.readChunk s.loc).isSome
  known : ∀ s, .sector s ∈ log → s.type = .add ∨ s.type = .write → (db.read s.sig).isSome

/-- A write to a sector that is not cached does not change the disk, and no mark ends the
checking. -/
def NextObserved (opt : PermuterOptions) (p : VersionedPermuter) : Option LogRec → Prop
  | some (.sector s) => s.type = .write ∧ p.cache.lookup s.loc = none →
      p.curDisks.readChunk s.loc = p.db.read s.sig
  | some .lastCheck => opt.wants = .all
  | some .curCheck | some .other | none => True

instance (opt : PermuterOptions) (p : VersionedPermuter) : (r : Option LogRec) →
    Decidable (NextObserved opt p r)
  | some (.sector _) => inferInstanceAs (Decidable (_ → _))
  | some .lastCheck => inferInstanceAs (Decidable (_ = _))
  | some .curCheck | some .other | none => isTrue trivial

/-- While crashes are checked, nothing happens unobserved. -/
def Observed (opt : PermuterOptions) (p : VersionedPermuter) : Prop :=
  opt.wants.crashEnabled p.cur = true → NextObserved opt p p.rest.head?

/-- Crashes are enumerated here and not sampled, and the next event is observed. -/
structure StepOk (opt : PermuterOptions) (p : VersionedPermuter) : Prop where
  few : (p.cache.length : Int) ≤ opt.deterministicThreshold
  countable : Countable p
  observed : p.pc = .ready → Observed opt p

instance (opt : PermuterOptions) (p : VersionedPermuter) : Decidable (StepOk opt p) :=
  have : Decidable (Observed opt p) := inferInstanceAs (Decidable (_ → _))
  decidable_of_iff ((p.cache.length : Int) ≤ opt.deterministicThreshold ∧ Countable p ∧
      (p.pc = .ready → Observed opt p))
    ⟨fun h => ⟨h.1, h.2.1, h.2.2⟩, fun h => ⟨h.few, h.countable, h.observed⟩⟩

structure Healthy [ChunkHash] (db : ChunkDB) (initDisks : BlockDevDataVec)
    (p : VersionedPermuter) : Prop where
  grows : db.Extends p.db
  hashed : ∀ sig b, p.db.read sig = some b → explodeHash b = sig
  chunks : ∀ sig b, p.db.read sig = some b → Stored db initDisks b
  disks : ∀ loc b, p.curDisks.readChunk loc = some b → Stored db initDisks b
  onDisk : ∀ loc, (initDisks.readChunk loc).isSome → (p.curDisks.readChunk loc).isSome

/-- Every version added since the sector's last write is on the disks or in the cache. -/
structure Complete (done : List LogRec) (p : VersionedPermuter) : Prop where
  versions : ∀ loc, ∀ sig ∈ versionsSince done loc,
    p.db.read sig = p.curDisks.readChunk loc ∨ ∃ v, p.cache.lookup loc = some v ∧ sig ∈ v
  nonempty : ∀ e ∈ p.cache, e.2 ≠ []

def Handed (p : VersionedPermuter) (disks : SectorLoc → Option Chunk) : Prop :=
  ∃ crash ∈ p.crashes, ∀ loc, crash.readChunk loc = disks loc

theorem mem_versionsSince {log : List LogRec} {loc : SectorLoc} {sig : Signature}
    (hMem : sig ∈ versionsSince log loc) :
    ∃ s, .sector s ∈ log ∧ s.type = .add ∧ s.loc = loc ∧ s.sig = sig := by
  induction log using List.reverseRecOn with
  | nil => cases hMem
  | append_singleton log r ih =>
    have hOld : sig ∈ versionsSince log loc →
        ∃ s, .sector s ∈ log ++ [r] ∧ s.type = .add ∧ s.loc = loc ∧ s.sig = sig := by
      intro hBefore
      obtain ⟨s, hs, hRest⟩ := ih hBefore
      exact ⟨s, List.mem_append_left _ hs, hRest⟩
    rw [versionsSince_concat] at hMem
    cases r with
    | lastCheck => exact hOld hMem
    | curCheck => exact hOld hMem
    | other => exact hOld hMem
    | sector s =>
      simp only at hMem
      split at hMem
      · rename_i hLoc
        split at hMem
        · rename_i hType
          rcases List.mem_append.mp hMem with hMem | hMem
          · exact hOld hMem
          · exact ⟨s, by simp, hType, hLoc, (List.mem_singleton.mp hMem).symm⟩
        · cases hMem
        · cases hMem
        · exact hOld hMem
      · exact hOld hMem

section
variable {opt : PermuterOptions} {db : ChunkDB}
  {initDisks : BlockDevDataVec} {log done : List LogRec} {p q : VersionedPermuter} {s : SectorRec}

structure Tracked [ChunkHash] (db : ChunkDB) (initDisks : BlockDevDataVec)
    (log done : List LogRec) (p : VersionedPermuter) : Prop where
  log : log = done ++ p.rest
  pc : p.pc = .ready
  agrees : Agrees initDisks done p
  healthy : Healthy db initDisks p
  complete : Complete done p

structure Advances (opt : PermuterOptions) (p q : VersionedPermuter) : Prop where
  handed : ∀ disks, Handed p disks → Handed q disks
  covered : opt.wants.crashEnabled p.cur = true → ∀ disks, Coverable p disks →
    Handed q disks ∨ opt.wants.crashEnabled q.cur = true ∧ Coverable q disks

theorem ChunkDB.read_of_write [ChunkHash] {db db' : ChunkDB} {b c : Chunk} {sig sig' : Signature}
    (hWrite : db.write b = some (sig, db')) (hRead : db'.read sig' = some c) :
    db.read sig' = some c ∨ sig' = explodeHash b ∧ c = b := by
  unfold ChunkDB.write at hWrite
  split at hWrite
  · split at hWrite
    · cases hWrite
      exact .inl hRead
    · cases hWrite
  · cases hWrite
    rw [ChunkDB.read, List.lookup_cons] at hRead
    split at hRead
    · rename_i hEq
      cases hRead
      exact .inr ⟨eq_of_beq hEq, rfl⟩
    · exact .inl hRead

theorem Healthy.congr [ChunkHash] (hHealthy : Healthy db initDisks p) (hDb : q.db = p.db)
    (hDisks : q.curDisks = p.curDisks) : Healthy db initDisks q := by
  obtain ⟨grows, hashed, chunks, disks, onDisk⟩ := hHealthy
  rw [← hDb] at grows hashed chunks
  rw [← hDisks] at disks onDisk
  exact ⟨grows, hashed, chunks, disks, onDisk⟩

theorem Complete.removed (hComplete : Complete done p) (hType : s.type = .remove ∨ s.type = .write)
    (hCache : ∀ e ∈ q.cache, e ∈ p.cache) (hDb : q.db = p.db)
    (hLookup : ∀ loc, loc ≠ s.loc → q.cache.lookup loc = p.cache.lookup loc)
    (hRead : ∀ loc, loc ≠ s.loc → q.curDisks.readChunk loc = p.curDisks.readChunk loc) :
    Complete (done ++ [.sector s]) q := by
  constructor
  · intro loc sig hMem
    rw [versionsSince_concat] at hMem
    simp only at hMem
    split at hMem
    · rcases hType with hType | hType
      · rw [hType] at hMem
        cases hMem
      · rw [hType] at hMem
        cases hMem
    · rename_i hLoc
      rw [hDb, hLookup loc (Ne.symm hLoc), hRead loc (Ne.symm hLoc)]
      exact hComplete.versions loc sig hMem
  · intro e he
    exact hComplete.nonempty e (hCache e he)

theorem lookup_filter {υ : Type} {cache : CacheMap υ} {loc other : SectorLoc} (hNe : loc ≠ other) :
    (cache.filter fun e => e.1 ≠ other).lookup loc = cache.lookup loc := by
  induction cache with
  | nil => rfl
  | cons e cache ih =>
    rw [List.filter_cons, List.lookup_cons]
    split
    · rw [List.lookup_cons, ih]
    · rename_i hDrop
      have hKey : e.1 = other := by simpa using hDrop
      rw [ih, hKey, beq_false_of_ne hNe]

theorem lookup_map_key {υ : Type} {cache : CacheMap υ} (loc : SectorLoc) (w : υ)
    (other : SectorLoc) :
    (cache.map fun e => if e.1 = loc then (e.1, w) else e).lookup other =
      if other = loc then (cache.lookup other).map fun _ => w else cache.lookup other := by
  induction cache with
  | nil => simp
  | cons e cache ih =>
    rw [List.map_cons, List.lookup_cons, List.lookup_cons, ih]
    by_cases hKey : e.1 = loc
    · subst hKey
      by_cases hOther : other = e.1
      · simp [hOther]
      · simp [hOther, beq_false_of_ne hOther]
    · rw [if_neg hKey]
      by_cases hOther : other = e.1
      · subst hOther
        simp [hKey]
      · simp [beq_false_of_ne hOther]

structure Grown (s : SectorRec) (p q : VersionedPermuter) : Prop where
  db : p.db.Extends q.db
  disks : q.curDisks = p.curDisks
  versions : ∀ loc v, p.cache.lookup loc = some v →
    ∃ v', q.cache.lookup loc = some v' ∧ ∀ sig ∈ v, sig ∈ v'
  added : q.db.read s.sig = q.curDisks.readChunk s.loc ∨
    ∃ v, q.cache.lookup s.loc = some v ∧ s.sig ∈ v
  nonempty : ∀ e ∈ q.cache, e.2 ≠ []

theorem exists_addVersion (hNonempty : ∀ e ∈ p.cache, e.2 ≠ []) :
    ∃ cache, addVersion p.cache s = some cache ∧ Grown s p { p with cache := cache } := by
  unfold addVersion
  split
  · rename_i hNone
    refine ⟨_, rfl, .refl _, rfl, ?_, .inr ⟨[s.sig], ?_, List.mem_singleton.mpr rfl⟩, ?_⟩
    · intro loc v hv
      refine ⟨v, ?_, fun sig hSig => hSig⟩
      have hNe : loc ≠ s.loc := by
        rintro rfl
        cases hNone.symm.trans hv
      rw [List.lookup_cons, beq_false_of_ne hNe]
      exact hv
    · rw [List.lookup_cons_self]
    · intro e he
      rcases List.mem_cons.mp he with rfl | he
      · simp
      · exact hNonempty e he
  · rename_i v hSome
    rw [if_neg (hNonempty _ (mem_of_lookup hSome))]
    split
    · rename_i hLast
      refine ⟨p.cache, rfl, .refl _, rfl, ?_, .inr ⟨v, hSome, List.mem_of_getLast? hLast⟩,
        hNonempty⟩
      intro loc v hv
      exact ⟨v, hv, fun sig hSig => hSig⟩
    · refine ⟨_, rfl, .refl _, rfl, ?_, .inr ⟨v.erase s.sig ++ [s.sig], ?_, by simp⟩, ?_⟩
      · intro loc v' hv'
        rw [lookup_map_key]
        split
        · rename_i hLoc
          subst hLoc
          cases hSome.symm.trans hv'
          refine ⟨v.erase s.sig ++ [s.sig], by rw [hSome]; rfl, ?_⟩
          intro sig hSig
          by_cases hEq : sig = s.sig
          · simp [hEq]
          · exact List.mem_append_left _ ((List.mem_erase_of_ne hEq).mpr hSig)
        · exact ⟨v', hv', fun sig hSig => hSig⟩
      · rw [lookup_map_key, if_pos rfl, hSome]
        rfl
      · intro e he
        obtain ⟨e', he', rfl⟩ := List.mem_map.mp he
        split
        · simp
        · exact hNonempty e' he'

theorem agrees_of_replay [ChunkHash] {r : LogRec} (hPc : p.pc = .ready)
    (hLog : log = done ++ r :: p.rest) (hAgrees : Agrees initDisks done p)
    (hStep : p.replay opt.versioned r = some q) (hReady : q.pc = .ready) (hRest : q.rest = p.rest) :
    Agrees initDisks (done ++ [r]) q := by
  obtain ⟨hLocated, _, _⟩ := replay_located hAgrees hPc hLog hStep
  cases hLocated with
  | @ready done' _ hLog' hAgrees' =>
    have hSame : done' = done ++ [r] := by
      rw [hLog, hRest, List.append_cons] at hLog'
      exact (List.append_cancel_right hLog').symm
    rw [← hSame]
    exact hAgrees'
  | permuting hPerm => cases hPerm.symm.trans hReady
  | done hDone => cases hDone.symm.trans hReady

theorem Advances.of_coverable (hCrashes : q.crashes = p.crashes)
    (hEnabled : opt.wants.crashEnabled p.cur = true → opt.wants.crashEnabled q.cur = true)
    (hCover : opt.wants.crashEnabled p.cur = true → ∀ disks, Coverable p disks →
      Coverable q disks) :
    Advances opt p q := by
  constructor
  · rintro disks ⟨crash, hMem, hRead⟩
    exact ⟨crash, by rwa [hCrashes], hRead⟩
  · intro hOn disks hDisks
    exact .inr ⟨hEnabled hOn, hCover hOn disks hDisks⟩

theorem Complete.mark {r : LogRec} (hComplete : Complete done p) (hMark : ∀ s, r ≠ .sector s)
    (cur : Epoch) : Complete (done ++ [r]) { p with cur := cur } := by
  refine ⟨?_, hComplete.nonempty⟩
  intro loc sig hMem
  rw [versionsSince_concat] at hMem
  cases r with
  | sector s => exact absurd rfl (hMark s)
  | lastCheck => exact hComplete.versions loc sig hMem
  | curCheck => exact hComplete.versions loc sig hMem
  | other => exact hComplete.versions loc sig hMem

theorem crashEnabled_mark {r : LogRec} {cur : Epoch} (hLast : r = .lastCheck → opt.wants = .all)
    (hEnabled : opt.wants.crashEnabled cur = true) :
    opt.wants.crashEnabled (cur.replay r) = true := by
  cases r with
  | sector s => exact hEnabled
  | other => exact hEnabled
  | curCheck => cases opt.wants <;> rfl
  | lastCheck =>
    rw [hLast rfl]
    rfl

variable [ChunkHash]

section
variable (hWell : WellFormed db initDisks log)
include hWell

theorem known_of_version (hLog : ∃ rest, log = done ++ rest) {loc : SectorLoc} {sig : Signature}
    (hMem : sig ∈ versionsSince done loc) :
    (db.read sig).isSome ∧ (initDisks.readChunk loc).isSome := by
  obtain ⟨rest, rfl⟩ := hLog
  obtain ⟨s, hs, hType, rfl, rfl⟩ := mem_versionsSince hMem
  have hIn : LogRec.sector s ∈ done ++ rest := List.mem_append_left _ hs
  exact ⟨hWell.known s hIn (.inl hType), hWell.onDisk s hIn (.inl hType)⟩

section
variable (hHealthy : Healthy db initDisks p)
include hHealthy

theorem checkable_of_agrees (hLog : ∃ rest, log = done ++ rest) (hAgrees : Agrees initDisks done p)
    (hComplete : Complete done p) : Checkable p := by
  refine ⟨hAgrees.keys, hComplete.nonempty, ?_, ?_⟩
  · intro e he
    obtain ⟨sig, hSig⟩ := List.exists_mem_of_ne_nil _ (hComplete.nonempty e he)
    exact hHealthy.onDisk _ (known_of_version hWell hLog (hAgrees.versions e he sig hSig)).2
  · intro e he sig hSig
    have hKnown := (known_of_version hWell hLog (hAgrees.versions e he sig hSig)).1
    exact hHealthy.grows.isSome_read hKnown

theorem exists_haveSector (hOn : (initDisks.readChunk s.loc).isSome) :
    ∃ r, p.curDisks.haveSector p.db s = some r ∧
      Healthy db initDisks { p with db := r.2 } := by
  obtain ⟨b, hb⟩ := Option.isSome_iff_exists.mp (hHealthy.onDisk s.loc hOn)
  have hStored := hHealthy.disks s.loc b hb
  obtain ⟨r, hWrite⟩ : ∃ r, p.db.write b = some r := by
    unfold ChunkDB.write
    split
    · rename_i unit hUnit
      have hSame : unit = b :=
        hWell.collisionFree unit b (hHealthy.chunks _ _ hUnit) hStored (hHealthy.hashed _ _ hUnit)
      rw [if_pos hSame]
      exact ⟨_, rfl⟩
    · exact ⟨_, rfl⟩
  obtain ⟨sig, db'⟩ := r
  have hRead : p.curDisks.read p.db s.loc = some (sig, db') := by
    rw [BlockDevDataVec.read, hb]
    exact hWrite
  refine ⟨(sig == s.sig, db'), ?_, ?_⟩
  · rw [BlockDevDataVec.haveSector, hRead]
    rfl
  · refine ⟨hHealthy.grows.trans (ChunkDB.write_spec hWrite).2.2, ?_, ?_, hHealthy.disks,
      hHealthy.onDisk⟩
    · intro sig' c hc
      rcases ChunkDB.read_of_write hWrite hc with hOld | ⟨rfl, rfl⟩
      · exact hHealthy.hashed sig' c hOld
      · rfl
    · intro sig' c hc
      rcases ChunkDB.read_of_write hWrite hc with hOld | ⟨_, rfl⟩
      · exact hHealthy.chunks sig' c hOld
      · exact hStored

theorem exists_writeDisk (hMem : .sector s ∈ log) :
    ∃ q, p.writeDisk s = some q ∧ Healthy db initDisks q ∧
      ∀ loc, q.curDisks.readChunk loc =
        if s.type = .write ∧ loc = s.loc then p.db.read s.sig else p.curDisks.readChunk loc := by
  unfold writeDisk
  split
  · rename_i hType
    have hKnown := hWell.known s hMem (.inr hType)
    obtain ⟨b, hb⟩ := Option.isSome_iff_exists.mp hKnown
    have hNow : p.db.read s.sig = some b := hHealthy.grows s.sig b hb
    obtain ⟨disks, hDisks⟩ :=
      BlockDevDataVec.exists_writeChunk (hHealthy.onDisk _ (hWell.onDisk s hMem (.inr hType))) b
    have hWrite : p.curDisks.write p.db s.loc s.sig = some disks := by
      rw [BlockDevDataVec.write, hNow]
      exact hDisks
    have hRead := (BlockDevDataVec.write_spec hWrite).2
    rw [hWrite]
    refine ⟨_, rfl, ⟨hHealthy.grows, hHealthy.hashed, hHealthy.chunks, ?_, ?_⟩, ?_⟩
    · intro loc c hc
      rw [hRead loc] at hc
      split at hc
      · exact hHealthy.chunks _ _ hc
      · exact hHealthy.disks loc c hc
    · intro loc hOn
      rw [hRead loc]
      split
      · rw [hNow]
        rfl
      · exact hHealthy.onDisk loc hOn
    · intro loc
      rw [hRead loc]
      simp only [hType, true_and]
  · rename_i hType
    refine ⟨p, rfl, hHealthy, ?_⟩
    intro loc
    simp only [hType, false_and, if_false]

theorem resume_tracked (hLog : log = done ++ .sector s :: p.rest)
    (hType : s.type = .remove ∨ s.type = .write) (hAgrees : Agrees initDisks done p)
    (hComplete : Complete done p) :
    ∃ q, p.resume (.removeOrWrite s) = some q ∧
      Tracked db initDisks log (done ++ [.sector s]) q ∧ q.crashes = p.crashes ∧
      q.cur = p.cur ∧ q.rest = p.rest := by
  have hMem : .sector s ∈ log := by simp [hLog]
  have hStart : Healthy db initDisks
      { p with cache := p.cache.filter fun e => e.1 ≠ s.loc, pc := .ready } :=
    hHealthy.congr rfl rfl
  obtain ⟨q, hWrite, hHealthy', hRead⟩ := exists_writeDisk hWell hStart hMem
  obtain ⟨hAgrees', disks, rfl⟩ := agrees_writeDisk (hAgrees.erase s.loc) ne_of_mem_erase hWrite
  refine ⟨_, hWrite, ⟨?_, rfl, hAgrees', hHealthy', ?_⟩, rfl, rfl, rfl⟩
  · rw [hLog, List.append_cons]
  · apply hComplete.removed hType
    · intro e he
      exact List.mem_of_mem_filter he
    · rfl
    · intro loc hNe
      exact lookup_filter hNe
    · intro loc hNe
      rw [hRead loc, if_neg (fun hBoth => hNe hBoth.2)]

theorem Grown.complete (hLog : ∃ rest, log = done ++ rest) (hComplete : Complete done p)
    (hAdd : s.type = .add) (hGrown : Grown s p q) : Complete (done ++ [.sector s]) q := by
  refine ⟨?_, hGrown.nonempty⟩
  intro loc sig hMem
  rw [versionsSince_add hAdd] at hMem
  rcases List.mem_append.mp hMem with hMem | hMem
  · have hKnown := (known_of_version hWell hLog hMem).1
    have hNow := hHealthy.grows.isSome_read hKnown
    rw [hGrown.db.read_eq hNow, hGrown.disks]
    rcases hComplete.versions loc sig hMem with hDisk | ⟨v, hv, hSig⟩
    · exact .inl hDisk
    · obtain ⟨v', hv', hSub⟩ := hGrown.versions loc v hv
      exact .inr ⟨v', hv', hSub sig hSig⟩
  · split at hMem
    · rename_i hLoc
      cases List.mem_singleton.mp hMem
      subst hLoc
      exact hGrown.added
    · cases hMem

theorem Grown.coverable (hLog : ∃ rest, log = done ++ rest) (hAgrees : Agrees initDisks done p)
    (hGrown : Grown s p q) {disks : SectorLoc → Option Chunk} (hCover : Coverable p disks) :
    Coverable q disks := by
  obtain ⟨choice, hCached, hDisks⟩ := hCover
  refine ⟨choice, ?_, ?_⟩
  · intro loc sig hSig
    obtain ⟨v, hv, hMem⟩ := hCached loc sig hSig
    obtain ⟨v', hv', hSub⟩ := hGrown.versions loc v hv
    exact ⟨v', hv', hSub sig hMem⟩
  · intro loc
    rw [hDisks loc]
    cases hSig : choice loc with
    | none => rw [hGrown.disks]
    | some sig =>
      obtain ⟨v, hv, hMem⟩ := hCached loc sig hSig
      have hVersion := hAgrees.versions _ (mem_of_lookup hv) sig hMem
      have hKnown := (known_of_version hWell hLog hVersion).1
      have hNow := hHealthy.grows.isSome_read hKnown
      exact (hGrown.db.read_eq hNow).symm

theorem add_tracked (hLog : log = done ++ .sector s :: p.rest) (hAdd : s.type = .add)
    (hComplete : Complete done p) :
    ∃ q, p.add opt.versioned s = some q ∧ Grown s p q ∧ Healthy db initDisks q ∧
      q.pc = p.pc ∧ q.crashes = p.crashes ∧ q.cur = p.cur ∧ q.rest = p.rest := by
  have hMem : .sector s ∈ log := by simp [hLog]
  obtain ⟨⟨same, db'⟩, hHave, hHealthy'⟩ :=
    exists_haveSector hWell hHealthy (hWell.onDisk s hMem (.inl hAdd))
  obtain ⟨b, hb, hExtends, hStored, hSame⟩ := haveSector_spec hHave
  rw [add, hHave, Option.bind_some]
  cases same with
  | true =>
    refine ⟨{ p with db := db' }, rfl, ?_, hHealthy', rfl, rfl, rfl, rfl⟩
    refine ⟨hExtends, rfl, fun loc v hv => ⟨v, hv, fun sig hSig => hSig⟩, ?_, hComplete.nonempty⟩
    left
    rw [← hSame.mp rfl]
    exact hStored.trans hb.symm
  | false =>
    obtain ⟨cache, hRun, hGrown⟩ :=
      exists_addVersion (p := { p with db := db' }) (s := s) hComplete.nonempty
    refine ⟨_, congrArg (Option.map _) hRun, ?_, hHealthy'.congr rfl rfl, rfl, rfl, rfl, rfl⟩
    exact ⟨hExtends.trans hGrown.db, rfl, hGrown.versions, hGrown.added, hGrown.nonempty⟩

theorem advance_cached (hLog : log = done ++ .sector s :: p.rest)
    (hType : s.type = .remove ∨ s.type = .write) (hAgrees : Agrees initDisks done p)
    (hComplete : Complete done p) (hFew : (p.cache.length : Int) ≤ opt.deterministicThreshold)
    (hCountable : Countable p) :
    ∃ m q, p.checkCrashes opt.versioned (.removeOrWrite s) = some m ∧
      Reaches (step opt.versioned) m q ∧
      Tracked db initDisks log (done ++ [.sector s]) q ∧ q.rest = p.rest ∧
      Advances opt p q := by
  by_cases hEnabled : opt.wants.crashEnabled p.cur = true
  · obtain ⟨m, e, crashes, hCheck, hReach, hStep, hAll, -⟩ := check_covers
      (checkable_of_agrees hWell hHealthy ⟨_, hLog⟩ hAgrees hComplete) hFew hCountable hEnabled
      (.removeOrWrite s)
    obtain ⟨q, hResume, hTracked, hCrashes, hCur, hRest⟩ := resume_tracked
      (p := { p with pc := .permuting e (.removeOrWrite s), crashes := p.crashes ++ crashes })
      hWell (hHealthy.congr rfl rfl) hLog hType (hAgrees.congr rfl rfl rfl rfl)
      ⟨hComplete.versions, hComplete.nonempty⟩
    refine ⟨m, q, hCheck, ?_, hTracked, hRest, ?_, ?_⟩
    · exact hReach.trans (.head (hStep.trans hResume) (.refl _ _))
    · rintro disks ⟨crash, hMem, hRead⟩
      refine ⟨crash, ?_, hRead⟩
      rw [hCrashes]
      exact List.mem_append_left _ hMem
    · intro _ disks hCover
      obtain ⟨crash, hMem, hRead⟩ := hAll disks hCover
      refine .inl ⟨crash, ?_, hRead⟩
      rw [hCrashes]
      exact List.mem_append_right _ hMem
  · obtain ⟨q, hResume, hTracked, hCrashes, hCur, hRest⟩ :=
      resume_tracked hWell hHealthy hLog hType hAgrees hComplete
    refine ⟨q, q, ?_, .refl _ _, hTracked, hRest, ?_⟩
    · rw [checkCrashes, if_neg hEnabled]
      exact hResume
    · apply Advances.of_coverable hCrashes
      · intro hOn
        exact absurd hOn hEnabled
      · intro hOn
        exact absurd hOn hEnabled

theorem advance_uncached (hLog : log = done ++ .sector s :: p.rest) (hPc : p.pc = .ready)
    (hType : s.type = .remove ∨ s.type = .write) (hNone : p.cache.lookup s.loc = none)
    (hAgrees : Agrees initDisks done p) (hComplete : Complete done p)
    (hSame : opt.wants.crashEnabled p.cur = true → s.type = .write →
      p.curDisks.readChunk s.loc = p.db.read s.sig) :
    ∃ q, p.writeDisk s = some q ∧ Tracked db initDisks log (done ++ [.sector s]) q ∧
      q.rest = p.rest ∧ Advances opt p q := by
  have hMem : .sector s ∈ log := by simp [hLog]
  obtain ⟨q, hWrite, hHealthy', hRead⟩ := exists_writeDisk hWell hHealthy hMem
  obtain ⟨hAgrees', disks, rfl⟩ := agrees_writeDisk hAgrees (not_mem_of_lookup_none hNone) hWrite
  refine ⟨_, hWrite, ⟨?_, hPc, hAgrees', hHealthy', ?_⟩, rfl, ?_⟩
  · rw [hLog, List.append_cons]
  · apply hComplete.removed hType
    · exact fun e he => he
    · rfl
    · exact fun loc _ => rfl
    · intro loc hNe
      rw [hRead loc, if_neg (fun hBoth => hNe hBoth.2)]
  · refine Advances.of_coverable rfl ?_ ?_
    · exact fun hOn => hOn
    rintro hOn disks' ⟨choice, hCached, hDisks⟩
    refine ⟨choice, hCached, ?_⟩
    intro loc
    have hUnchanged : disks.readChunk loc = p.curDisks.readChunk loc := by
      rw [hRead loc]
      split
      · rename_i hBoth
        rw [hBoth.2]
        exact (hSame hOn hBoth.1).symm
      · rfl
    simp only [hUnchanged]
    exact hDisks loc

end

theorem advance_record (hTracked : Tracked db initDisks log done p) {r : LogRec}
    {rest : List LogRec} (hRest : p.rest = r :: rest) (hOk : StepOk opt p) :
    ∃ q, Reaches (step opt.versioned) p q ∧
      Tracked db initDisks log (done ++ [r]) q ∧ q.rest = rest ∧ Advances opt p q := by
  have hStep : p.step opt.versioned = { p with rest := rest }.replay opt.versioned r :=
    step_record hTracked.pc hRest
  have hLog : log = done ++ r :: rest := by rw [hTracked.log, hRest]
  have hAgrees : Agrees initDisks done { p with rest := rest } :=
    hTracked.agrees.congr rfl rfl rfl rfl
  have hHealthy : Healthy db initDisks { p with rest := rest } :=
    hTracked.healthy.congr rfl rfl
  have hComplete : Complete done { p with rest := rest } :=
    ⟨hTracked.complete.versions, hTracked.complete.nonempty⟩
  have hObserved := hOk.observed hTracked.pc
  rw [Observed, hRest] at hObserved
  have hLog' : log = done ++ [r] ++ rest := by rw [hLog, List.append_cons]
  have hMark : (∀ s, r ≠ .sector s) →
      { p with rest := rest }.replay opt.versioned r =
        some { p with rest := rest, cur := p.cur.replay r } →
      (opt.wants.crashEnabled p.cur = true → r = .lastCheck → opt.wants = .all) →
      ∃ q, Reaches (step opt.versioned) p q ∧
        Tracked db initDisks log (done ++ [r]) q ∧ q.rest = rest ∧
        Advances opt p q := by
    intro hMark hReplay hLast
    refine ⟨_, .head (hStep.trans hReplay) (.refl _ _), ?_, rfl, ?_⟩
    · exact ⟨hLog', hTracked.pc, hAgrees.mark hMark, hHealthy.congr rfl rfl,
        hComplete.mark hMark _⟩
    · refine Advances.of_coverable rfl ?_ (fun _ disks hCover => hCover)
      intro hOn
      exact crashEnabled_mark (hLast hOn) hOn
  cases r with
  | lastCheck => exact hMark (by simp) rfl (fun hOn _ => hObserved hOn)
  | curCheck => exact hMark (by simp) rfl (by simp)
  | other => exact hMark (by simp) rfl (by simp)
  | sector s =>
    have hRemove : (s.type = .remove ∨ s.type = .write) →
        ∃ q, Reaches (step opt.versioned) p q ∧
          Tracked db initDisks log (done ++ [.sector s]) q ∧ q.rest = rest ∧
          Advances opt p q := by
      intro hType
      have hReplay : { p with rest := rest }.replay opt.versioned (.sector s) =
          { p with rest := rest }.removeOrWrite opt.versioned s := by
        rcases hType with hType | hType
        · simp only [replay, hType]
        · simp only [replay, hType]
      cases hLookup : p.cache.lookup s.loc with
      | none =>
        obtain ⟨q, hWrite, hTracked', hRest', hAdvances⟩ := advance_uncached
          (p := { p with rest := rest }) hWell hHealthy hLog hTracked.pc hType hLookup hAgrees
          hComplete (fun hOn hWrite => hObserved hOn ⟨hWrite, hLookup⟩)
        refine ⟨q, ?_, hTracked', hRest', hAdvances.handed, hAdvances.covered⟩
        apply Reaches.head _ (.refl _ _)
        rw [hStep, hReplay, removeOrWrite]
        simp only [hLookup]
        exact hWrite
      | some v =>
        obtain ⟨m, q, hCheck, hReach, hTracked', hRest', hAdvances⟩ := advance_cached
          (p := { p with rest := rest }) hWell hHealthy hLog hType hAgrees hComplete hOk.few
          hOk.countable
        refine ⟨q, ?_, hTracked', hRest', hAdvances.handed, hAdvances.covered⟩
        apply Reaches.head _ hReach
        rw [hStep, hReplay, removeOrWrite]
        simp only [hLookup]
        exact hCheck
    cases hType : s.type with
    | remove => exact hRemove (.inl hType)
    | write => exact hRemove (.inr hType)
    | read =>
      have hReplay : { p with rest := rest }.replay opt.versioned (.sector s) =
          some { p with rest := rest } := by
        simp only [replay, hType]
      refine ⟨_, .head (hStep.trans hReplay) (.refl _ _), ?_, rfl, ?_⟩
      · refine ⟨hLog', hTracked.pc, hAgrees.read hType, hHealthy, ?_, hComplete.nonempty⟩
        intro loc sig hMem
        rw [versionsSince_concat] at hMem
        simp only [hType, ite_self] at hMem
        exact hComplete.versions loc sig hMem
      · exact Advances.of_coverable rfl (fun hOn => hOn) (fun _ disks hCover => hCover)
    | add =>
      obtain ⟨q, hAdd, hGrown, hHealthy', hPc, hCrashes, hCur, hRest'⟩ :=
        add_tracked (p := { p with rest := rest }) hWell hHealthy hLog hType hComplete
      have hReplay : { p with rest := rest }.replay opt.versioned (.sector s) = some q := by
        simp only [replay, hType]
        exact hAdd
      have hAgrees' : Agrees initDisks (done ++ [.sector s]) q :=
        agrees_of_replay (p := { p with rest := rest }) hTracked.pc hLog hAgrees hReplay
          (hPc.trans hTracked.pc) hRest'
      refine ⟨q, .head (hStep.trans hReplay) (.refl _ _), ?_, hRest', ?_⟩
      · refine ⟨?_, hPc.trans hTracked.pc, hAgrees', hHealthy', ?_⟩
        · rw [hRest']
          exact hLog'
        · exact hGrown.complete hWell hHealthy ⟨_, hLog⟩ hComplete hType
      · refine Advances.of_coverable hCrashes ?_ ?_
        · intro hOn
          rw [hCur]
          exact hOn
        · intro _ disks hCover
          exact hGrown.coverable hWell hHealthy ⟨_, hLog⟩ hAgrees hCover

theorem coverable_of_choice (hTracked : Tracked db initDisks log done p)
    {choice : SectorLoc → Option Signature} (hChoice : IsChoice done choice) :
    Coverable p (overlay db.read initDisks done choice) := by
  have hLog : ∃ rest, log = done ++ rest := ⟨_, hTracked.log⟩
  have hWrites : WritesKnown db done := by
    intro s hMem hType
    apply hWell.known s _ (.inr hType)
    rw [hTracked.log]
    exact List.mem_append_left _ hMem
  have hDisk : ∀ loc, p.curDisks.readChunk loc = diskAfter db.read initDisks done loc := by
    intro loc
    rw [hTracked.agrees.disks loc,
      diskAfter_extends hTracked.healthy.grows initDisks done hWrites loc]
  refine ⟨fun loc => (choice loc).filter fun sig =>
    ((p.cache.lookup loc).getD []).contains sig, ?_, ?_⟩
  · intro loc sig hSig
    obtain ⟨_, hIn⟩ := Option.filter_eq_some_iff.mp hSig
    cases hLookup : p.cache.lookup loc with
    | none => simp [hLookup] at hIn
    | some v => exact ⟨v, rfl, by simpa [hLookup] using hIn⟩
  · intro loc
    rw [overlay]
    cases hSig : choice loc with
    | none =>
      simp only [hSig, Option.filter_none]
      exact (hDisk loc).symm
    | some sig =>
      have hMem := hChoice loc sig hSig
      have hRead := hTracked.healthy.grows.read_eq (known_of_version hWell hLog hMem).1
      simp only [hSig, Option.filter_some]
      cases hCached : ((p.cache.lookup loc).getD []).contains sig with
      | true => exact hRead.symm
      | false =>
        rcases hTracked.complete.versions loc sig hMem with hOn | ⟨v, hv, hIn⟩
        · exact hRead.symm.trans hOn
        · rw [hv] at hCached
          simp [hIn] at hCached

def Accounted (opt : PermuterOptions) (db : ChunkDB) (initDisks : BlockDevDataVec)
    (done : List LogRec) (p : VersionedPermuter) : Prop :=
  ∀ before after, done = before ++ after → InEpoch before opt.wants →
    ∀ choice, IsChoice before choice →
      Handed p (overlay db.read initDisks before choice) ∨
        opt.wants.crashEnabled p.cur = true ∧ Coverable p (overlay db.read initDisks before choice)

theorem accounted_now (hTracked : Tracked db initDisks log done p) (hEpoch : InEpoch done opt.wants)
    {choice : SectorLoc → Option Signature} (hChoice : IsChoice done choice) :
    opt.wants.crashEnabled p.cur = true ∧
      Coverable p (overlay db.read initDisks done choice) := by
  constructor
  · rw [hTracked.agrees.epoch]
    exact (crashEnabled_iff opt.wants done).mpr hEpoch
  · exact coverable_of_choice hWell hTracked hChoice

theorem Accounted.advance {r : LogRec} (hAccounted : Accounted opt db initDisks done p)
    (hTracked : Tracked db initDisks log (done ++ [r]) q) (hAdvances : Advances opt p q) :
    Accounted opt db initDisks (done ++ [r]) q := by
  intro before after hEq hEpoch choice hChoice
  rcases List.eq_nil_or_concat after with rfl | ⟨after', last, rfl⟩
  · rw [List.append_nil] at hEq
    subst hEq
    exact .inr (accounted_now hWell hTracked hEpoch hChoice)
  · rw [List.concat_eq_append, ← List.append_assoc] at hEq
    obtain ⟨hDone, _⟩ := List.append_inj' hEq rfl
    rcases hAccounted before after' hDone hEpoch choice hChoice with hHanded | ⟨hOn, hCover⟩
    · exact .inl (hAdvances.handed _ hHanded)
    · exact hAdvances.covered hOn _ hCover

theorem replay_covers (rest : List LogRec) (done : List LogRec) (p : VersionedPermuter)
    (hRest : p.rest = rest) (hTracked : Tracked db initDisks log done p)
    (hAccounted : Accounted opt db initDisks done p)
    (hOk : ∀ q, Reaches (step opt.versioned) p q → StepOk opt q) :
    ∃ q, Reaches (step opt.versioned) p q ∧ q.pc = .done ∧
      ∀ before after, log = before ++ after → InEpoch before opt.wants →
        ∀ choice, IsChoice before choice → Handed q (overlay db.read initDisks before choice) := by
  induction rest generalizing done p with
  | nil =>
    have hDone : log = done := by rw [hTracked.log, hRest, List.append_nil]
    have hStepOk := hOk p (.refl _ _)
    have hStep : p.step opt.versioned = p.checkCrashes opt.versioned .finish :=
      step_finish hTracked.pc hRest
    by_cases hEnabled : opt.wants.crashEnabled p.cur = true
    · obtain ⟨m, e, crashes, hCheck, hReach, hLast, hAll, -⟩ := check_covers
        (checkable_of_agrees hWell hTracked.healthy ⟨_, hTracked.log⟩ hTracked.agrees
          hTracked.complete) hStepOk.few hStepOk.countable hEnabled .finish
      refine ⟨_, .head (hStep.trans hCheck) (hReach.trans (.head hLast (.refl _ _))), rfl, ?_⟩
      intro before after hLog hEpoch choice hChoice
      rw [hDone] at hLog
      rcases hAccounted before after hLog hEpoch choice hChoice with
        ⟨crash, hMem, hRead⟩ | ⟨_, hCover⟩
      · exact ⟨crash, List.mem_append_left _ hMem, hRead⟩
      · obtain ⟨crash, hMem, hRead⟩ := hAll _ hCover
        exact ⟨crash, List.mem_append_right _ hMem, hRead⟩
    · have hFinish : p.checkCrashes opt.versioned .finish =
          some { p with cache := [], pc := .done } := by
        rw [checkCrashes, if_neg hEnabled]
        rfl
      refine ⟨_, .head (hStep.trans hFinish) (.refl _ _), rfl, ?_⟩
      intro before after hLog hEpoch choice hChoice
      rw [hDone] at hLog
      rcases hAccounted before after hLog hEpoch choice hChoice with hHanded | ⟨hOn, _⟩
      · exact hHanded
      · exact absurd hOn hEnabled
  | cons r rest ih =>
    obtain ⟨q, hReach, hTracked', hRest', hAdvances⟩ :=
      advance_record hWell hTracked hRest (hOk p (.refl _ _))
    obtain ⟨last, hReach', hEnd⟩ := ih (done ++ [r]) q hRest' hTracked'
      (hAccounted.advance hWell hTracked' hAdvances) fun q' hq' => hOk q' (hReach.trans hq')
    exact ⟨last, hReach.trans hReach', hEnd⟩

end

end

theorem tracked_start [ChunkHash] {db : ChunkDB} {initDisks : BlockDevDataVec} {log : List LogRec}
    (rand : UnixRandom) (hWell : WellFormed db initDisks log) :
    Tracked db initDisks log [] (start db rand initDisks log) := by
  refine ⟨rfl, rfl, ⟨fun loc => rfl, ?_, .nil, ?_, rfl⟩, ?_, ?_, ?_⟩
  · intro s hMem
    cases hMem
  · intro e hMem
    cases hMem
  · refine ⟨.refl db, hWell.hashed, ?_, ?_, fun loc hOn => hOn⟩
    · intro sig b hb
      exact .inl ⟨sig, hb⟩
    · intro loc b hb
      exact .inr ⟨loc, hb⟩
  · intro loc sig hMem
    cases hMem
  · intro e hMem
    cases hMem

theorem accounted_start [ChunkHash] {opt : PermuterOptions} {db : ChunkDB}
    {initDisks : BlockDevDataVec} {log : List LogRec} (rand : UnixRandom)
    (hWell : WellFormed db initDisks log) :
    Accounted opt db initDisks [] (start db rand initDisks log) := by
  intro before after hEq hEpoch choice hChoice
  obtain ⟨rfl, rfl⟩ := List.append_eq_nil_iff.mp hEq.symm
  exact .inr (accounted_now hWell (tracked_start rand hWell) hEpoch hChoice)

/-- In a run whose states all meet the condition, every crash that was possible where crashes are
checked is given to the checker. -/
theorem possible_crashes_checked [ChunkHash] {opt : PermuterOptions}
    {db : ChunkDB} {initDisks : BlockDevDataVec} {log : List LogRec} (rand : UnixRandom)
    (hWell : WellFormed db initDisks log)
    (hOk : ∀ p, Reaches (step opt.versioned) (start db rand initDisks log) p → StepOk opt p) :
    ∃ p, Reaches (step opt.versioned) (start db rand initDisks log) p ∧ p.pc = .done ∧
      ∀ before after, log = before ++ after → InEpoch before opt.wants →
        ∀ choice, IsChoice before choice → ∃ crash ∈ p.crashes, ∀ loc,
          crash.readChunk loc = overlay db.read initDisks before choice loc := by
  exact replay_covers hWell log [] _ rfl (tracked_start rand hWell) (accounted_start rand hWell) hOk

theorem stored_sample {b : Chunk} (hStored : Stored sampleDb sampleDisks b) :
    b = sampleChunk 0 ∨ b = sampleChunk 1 := by
  rcases hStored with ⟨sig, hb⟩ | ⟨loc, hb⟩
  · have hMem := mem_of_lookup hb
    simp only [sampleDb, List.mem_cons, Prod.mk.injEq, List.not_mem_nil, or_false] at hMem
    exact hMem.imp And.right And.right
  · left
    rw [sampleDisks, BlockDevDataVec.readChunk_cons] at hb
    split at hb
    · unfold BlockDevData.readSector at hb
      split at hb
      · have hMem := List.mem_of_getElem? hb
        simp only [List.mem_cons, List.not_mem_nil, or_false, or_self] at hMem
        exact hMem
      · cases hb
    · cases hb

attribute [local instance] checksumHash

theorem wellFormed_sample {log : List LogRec}
    (hLog : ∀ r ∈ log, r = .lastCheck ∨ ∃ type, r = sampleRec type 0 ∨ r = sampleRec type 1) :
    WellFormed sampleDb sampleDisks log := by
  refine ⟨?_, ?_, ?_, ?_⟩
  · intro sig b hb
    have hMem := mem_of_lookup hb
    simp only [sampleDb, List.mem_cons, Prod.mk.injEq, List.not_mem_nil, or_false] at hMem
    rcases hMem with ⟨rfl, rfl⟩ | ⟨rfl, rfl⟩
    · rfl
    · rfl
  · intro b b' hb hb' hEq
    have hDistinct : checksum (sampleChunk 0) ≠ checksum (sampleChunk 1) := by decide +kernel
    rcases stored_sample hb with rfl | rfl
    · rcases stored_sample hb' with rfl | rfl
      · rfl
      · exact absurd hEq hDistinct
    · rcases stored_sample hb' with rfl | rfl
      · exact absurd hEq.symm hDistinct
      · rfl
  · intro s hMem _
    have hFirst : (sampleDisks.readChunk (0, 0)).isSome := by decide +kernel
    have hSecond : (sampleDisks.readChunk (0, 1)).isSome := by decide +kernel
    rcases hLog _ hMem with hMark | ⟨type, hRec | hRec⟩
    · cases hMark
    · cases hRec
      exact hFirst
    · cases hRec
      exact hSecond
  · intro s hMem _
    have hKnown : (sampleDb.read (checksum (sampleChunk 1))).isSome := by decide +kernel
    rcases hLog _ hMem with hMark | ⟨type, hRec | hRec⟩
    · cases hMark
    · cases hRec
      exact hKnown
    · cases hRec
      exact hKnown

theorem stepOk_of_run {n : Nat} {log : List LogRec}
    (hEnd : (steps (step sampleOptions.versioned) n
      (start sampleDb sampleRand sampleDisks log)).map BufferPermuter.pc = some .done)
    (hAll : ∀ k ≤ n, ∀ p ∈ steps (step sampleOptions.versioned) k
      (start sampleDb sampleRand sampleDisks log), StepOk sampleOptions p) :
    ∀ p, Reaches (step sampleOptions.versioned) (start sampleDb sampleRand sampleDisks log) p →
      StepOk sampleOptions p := by
  intro p hReach
  obtain ⟨last, hLast, hPc⟩ := Option.map_eq_some_iff.mp hEnd
  have hFixed : step sampleOptions.versioned last = some last := by
    simp only [step, hPc]
  obtain ⟨k, hk, hRun⟩ := hReach.exists_le hLast hFixed
  exact hAll k hk p hRun

theorem possible_crashes_checked_sample :
    WellFormed sampleDb sampleDisks sampleLog ∧
      ∃ p, Reaches (step sampleOptions.versioned)
          (start sampleDb sampleRand sampleDisks sampleLog) p ∧ p.pc = .done ∧
        ∀ before after, sampleLog = before ++ after → InEpoch before sampleOptions.wants →
          ∀ choice, IsChoice before choice → ∃ crash ∈ p.crashes, ∀ loc,
            crash.readChunk loc = overlay sampleDb.read sampleDisks before choice loc := by
  have hWell : WellFormed sampleDb sampleDisks sampleLog := by
    apply wellFormed_sample
    simp [sampleLog, sampleRec]
  refine ⟨hWell, possible_crashes_checked sampleRand hWell ?_⟩
  apply stepOk_of_run (n := 9)
  · decide +kernel
  · decide +kernel

def unobservedLog : List LogRec := [.lastCheck, sampleRec .add 0, sampleRec .write 1]

def firstWritten (loc : SectorLoc) : Option Signature :=
  if loc = (0, 0) then some (checksum (sampleChunk 1)) else none

/-- The first sector may be written and the second not. The write changes the disk without a check,
so this crash is not generated. -/
theorem unobserved_write_missed :
    WellFormed sampleDb sampleDisks unobservedLog ∧
      unobservedLog = [.lastCheck, sampleRec .add 0] ++ [sampleRec .write 1] ∧
      InEpoch [.lastCheck, sampleRec .add 0] sampleOptions.wants ∧
      IsChoice [.lastCheck, sampleRec .add 0] firstWritten ∧
      (∀ k ≤ 7, ∀ p ∈ steps (step sampleOptions.versioned) k
        (start sampleDb sampleRand sampleDisks unobservedLog),
          (p.cache.length : Int) ≤ sampleOptions.deterministicThreshold) ∧
      ∃ p, steps (step sampleOptions.versioned) 7
          (start sampleDb sampleRand sampleDisks unobservedLog) = some p ∧ p.pc = .done ∧
        ∀ crash ∈ p.crashes, ¬∀ loc, crash.readChunk loc =
          overlay sampleDb.read sampleDisks [.lastCheck, sampleRec .add 0] firstWritten loc := by
  refine ⟨?_, rfl, .inl (by simp), ?_, by decide +kernel, ?_⟩
  · apply wellFormed_sample
    simp [unobservedLog, sampleRec]
  · intro loc sig hSig
    unfold firstWritten at hSig
    split at hSig
    · rename_i hLoc
      cases hSig
      rw [hLoc, versionsSince]
      simp [sampleRec]
    · cases hSig
  · have hRun : ((steps (step sampleOptions.versioned) 7
        (start sampleDb sampleRand sampleDisks unobservedLog)).map fun p =>
          (p.pc, p.crashes.all fun crash => [(0, 0), (0, 1)].any fun loc => crash.readChunk loc !=
            overlay sampleDb.read sampleDisks [.lastCheck, sampleRec .add 0] firstWritten loc)) =
        some (.done, true) := by decide +kernel
    obtain ⟨p, hSteps, hEq⟩ := Option.map_eq_some_iff.mp hRun
    obtain ⟨hPc, hAll⟩ := Prod.mk.inj hEq
    refine ⟨p, hSteps, hPc, ?_⟩
    intro crash hMem hSame
    obtain ⟨loc, _, hNe⟩ := List.any_eq_true.mp (List.all_eq_true.mp hAll crash hMem)
    exact bne_iff_ne.mp hNe (hSame loc)

end Explode.Crash
