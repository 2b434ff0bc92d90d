import Explode.Crash.Fsck

/-!
# Soundness of the recovery cache

The sectors that a recovery program reads before its first write determine that
write. Every path of the cache is therefore followed by exactly the disks on
which the program reads what the path says, and its leaf holds the first write.
-/

namespace Explode.Crash

section
variable [ChunkHash]

def Program.firstPhase (disks : BlockDevDataVec) : Program → WrSet →
    Option (WrSet × Option (SectorLoc × Chunk))
  | .done, known => some (known, none)
  | .read loc next, known =>
    (disks.readChunk loc).bind fun b =>
      (next b).firstPhase disks
        (if (known.lookup loc).isSome then known else known ++ [(loc, explodeHash b)])
  | .write loc b _, known => some (known, some (loc, b))

def wrSetOf : Option (SectorLoc × Chunk) → WrSet
  | none => []
  | some (loc, b) => [(loc, explodeHash b)]

end

section
variable [ChunkHash] {disks dev : BlockDevDataVec}

theorem parseTrace_cons {a : Access} {rest : List Access} {db db' : ChunkDB} {log : List SectorRec}
    (h : parseTrace (a :: rest) db = some (log, db')) :
    ∃ r mid more, a.toRec db = some (r, mid) ∧
      parseTrace rest mid = some (more, db') ∧ log = r :: more := by
  rw [parseTrace] at h
  obtain ⟨first, hFirst, h⟩ := Option.bind_eq_some_iff.mp h
  obtain ⟨more, hMore, h⟩ := Option.bind_eq_some_iff.mp h
  cases h
  exact ⟨first.1, first.2, more.1, hFirst, hMore, rfl⟩

theorem scanLog_run {prog : Program} (known : WrSet) {accesses : List Access} {db db' : ChunkDB}
    {log : List SectorRec} (hRun : prog.run disks = some (accesses, dev))
    (hParse : parseTrace accesses db = some (log, db')) :
    ∃ reads first, prog.firstPhase disks known = some (reads, first) ∧
      (scanLog log known).reads = reads ∧ (scanLog log known).wrSet = wrSetOf first := by
  induction prog generalizing accesses db log known with
  | done =>
    cases hRun
    cases hParse
    exact ⟨known, none, rfl, rfl, rfl⟩
  | read loc next ih =>
    rw [Program.run] at hRun
    obtain ⟨b, hRead, hRun⟩ := Option.bind_eq_some_iff.mp hRun
    obtain ⟨rest, hRest, hRun⟩ := Option.bind_eq_some_iff.mp hRun
    cases hRun
    obtain ⟨r, mid, more, hRec, hMore, rfl⟩ := parseTrace_cons hParse
    obtain ⟨stored, hWrite, hr⟩ := Option.map_eq_some_iff.mp hRec
    cases hr
    have hSig := (ChunkDB.write_spec hWrite).1
    rw [Program.firstPhase, hRead, Option.bind_some]
    obtain ⟨known', hKnown⟩ : ∃ known', known' =
        if (known.lookup loc).isSome then known else known ++ [(loc, explodeHash b)] := ⟨_, rfl⟩
    rw [← hKnown]
    obtain ⟨reads, first, hPhase, hScan⟩ := ih b known' hRest hMore
    have hStep : scanLog (⟨.read, loc, stored.1⟩ :: more) known = scanLog more known' := by
      simp only [hKnown, hSig, scanLog]
      split <;> rfl
    exact ⟨reads, first, hPhase, hStep ▸ hScan⟩
  | write loc b next ih =>
    rw [Program.run] at hRun
    obtain ⟨dev', hWrite, hRun⟩ := Option.bind_eq_some_iff.mp hRun
    obtain ⟨rest, hRest, hRun⟩ := Option.bind_eq_some_iff.mp hRun
    cases hRun
    obtain ⟨r, mid, more, hRec, hMore, rfl⟩ := parseTrace_cons hParse
    obtain ⟨stored, hStored, hr⟩ := Option.map_eq_some_iff.mp hRec
    cases hr
    have hSig := (ChunkDB.write_spec hStored).1
    refine ⟨known, some (loc, b), rfl, ?_⟩
    simp [scanLog, wrSetOf, hSig]

end

def Answers [ChunkHash] (disks : BlockDevDataVec) (path : WrSet) : Prop :=
  ∀ r ∈ path, ∃ b, disks.readChunk r.1 = some b ∧ explodeHash b = r.2

def firstWrite : List Access → Option (SectorLoc × Chunk)
  | [] => none
  | .read _ _ :: rest => firstWrite rest
  | .write loc b :: _ => some (loc, b)

def applyFirstWrite (disks : BlockDevDataVec) : Option (SectorLoc × Chunk) → Option BlockDevDataVec
  | none => some disks
  | some (loc, b) => disks.writeChunk loc b

/-- The program runs on the disks, every sector that is there or that it accesses is among
`chunks`, and after its first write it changes no sector. -/
structure Scope (chunks : Set Chunk) (prog : Program) (disks : BlockDevDataVec) : Prop where
  sectors : ∀ loc b, disks.readChunk loc = some b → b ∈ chunks
  runs : ∃ accesses dev, prog.run disks = some (accesses, dev) ∧
    (∀ loc b, Access.read loc b ∈ accesses ∨ Access.write loc b ∈ accesses → b ∈ chunks) ∧
    applyFirstWrite disks (firstWrite accesses) = some dev

section
variable [ChunkHash] {chunks : Set Chunk} {disks disks' : BlockDevDataVec}
  {prog : Program} {known path reads reads' rest : WrSet}
  {first first' : Option (SectorLoc × Chunk)} {loc : SectorLoc} {sig : Signature}

theorem answers_nil (disks : BlockDevDataVec) :
    Answers disks [] := fun _ hr => absurd hr List.not_mem_nil

theorem Answers.push {b : Chunk} (h : Answers disks known) (hRead : disks.readChunk loc = some b) :
    Answers disks (known ++ [(loc, explodeHash b)]) := by
  intro r hr
  rcases List.mem_append.mp hr with hr | hr
  · exact h r hr
  · cases List.mem_singleton.mp hr
    exact ⟨b, hRead, rfl⟩

theorem Answers.of_append_left (h : Answers disks (known ++ path)) :
    Answers disks known := fun r hr => h r (List.mem_append_left path hr)

omit [ChunkHash] in
theorem mem_of_lookup_isSome (h : (known.lookup loc).isSome) : ∃ sig, (loc, sig) ∈ known := by
  induction known with
  | nil => simp at h
  | cons r rest ih =>
    rw [List.lookup_cons] at h
    by_cases hEq : loc = r.1
    · exact ⟨r.2, by rw [hEq]; exact List.mem_cons_self⟩
    · rw [beq_false_of_ne hEq] at h
      obtain ⟨sig, hMem⟩ := ih h
      exact ⟨sig, List.mem_cons_of_mem r hMem⟩

theorem firstPhase_reads (hKnown : Answers disks known)
    (h : prog.firstPhase disks known = some (reads, first)) :
    ∃ more, reads = known ++ more ∧ Answers disks reads := by
  induction prog generalizing known with
  | done =>
    cases h
    exact ⟨[], (List.append_nil _).symm, hKnown⟩
  | read loc next ih =>
    rw [Program.firstPhase] at h
    obtain ⟨b, hRead, h⟩ := Option.bind_eq_some_iff.mp h
    split at h
    case isTrue => exact ih b hKnown h
    case isFalse =>
      obtain ⟨more, hMore, hAll⟩ := ih b (hKnown.push hRead) h
      exact ⟨(loc, explodeHash b) :: more, by rw [hMore, List.append_assoc]; rfl, hAll⟩
  | write loc b next ih =>
    cases h
    exact ⟨[], (List.append_nil _).symm, hKnown⟩

variable (hInj : Set.InjOn explodeHash chunks)
include hInj

theorem Answers.chunk_eq {b b' : Chunk} (hb : b ∈ chunks) (hb' : b' ∈ chunks)
    (h : Answers disks path) (h' : Answers disks' path) (hMem : ∃ sig, (loc, sig) ∈ path)
    (hRead : disks.readChunk loc = some b) (hRead' : disks'.readChunk loc = some b') : b = b' := by
  obtain ⟨sig, hMem⟩ := hMem
  obtain ⟨c, hc, hSig⟩ := h (loc, sig) hMem
  obtain ⟨c', hc', hSig'⟩ := h' (loc, sig) hMem
  cases hRead.symm.trans hc
  cases hRead'.symm.trans hc'
  exact hInj hb hb' (hSig.trans hSig'.symm)

theorem firstPhase_eq_of_answers (hScope : ∀ loc b, disks.readChunk loc = some b → b ∈ chunks)
    (hScope' : ∀ loc b, disks'.readChunk loc = some b → b ∈ chunks) (hKnown : Answers disks known)
    (h : prog.firstPhase disks known = some (reads, first)) (hSame : Answers disks' reads) :
    prog.firstPhase disks' known = some (reads, first) := by
  induction prog generalizing known with
  | done => exact h
  | read loc next ih =>
    rw [Program.firstPhase] at h ⊢
    obtain ⟨b, hRead, h⟩ := Option.bind_eq_some_iff.mp h
    obtain ⟨known', hNext⟩ : ∃ known', known' =
      if (known.lookup loc).isSome then known else known ++ [(loc, explodeHash b)] := ⟨_, rfl⟩
    have hAnswers : Answers disks known' ∧ ∃ sig, (loc, sig) ∈ known' := by
      rw [hNext]
      split
      case isTrue hOld => exact ⟨hKnown, mem_of_lookup_isSome hOld⟩
      case isFalse =>
        exact ⟨hKnown.push hRead, explodeHash b, by simp⟩
    rw [← hNext] at h
    obtain ⟨more, hMore, hAll⟩ := firstPhase_reads hAnswers.1 h
    have hMem : ∃ sig, (loc, sig) ∈ reads := by
      obtain ⟨sig, hSig⟩ := hAnswers.2
      exact ⟨sig, by rw [hMore]; exact List.mem_append_left more hSig⟩
    obtain ⟨b', hRead', _⟩ := hSame _ hMem.choose_spec
    have hEq : b = b' := Answers.chunk_eq hInj (hScope loc b hRead) (hScope' loc b' hRead') hAll
      hSame hMem hRead hRead'
    subst hEq
    rw [hRead', Option.bind_some, ← hNext]
    exact ih b hAnswers.1 h
  | write loc b next ih => exact h

theorem firstPhase_next_of_answers (hScope : ∀ loc b, disks.readChunk loc = some b → b ∈ chunks)
    (hScope' : ∀ loc b, disks'.readChunk loc = some b → b ∈ chunks) (hKnown : Answers disks known)
    (h : prog.firstPhase disks known = some (known ++ path ++ (loc, sig) :: rest, first))
    (h' : prog.firstPhase disks' known = some (reads', first'))
    (hSame : Answers disks' (known ++ path)) :
    ∃ sig' rest', reads' = known ++ path ++ (loc, sig') :: rest' := by
  induction prog generalizing known path with
  | done =>
    have hLength := congrArg (fun r => (r.1 : WrSet).length) (Option.some.inj h)
    simp at hLength
  | write loc b next ih =>
    have hLength := congrArg (fun r => (r.1 : WrSet).length) (Option.some.inj h)
    simp at hLength
  | read here next ih =>
    rw [Program.firstPhase] at h h'
    obtain ⟨b, hRead, h⟩ := Option.bind_eq_some_iff.mp h
    obtain ⟨b', hRead', h'⟩ := Option.bind_eq_some_iff.mp h'
    have hb := hScope here b hRead
    have hb' := hScope' here b' hRead'
    by_cases hOld : (known.lookup here).isSome
    · rw [if_pos hOld] at h h'
      have hEq : b = b' := Answers.chunk_eq hInj hb hb' hKnown hSame.of_append_left
        (mem_of_lookup_isSome hOld) hRead hRead'
      subst hEq
      exact ih b hKnown h h' hSame
    · rw [if_neg hOld] at h h'
      have hNext := hKnown.push hRead
      obtain ⟨more, hMore, _⟩ := firstPhase_reads hNext h
      simp only [List.append_assoc, List.append_cancel_left_eq, List.singleton_append] at hMore
      cases path with
      | nil =>
        -- the sector asked for next is this one
        rw [List.nil_append] at hMore
        cases hMore
        obtain ⟨more', hMore', _⟩ := firstPhase_reads (hSame.of_append_left.push hRead') h'
        exact ⟨explodeHash b', more', by rw [hMore']; simp⟩
      | cons r path =>
        rw [List.cons_append] at hMore
        cases hMore
        have hAnswer := hSame (here, explodeHash b) (by simp)
        obtain ⟨c, hc, hSig⟩ := hAnswer
        cases hRead'.symm.trans hc
        have hEq : b = b' := hInj hb hb' hSig.symm
        subst hEq
        rw [List.append_cons known _ path] at h hSame ⊢
        exact ih b hNext h h' hSame

end

theorem BlockDevDataVec.mem_of_readChunk {disks : BlockDevDataVec} {loc : SectorLoc} {b : Chunk}
    (h : readChunk disks loc = some b) : ∃ d ∈ disks, b ∈ d.sectors := by
  obtain ⟨d, hFind, hRead⟩ := Option.bind_eq_some_iff.mp h
  refine ⟨d, List.mem_of_find?_eq_some hFind, ?_⟩
  unfold BlockDevData.readSector at hRead
  split at hRead
  case isTrue => exact List.mem_of_getElem? hRead
  case isFalse => cases hRead

def ChunkDB.Within [ChunkHash] (chunks : Set Chunk) (db : ChunkDB) : Prop :=
  ∀ sig b, db.read sig = some b → b ∈ chunks ∧ explodeHash b = sig

section
variable [ChunkHash] {chunks : Set Chunk} {db db' : ChunkDB}

theorem ChunkDB.Within.write (hInj : Set.InjOn explodeHash chunks)
    (hDb : db.Within chunks) {b : Chunk} (hb : b ∈ chunks) :
    ∃ db', db.write b = some (explodeHash b, db') ∧ db'.Within chunks := by
  unfold ChunkDB.write
  split
  case h_1 unit hOld =>
    obtain ⟨hUnit, hSig⟩ := hDb _ unit hOld
    exact ⟨db, by rw [if_pos (hInj hUnit hb hSig)], hDb⟩
  case h_2 hNew =>
    refine ⟨_, rfl, fun sig c hc => ?_⟩
    rw [ChunkDB.read, List.lookup_cons] at hc
    by_cases hEq : sig = explodeHash b
    · rw [beq_iff_eq.mpr hEq] at hc
      cases hc
      exact ⟨hb, hEq.symm⟩
    · rw [beq_false_of_ne hEq] at hc
      exact hDb sig c hc

theorem ChunkDB.Within.parseTrace (hInj : Set.InjOn explodeHash chunks) {accesses : List Access}
    (hDb : db.Within chunks)
    (hIn : ∀ loc b, Access.read loc b ∈ accesses ∨ Access.write loc b ∈ accesses → b ∈ chunks) :
    ∃ log db', parseTrace accesses db = some (log, db') ∧
      db'.Within chunks ∧ db.Extends db' ∧
      ∀ loc b, Access.write loc b ∈ accesses → db'.read (explodeHash b) = some b := by
  induction accesses generalizing db with
  | nil => exact ⟨[], db, rfl, hDb, .refl db, fun loc b h => absurd h List.not_mem_nil⟩
  | cons a rest ih =>
    obtain ⟨r, mid, hRec, hMid, hGrows, hStored⟩ : ∃ r mid, a.toRec db = some (r, mid) ∧
        mid.Within chunks ∧ db.Extends mid ∧
        ∀ loc b, Access.write loc b = a → mid.read (explodeHash b) = some b := by
      cases a with
      | read loc b =>
        obtain ⟨mid, hWrite, hMid⟩ := hDb.write hInj (hIn loc b (.inl List.mem_cons_self))
        refine ⟨_, mid, by rw [Access.toRec, hWrite]; rfl, hMid, (write_spec hWrite).2.2, ?_⟩
        intro loc b hEq
        cases hEq
      | write loc b =>
        obtain ⟨mid, hWrite, hMid⟩ := hDb.write hInj (hIn loc b (.inr List.mem_cons_self))
        refine ⟨_, mid, by rw [Access.toRec, hWrite]; rfl, hMid, (write_spec hWrite).2.2, ?_⟩
        intro loc b hEq
        cases hEq
        exact (write_spec hWrite).2.1
    obtain ⟨log, db', hParse, hDb', hMore, hRest⟩ := ih hMid fun loc b h =>
      hIn loc b (h.imp (List.mem_cons_of_mem a) (List.mem_cons_of_mem a))
    refine ⟨r :: log, db', ?_, hDb', hGrows.trans hMore, ?_⟩
    · rw [Crash.parseTrace, hRec, Option.bind_eq_bind, Option.bind_some, hParse]
      rfl
    · intro loc b hMem
      rcases List.mem_cons.mp hMem with hEq | hMem
      · exact hMore _ b (hStored loc b hEq)
      · exact hRest loc b hMem

end

theorem mem_of_firstWrite {accesses : List Access} {loc : SectorLoc} {b : Chunk}
    (h : firstWrite accesses = some (loc, b)) : Access.write loc b ∈ accesses := by
  induction accesses with
  | nil => cases h
  | cons a rest ih =>
    cases a with
    | read => exact List.mem_cons_of_mem _ (ih h)
    | write =>
      cases h
      exact List.mem_cons_self

theorem firstPhase_of_run [ChunkHash] {prog : Program} {disks dev : BlockDevDataVec}
    {accesses : List Access} (hRun : prog.run disks = some (accesses, dev)) (known : WrSet) :
    ∃ reads, prog.firstPhase disks known = some (reads, firstWrite accesses) := by
  induction prog generalizing accesses known with
  | done =>
    cases hRun
    exact ⟨known, rfl⟩
  | read loc next ih =>
    rw [Program.run] at hRun
    obtain ⟨b, hRead, hRun⟩ := Option.bind_eq_some_iff.mp hRun
    obtain ⟨rest, hRest, hRun⟩ := Option.bind_eq_some_iff.mp hRun
    cases hRun
    rw [Program.firstPhase, hRead, Option.bind_some, firstWrite]
    exact ih b hRest _
  | write loc b next ih =>
    rw [Program.run] at hRun
    obtain ⟨dev', hWrite, hRun⟩ := Option.bind_eq_some_iff.mp hRun
    obtain ⟨rest, hRest, hRun⟩ := Option.bind_eq_some_iff.mp hRun
    cases hRun
    exact ⟨known, rfl⟩

namespace Node

section
variable [ChunkHash] (chunks : Set Chunk) (prog : Program)

def Sound : Node → WrSet → Prop
  | .null, _ => True
  | .leaf wrSet, path => ∀ disks, Scope chunks prog disks → Answers disks path →
    ∃ first, prog.firstPhase disks [] = some (path, first) ∧
      wrSet = wrSetOf first
  | .read loc next, path =>
    (∀ disks, Scope chunks prog disks → Answers disks path → ∃ sig rest first,
      prog.firstPhase disks [] = some (path ++ (loc, sig) :: rest, first)) ∧
    ∀ sig, (next sig).Sound (path ++ [(loc, sig)])

end

def Stored (db : ChunkDB) : Node → Prop
  | .null => True
  | .leaf wrSet => ∀ w ∈ wrSet, (db.read w.2).isSome
  | .read _ next => ∀ sig, (next sig).Stored db

theorem Stored.mono {db db' : ChunkDB} (hGrows : db.Extends db') {n : Node} (h : n.Stored db) :
    n.Stored db' := by
  induction n with
  | null => trivial
  | leaf wrSet =>
    intro w hw
    obtain ⟨b, hb⟩ := Option.isSome_iff_exists.mp (h w hw)
    exact Option.isSome_iff_exists.mpr ⟨b, hGrows _ b hb⟩
  | read loc next ih => exact fun sig => ih sig (h sig)

section
variable [ChunkHash] {chunks : Set Chunk} {prog : Program}
  {disks : BlockDevDataVec} {db : ChunkDB} {path more : WrSet}
  {first : Option (SectorLoc × Chunk)} {wrSet : WrSet}

omit [ChunkHash] in
theorem forall_update {motive : Signature → Node → Prop} (next : Signature → Node)
    (h : ∀ sig, motive sig (next sig)) {sig : Signature} {child : Node}
    (hChild : motive sig child) (sig' : Signature) :
    motive sig' (Function.update next sig child sig') :=
  (Function.forall_update_iff next motive).mpr ⟨hChild, fun sig' _ => h sig'⟩ sig'

variable (hInj : Set.InjOn explodeHash chunks) (hScope : Scope chunks prog disks)
include hInj hScope

theorem add_null (hPhase : prog.firstPhase disks [] = some (path ++ more, first))
    (hSaved : ∀ w ∈ wrSetOf first, (db.read w.2).isSome) :
    ∃ n, add (wrSetOf first) .null more = .ok n ∧
      n.Sound chunks prog path ∧ n.Stored db := by
  have hNone := answers_nil disks
  induction more generalizing path with
  | nil =>
    refine ⟨_, rfl, ?_, hSaved⟩
    intro disks' hScope' hAnswers
    rw [List.append_nil] at hPhase
    exact ⟨first, firstPhase_eq_of_answers hInj hScope.sectors hScope'.sectors hNone hPhase
      hAnswers, rfl⟩
  | cons r rest ih =>
    obtain ⟨loc, sig⟩ := r
    obtain ⟨child, hChild, hSound, hStored⟩ := ih (by rw [← List.append_cons]; exact hPhase)
    refine ⟨.read loc (Function.update (fun _ => .null) sig child), ?_, ⟨?_, ?_⟩, ?_⟩
    · rw [add, hChild]
      rfl
    · intro disks' hScope' hAnswers
      obtain ⟨accesses, dev, hRun, _⟩ := hScope'.runs
      obtain ⟨reads', hPhase'⟩ := firstPhase_of_run hRun []
      obtain ⟨sig', rest', hReads⟩ := firstPhase_next_of_answers hInj hScope.sectors
        hScope'.sectors hNone hPhase hPhase' hAnswers
      exact ⟨sig', rest', _, by rw [hPhase', hReads]; rfl⟩
    · exact forall_update (motive := fun sig' n =>
        n.Sound chunks prog (path ++ [(loc, sig')]))
        (fun _ => .null) (fun _ => trivial) hSound
    · exact forall_update (fun _ => .null) (fun _ => trivial) hStored

theorem find_spec (hDb : db.Within chunks) {n : Node} (hSound : n.Sound chunks prog path)
    (hStored : n.Stored db) (hAnswers : Answers disks path) :
    ∃ found db', n.find disks db = .ok (found, db') ∧
      db'.Within chunks ∧ db.Extends db' ∧
      ∀ wrSet, found = some wrSet → (∀ w ∈ wrSet, (db'.read w.2).isSome) ∧
        ∃ reads first, prog.firstPhase disks [] = some (reads, first) ∧
          wrSet = wrSetOf first := by
  induction n generalizing path db with
  | null =>
    refine ⟨none, db, rfl, hDb, .refl db, ?_⟩
    intro wrSet hFound
    cases hFound
  | leaf wrSet =>
    refine ⟨some wrSet, db, rfl, hDb, .refl db, ?_⟩
    intro wrSet' hFound
    cases hFound
    obtain ⟨first, hPhase, hEq⟩ := hSound disks hScope hAnswers
    exact ⟨hStored, path, first, hPhase, hEq⟩
  | read loc next ih =>
    obtain ⟨sig, rest, first, hPhase⟩ := hSound.1 disks hScope hAnswers
    obtain ⟨_, _, hAll⟩ := firstPhase_reads (answers_nil disks) hPhase
    obtain ⟨b, hRead, _⟩ := hAll (loc, sig) (by simp)
    obtain ⟨db', hWrite, hDb'⟩ := hDb.write hInj (hScope.sectors loc b hRead)
    have hGrows := (ChunkDB.write_spec hWrite).2.2
    obtain ⟨found, db'', hFind, hDb'', hGrows', hFound⟩ := ih (explodeHash b) hDb'
      (hSound.2 (explodeHash b)) ((hStored (explodeHash b)).mono hGrows) (hAnswers.push hRead)
    refine ⟨found, db'', ?_, hDb'', hGrows.trans hGrows', hFound⟩
    rw [find, BlockDevDataVec.read, hRead, Option.bind_some, hWrite]
    exact hFind

theorem add_spec {n : Node} (hSound : n.Sound chunks prog path) (hStored : n.Stored db)
    (hPhase : prog.firstPhase disks [] = some (path ++ more, first))
    (hSaved : ∀ w ∈ wrSetOf first, (db.read w.2).isSome) {before after : ChunkDB}
    (hMiss : n.find disks before = .ok (none, after)) :
    ∃ n', n.add (wrSetOf first) more = .ok n' ∧
      n'.Sound chunks prog path ∧ n'.Stored db := by
  have hAll := (firstPhase_reads (answers_nil disks) hPhase).choose_spec.2
  induction n generalizing path more before with
  | null => exact add_null hInj hScope hPhase hSaved
  | leaf wrSet => cases hMiss
  | read loc next ih =>
    obtain ⟨sig, rest, first', hPhase'⟩ := hSound.1 disks hScope hAll.of_append_left
    rw [hPhase] at hPhase'
    obtain ⟨rfl, rfl⟩ : more = (loc, sig) :: rest ∧ first = first' := by simpa using hPhase'
    obtain ⟨b, hRead, hSig⟩ := hAll (loc, sig) (by simp)
    rw [find, BlockDevDataVec.read, hRead, Option.bind_some] at hMiss
    split at hMiss
    case h_1 => cases hMiss
    case h_2 r hWrite =>
      have hr : r.1 = sig := ((ChunkDB.write_spec hWrite).1).trans hSig
      rw [hr] at hMiss
      rw [List.append_cons] at hPhase hAll
      obtain ⟨child, hChild, hSound', hStored'⟩ := ih sig (hSound.2 sig) (hStored sig) hPhase hMiss
        hAll
      refine ⟨.read loc (Function.update next sig child), ?_, ⟨hSound.1, ?_⟩, ?_⟩
      · rw [add, if_neg (not_not.mpr rfl), hChild]
        rfl
      · exact forall_update (motive := fun sig' n =>
          n.Sound chunks prog (path ++ [(loc, sig')])) next hSound.2 hSound'
      · exact forall_update next hStored hStored'

end

end Node

theorem writeSet_wrSetOf [ChunkHash] {chunks : Set Chunk} {db : ChunkDB} (disks : BlockDevDataVec)
    {first : Option (SectorLoc × Chunk)} (hInj : Set.InjOn explodeHash chunks)
    (hDb : db.Within chunks) (hIn : ∀ loc b, first = some (loc, b) → b ∈ chunks)
    (hSaved : ∀ w ∈ wrSetOf first, (db.read w.2).isSome) :
    BlockDevDataVec.writeSet db disks (wrSetOf first) = applyFirstWrite disks first := by
  cases first with
  | none => rfl
  | some w =>
    obtain ⟨loc, b⟩ := w
    obtain ⟨c, hc⟩ := Option.isSome_iff_exists.mp (hSaved (loc, explodeHash b) List.mem_cons_self)
    obtain ⟨hMem, hSig⟩ := hDb _ c hc
    cases hInj hMem (hIn loc b rfl) hSig
    calc BlockDevDataVec.writeSet db disks [(loc, explodeHash b)]
        = (BlockDevDataVec.write db disks loc (explodeHash b)).bind some := rfl
      _ = disks.writeChunk loc b := by
        rw [Option.bind_fun_some, BlockDevDataVec.write, hc]
        rfl

namespace Fsck

section
variable [ChunkHash] {chunks : Set Chunk} {prog : Program} {f : Fsck}
  {disks : BlockDevDataVec}

/-- The cached tree records runs of `prog`, whose chunks the database holds. -/
structure Good (chunks : Set Chunk) (prog : Program) (f : Fsck) : Prop where
  sound : f.root.Sound chunks prog []
  within : f.db.Within chunks
  stored : f.root.Stored f.db

theorem run_good (hInj : Set.InjOn explodeHash chunks) (hReads : ∃ loc next, prog = .read loc next)
    (hGood : f.Good chunks prog) (hScope : Scope chunks prog disks) : ∃ accesses dev f',
      f.run prog disks = .ok (dev, f') ∧ prog.run disks = some (accesses, dev) ∧
      f'.Good chunks prog := by
  obtain ⟨accesses, dev, hRun, hIn, hDev⟩ := hScope.runs
  have hFirst : ∀ loc b, firstWrite accesses = some (loc, b) → b ∈ chunks := fun loc b h =>
    hIn loc b (.inr (mem_of_firstWrite h))
  obtain ⟨reads, hPhase⟩ := firstPhase_of_run hRun []
  obtain ⟨found, db, hFind, hDb, hGrows, hFound⟩ := Node.find_spec hInj hScope hGood.within
    hGood.sound hGood.stored (answers_nil disks)
  refine ⟨accesses, dev, ?_⟩
  cases found with
  | some wrSet =>
    obtain ⟨hSaved, _, _, hPhase', rfl⟩ := hFound wrSet rfl
    cases hPhase.symm.trans hPhase'
    refine ⟨{ f with db := db }, ?_, hRun, hGood.sound, hDb, hGood.stored.mono hGrows⟩
    have hWrites := writeSet_wrSetOf disks hInj hDb hFirst hSaved
    have hHit : f.runCached disks = .ok (true, dev, db) := by
      rw [runCached, hFind]
      simp only [bind, Except.bind]
      rw [hWrites, hDev]
      rfl
    rw [run, hHit]
    rfl
  | none =>
    obtain ⟨log, db', hParse, hDb', hGrows', hWritten⟩ := hDb.parseTrace hInj hIn
    obtain ⟨reads', first', hPhase', hScan⟩ := scanLog_run [] hRun hParse
    cases hPhase.symm.trans hPhase'
    have hSaved : ∀ w ∈ wrSetOf (firstWrite accesses), (db'.read w.2).isSome := by
      intro w hw
      cases hWrite : firstWrite accesses with
      | none =>
        rw [hWrite] at hw
        exact absurd hw List.not_mem_nil
      | some first =>
        rw [hWrite] at hw
        cases List.mem_singleton.mp hw
        exact Option.isSome_iff_exists.mpr
          ⟨first.2, hWritten first.1 first.2 (mem_of_firstWrite hWrite)⟩
    obtain ⟨root, hAdd, hSound, hStored⟩ := Node.add_spec hInj hScope hGood.sound
      ((hGood.stored.mono hGrows).mono hGrows') hPhase hSaved hFind
    refine ⟨⟨root, db'⟩, ?_, hRun, hSound, hDb', hStored⟩
    have hSome : reads ≠ [] := by
      obtain ⟨loc, next, rfl⟩ := hReads
      obtain ⟨b, hRead, hPhase⟩ := Option.bind_eq_some_iff.mp hPhase
      obtain ⟨more, hMore, _⟩ := firstPhase_reads ((answers_nil disks).push hRead) hPhase
      rw [hMore]
      simp
    have hMiss : f.runCached disks = .ok (false, disks, db) := by
      rw [runCached, hFind]
      rfl
    have hCache : addToCache { f with db := db' } (scanLog log []) = .ok ⟨root, db'⟩ := by
      rw [addToCache, hScan.1, hScan.2, if_neg hSome, hAdd]
      rfl
    rw [run, hMiss]
    simp only [bind, Except.bind, runReal]
    rw [if_neg Bool.false_ne_true, hRun]
    simp only []
    rw [hParse]
    simp only [hCache]
    rfl

theorem runAll_good (hInj : Set.InjOn explodeHash chunks)
    (hReads : ∃ loc next, prog = .read loc next) {runs : List BlockDevDataVec}
    (hGood : f.Good chunks prog) (hScope : ∀ disks ∈ runs, Scope chunks prog disks) :
    ∃ devs, f.runAll prog runs = .ok devs ∧
      List.Forall₂ (fun disks dev => ∃ accesses, prog.run disks = some (accesses, dev)) runs
        devs := by
  induction runs generalizing f with
  | nil => exact ⟨[], rfl, .nil⟩
  | cons disks rest ih =>
    obtain ⟨hFirst, hRest⟩ := List.forall_mem_cons.mp hScope
    obtain ⟨accesses, dev, f', hRun, hProg, hGood'⟩ := run_good hInj hReads hGood hFirst
    obtain ⟨devs, hMore, hDevs⟩ := ih hGood' hRest
    refine ⟨dev :: devs, ?_, .cons ⟨accesses, hProg⟩ hDevs⟩
    rw [runAll, hRun]
    simp only [bind, Except.bind]
    rw [hMore]
    rfl

/-- Runs from the empty cache never fail and leave what the program leaves, when the program starts
with a read and its writes after the first change nothing. -/
theorem runAll_eq_program {db : ChunkDB} {runs : List BlockDevDataVec}
    (hInj : Set.InjOn explodeHash chunks) (hDb : db.Within chunks)
    (hReads : ∃ loc next, prog = .read loc next)
    (hScope : ∀ disks ∈ runs, Scope chunks prog disks) :
    ∃ devs, (start db).runAll prog runs = .ok devs ∧
      List.Forall₂ (fun disks dev => ∃ accesses, prog.run disks = some (accesses, dev)) runs devs :=
  runAll_good hInj hReads ⟨trivial, hDb, trivial⟩ hScope

end

def copySector : Program := .read (0, 0) fun b => .write (0, 1) b .done

attribute [local instance] checksumHash

theorem runAll_eq_program_copySector :
    ∃ devs, (start ⟨[]⟩).runAll copySector
        [[⟨0, [[1], [2]]⟩], [⟨0, [[3], [2]]⟩], [⟨0, [[1], [3]]⟩]] = .ok devs ∧
      List.Forall₂ (fun disks dev => ∃ accesses, copySector.run disks = some (accesses, dev))
        [[⟨0, [[1], [2]]⟩], [⟨0, [[3], [2]]⟩], [⟨0, [[1], [3]]⟩]] devs := by
  have hInj : Set.InjOn checksum {b | b ∈ [[1], [2], [3]]} := by
    intro b hb c hc
    revert hb hc
    simp only [Set.mem_ofPred_eq, List.mem_cons, List.not_mem_nil, or_false]
    rintro (rfl | rfl | rfl) (rfl | rfl | rfl) <;> decide
  apply runAll_eq_program hInj
  · intro sig b h
    cases h
  · exact ⟨_, _, rfl⟩
  · intro disks hDisks
    refine ⟨fun loc b hb => ?_, ?_⟩
    · obtain ⟨d, hd, hMem⟩ := BlockDevDataVec.mem_of_readChunk hb
      revert disks
      simp only [List.mem_cons, List.not_mem_nil, or_false, Set.mem_ofPred_eq]
      rintro disks (rfl | rfl | rfl) hRead <;> simp <;> grind
    · simp only [List.mem_cons, List.not_mem_nil, or_false] at hDisks
      rcases hDisks with rfl | rfl | rfl
      all_goals exact ⟨_, _, rfl, by simp; grind, rfl⟩

/-- A program that writes two sectors. The second run finds only the first write in the cache. -/
theorem second_write_not_cached :
    let prog : Program := .read (0, 0) fun _ => .write (0, 1) [7] (.write (0, 2) [8] .done)
    let disks : BlockDevDataVec := [⟨0, [[1], [2], [3]]⟩]
    (prog.run disks).map Prod.snd = some [⟨0, [[1], [7], [8]]⟩] ∧
      (start ⟨[]⟩).runAll prog [disks, disks] =
        .ok [[⟨0, [[1], [7], [8]]⟩], [⟨0, [[1], [7], [3]]⟩]] := by
  exact ⟨by decide, rfl⟩

-- a program that writes before it reads ends the first run
example : (start ⟨[]⟩).runAll (.write (0, 1) [7] .done) [[⟨0, [[1], [2]]⟩]] =
    .error .nothingRead := rfl

end Fsck

end Explode.Crash
