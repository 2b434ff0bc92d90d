import Explode.Crash.FsckCache

/-!
# The recovery cache as a map

Traces of one deterministic reader go into the decision tree without a
conflict. The tree then leads exactly along their reads to their writes, so
a disk is found if and only if it answers the reads of one of them.
-/

namespace Explode.Crash

def SameNext (q r : WrSet) : Prop :=
  ∀ known a b, known ++ [a] <+: q → known ++ [b] <+: r → a.1 = b.1

structure Branches (q r : WrSet) : Prop where
  next : SameNext q r
  left : ¬q <+: r
  right : ¬r <+: q

theorem Branches.of_cons {a : SectorLoc × Signature} {q r : WrSet}
    (h : Branches (a :: q) (a :: r)) : Branches q r where
  next known b c hb hc :=
    h.next (a :: known) b c (List.cons_prefix_cons.mpr ⟨rfl, hb⟩)
      (List.cons_prefix_cons.mpr ⟨rfl, hc⟩)
  left hPre := h.left (List.cons_prefix_cons.mpr ⟨rfl, hPre⟩)
  right hPre := h.right (List.cons_prefix_cons.mpr ⟨rfl, hPre⟩)

theorem Branches.head_eq {a b : SectorLoc × Signature} {q r : WrSet}
    (h : Branches (a :: q) (b :: r)) : a.1 = b.1 :=
  h.next [] a b (List.cons_prefix_cons.mpr ⟨rfl, List.nil_prefix⟩)
    (List.cons_prefix_cons.mpr ⟨rfl, List.nil_prefix⟩)

theorem branches_of_ne {loc : SectorLoc} {sig sig' : Signature} (hNe : sig ≠ sig')
    (q r : WrSet) : Branches ((loc, sig) :: q) ((loc, sig') :: r) := by
  have hHeads : ((loc, sig) : SectorLoc × Signature) ≠ (loc, sig') :=
    fun h => hNe (Prod.ext_iff.mp h).2
  constructor
  · intro known a b ha hb
    cases known with
    | nil =>
      rw [(List.cons_prefix_cons.mp ha).1, (List.cons_prefix_cons.mp hb).1]
    | cons c known =>
      exact absurd ((List.cons_prefix_cons.mp ha).1.symm.trans (List.cons_prefix_cons.mp hb).1)
        hHeads
  · exact fun h => hHeads (List.cons_prefix_cons.mp h).1
  · exact fun h => hHeads (List.cons_prefix_cons.mp h).1.symm

namespace Node

def Leads : Node → WrSet → WrSet → Prop
  | .null, _, _ => False
  | .leaf wrSet, path, writes => path = [] ∧ writes = wrSet
  | .read loc next, path, writes =>
    ∃ sig rest, path = (loc, sig) :: rest ∧ (next sig).Leads rest writes

def Live : Node → Prop
  | .null => True
  | .leaf _ => True
  | .read _ next => (∃ sig, next sig ≠ .null) ∧ ∀ sig, (next sig).Live

section
variable {n n' : Node} {path q writes wrSet : WrSet}
  {loc : SectorLoc} {sig : Signature} {next : Signature → Node} {child : Node}

theorem Live.exists_leads (h : n.Live) (hNull : n ≠ .null) : ∃ q writes, n.Leads q writes := by
  induction n with
  | null => exact absurd rfl hNull
  | leaf wrSet => exact ⟨[], wrSet, rfl, rfl⟩
  | read loc next ih =>
    obtain ⟨⟨sig, hSome⟩, hBelow⟩ := h
    obtain ⟨q, writes, hLeads⟩ := ih sig (hBelow sig) hSome
    exact ⟨(loc, sig) :: q, writes, sig, q, rfl, hLeads⟩

theorem ne_null_of_leads (h : n.Leads q writes) : n ≠ .null := by
  rintro rfl
  exact h

theorem Live.update (h : ∀ sig, (next sig).Live) (hChild : child.Live) (hNull : child ≠ .null) :
    (Node.read loc (Function.update next sig child)).Live := by
  constructor
  · exact ⟨sig, by rwa [Function.update_self]⟩
  · exact forall_update next h hChild

theorem leads_update (next : Signature → Node)
    (hChild : ∀ q, child.Leads q writes ↔ q = path ∧ writes = wrSet ∨ (next sig).Leads q writes) :
    (Node.read loc (Function.update next sig child)).Leads q writes ↔
      q = (loc, sig) :: path ∧ writes = wrSet ∨ (Node.read loc next).Leads q writes := by
  constructor
  · rintro ⟨sig', rest, rfl, hLeads⟩
    by_cases hEq : sig' = sig
    · subst hEq
      rw [Function.update_self] at hLeads
      rcases (hChild rest).mp hLeads with ⟨rfl, hWrites⟩ | hOld
      · exact .inl ⟨rfl, hWrites⟩
      · exact .inr ⟨sig', rest, rfl, hOld⟩
    · rw [Function.update_of_ne hEq] at hLeads
      exact .inr ⟨sig', rest, rfl, hLeads⟩
  · rintro (⟨rfl, hWrites⟩ | ⟨sig', rest, rfl, hLeads⟩)
    · refine ⟨sig, path, rfl, ?_⟩
      rw [Function.update_self]
      exact (hChild path).mpr (.inl ⟨rfl, hWrites⟩)
    · refine ⟨sig', rest, rfl, ?_⟩
      by_cases hEq : sig' = sig
      · subst hEq
        rw [Function.update_self]
        exact (hChild rest).mpr (.inr hLeads)
      · rwa [Function.update_of_ne hEq]

theorem add_null_cons (h : add wrSet .null ((loc, sig) :: path) = .ok n') :
    ∃ child, add wrSet .null path = .ok child ∧
      n' = .read loc (Function.update (fun _ => .null) sig child) := by
  obtain ⟨child, hChild, h⟩ := Loop.bind_eq_ok h
  cases h
  exact ⟨child, hChild, rfl⟩

theorem add_read_cons {here : SectorLoc}
    (h : add wrSet (.read here next) ((loc, sig) :: path) = .ok n') :
    here = loc ∧ ∃ child, add wrSet (next sig) path = .ok child ∧
      n' = .read here (Function.update next sig child) := by
  rw [add] at h
  split_ifs at h with hNe
  obtain ⟨child, hChild, h⟩ := Loop.bind_eq_ok h
  cases h
  exact ⟨not_not.mp hNe, child, hChild, rfl⟩

theorem leads_add (h : n.add wrSet path = .ok n') : n'.Leads q writes ↔
    q = path ∧ writes = wrSet ∨ n.Leads q writes := by
  induction path generalizing n n' q with
  | nil =>
    cases n with
    | null =>
      cases h
      exact (or_iff_left id).symm
    | leaf _ => cases h
    | read _ _ => cases h
  | cons r rest ih =>
    obtain ⟨loc, sig⟩ := r
    cases n with
    | null =>
      obtain ⟨child, hChild, rfl⟩ := add_null_cons h
      rw [leads_update (fun _ => .null) fun q => ih hChild]
      apply or_congr_right
      constructor
      · rintro ⟨_, _, _, hLeads⟩
        exact hLeads
      · exact False.elim
    | leaf _ => cases h
    | read here next =>
      obtain ⟨rfl, child, hChild, rfl⟩ := add_read_cons h
      exact leads_update next fun q => ih hChild

theorem add_of_branches (wrSet : WrSet) (hLive : n.Live)
    (hBranches : ∀ q writes, n.Leads q writes → Branches q path) :
    ∃ n', n.add wrSet path = .ok n' ∧ n'.Live := by
  induction path generalizing n with
  | nil =>
    have hNull : n = .null := by
      by_contra hNull
      obtain ⟨q, writes, hLeads⟩ := hLive.exists_leads hNull
      exact (hBranches q writes hLeads).right List.nil_prefix
    subst hNull
    exact ⟨.leaf wrSet, rfl, trivial⟩
  | cons r rest ih =>
    obtain ⟨loc, sig⟩ := r
    have hPlace : ∀ next : Signature → Node, (∀ sig, (next sig).Live) →
        (∀ q writes, (next sig).Leads q writes → Branches q rest) →
        ∃ child, (next sig).add wrSet rest = .ok child ∧
          (Node.read loc (Function.update next sig child)).Live := by
      intro next hBelow hNext
      obtain ⟨child, hChild, hChildLive⟩ := ih (hBelow sig) hNext
      have hLeads : child.Leads rest wrSet := (leads_add hChild).mpr (.inl ⟨rfl, rfl⟩)
      exact ⟨child, hChild, Live.update hBelow hChildLive (ne_null_of_leads hLeads)⟩
    cases n with
    | null =>
      obtain ⟨child, hChild, hNew⟩ := hPlace (fun _ => .null) (fun _ => trivial) fun _ _ h => h.elim
      refine ⟨_, ?_, hNew⟩
      rw [add, hChild]
      rfl
    | leaf writes => exact absurd List.nil_prefix (hBranches [] writes ⟨rfl, rfl⟩).left
    | read here next =>
      obtain ⟨q, writes, hLeads⟩ := hLive.exists_leads (by simp)
      have hWay := hLeads
      obtain ⟨sig', rest', rfl, -⟩ := hWay
      obtain rfl : here = loc := (hBranches _ writes hLeads).head_eq
      obtain ⟨child, hChild, hNew⟩ := hPlace next hLive.2 fun q writes hq =>
        (hBranches ((here, sig) :: q) writes ⟨sig, q, rfl, hq⟩).of_cons
      refine ⟨_, ?_, hNew⟩
      rw [add, if_neg (not_not.mpr rfl), hChild]
      rfl

end

section
variable {chunks : Set Chunk} {disks : BlockDevDataVec}
  {db : ChunkDB} {n n' : Node} {path q writes wrSet : WrSet}

theorem answers_cons [ChunkHash] {loc : SectorLoc} {sig : Signature} {b : Chunk}
    (hRead : disks.readChunk loc = some b) :
    Answers disks ((loc, sig) :: q) ↔
      explodeHash b = sig ∧ Answers disks q := by
  unfold Answers
  rw [List.forall_mem_cons]
  simp [hRead]

theorem find_leads [ChunkHash] (hInj : Set.InjOn explodeHash chunks) (hDb : db.Within chunks)
    (hIn : ∀ loc b, disks.readChunk loc = some b → b ∈ chunks) (hLive : n.Live)
    (hThere : ∀ q writes, n.Leads q writes → ∀ r ∈ q, (disks.readChunk r.1).isSome) :
    ∃ found db', n.find disks db = .ok (found, db') ∧ db.Extends db' ∧
      ∀ writes, found = some writes ↔ ∃ q, n.Leads q writes ∧ Answers disks q := by
  induction n generalizing db with
  | null =>
    refine ⟨none, db, rfl, .refl db, fun writes => ?_⟩
    simp [Leads]
  | leaf wrSet =>
    refine ⟨some wrSet, db, rfl, .refl db, fun writes => ?_⟩
    constructor
    · rintro ⟨⟩
      exact ⟨[], ⟨rfl, rfl⟩, answers_nil disks⟩
    · rintro ⟨q, ⟨_, rfl⟩, _⟩
      rfl
  | read loc next ih =>
    obtain ⟨q, writes, hLeads⟩ := hLive.exists_leads (by simp)
    have hWay := hLeads
    obtain ⟨sig, rest, hq, -⟩ := hWay
    subst hq
    obtain ⟨b, hRead⟩ := Option.isSome_iff_exists.mp (hThere _ writes hLeads (loc, sig) (by simp))
    obtain ⟨mid, hWrite, hMid⟩ := hDb.write hInj (hIn loc b hRead)
    obtain ⟨found, db', hFind, hGrows, hFound⟩ := ih (explodeHash b) hMid (hLive.2 _)
      fun q writes hq r hr => hThere ((loc, explodeHash b) :: q) writes ⟨_, q, rfl, hq⟩ r
        (List.mem_cons_of_mem _ hr)
    refine ⟨found, db', ?_, (ChunkDB.write_spec hWrite).2.2.trans hGrows, fun writes => ?_⟩
    · rw [find, BlockDevDataVec.read, hRead, Option.bind_some, hWrite]
      exact hFind
    · rw [hFound]
      constructor
      · rintro ⟨q, hq, hAnswers⟩
        exact ⟨(loc, explodeHash b) :: q, ⟨_, q, rfl, hq⟩, (answers_cons hRead).mpr ⟨rfl, hAnswers⟩⟩
      · rintro ⟨_, ⟨sig, q, rfl, hq⟩, hAnswers⟩
        obtain ⟨rfl, hRest⟩ := (answers_cons hRead).mp hAnswers
        exact ⟨q, hq, hRest⟩

theorem find_add [ChunkHash] (hAdd : n.add wrSet path = .ok n') (hLeads : n.Leads q writes)
    (hAnswers : Answers disks q) :
    n'.find disks db = n.find disks db := by
  induction n generalizing n' path q db with
  | null => exact hLeads.elim
  | leaf wrSet =>
    cases path with
    | nil => cases hAdd
    | cons _ _ => cases hAdd
  | read here next ih =>
    cases path with
    | nil => cases hAdd
    | cons r path =>
      obtain ⟨rfl, child, hChild, rfl⟩ := add_read_cons hAdd
      obtain ⟨sig, rest, rfl, hRest⟩ := hLeads
      obtain ⟨b, hRead, hSig⟩ := hAnswers _ List.mem_cons_self
      rw [find, find, BlockDevDataVec.read, hRead, Option.bind_some]
      cases hWrite : db.write b with
      | none => rfl
      | some stored =>
        have hStored : stored.1 = sig := (ChunkDB.write_spec hWrite).1.trans hSig
        simp only [hStored]
        by_cases hEq : sig = r.2
        · subst hEq
          rw [Function.update_self]
          exact ih _ hChild hRest ((answers_cons hRead).mp hAnswers).2
        · rw [Function.update_of_ne hEq]

end

end Node

namespace Fsck

section
variable {chunks : Set Chunk} {f f' : Fsck} {t : Trace}
  {traces : List Trace} {db : ChunkDB}

theorem addToCache_ok (h : f.addToCache t = .ok f') :
    t.reads ≠ [] ∧ f.root.add t.wrSet t.reads = .ok f'.root ∧ f'.db = f.db := by
  rw [addToCache] at h
  split_ifs at h with hNone
  obtain ⟨root, hAdd, h⟩ := Loop.bind_eq_ok h
  cases h
  exact ⟨hNone, hAdd, rfl⟩

/-- The traces of one deterministic reader, each once. -/
def OneReader (traces : List Trace) : Prop := traces.Pairwise fun t u => Branches t.reads u.reads

theorem addAll_cons : f.addAll (t :: traces) = (f.addToCache t).bind fun f => f.addAll traces :=
  List.foldlM_cons ..

theorem addAll_leads (h : f.addAll traces = .ok f') : f'.db = f.db ∧ (∀ t ∈ traces, t.reads ≠ []) ∧
    ∀ q writes, f'.root.Leads q writes ↔
      (∃ t ∈ traces, q = t.reads ∧ writes = t.wrSet) ∨ f.root.Leads q writes := by
  induction traces generalizing f with
  | nil =>
    cases h
    exact ⟨rfl, List.forall_mem_nil _, by simp⟩
  | cons t rest ih =>
    rw [addAll_cons] at h
    obtain ⟨mid, hFirst, hRest⟩ := Loop.bind_eq_ok h
    obtain ⟨hRead, hAdd, hDb⟩ := addToCache_ok hFirst
    obtain ⟨hDb', hReads, hLeads⟩ := ih hRest
    refine ⟨hDb'.trans hDb, List.forall_mem_cons.mpr ⟨hRead, hReads⟩, fun q writes => ?_⟩
    rw [hLeads, Node.leads_add hAdd, List.exists_mem_cons_iff, ← or_assoc,
      or_comm (a := ∃ x ∈ rest, _)]

theorem addAll_of_reads (hLive : f.root.Live) (hReader : OneReader traces)
    (hOld : ∀ q writes, f.root.Leads q writes → ∀ t ∈ traces, Branches q t.reads)
    (hReads : ∀ t ∈ traces, t.reads ≠ []) : ∃ f', f.addAll traces = .ok f' ∧ f'.root.Live := by
  induction traces generalizing f with
  | nil => exact ⟨f, rfl, hLive⟩
  | cons t rest ih =>
    obtain ⟨hFirst, hRest⟩ := List.pairwise_cons.mp hReader
    obtain ⟨hRead, hReads⟩ := List.forall_mem_cons.mp hReads
    obtain ⟨root, hAdd, hRoot⟩ := Node.add_of_branches t.wrSet hLive fun q writes hq =>
      hOld q writes hq t List.mem_cons_self
    have hCache : f.addToCache t = .ok { f with root } := by
      rw [addToCache, if_neg hRead, hAdd]
      rfl
    rw [addAll_cons, hCache]
    apply ih hRoot hRest _ hReads
    intro q writes hq u hu
    rcases (Node.leads_add hAdd).mp hq with ⟨rfl, _⟩ | hq
    · exact hFirst u hu
    · exact hOld q writes hq u (List.mem_cons_of_mem t hu)

theorem addAll_start (hReader : OneReader traces) :
    (∃ f, (start db).addAll traces = .ok f) ↔ ∀ t ∈ traces, t.reads ≠ [] := by
  constructor
  · rintro ⟨f, h⟩
    exact (addAll_leads h).2.1
  · intro hReads
    obtain ⟨f, h, _⟩ := addAll_of_reads (f := start db) trivial hReader (fun _ _ h => h.elim) hReads
    exact ⟨f, h⟩

theorem live_of_addAll (hReader : OneReader traces) (h : (start db).addAll traces = .ok f) :
    f.root.Live := by
  obtain ⟨f', h', hLive⟩ := addAll_of_reads (f := start db) trivial hReader (fun _ _ h => h.elim)
    (addAll_leads h).2.1
  cases h.symm.trans h'
  exact hLive

theorem start_leads (h : (start db).addAll traces = .ok f) (q writes : WrSet) :
    f.root.Leads q writes ↔ ∃ t ∈ traces, q = t.reads ∧ writes = t.wrSet :=
  ((addAll_leads h).2.2 q writes).trans (or_iff_left id)

theorem runCached_congr [ChunkHash] {root root' : Node} {disks : BlockDevDataVec}
    (h : root.find disks db = root'.find disks db) :
    runCached ⟨root, db⟩ disks = runCached ⟨root', db⟩ disks := by
  rw [runCached, runCached, h]

/-- A disk hits when it answers the reads of an added trace, whose writes then replace the sectors
that they name and no others, and it misses and is left as it is when it answers none. -/
theorem addAll_exact [ChunkHash] (hInj : Set.InjOn explodeHash chunks) (hDb : db.Within chunks)
    (hReader : OneReader traces) :
    ((∃ f, (start db).addAll traces = .ok f) ↔ ∀ t ∈ traces, t.reads ≠ []) ∧
    ∀ f, (start db).addAll traces = .ok f → ∀ disks : BlockDevDataVec,
      (∀ loc b, disks.readChunk loc = some b → b ∈ chunks) →
      (∀ t ∈ traces, ∀ r ∈ t.reads, (disks.readChunk r.1).isSome) →
      ∃ db', db.Extends db' ∧
        (∀ t ∈ traces, Answers disks t.reads →
          (BlockDevDataVec.Writable db' disks t.wrSet →
            ∃ dev, f.runCached disks = .ok (true, dev, db') ∧
              ∀ loc, dev.readChunk loc =
                match t.wrSet.lookup loc with
                | some sig => db'.read sig
                | none => disks.readChunk loc) ∧
          (¬BlockDevDataVec.Writable db' disks t.wrSet →
            f.runCached disks = .error .device)) ∧
        ((∀ t ∈ traces, ¬Answers disks t.reads) →
          f.runCached disks = .ok (false, disks, db')) ∧
        ∀ u f', f.addToCache u = .ok f' → (∃ t ∈ traces, Answers disks t.reads) →
          f'.runCached disks = f.runCached disks := by
  refine ⟨addAll_start hReader, fun f hAdd disks hIn hThere => ?_⟩
  have hLeads := start_leads hAdd
  have hSame : f.db = db := (addAll_leads hAdd).1
  obtain ⟨found, db', hFind, hGrows, hFound⟩ := Node.find_leads hInj hDb hIn
    (live_of_addAll hReader hAdd) fun q writes hq r hr => by
      obtain ⟨t, ht, rfl, rfl⟩ := (hLeads q writes).mp hq
      exact hThere t ht r hr
  rw [← hSame] at hFind
  refine ⟨db', hGrows, ?_, ?_, ?_⟩
  · intro t ht hAnswers
    have hHit : found = some t.wrSet :=
      (hFound t.wrSet).mpr ⟨t.reads, (hLeads _ _).mpr ⟨t, ht, rfl, rfl⟩, hAnswers⟩
    rw [runCached, hFind, hHit, ← BlockDevDataVec.isSome_writeSet]
    simp only [bind, Except.bind]
    cases hSet : BlockDevDataVec.writeSet db' disks t.wrSet with
    | none => simp
    | some dev =>
      have hDev := (BlockDevDataVec.writeSet_spec t.nodup hSet).2
      exact ⟨fun _ => ⟨dev, rfl, hDev⟩, fun h => absurd rfl h⟩
  · intro hNone
    have hMiss : found = none := by
      apply Option.eq_none_iff_forall_ne_some.mpr
      intro writes hSome
      obtain ⟨q, hq, hAnswers⟩ := (hFound writes).mp hSome
      obtain ⟨t, ht, rfl, rfl⟩ := (hLeads q writes).mp hq
      exact hNone t ht hAnswers
    rw [runCached, hFind, hMiss]
    rfl
  · rintro u ⟨root', db₁⟩ hMore ⟨t, ht, hAnswers⟩
    obtain ⟨_, hRoot, rfl⟩ := addToCache_ok hMore
    exact runCached_congr (Node.find_add hRoot ((hLeads _ _).mpr ⟨t, ht, rfl, rfl⟩) hAnswers)

def partingTraces : List Trace :=
  [⟨[((0, 0), 1)], [((0, 1), 2)], by decide⟩,
    ⟨[((0, 0), 2), ((0, 1), 1)], [((0, 0), 1), ((0, 1), 2)], by decide⟩]

end

attribute [local instance] checksumHash

theorem addAll_exact_parting : ∃ f, (start ⟨[(1, [1]), (2, [2])]⟩).addAll partingTraces = .ok f ∧
    (∃ dev db', f.runCached [⟨0, [[2], [1], [1]]⟩] = .ok (true, dev, db') ∧
      dev.readChunk (0, 0) = some [1] ∧
      dev.readChunk (0, 1) = some [2] ∧
      dev.readChunk (0, 2) = some [1]) ∧
    ∃ db', f.runCached [⟨0, [[2], [2]]⟩] = .ok (false, [⟨0, [[2], [2]]⟩], db') := by
  have hInj : Set.InjOn checksum {b | b ∈ [[1], [2]]} := by
    intro b hb c hc
    revert hb hc
    simp only [Set.mem_ofPred_eq, List.mem_cons, List.not_mem_nil, or_false]
    rintro (rfl | rfl) (rfl | rfl) <;> decide
  have hDb : ChunkDB.Within {b | b ∈ [[1], [2]]} ⟨[(1, [1]), (2, [2])]⟩ := by
    intro sig b h
    simp only [ChunkDB.read, List.lookup_cons, List.lookup_nil] at h
    split at h
    · cases h
      exact ⟨by simp, by simp_all [explodeHash, checksum]⟩
    · split at h
      · cases h
        exact ⟨by simp, by simp_all [explodeHash, checksum]⟩
      · cases h
  have hReader : OneReader partingTraces := by
    apply List.pairwise_pair.mpr
    exact branches_of_ne (by decide) _ _
  have hIn : ∀ disks ∈ [[(⟨0, [[2], [1], [1]]⟩ : BlockDevData)], [⟨0, [[2], [2]]⟩]], ∀ loc b,
      BlockDevDataVec.readChunk disks loc = some b → b ∈ {b | b ∈ [[1], [2]]} := by
    intro disks hDisks loc b hb
    obtain ⟨d, hd, hMem⟩ := BlockDevDataVec.mem_of_readChunk hb
    revert disks
    simp only [List.mem_cons, List.not_mem_nil, or_false, Set.mem_ofPred_eq]
    rintro disks (rfl | rfl) hRead <;> simp <;> grind
  obtain ⟨hAdd, hExact⟩ := addAll_exact hInj hDb hReader
  obtain ⟨f, hf⟩ := hAdd.mpr (by decide)
  refine ⟨f, hf, ?_, ?_⟩
  · obtain ⟨db', hGrows, hHit, _⟩ :=
      hExact f hf [⟨0, [[2], [1], [1]]⟩] (hIn _ (by simp)) (by decide)
    have hOne : db'.read 1 = some [1] := hGrows 1 [1] rfl
    have hTwo : db'.read 2 = some [2] := hGrows 2 [2] rfl
    obtain ⟨hApplied, _⟩ := hHit _ (List.mem_cons_of_mem _ List.mem_cons_self) (by
      intro r hr
      simp only [List.mem_cons, List.not_mem_nil, or_false] at hr
      rcases hr with rfl | rfl
      · exact ⟨[2], by decide, by decide⟩
      · exact ⟨[1], by decide, by decide⟩)
    obtain ⟨dev, hRun, hDev⟩ := hApplied (by
      intro w hw
      simp only [List.mem_cons, List.not_mem_nil, or_false] at hw
      rcases hw with rfl | rfl
      · exact ⟨by rw [hOne]; rfl, by decide⟩
      · exact ⟨by rw [hTwo]; rfl, by decide⟩)
    exact ⟨dev, db', hRun, (hDev (0, 0)).trans hOne, (hDev (0, 1)).trans hTwo, hDev (0, 2)⟩
  · obtain ⟨db', _, _, hMiss, _⟩ := hExact f hf [⟨0, [[2], [2]]⟩] (hIn _ (by simp)) (by decide)
    refine ⟨db', hMiss ?_⟩
    intro t ht hAnswers
    simp only [partingTraces, List.mem_cons, List.not_mem_nil, or_false] at ht
    rcases ht with rfl | rfl
    · obtain ⟨b, hRead, hSig⟩ := hAnswers ((0, 0), 1) (by simp)
      cases hRead
      revert hSig
      decide
    · obtain ⟨b, hRead, hSig⟩ := hAnswers ((0, 1), 1) (by simp)
      cases hRead
      revert hSig
      decide

end Fsck

end Explode.Crash
