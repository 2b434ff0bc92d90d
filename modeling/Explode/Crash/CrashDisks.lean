import Mathlib.Data.List.Induction
import Explode.Crash.Permuter

/-!
# Only possible crashes are checked

A crash is possible at a position of the log if its disks are the initial ones
with all earlier writes applied, and each location may also hold a version that
was added there since its last removal or write.
-/

namespace Explode.Crash

open MixedRadix Machine Mcl BufferPermuter

def versionsSince (log : List LogRec) (loc : SectorLoc) : List Signature :=
  log.foldl (fun versions r =>
    match r with
    | .sector s =>
      if s.loc = loc then
        match s.type with
        | .add => versions ++ [s.sig]
        | .remove | .write => []
        | .read => versions
      else versions
    | .lastCheck | .curCheck | .other => versions) []

def diskAfter (content : Signature → Option Chunk) (initDisks : BlockDevDataVec)
    (log : List LogRec) (loc : SectorLoc) : Option Chunk :=
  log.foldl (fun chunk r =>
    match r with
    | .sector s => if s.type = .write ∧ s.loc = loc then content s.sig else chunk
    | .lastCheck | .curCheck | .other => chunk) (initDisks.readChunk loc)

def IsChoice (log : List LogRec) (choice : SectorLoc → Option Signature) : Prop :=
  ∀ loc sig, choice loc = some sig → sig ∈ versionsSince log loc

def overlay (content : Signature → Option Chunk) (initDisks : BlockDevDataVec) (log : List LogRec)
    (choice : SectorLoc → Option Signature) (loc : SectorLoc) : Option Chunk :=
  match choice loc with
  | some sig => content sig
  | none => diskAfter content initDisks log loc

def Possible (content : Signature → Option Chunk) (initDisks : BlockDevDataVec)
    (log : List LogRec) (disks : BlockDevDataVec) : Prop :=
  ∃ choice, IsChoice log choice ∧
    ∀ loc, disks.readChunk loc = overlay content initDisks log choice loc

/-- The positions at which crashes are checked: with `now`, those after a `CUR_CHECK` that no
`LAST_CHECK` follows; with `all`, those after a mark. -/
def InEpoch (log : List LogRec) : Wants → Prop
  | .all => .lastCheck ∈ log ∨ .curCheck ∈ log
  | .now => ∃ before after, log = before ++ .curCheck :: after ∧ .lastCheck ∉ after

/-- The positions that the marks announce: a checker that wants all crashes gets those after a
`LAST_CHECK`. -/
def AfterMark (log : List LogRec) : Wants → Prop
  | .all => .lastCheck ∈ log
  | .now => InEpoch log .now

/-- No `CUR_CHECK` stands before the first `LAST_CHECK`. -/
def MarksInOrder (log : List LogRec) : Prop :=
  ∀ done rest, log = done ++ rest → .curCheck ∈ done → .lastCheck ∈ done

def epochAfter (log : List LogRec) : Epoch := log.foldl Epoch.replay .longGonePast

theorem versionsSince_concat (log : List LogRec) (r : LogRec) (loc : SectorLoc) :
    versionsSince (log ++ [r]) loc =
      match r with
      | .sector s =>
        if s.loc = loc then
          match s.type with
          | .add => versionsSince log loc ++ [s.sig]
          | .remove | .write => []
          | .read => versionsSince log loc
        else versionsSince log loc
      | .lastCheck | .curCheck | .other => versionsSince log loc := by
  rw [versionsSince, List.foldl_append]
  rfl

theorem diskAfter_concat (content : Signature → Option Chunk) (initDisks : BlockDevDataVec)
    (log : List LogRec) (r : LogRec) (loc : SectorLoc) :
    diskAfter content initDisks (log ++ [r]) loc =
      match r with
      | .sector s =>
        if s.type = .write ∧ s.loc = loc then content s.sig
        else diskAfter content initDisks log loc
      | .lastCheck | .curCheck | .other => diskAfter content initDisks log loc := by
  rw [diskAfter, List.foldl_append]
  rfl

theorem epochAfter_concat (log : List LogRec) (r : LogRec) :
    epochAfter (log ++ [r]) = (epochAfter log).replay r := by
  rw [epochAfter, List.foldl_append]
  rfl

theorem inEpoch_now_concat (log : List LogRec) (r : LogRec) :
    InEpoch (log ++ [r]) .now ↔ r = .curCheck ∨ (r ≠ .lastCheck ∧ InEpoch log .now) := by
  constructor
  · rintro ⟨before, after, hEq, hAfter⟩
    rcases List.eq_nil_or_concat after with rfl | ⟨after', last, rfl⟩
    · left
      have hLast := congrArg List.getLast? hEq
      simpa using hLast
    · right
      rw [List.concat_eq_append] at hEq hAfter
      rw [← List.cons_append, ← List.append_assoc] at hEq
      obtain ⟨hLog, hLast⟩ := List.append_inj' hEq rfl
      obtain rfl : r = last := by simpa using hLast
      constructor
      · rintro rfl
        exact hAfter (by simp)
      · refine ⟨before, after', hLog, fun hMem => ?_⟩
        exact hAfter (List.mem_append_left _ hMem)
  · rintro (rfl | ⟨hNe, before, after, rfl, hAfter⟩)
    · exact ⟨log, [], rfl, List.not_mem_nil⟩
    · refine ⟨before, after ++ [r], by simp, fun hMem => ?_⟩
      rcases List.mem_append.mp hMem with hMem | hMem
      · exact hAfter hMem
      · exact hNe (List.mem_singleton.mp hMem).symm

theorem crashEnabled_iff (wants : Wants) (log : List LogRec) :
    wants.crashEnabled (epochAfter log) = true ↔ InEpoch log wants := by
  cases wants with
  | all =>
    have hIff : ∀ cur : Epoch, Wants.all.crashEnabled cur = true ↔ cur ≠ .longGonePast := by
      intro cur
      cases cur <;> decide
    rw [hIff]
    induction log using List.reverseRecOn with
    | nil => simp [epochAfter, InEpoch]
    | append_singleton log r ih =>
      rw [epochAfter_concat]
      cases r <;> simp_all [Epoch.replay, InEpoch]
  | now =>
    have hIff : ∀ cur : Epoch, Wants.now.crashEnabled cur = true ↔ cur = .now := by
      intro cur
      cases cur <;> decide
    rw [hIff]
    induction log using List.reverseRecOn with
    | nil => simp [epochAfter, InEpoch]
    | append_singleton log r ih =>
      rw [epochAfter_concat, inEpoch_now_concat]
      cases r <;> simp [Epoch.replay, ih]

/-- Crashes are enabled only where the marks announce them exactly if the marks are in order. -/
theorem afterMark_of_enabled_iff (wants : Wants) (log : List LogRec) :
    (∀ done rest, log = done ++ rest → InEpoch done wants → AfterMark done wants) ↔
      (wants = .all → MarksInOrder log) := by
  cases wants with
  | all =>
    constructor
    · intro h _ done rest hLog hCur
      exact h done rest hLog (.inr hCur)
    · rintro h done rest hLog (hLast | hCur)
      · exact hLast
      · exact h rfl done rest hLog hCur
  | now => exact iff_of_true (fun _ _ _ hEpoch => hEpoch) (fun hAll => by cases hAll)

def WritesKnown (db : ChunkDB) (log : List LogRec) : Prop :=
  ∀ s, .sector s ∈ log → s.type = .write → (db.read s.sig).isSome

theorem ChunkDB.Extends.read_eq {db db' : ChunkDB} (h : db.Extends db') {sig : Signature}
    (hKnown : (db.read sig).isSome) : db'.read sig = db.read sig := by
  obtain ⟨b, hb⟩ := Option.isSome_iff_exists.mp hKnown
  rw [hb]
  exact h sig b hb

theorem ChunkDB.Extends.isSome_read {db db' : ChunkDB} (h : db.Extends db') {sig : Signature}
    (hKnown : (db.read sig).isSome) : (db'.read sig).isSome := by
  rw [h.read_eq hKnown]
  exact hKnown

theorem WritesKnown.mono {db db' : ChunkDB} {log : List LogRec} (hKnown : WritesKnown db log)
    (h : db.Extends db') : WritesKnown db' log :=
  fun s hMem hType => h.isSome_read (hKnown s hMem hType)

theorem diskAfter_extends {db db' : ChunkDB} (h : db.Extends db') (initDisks : BlockDevDataVec)
    (log : List LogRec) (hKnown : WritesKnown db log) (loc : SectorLoc) :
    diskAfter db'.read initDisks log loc = diskAfter db.read initDisks log loc := by
  induction log using List.reverseRecOn with
  | nil => rfl
  | append_singleton log r ih =>
    have hBefore := ih fun s hMem => hKnown s (List.mem_append_left _ hMem)
    rw [diskAfter_concat, diskAfter_concat]
    cases r with
    | sector s =>
      simp only [hBefore]
      split
      · rename_i hWrite
        exact h.read_eq (hKnown s (by simp) hWrite.1)
      · rfl
    | lastCheck => exact hBefore
    | curCheck => exact hBefore
    | other => exact hBefore

/-- A crash that was possible at a position where crashes are checked. Its chunks are known, so
that a larger database does not change it. -/
def Sound (wants : Wants) (initDisks : BlockDevDataVec) (log : List LogRec) (db : ChunkDB)
    (disks : BlockDevDataVec) : Prop :=
  ∃ done rest choice, log = done ++ rest ∧ InEpoch done wants ∧ WritesKnown db done ∧
    IsChoice done choice ∧ (∀ loc sig, choice loc = some sig → (db.read sig).isSome) ∧
    ∀ loc, disks.readChunk loc = overlay db.read initDisks done choice loc

theorem Sound.mono {wants : Wants} {initDisks disks : BlockDevDataVec} {log : List LogRec}
    {db db' : ChunkDB} (hSound : Sound wants initDisks log db disks) (h : db.Extends db') :
    Sound wants initDisks log db' disks := by
  obtain ⟨done, rest, choice, hLog, hEpoch, hWrites, hChoice, hKnown, hRead⟩ := hSound
  refine ⟨done, rest, choice, hLog, hEpoch, hWrites.mono h, hChoice, ?_, ?_⟩
  · intro loc sig hSig
    rw [h.read_eq (hKnown loc sig hSig)]
    exact hKnown loc sig hSig
  · intro loc
    rw [hRead loc, overlay, overlay]
    cases hSig : choice loc with
    | none => exact (diskAfter_extends h initDisks done hWrites loc).symm
    | some sig => exact (h.read_eq (hKnown loc sig hSig)).symm

structure Agrees (initDisks : BlockDevDataVec) (done : List LogRec) (p : VersionedPermuter) :
    Prop where
  disks : ∀ loc, p.curDisks.readChunk loc = diskAfter p.db.read initDisks done loc
  writes : WritesKnown p.db done
  keys : (p.cache.map Prod.fst).Nodup
  versions : ∀ e ∈ p.cache, ∀ sig ∈ e.2, sig ∈ versionsSince done e.1
  epoch : p.cur = epochAfter done

/-- Where the permuter is in the log. During a check it has not handled the record yet. -/
inductive Located (opt : PermuterOptions) (initDisks : BlockDevDataVec) (log : List LogRec)
    (p : VersionedPermuter) : Prop
  | ready {done : List LogRec} (hPc : p.pc = .ready) (hLog : log = done ++ p.rest)
      (hAgrees : Agrees initDisks done p)
  | permuting {done rest : List LogRec} {e : Combination} {r : Resume}
      (hPc : p.pc = .permuting e r) (hLog : log = done ++ rest) (hAgrees : Agrees initDisks done p)
      (hEnabled : opt.wants.crashEnabled p.cur = true) (hFits : e.Fits)
      (hCeils : e.ceils = (opt.iteration.visit p.cache).map fun e => e.2.length)
      (hResume : ∀ s, r = .removeOrWrite s → rest = .sector s :: p.rest)
  | done (hPc : p.pc = .done)

structure Inv (opt : PermuterOptions) (initDisks : BlockDevDataVec) (log : List LogRec)
    (p : VersionedPermuter) : Prop where
  located : Located opt initDisks log p
  crashes : ∀ disks ∈ p.crashes, Sound opt.wants initDisks log p.db disks

theorem exists_wrSet {cache : Versions} {subset : List Nat}
    (hBounded : Bounded (cache.map fun e => e.2.length) subset) :
    ∃ wset, wrSet cache subset = some wset := by
  induction cache generalizing subset with
  | nil => exact ⟨[], rfl⟩
  | cons e cache ih =>
    rw [List.map_cons] at hBounded
    cases hBounded with
    | @cons _ x _ xs hx hxs =>
      obtain ⟨wset, hRest⟩ := ih hxs
      cases x with
      | zero => exact ⟨wset, hRest⟩
      | succ k =>
        have hSig : e.2[k]? = some e.2[k] := List.getElem?_eq_getElem hx
        refine ⟨(e.1, e.2[k]) :: wset, ?_⟩
        rw [wrSet, hSig, hRest]
        rfl

theorem wrSet_spec {cache : Versions} {subset : List Nat} {wset : WrSet}
    (hSet : wrSet cache subset = some wset) :
    (∀ w ∈ wset, ∃ e ∈ cache, e.1 = w.1 ∧ w.2 ∈ e.2) ∧
      (wset.map Prod.fst).Sublist (cache.map Prod.fst) := by
  induction cache generalizing subset wset with
  | nil =>
    cases hSet
    exact ⟨fun w hw => absurd hw List.not_mem_nil, .slnil⟩
  | cons e cache ih =>
    match subset, hSet with
    | 0 :: subset, hSet =>
      obtain ⟨hMem, hKeys⟩ := ih (show wrSet cache subset = some wset from hSet)
      constructor
      · intro w hw
        obtain ⟨e', he', hw'⟩ := hMem w hw
        exact ⟨e', List.mem_cons_of_mem _ he', hw'⟩
      · exact hKeys.cons _
    | (k + 1) :: subset, hSet =>
      rw [wrSet] at hSet
      cases hSig : e.2[k]? with
      | none =>
        rw [hSig] at hSet
        cases hSet
      | some sig =>
        rw [hSig] at hSet
        obtain ⟨rest, hRest, rfl⟩ := Option.map_eq_some_iff.mp hSet
        obtain ⟨hMem, hKeys⟩ := ih hRest
        constructor
        · intro w hw
          rcases List.mem_cons.mp hw with rfl | hw
          · exact ⟨e, List.mem_cons_self, rfl, List.mem_of_getElem? hSig⟩
          · obtain ⟨e', he', hw'⟩ := hMem w hw
            exact ⟨e', List.mem_cons_of_mem _ he', hw'⟩
        · exact hKeys.cons_cons _

theorem mem_of_lookup {α β : Type*} [BEq α] [LawfulBEq α] {l : List (α × β)} {a : α} {b : β}
    (hLookup : l.lookup a = some b) : (a, b) ∈ l := by
  induction l with
  | nil => cases hLookup
  | cons e l ih =>
    rw [List.lookup_cons] at hLookup
    split at hLookup
    · rename_i hEq
      cases hLookup
      rw [eq_of_beq hEq]
      exact List.mem_cons_self
    · exact List.mem_cons_of_mem _ (ih hLookup)

section
variable {opt : PermuterOptions} {initDisks : BlockDevDataVec}
  {log done : List LogRec} {p q : VersionedPermuter} {s : SectorRec}

theorem ne_of_mem_erase {cache : Versions} {loc : SectorLoc} :
    ∀ e ∈ cache.filter (fun e => e.1 ≠ loc), e.1 ≠ loc := by
  intro e he
  exact of_decide_eq_true (List.mem_filter.mp he).2

theorem haveSector_spec [ChunkHash] {r : Bool × ChunkDB}
    (hHave : p.curDisks.haveSector p.db s = some r) :
    ∃ b, p.curDisks.readChunk s.loc = some b ∧ p.db.Extends r.2 ∧
      r.2.read (explodeHash b) = some b ∧ (r.1 = true ↔ explodeHash b = s.sig) := by
  obtain ⟨⟨sig, db⟩, hRead, rfl⟩ := Option.map_eq_some_iff.mp hHave
  obtain ⟨b, hb, hWrite⟩ := Option.bind_eq_some_iff.mp hRead
  obtain ⟨rfl, hStored, hExtends⟩ := ChunkDB.write_spec hWrite
  refine ⟨b, hb, hExtends, hStored, ?_⟩
  simp only [beq_iff_eq]

theorem versionsSince_add (hAdd : s.type = .add) (loc : SectorLoc) :
    versionsSince (done ++ [.sector s]) loc =
      versionsSince done loc ++ if s.loc = loc then [s.sig] else [] := by
  rw [versionsSince_concat]
  simp only [hAdd]
  split
  · rfl
  · rw [List.append_nil]

theorem not_mem_of_lookup_none {υ : Type} {cache : CacheMap υ} {loc : SectorLoc}
    (hNone : cache.lookup loc = none) : ∀ e ∈ cache, e.1 ≠ loc := by
  intro e he hLoc
  have hNe := List.lookup_eq_none_iff.mp hNone e he
  rw [hLoc] at hNe
  simp at hNe

structure AddsVersion (s : SectorRec) (cache cache' : Versions) : Prop where
  keys : (cache.map Prod.fst).Nodup → (cache'.map Prod.fst).Nodup
  entries : ∀ e ∈ cache', e ∈ cache ∨ e = (s.loc, [s.sig]) ∨
    ∃ v, (s.loc, v) ∈ cache ∧ e = (s.loc, v.erase s.sig ++ [s.sig])

section
variable {cache cache' : Versions}

theorem addVersion_ok (hAdd : addVersion cache s = some cache') : AddsVersion s cache cache' := by
  unfold addVersion at hAdd
  split at hAdd
  · rename_i hNone
    cases hAdd
    constructor
    · intro hKeys
      apply List.nodup_cons.mpr ⟨_, hKeys⟩
      intro hMem
      obtain ⟨e, he, hLoc⟩ := List.mem_map.mp hMem
      exact not_mem_of_lookup_none hNone e he hLoc
    · intro e he
      rcases List.mem_cons.mp he with rfl | he
      · exact .inr (.inl rfl)
      · exact .inl he
  · rename_i v hSome
    split at hAdd
    · cases hAdd
    · split at hAdd
      · cases hAdd
        exact ⟨id, fun e he => .inl he⟩
      · cases hAdd
        constructor
        · have hSame : (Prod.fst ∘ fun e : SectorLoc × List Signature =>
              if e.1 = s.loc then (e.1, v.erase s.sig ++ [s.sig]) else e) = Prod.fst := by
            funext e
            simp only [Function.comp]
            split <;> rfl
          rw [List.map_map, hSame]
          exact id
        · intro e he
          obtain ⟨e', he', rfl⟩ := List.mem_map.mp he
          split
          · rename_i hLoc
            rw [hLoc]
            exact .inr (.inr ⟨v, mem_of_lookup hSome, rfl⟩)
          · exact .inl he'

theorem AddsVersion.mem (h : AddsVersion s cache cache') {e : SectorLoc × List Signature}
    (he : e ∈ cache') {sig : Signature} (hSig : sig ∈ e.2) :
    (∃ e' ∈ cache, e'.1 = e.1 ∧ sig ∈ e'.2) ∨ e.1 = s.loc ∧ sig = s.sig := by
  rcases h.entries e he with he | rfl | ⟨v, hv, rfl⟩
  · exact .inl ⟨e, he, rfl, hSig⟩
  · exact .inr ⟨rfl, List.mem_singleton.mp hSig⟩
  · rcases List.mem_append.mp hSig with hSig | hSig
    · exact .inl ⟨_, hv, rfl, List.mem_of_mem_erase hSig⟩
    · exact .inr ⟨rfl, List.mem_singleton.mp hSig⟩

theorem AddsVersion.nonempty (h : AddsVersion s cache cache') (hNonempty : ∀ e ∈ cache, e.2 ≠ []) :
    ∀ e ∈ cache', e.2 ≠ [] := by
  intro e he
  rcases h.entries e he with he | rfl | ⟨v, _, rfl⟩
  · exact hNonempty e he
  · simp
  · simp

end

variable (hAgrees : Agrees initDisks done p)
include hAgrees

theorem Agrees.congr (hDisks : q.curDisks = p.curDisks) (hCache : q.cache = p.cache)
    (hCur : q.cur = p.cur) (hDb : q.db = p.db) : Agrees initDisks done q := by
  obtain ⟨disks, writes, keys, versions, epoch⟩ := hAgrees
  rw [← hDb] at disks writes
  rw [← hDisks] at disks
  rw [← hCache] at keys versions
  rw [← hCur] at epoch
  exact ⟨disks, writes, keys, versions, epoch⟩

theorem sound_checkOneCrash {rest : List LogRec} {e : Combination} (hLog : log = done ++ rest)
    (hEnabled : opt.wants.crashEnabled p.cur = true)
    (hCrash : p.checkOneCrash opt.versioned e = some q) :
    ∃ disks, q = { p with crashes := p.crashes ++ [disks] } ∧
      Sound opt.wants initDisks log p.db disks := by
  obtain ⟨wset, hSet, hWrite⟩ := Option.bind_eq_some_iff.mp hCrash
  obtain ⟨disks, hDisks, rfl⟩ := Option.map_eq_some_iff.mp hWrite
  obtain ⟨hMem, hKeys⟩ := wrSet_spec hSet
  have hPerm := opt.iteration.perm p.cache
  have hNodup : (wset.map Prod.fst).Nodup :=
    hKeys.nodup ((hPerm.map Prod.fst).nodup_iff.mpr hAgrees.keys)
  obtain ⟨hKnown, hRead⟩ := BlockDevDataVec.writeSet_spec hNodup hDisks
  refine ⟨disks, rfl, done, rest, fun loc => wset.lookup loc, hLog, ?_, hAgrees.writes, ?_, ?_, ?_⟩
  · rw [← crashEnabled_iff, ← hAgrees.epoch]
    exact hEnabled
  · intro loc sig hSig
    obtain ⟨e', he', hLoc, hVersion⟩ := hMem _ (mem_of_lookup hSig)
    have hLoc' : e'.1 = loc := hLoc
    rw [← hLoc']
    exact hAgrees.versions e' (hPerm.mem_iff.mp he') sig hVersion
  · intro loc sig hSig
    exact hKnown _ (mem_of_lookup hSig)
  · intro loc
    rw [hRead loc, overlay]
    cases wset.lookup loc with
    | none => exact hAgrees.disks loc
    | some sig => rfl

theorem agrees_of_cache {cache : Versions} (hType : s.type ≠ .write)
    (hKeys : (cache.map Prod.fst).Nodup)
    (hVersions : ∀ e ∈ cache, ∀ sig ∈ e.2, sig ∈ versionsSince (done ++ [.sector s]) e.1) :
    Agrees initDisks (done ++ [.sector s]) { p with cache := cache } := by
  refine ⟨?_, ?_, hKeys, hVersions, ?_⟩
  · intro loc
    rw [diskAfter_concat]
    simp only [hType, false_and, if_false]
    exact hAgrees.disks loc
  · intro s' hMem hType'
    rcases List.mem_append.mp hMem with hMem | hMem
    · exact hAgrees.writes s' hMem hType'
    · cases List.mem_singleton.mp hMem
      exact absurd hType' hType
  · rw [epochAfter_concat]
    exact hAgrees.epoch

theorem agrees_writeDisk (hGone : ∀ e ∈ p.cache, e.1 ≠ s.loc) (hWrite : p.writeDisk s = some q) :
    Agrees initDisks (done ++ [.sector s]) q ∧ ∃ disks, q = { p with curDisks := disks } := by
  have hVersions : ∀ e ∈ p.cache, ∀ sig ∈ e.2, sig ∈ versionsSince (done ++ [.sector s]) e.1 := by
    intro e he sig hSig
    rw [versionsSince_concat]
    simp only [if_neg (hGone e he).symm]
    exact hAgrees.versions e he sig hSig
  have hEpoch : p.cur = epochAfter (done ++ [.sector s]) := by
    rw [epochAfter_concat]
    exact hAgrees.epoch
  unfold BufferPermuter.writeDisk at hWrite
  split at hWrite
  · rename_i hIsWrite
    obtain ⟨disks, hDisks, rfl⟩ := Option.map_eq_some_iff.mp hWrite
    obtain ⟨hKnown, hRead⟩ := BlockDevDataVec.write_spec hDisks
    refine ⟨⟨?_, ?_, hAgrees.keys, hVersions, hEpoch⟩, disks, rfl⟩
    · intro loc
      rw [diskAfter_concat]
      simp only [hIsWrite, true_and, hRead loc, hAgrees.disks loc, eq_comm]
    · intro s' hMem hType'
      rcases List.mem_append.mp hMem with hMem | hMem
      · exact hAgrees.writes s' hMem hType'
      · cases List.mem_singleton.mp hMem
        exact hKnown
  · rename_i hNotWrite
    cases hWrite
    exact ⟨agrees_of_cache hAgrees hNotWrite hAgrees.keys hVersions, p.curDisks, rfl⟩

theorem Agrees.erase (loc : SectorLoc) :
    Agrees initDisks done
      { p with cache := p.cache.filter fun e => e.1 ≠ loc, pc := .ready } := by
  refine ⟨hAgrees.disks, hAgrees.writes, ?_, ?_, hAgrees.epoch⟩
  · exact (List.filter_sublist.map Prod.fst).nodup hAgrees.keys
  · intro e he
    exact hAgrees.versions e (List.mem_of_mem_filter he)

theorem resume_agrees {rest : List LogRec} {r : Resume} (hLog : log = done ++ rest)
    (hResume : ∀ s, r = .removeOrWrite s → rest = .sector s :: p.rest)
    (hStep : p.resume r = some q) :
    Located opt initDisks log q ∧ q.db = p.db ∧ q.crashes = p.crashes := by
  cases r with
  | finish =>
    cases hStep
    exact ⟨.done rfl, rfl, rfl⟩
  | removeOrWrite s =>
    obtain ⟨hAfter, disks, rfl⟩ := agrees_writeDisk (hAgrees.erase s.loc) ne_of_mem_erase hStep
    rw [hResume s rfl, List.append_cons] at hLog
    exact ⟨.ready rfl hLog hAfter, rfl, rfl⟩

theorem checkCrashes_located {rest : List LogRec} {r : Resume} (hLog : log = done ++ rest)
    (hResume : ∀ s, r = .removeOrWrite s → rest = .sector s :: p.rest)
    (hStep : p.checkCrashes opt.versioned r = some q) :
    Located opt initDisks log q ∧ q.db = p.db ∧ q.crashes = p.crashes := by
  unfold BufferPermuter.checkCrashes at hStep
  split at hStep
  · rename_i hEnabled
    obtain ⟨e, he, rfl⟩ := Option.map_eq_some_iff.mp hStep
    obtain ⟨hFits, hCeils⟩ := Combination.fits_of_ceilings he
    refine ⟨.permuting rfl hLog ?_ hEnabled hFits hCeils hResume, rfl, rfl⟩
    exact hAgrees.congr rfl rfl rfl rfl
  · exact resume_agrees hAgrees hLog hResume hStep

theorem Agrees.extends {db : ChunkDB} (h : p.db.Extends db) :
    Agrees initDisks done { p with db := db } := by
  refine ⟨?_, hAgrees.writes.mono h, hAgrees.keys, hAgrees.versions, hAgrees.epoch⟩
  intro loc
  rw [diskAfter_extends h initDisks done hAgrees.writes loc]
  exact hAgrees.disks loc

theorem Agrees.addVersion {cache : Versions} (hAdd : s.type = .add)
    (hStep : addVersion p.cache s = some cache) :
    Agrees initDisks (done ++ [.sector s]) { p with cache := cache } := by
  have hAdds := addVersion_ok hStep
  apply agrees_of_cache hAgrees (by simp [hAdd]) (hAdds.keys hAgrees.keys)
  intro e he sig hSig
  rw [versionsSince_add hAdd]
  rcases hAdds.mem he hSig with ⟨e', he', hLoc, hSig'⟩ | ⟨hLoc, rfl⟩
  · rw [← hLoc]
    exact List.mem_append_left _ (hAgrees.versions e' he' sig hSig')
  · rw [if_pos hLoc.symm]
    exact List.mem_append_right _ (List.mem_singleton.mpr rfl)

theorem Agrees.read (hRead : s.type = .read) : Agrees initDisks (done ++ [.sector s]) p := by
  apply agrees_of_cache hAgrees (by simp [hRead]) hAgrees.keys
  intro e he sig hSig
  have hSame : versionsSince (done ++ [.sector s]) e.1 = versionsSince done e.1 := by
    rw [versionsSince_concat]
    simp only [hRead, ite_self]
  rw [hSame]
  exact hAgrees.versions e he sig hSig

theorem Agrees.mark {r : LogRec} (hMark : ∀ s, r ≠ .sector s) :
    Agrees initDisks (done ++ [r]) { p with cur := p.cur.replay r } := by
  have hDisk : ∀ content loc, diskAfter content initDisks (done ++ [r]) loc =
      diskAfter content initDisks done loc := by
    intro content loc
    rw [diskAfter_concat]
    cases r with
    | sector s => exact absurd rfl (hMark s)
    | lastCheck => rfl
    | curCheck => rfl
    | other => rfl
  have hVersions : ∀ loc, versionsSince (done ++ [r]) loc = versionsSince done loc := by
    intro loc
    rw [versionsSince_concat]
    cases r with
    | sector s => exact absurd rfl (hMark s)
    | lastCheck => rfl
    | curCheck => rfl
    | other => rfl
  refine ⟨?_, ?_, hAgrees.keys, ?_, ?_⟩
  · intro loc
    rw [hDisk]
    exact hAgrees.disks loc
  · intro s hMem hType
    rcases List.mem_append.mp hMem with hMem | hMem
    · exact hAgrees.writes s hMem hType
    · exact absurd (List.mem_singleton.mp hMem).symm (hMark s)
  · intro e he sig hSig
    rw [hVersions]
    exact hAgrees.versions e he sig hSig
  · rw [epochAfter_concat, hAgrees.epoch]

theorem replay_located [ChunkHash] {r : LogRec} (hPc : p.pc = .ready)
    (hLog : log = done ++ r :: p.rest) (hStep : p.replay opt.versioned r = some q) :
    Located opt initDisks log q ∧ p.db.Extends q.db ∧ q.crashes = p.crashes := by
  have hLog' : log = done ++ [r] ++ p.rest := by rw [hLog, List.append_cons]
  have hMarked : (∀ s, r ≠ .sector s) → some { p with cur := p.cur.replay r } = some q →
      Located opt initDisks log q ∧ p.db.Extends q.db ∧ q.crashes = p.crashes := by
    intro hMark hEq
    cases hEq
    exact ⟨.ready hPc hLog' (hAgrees.mark hMark), .refl _, rfl⟩
  cases r with
  | lastCheck => exact hMarked (by simp) hStep
  | curCheck => exact hMarked (by simp) hStep
  | other => exact hMarked (by simp) hStep
  | sector s =>
    simp only [BufferPermuter.replay] at hStep
    have hRemove : p.removeOrWrite opt.versioned s = some q →
        Located opt initDisks log q ∧ p.db.Extends q.db ∧ q.crashes = p.crashes := by
      intro hRun
      unfold BufferPermuter.removeOrWrite at hRun
      split at hRun
      · rename_i hNone
        obtain ⟨hAfter, disks, rfl⟩ :=
          agrees_writeDisk hAgrees (not_mem_of_lookup_none hNone) hRun
        exact ⟨.ready hPc hLog' hAfter, .refl _, rfl⟩
      · obtain ⟨hLocated, hDb, hCrashes⟩ := checkCrashes_located hAgrees hLog
          (fun s' hs' => by cases hs'; rfl) hRun
        exact ⟨hLocated, hDb ▸ .refl _, hCrashes⟩
    cases hType : s.type with
    | remove =>
      rw [hType] at hStep
      exact hRemove hStep
    | write =>
      rw [hType] at hStep
      exact hRemove hStep
    | read =>
      rw [hType] at hStep
      cases hStep
      exact ⟨.ready hPc hLog' (hAgrees.read hType), .refl _, rfl⟩
    | add =>
      rw [hType] at hStep
      obtain ⟨⟨same, db⟩, hHave, hRun⟩ := Option.bind_eq_some_iff.mp hStep
      obtain ⟨_, _, hExtends, _, _⟩ := haveSector_spec hHave
      have hNext : Agrees initDisks done { p with db := db } := hAgrees.extends hExtends
      split at hRun
      · cases hRun
        refine ⟨.ready hPc hLog' ?_, hExtends, rfl⟩
        apply agrees_of_cache hNext (by simp [hType]) hNext.keys
        intro e he sig hSig
        rw [versionsSince_add hType]
        exact List.mem_append_left _ (hNext.versions e he sig hSig)
      · obtain ⟨cache, hAdd, rfl⟩ := Option.map_eq_some_iff.mp hRun
        exact ⟨.ready hPc hLog' (hNext.addVersion hType hAdd), hExtends, rfl⟩

omit hAgrees

theorem inv_step [ChunkHash] (hInv : Inv opt initDisks log p)
    (hStep : p.step opt.versioned = some q) :
    Inv opt initDisks log q ∧ p.db.Extends q.db := by
  have hKeep : Located opt initDisks log q → p.db.Extends q.db → q.crashes = p.crashes →
      Inv opt initDisks log q ∧ p.db.Extends q.db := by
    intro hLocated hExtends hCrashes
    refine ⟨⟨hLocated, fun disks hMem => ?_⟩, hExtends⟩
    rw [hCrashes] at hMem
    exact (hInv.crashes disks hMem).mono hExtends
  cases hInv.located with
  | done hPc =>
    rw [BufferPermuter.step, hPc] at hStep
    cases hStep
    exact ⟨hInv, .refl _⟩
  | @ready done hPc hLog hAgrees =>
    cases hRest : p.rest with
    | nil =>
      rw [step_finish hPc hRest] at hStep
      rw [hRest] at hLog
      obtain ⟨hLocated, hDb, hCrashes⟩ := checkCrashes_located hAgrees hLog (by simp) hStep
      exact hKeep hLocated (hDb ▸ .refl _) hCrashes
    | cons r rest =>
      rw [step_record hPc hRest] at hStep
      rw [hRest] at hLog
      have hNext : Agrees initDisks done { p with rest := rest } := hAgrees.congr rfl rfl rfl rfl
      obtain ⟨hLocated, hExtends, hCrashes⟩ := replay_located hNext hPc hLog hStep
      exact hKeep hLocated hExtends hCrashes
  | @permuting done rest e r hPc hLog hAgrees hEnabled hFits hCeils hResume =>
    rw [step_permute hPc, BufferPermuter.permute] at hStep
    split at hStep
    · cases hStep
    · rename_i rand _
      have hNext : Agrees initDisks done { p with rand := rand } := hAgrees.congr rfl rfl rfl rfl
      obtain ⟨hLocated, hDb, hCrashes⟩ := resume_agrees hNext hLog hResume hStep
      exact hKeep hLocated (hDb ▸ .refl _) hCrashes
    · rename_i e' rand hNext
      obtain ⟨hBounded, hSame⟩ := Combination.bounded_of_next hFits hNext
      have hAgrees' : Agrees initDisks done { p with rand := rand, pc := .permuting e' r } :=
        hAgrees.congr rfl rfl rfl rfl
      obtain ⟨disks, rfl, hSound⟩ := sound_checkOneCrash hAgrees' hLog hEnabled hStep
      refine ⟨⟨?_, ?_⟩, .refl _⟩
      · exact .permuting rfl hLog (hAgrees'.congr rfl rfl rfl rfl) hEnabled (fun _ => hBounded)
          (hSame.trans hCeils) hResume
      · intro disks' hMem
        rcases List.mem_append.mp hMem with hMem | hMem
        · exact hInv.crashes disks' hMem
        · cases List.mem_singleton.mp hMem
          exact hSound

theorem inv_start (opt : PermuterOptions) (db : ChunkDB) (rand : UnixRandom)
    (initDisks : BlockDevDataVec) (log : List LogRec) :
    Inv opt initDisks log (start db rand initDisks log) := by
  constructor
  · have hNothing : Agrees initDisks [] (start db rand initDisks log) := by
      refine ⟨fun loc => rfl, ?_, .nil, ?_, rfl⟩
      · intro s hMem
        cases hMem
      · intro e hMem
        cases hMem
    exact .ready rfl rfl hNothing
  · intro disks hMem
    cases hMem

theorem inv_of_run [ChunkHash] (db : ChunkDB) (rand : UnixRandom) {n : Nat}
    (hRun : steps (step opt.versioned) n (start db rand initDisks log) = some p) :
    Inv opt initDisks log p ∧ db.Extends p.db := by
  have hStep : ∀ a b, Inv opt initDisks log a ∧ db.Extends a.db → step opt.versioned a = some b →
      True → Inv opt initDisks log b ∧ db.Extends b.db :=
    fun a b h hStep _ => (inv_step h.1 hStep).imp_right h.2.trans
  apply steps_invariant hStep ⟨inv_start opt db rand initDisks log, .refl db⟩ n
  · intro _ _ _ _ _ _
    trivial
  · exact hRun

end

/-- In every state of every replay, the disks given to the checker are possible at a position of the
log that the marks announce. -/
theorem crashes_possible [ChunkHash] (opt : PermuterOptions) (db : ChunkDB)
    (rand : UnixRandom) (initDisks : BlockDevDataVec) (log : List LogRec) (n : Nat)
    (hMarks : opt.wants = .all → MarksInOrder log) :
    ∀ p ∈ steps (step opt.versioned) n (start db rand initDisks log),
      (∀ disks ∈ p.crashes, ∃ done rest, log = done ++ rest ∧ AfterMark done opt.wants ∧
        Possible p.db.read initDisks done disks) ∧
      ∀ e r e' rand', p.pc = .permuting e r → e.next p.rand = some (true, e', rand') →
        (wrSet (opt.iteration.visit p.cache) e'.subset).isSome := by
  intro p hRun
  have hInv : Inv opt initDisks log p := (inv_of_run db rand hRun).1
  constructor
  · intro disks hMem
    obtain ⟨done, rest, choice, hLog, hEpoch, _, hChoice, _, hRead⟩ := hInv.crashes disks hMem
    have hAfter := (afterMark_of_enabled_iff opt.wants log).mpr hMarks done rest hLog hEpoch
    exact ⟨done, rest, hLog, hAfter, choice, hChoice, hRead⟩
  · intro e r e' rand' hPc hNext
    cases hInv.located with
    | ready hReady => cases hReady.symm.trans hPc
    | done hDone => cases hDone.symm.trans hPc
    | permuting hPc' _ _ _ hFits hCeils _ =>
      cases hPc'.symm.trans hPc
      obtain ⟨hBounded, hSame⟩ := Combination.bounded_of_next hFits hNext
      rw [hSame, hCeils] at hBounded
      obtain ⟨wset, hSet⟩ := exists_wrSet hBounded
      rw [hSet]
      rfl

@[irreducible] def sampleChunk (x : UInt8) : Chunk := List.replicate 512 x

def sampleDb : ChunkDB :=
  ⟨[(checksum (sampleChunk 0), sampleChunk 0), (checksum (sampleChunk 1), sampleChunk 1)]⟩

def sampleDisks : BlockDevDataVec := [⟨0, [sampleChunk 0, sampleChunk 0]⟩]

/-- A record about sector `i` and a sector of ones. -/
def sampleRec (type : SectorRecType) (i : Int) : LogRec :=
  .sector ⟨type, (0, i), checksum (sampleChunk 1)⟩

def sampleOptions : PermuterOptions := ⟨.unordered, 3, 10, .all, ⟨id, fun _ => .refl _⟩⟩

def sampleRand : UnixRandom := ⟨[], fun _ => ⟨0, Mcl.randRange_pos⟩, 0⟩

def sampleLog : List LogRec := [.lastCheck, sampleRec .add 0, sampleRec .write 0]

attribute [local instance] checksumHash

/-- The check before the write has both versions. -/
theorem crashes_possible_sample :
    ∃ p, steps (step sampleOptions.versioned) 5
        (start sampleDb sampleRand sampleDisks sampleLog) = some p ∧
      p.crashes.length = 2 ∧
      ∀ disks ∈ p.crashes, ∃ done rest, sampleLog = done ++ rest ∧
        AfterMark done sampleOptions.wants ∧ Possible p.db.read sampleDisks done disks := by
  have hRun : ((steps (step sampleOptions.versioned) 5
      (start sampleDb sampleRand sampleDisks sampleLog)).map
        fun p => p.crashes.length) = some 2 := by decide +kernel
  obtain ⟨p, hSteps, hLength⟩ := Option.map_eq_some_iff.mp hRun
  have hMarks : sampleOptions.wants = .all → MarksInOrder sampleLog := by
    rintro - done rest hLog hCur
    have hMem : LogRec.curCheck ∈ sampleLog := hLog ▸ List.mem_append_left rest hCur
    simp [sampleLog, sampleRec] at hMem
  refine ⟨p, hSteps, hLength, ?_⟩
  exact (crashes_possible sampleOptions sampleDb sampleRand sampleDisks sampleLog 5 hMarks
    p hSteps).1

def earlyLog : List LogRec := [.curCheck, sampleRec .add 0, sampleRec .write 0, .lastCheck]

theorem eq_earlyLog {done rest : List LogRec} (hLog : earlyLog = done ++ rest)
    (hLast : .lastCheck ∈ done) : done = earlyLog := by
  rcases List.eq_nil_or_concat rest with rfl | ⟨rest, last, rfl⟩
  · rw [hLog, List.append_nil]
  · rw [List.concat_eq_append, ← List.append_assoc] at hLog
    have hFront := congrArg List.dropLast hLog
    rw [List.dropLast_concat] at hFront
    have hMem : LogRec.lastCheck ∈ earlyLog.dropLast := hFront ▸ List.mem_append_left rest hLast
    simp [earlyLog, sampleRec] at hMem

/-- The `CUR_CHECK` enables crashes, so the write is checked before the `LAST_CHECK`. The disks
without the write are not possible after it. -/
theorem crash_before_lastCheck :
    ∃ p, steps (step sampleOptions.versioned) 5
        (start sampleDb sampleRand sampleDisks earlyLog) = some p ∧
      sampleDisks ∈ p.crashes ∧
      ∀ done rest, earlyLog = done ++ rest → AfterMark done sampleOptions.wants →
        ¬ Possible p.db.read sampleDisks done sampleDisks := by
  have hRun : ((steps (step sampleOptions.versioned) 5
      (start sampleDb sampleRand sampleDisks earlyLog)).map
        fun p => (decide (sampleDisks ∈ p.crashes), p.db.read (checksum (sampleChunk 1)))) =
      some (true, some (sampleChunk 1)) := by decide +kernel
  obtain ⟨p, hSteps, hResult⟩ := Option.map_eq_some_iff.mp hRun
  obtain ⟨hMem, hChunk⟩ := Prod.mk.inj hResult
  refine ⟨p, hSteps, of_decide_eq_true hMem, ?_⟩
  rintro done rest hLog hAfter ⟨choice, hChoice, hRead⟩
  obtain rfl := eq_earlyLog hLog hAfter
  have hEmpty : versionsSince earlyLog (0, 0) = [] := by decide +kernel
  have hNone : choice (0, 0) = none := by
    cases hSig : choice (0, 0) with
    | none => rfl
    | some sig =>
      have hVersion := hChoice _ _ hSig
      rw [hEmpty] at hVersion
      cases hVersion
  have hWritten : diskAfter p.db.read sampleDisks earlyLog (0, 0) = some (sampleChunk 1) := hChunk
  have hHere := hRead (0, 0)
  simp only [overlay, hNone, hWritten] at hHere
  exact absurd hHere (by decide +kernel)

end Explode.Crash
