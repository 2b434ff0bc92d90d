import Explode.Crash.BlockDev
import Explode.Crash.Powerset

/-!
# Replaying a log and generating crashes

The permuter replays a log of sector records against the disks of the start of
the trace. Sectors that may or may not have reached the disk are cached. The
replay is the same for every cache; the versioned one keeps all versions of a
sector.
-/

namespace Explode.Crash

open Machine Mcl

inductive LogRec
  | sector (s : SectorRec)
  | lastCheck
  | curCheck
  | other
  deriving DecidableEq

inductive Epoch
  | longGonePast
  | recentPast
  | now
  deriving DecidableEq, Repr

namespace Epoch

def rank : Epoch → Nat
  | longGonePast => 0
  | recentPast => 1
  | now => 2

def replay (cur : Epoch) : LogRec → Epoch
  | .lastCheck => .recentPast
  | .curCheck => .now
  | .sector _ | .other => cur

end Epoch

inductive Wants
  | all
  | now
  deriving DecidableEq, Repr

def Wants.startChecking : Wants → Epoch
  | .all => .recentPast
  | .now => .now

def Wants.crashEnabled (wants : Wants) (cur : Epoch) : Bool :=
  wants.startChecking.rank ≤ cur.rank

/-- The sectors of a cache, each with what the cache keeps of it. -/
abbrev CacheMap (υ : Type) := List (SectorLoc × υ)

abbrev Versions := CacheMap (List Signature)

/-- An iteration over the hash map visits every entry once, in an order that the map alone
determines. -/
structure Iteration (υ : Type) where
  visit : CacheMap υ → CacheMap υ
  perm : ∀ cache, (visit cache).Perm cache

structure PermuterOptions where
  kernelWrites : SetType
  deterministicThreshold : Int
  randomTries : Int
  wants : Wants
  iteration : Iteration (List Signature)

/-- What a cache of the source has of its own, with what the checker of its permuter wants. The
sector that `add` is given is not on the disks. -/
structure CacheBase (υ ε : Type) where
  wants : Wants
  add : CacheMap υ → SectorRec → Option (CacheMap υ)
  createIterator : CacheMap υ → Option ε
  next : ε → UnixRandom → Option (Bool × ε × UnixRandom)
  wrSet : CacheMap υ → ε → Option WrSet

/-- The code that `check_crashes` returns to. -/
inductive Resume
  | removeOrWrite (s : SectorRec)
  | finish
  deriving DecidableEq

inductive PermuterPc (ε : Type)
  | ready
  | permuting (e : ε) (resume : Resume)
  | done
  deriving DecidableEq

/-- `crashes` is a history of the disks that were given to the checker. -/
structure BufferPermuter (υ ε : Type) where
  curDisks : BlockDevDataVec
  cache : CacheMap υ
  cur : Epoch
  db : ChunkDB
  rand : UnixRandom
  rest : List LogRec
  pc : PermuterPc ε
  crashes : List BlockDevDataVec

namespace BufferPermuter

section
variable {υ ε : Type} [ChunkHash] (c : CacheBase υ ε)
  (p : BufferPermuter υ ε)

def writeDisk (s : SectorRec) : Option (BufferPermuter υ ε) :=
  if s.type = .write then
    (p.curDisks.write p.db s.loc s.sig).map fun disks => { p with curDisks := disks }
  else some p

def resume : Resume → Option (BufferPermuter υ ε)
  | .removeOrWrite s =>
    { p with cache := p.cache.filter fun e => e.1 ≠ s.loc, pc := .ready }.writeDisk s
  | .finish => some { p with cache := [], pc := .done }

/-- `check_crashes` with the creation of the iterator. -/
def checkCrashes (r : Resume) : Option (BufferPermuter υ ε) :=
  if c.wants.crashEnabled p.cur then
    (c.createIterator p.cache).map fun e => { p with pc := .permuting e r }
  else p.resume r

def checkOneCrash (e : ε) : Option (BufferPermuter υ ε) :=
  (c.wrSet p.cache e).bind fun wset =>
    (p.curDisks.writeSet p.db wset).map fun disks => { p with crashes := p.crashes ++ [disks] }

def permute (e : ε) (r : Resume) : Option (BufferPermuter υ ε) :=
  match c.next e p.rand with
  | none => none
  | some (false, _, rand) => { p with rand := rand }.resume r
  | some (true, e', rand) => { p with rand := rand, pc := .permuting e' r }.checkOneCrash c e'

def add (s : SectorRec) : Option (BufferPermuter υ ε) :=
  (p.curDisks.haveSector p.db s).bind fun r =>
    if r.1 then some { p with db := r.2 }
    else (c.add p.cache s).map fun cache => { p with db := r.2, cache := cache }

def removeOrWrite (s : SectorRec) : Option (BufferPermuter υ ε) :=
  match p.cache.lookup s.loc with
  | none => p.writeDisk s
  | some _ => p.checkCrashes c (.removeOrWrite s)

def replay (r : LogRec) : Option (BufferPermuter υ ε) :=
  match r with
  | .sector s =>
    match s.type with
    | .add => p.add c s
    | .remove | .write => p.removeOrWrite c s
    | .read => some p
  | .lastCheck | .curCheck | .other => some { p with cur := p.cur.replay r }

def step : Option (BufferPermuter υ ε) :=
  match p.pc with
  | .ready =>
    match p.rest with
    | [] => p.checkCrashes c .finish
    | r :: rest => { p with rest := rest }.replay c r
  | .permuting e r => p.permute c e r
  | .done => some p

/-- `BufferPermuter::check_crashes` up to the loop over the log. -/
def start (db : ChunkDB) (rand : UnixRandom) (initDisks : BlockDevDataVec) (log : List LogRec) :
    BufferPermuter υ ε :=
  ⟨initDisks, [], .longGonePast, db, rand, log, .ready, []⟩

end

section
variable {υ ε α : Type} [ChunkHash] {c : CacheBase υ ε}
  {p : BufferPermuter υ ε} {r : Resume} {e e' : ε}

theorem step_finish (hPc : p.pc = .ready) (hRest : p.rest = []) :
    p.step c = p.checkCrashes c .finish := by
  simp only [step, hPc, hRest]

theorem step_record {r : LogRec} {rest : List LogRec} (hPc : p.pc = .ready)
    (hRest : p.rest = r :: rest) :
    p.step c = { p with rest := rest }.replay c r := by
  simp only [step, hPc, hRest]

theorem step_permute (hPc : p.pc = .permuting e r) : p.step c = p.permute c e r := by
  simp only [step, hPc]

/-- The disks of a crash, from what the enumerator gives. -/
def crashOf (p : BufferPermuter υ ε) (wr : α → Option WrSet) (a : α) : Option BlockDevDataVec :=
  (wr a).bind (p.curDisks.writeSet p.db)

variable {value : ε → α} {wr : α → Option WrSet} {values : List α}
  {rand : UnixRandom}

theorem reaches_handOut (hWr : ∀ e, c.wrSet p.cache e = wr (value e)) {k : Nat}
    (hPc : p.pc = .permuting e r) (hOut : handOut c.next value k e p.rand = some (values, e', rand))
    (hCrash : ∀ a ∈ values, ∃ disks, p.crashOf wr a = some disks) :
    ∃ crashes, Reaches (step c) p
        { p with rand := rand, pc := .permuting e' r, crashes := p.crashes ++ crashes } ∧
      values.map (p.crashOf wr) = crashes.map some := by
  induction k generalizing p e values with
  | zero =>
    cases hOut
    refine ⟨[], ?_, rfl⟩
    rw [List.append_nil, ← hPc]
    exact .refl _ _
  | succ k ih =>
    obtain ⟨e₁, rand₁, rest, hNext, hRest, rfl⟩ := handOut_succ hOut
    obtain ⟨⟨disks, hDisks⟩, hCrash⟩ := List.forall_mem_cons.mp hCrash
    have hStep : p.step c = some
        { p with rand := rand₁, pc := .permuting e₁ r, crashes := p.crashes ++ [disks] } := by
      obtain ⟨wset, hSet, hWrite⟩ := Option.bind_eq_some_iff.mp hDisks
      rw [step_permute hPc, permute, hNext]
      simp only [checkOneCrash, hWr, hSet, Option.bind_some, hWrite, Option.map_some]
    obtain ⟨crashes, hReach, hEach⟩ := @ih
      { p with rand := rand₁, pc := .permuting e₁ r, crashes := p.crashes ++ [disks] } e₁ rest hWr
      rfl hRest hCrash
    refine ⟨disks :: crashes, ?_, ?_⟩
    · rw [List.append_cons]
      exact .head hStep hReach
    · rw [List.map_cons, List.map_cons, hDisks]
      exact congrArg (some disks :: ·) hEach

/-- A check hands over a crash for each value of the enumerator and then goes on. -/
theorem check_reaches (hWr : ∀ e, c.wrSet p.cache e = wr (value e))
    (hEnabled : c.wants.crashEnabled p.cur = true) (hInit : c.createIterator p.cache = some e)
    {k : Nat} (hOut : handOut c.next value k e p.rand = some (values, e', p.rand)) {e'' : ε}
    (hLast : c.next e' p.rand = some (false, e'', p.rand))
    (hCrash : ∀ a ∈ values, ∃ disks, p.crashOf wr a = some disks) (r : Resume) :
    ∃ q crashes, p.checkCrashes c r = some q ∧
      Reaches (step c) q { p with pc := .permuting e' r, crashes := p.crashes ++ crashes } ∧
      step c { p with pc := .permuting e' r, crashes := p.crashes ++ crashes } =
        { p with pc := .permuting e' r, crashes := p.crashes ++ crashes }.resume r ∧
      values.map (p.crashOf wr) = crashes.map some := by
  obtain ⟨crashes, hReach, hEach⟩ := @reaches_handOut _ _ _ _ c
    { p with pc := .permuting e r } r e e' value wr values p.rand hWr k rfl hOut hCrash
  refine ⟨{ p with pc := .permuting e r }, crashes, ?_, hReach, ?_, hEach⟩
  · rw [checkCrashes, if_pos hEnabled, hInit]
    rfl
  · rw [step_permute rfl, permute, hLast]

end

end BufferPermuter

/-- `VersionedCache::add`, which moves a version that is added again to the end. -/
def addVersion (cache : Versions) (s : SectorRec) : Option Versions :=
  match cache.lookup s.loc with
  | none => some ((s.loc, [s.sig]) :: cache)
  | some v =>
    if v = [] then none
    else if v.getLast? = some s.sig then some cache
    else some (cache.map fun e => if e.1 = s.loc then (e.1, v.erase s.sig ++ [s.sig]) else e)

/-- `wr_set`: the index into the combination advances with the iteration. -/
def wrSet : Versions → List Nat → Option WrSet
  | [], _ => some []
  | _ :: _, [] => none
  | _ :: cache, 0 :: subset => wrSet cache subset
  | (loc, versions) :: cache, (k + 1) :: subset =>
    match versions[k]? with
    | none => none
    | some sig => (wrSet cache subset).map ((loc, sig) :: ·)

/-- `VersionedCache`, whose `Combination` does not read `kernel_writes`. -/
abbrev PermuterOptions.versioned (opt : PermuterOptions) :
    CacheBase (List Signature) Combination where
  wants := opt.wants
  add := addVersion
  createIterator cache :=
    Combination.ceilings opt.deterministicThreshold opt.randomTries
      ((opt.iteration.visit cache).map fun e => e.2.length)
  next := Combination.next
  wrSet cache e := wrSet (opt.iteration.visit cache) e.subset

theorem PermuterOptions.versioned_next (opt : PermuterOptions) :
    opt.versioned.next = Combination.next := rfl

abbrev VersionedPermuter := BufferPermuter (List Signature) Combination

end Explode.Crash
