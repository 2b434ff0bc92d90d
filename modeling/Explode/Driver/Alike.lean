import Explode.Driver.Copy
import Explode.Driver.SelfCheck

/-!
# File systems that agree on their names

Two file systems are alike when they have the same objects under the same ids,
up to a relation between their files. A call on names ends in the same way on
both of them and leaves them alike.
-/

namespace Explode.Driver

open Loop

section
variable (R : FileObj → FileObj → Prop)

inductive Body.Alike : Body → Body → Prop
  | file {f f' : FileObj} (h : R f f') : Body.Alike (.file f) (.file f')
  | dir {d d' : DirObj} (h : d.entries = d'.entries) : Body.Alike (.dir d) (.dir d')
  | symLink (path : CString) : Body.Alike (.symLink path) (.symLink path)

structure Obj.Alike (o o' : Obj) : Prop where
  id : o.id = o'.id
  ref : o.ref = o'.ref
  mode : o.mode = o'.mode
  body : o.body.Alike R o'.body

structure AbstFS.Alike (fs fs' : AbstFS) : Prop where
  id : fs.id = fs'.id
  nameId : fs.nameId = fs'.nameId
  mnt : fs.mnt = fs'.mnt
  nr : fs.nr = fs'.nr
  objs : ∀ i, Option.Rel (Obj.Alike R) (fs.objs.get? i) (fs'.objs.get? i)

structure FileRel : Prop where
  fresh : ∀ m m' : FileMemory,
    R ⟨0, 0, .empty m.1 m.2⟩ ⟨0, 0, .empty m'.1 m'.2⟩
  check : ∀ f f', R f f' → f.d.regions.all DataRegion.internalCheck =
    f'.d.regions.all DataRegion.internalCheck

end

section
variable {R : FileObj → FileObj → Prop} {o o' : Obj}

theorem Obj.Alike.cases (h : o.Alike R o') :
    ∃ id ref mode,
      (∃ f f', o = ⟨id, ref, mode, .file f⟩ ∧ o' = ⟨id, ref, mode, .file f'⟩ ∧ R f f') ∨
      (∃ d d', o = ⟨id, ref, mode, .dir d⟩ ∧ o' = ⟨id, ref, mode, .dir d'⟩ ∧
        d.entries = d'.entries) ∨
      ∃ path, o = ⟨id, ref, mode, .symLink path⟩ ∧ o' = ⟨id, ref, mode, .symLink path⟩ := by
  obtain ⟨id, ref, mode, body⟩ := o
  obtain ⟨id', ref', mode', body'⟩ := o'
  obtain ⟨hId, hRef, hMode, hBody⟩ := h
  cases hId
  cases hRef
  cases hMode
  refine ⟨id, ref, mode, ?_⟩
  cases hBody with
  | file hFile => exact .inl ⟨_, _, rfl, rfl, hFile⟩
  | dir hEntries => exact .inr (.inl ⟨_, _, rfl, rfl, hEntries⟩)
  | symLink path => exact .inr (.inr ⟨path, rfl, rfl⟩)

theorem Obj.Alike.entries (h : o.Alike R o') : o.entries = o'.entries := by
  obtain ⟨id, ref, mode, ⟨f, f', rfl, rfl, _⟩ | ⟨d, d', rfl, rfl, hEntries⟩ | ⟨path, rfl, rfl⟩⟩ :=
    h.cases
  · rfl
  · exact hEntries
  · rfl

theorem Obj.Alike.type (h : o.Alike R o') : o.type = o'.type := by
  obtain ⟨id, ref, mode, ⟨f, f', rfl, rfl, _⟩ | ⟨d, d', rfl, rfl, _⟩ | ⟨path, rfl, rfl⟩⟩ := h.cases
  all_goals rfl

theorem Obj.Alike.dir? (h : o.Alike R o') : o.dir? = none ∧ o'.dir? = none ∨
    ∃ d d', o.dir? = some d ∧ o'.dir? = some d' ∧ d'.entries = d.entries := by
  obtain ⟨id, ref, mode, ⟨f, f', rfl, rfl, _⟩ | ⟨d, d', rfl, rfl, hEntries⟩ | ⟨path, rfl, rfl⟩⟩ :=
    h.cases
  · exact .inl ⟨rfl, rfl⟩
  · exact .inr ⟨d, d', rfl, rfl, hEntries.symm⟩
  · exact .inl ⟨rfl, rfl⟩

theorem destroy_alike (hR : FileRel R) (h : o.Alike R o') :
    AbstFS.destroy o = AbstFS.destroy o' := by
  obtain ⟨id, ref, mode, ⟨f, f', rfl, rfl, hFile⟩ | ⟨d, d', rfl, rfl, _⟩ | ⟨path, rfl, rfl⟩⟩ :=
    h.cases
  · simp only [AbstFS.destroy, hR.check f f' hFile]
  · rfl
  · rfl

namespace AbstFS

variable {fs fs' : AbstFS} (h : fs.Alike R fs')
include h

theorem Alike.get? (i : Nat) :
    (fs.objs.get? i = none ∧ fs'.objs.get? i = none) ∨
      ∃ o o', fs.objs.get? i = some o ∧ fs'.objs.get? i = some o' ∧ o.Alike R o' := by
  have hRel := h.objs i
  cases ho : fs.objs.get? i with
  | none =>
    cases ho' : fs'.objs.get? i with
    | none => exact .inl ⟨rfl, rfl⟩
    | some o' =>
      rw [ho, ho'] at hRel
      cases hRel
  | some o =>
    cases ho' : fs'.objs.get? i with
    | none =>
      rw [ho, ho'] at hRel
      cases hRel
    | some o' =>
      rw [ho, ho'] at hRel
      cases hRel with
      | some hObj => exact .inr ⟨o, o', rfl, rfl, hObj⟩

theorem Alike.update (i : Nat) (ho : o.Alike R o') : (fs.update i o).Alike R (fs'.update i o') where
  id := h.id
  nameId := h.nameId
  mnt := h.mnt
  nr := h.nr
  objs x := by
    rw [get?_update, get?_update]
    split
    · exact .some ho
    · exact h.objs x

theorem Alike.addNr (t : ObjType) (n : Int) : (fs.addNr t n).Alike R (fs'.addNr t n) where
  id := h.id
  nameId := h.nameId
  mnt := h.mnt
  nr := by rw [AbstFS.addNr, AbstFS.addNr, h.nr]
  objs := h.objs

theorem Alike.erase (i : Nat) :
    AbstFS.Alike R { fs with objs := fs.objs.erase i } { fs' with objs := fs'.objs.erase i } where
  id := h.id
  nameId := h.nameId
  mnt := h.mnt
  nr := h.nr
  objs x := by
    rw [SortedMap.get?_erase, SortedMap.get?_erase]
    split
    · exact .none
    · exact h.objs x

theorem Alike.skeleton (x : Nat) : fs.skeleton x = fs'.skeleton x := by
  rw [AbstFS.skeleton, AbstFS.skeleton]
  obtain ⟨ho, ho'⟩ | ⟨o, o', ho, ho', hObj⟩ := h.get? x
  · rw [ho, ho']
  · rw [ho, ho', Option.map_some, Option.map_some, hObj.id, hObj.entries]

theorem Alike.dirAt (i : Nat) :
    (fs.objs.get? i).bind Obj.dir? = none ∧ (fs'.objs.get? i).bind Obj.dir? = none ∨
      ∃ d d', (fs.objs.get? i).bind Obj.dir? = some d ∧ (fs'.objs.get? i).bind Obj.dir? = some d' ∧
        d'.entries = d.entries := by
  obtain ⟨ho, ho'⟩ | ⟨o, o', ho, ho', hObj⟩ := h.get? i
  · exact .inl ⟨by rw [ho]; rfl, by rw [ho']; rfl⟩
  · rw [ho, ho']
    exact hObj.dir?

theorem Alike.isSome (i : Nat) : (fs.objs.get? i).isSome = (fs'.objs.get? i).isSome := by
  obtain ⟨ho, ho'⟩ | ⟨o, o', ho, ho', _⟩ := h.get? i
  · rw [ho, ho']
  · rw [ho, ho']
    rfl

theorem Alike.walkNames (names : List Name) (i : Nat) :
    fs.walkNames names i = fs'.walkNames names i := by
  induction names generalizing i with
  | nil => rfl
  | cons name rest ih =>
    rw [AbstFS.walkNames, AbstFS.walkNames]
    obtain ⟨hd, hd'⟩ | ⟨d, d', hd, hd', hEq⟩ := h.dirAt i
    · rw [hd, hd']
    · simp only [hd, hd', hEq, h.isSome, ih]

theorem Alike.walkPath (path : CString) (nd : Namei) :
    fs.walkPath path nd = fs'.walkPath path nd := by
  simp only [AbstFS.walkPath, h.mnt, h.walkNames]

theorem Alike.findPath (path : CString) (nd : Namei) :
    fs.findPath path nd = fs'.findPath path nd := by
  rw [AbstFS.findPath, AbstFS.findPath, h.walkPath]

theorem Alike.internalCheck : fs.internalCheck = fs'.internalCheck :=
  internalCheck_congr h.skeleton

end AbstFS

end

theorem Related.of_eq {α β γ ε : Type} {R : β → γ → Prop} {c c' : Except ε α} (h : c = c')
    {f : α → Except ε β} {g : α → Except ε γ} (hf : ∀ a, Related R (f a) (g a)) :
    Related R (c >>= f) (c' >>= g) := by
  subst h
  cases c with
  | ok a => exact hf a
  | error e => exact rfl

namespace AbstFS

section
variable {R : FileObj → FileObj → Prop} {fs fs' : AbstFS} {o o' : Obj}

variable (hR : FileRel R) (h : fs.Alike R fs')
include h

theorem addObjAt_alike (ho : o.Alike R o') (id : Nat) :
    Related (Alike R) (fs.addObjAt o id) (fs'.addObjAt o' id) := by
  have hUpdate : ((fs.addNr o.type 1).update id { o with id := id }).Alike R
      ((fs'.addNr o'.type 1).update id { o' with id := id }) := by
    rw [ho.type]
    exact (h.addNr _ 1).update id ⟨rfl, ho.ref, ho.mode, ho.body⟩
  rw [addObjAt, addObjAt]
  exact Related.of_eq hUpdate.internalCheck fun _ => hUpdate

theorem addNewObj_alike (ho : o.Alike R o') :
    Related (fun r r' => r.1 = r'.1 ∧ r.2.Alike R r'.2) (fs.addNewObj o) (fs'.addNewObj o') := by
  rw [addNewObj, addNewObj, h.id]
  apply (addObjAt_alike h ho fs'.id).bind
  intro a b hab
  exact ⟨rfl, ⟨rfl, hab.nameId, hab.mnt, hab.nr, hab.objs⟩⟩

theorem addEntry_alike (paren : Nat) (name : Name) (id : Nat) :
    Related (Alike R) (fs.addEntry paren name id) (fs'.addEntry paren name id) := by
  rw [addEntry, addEntry]
  obtain ⟨ho, ho'⟩ | ⟨o, o', ho, ho', hObj⟩ := h.get? paren
  · rw [ho, ho']
    exact rfl
  · rw [ho, ho']
    obtain ⟨oid, ref, mode, ⟨f, f', rfl, rfl, _⟩ | ⟨d, d', rfl, rfl, hEntries⟩ |
      ⟨path, rfl, rfl⟩⟩ := hObj.cases
    · exact rfl
    · simp only [hEntries]
      split_ifs
      · exact rfl
      · exact rfl
      · exact h.update paren ⟨rfl, rfl, rfl, .dir rfl⟩
    · exact rfl

theorem linkObj_alike (paren child : Nat) (name : Name) :
    Related (Alike R) (fs.linkObj paren child name) (fs'.linkObj paren child name) := by
  rw [linkObj, linkObj]
  apply (addEntry_alike h paren name child).bind
  intro a b hab
  obtain ⟨ho, ho'⟩ | ⟨o, o', ho, ho', hObj⟩ := hab.get? child
  · rw [ho, ho']
    exact hab
  · rw [ho, ho']
    exact hab.update child ⟨hObj.id, by rw [hObj.ref], hObj.mode, hObj.body⟩

theorem getChild_alike (paren : Nat) (name : Name) :
    fs.getChild paren name = fs'.getChild paren name := by
  rw [getChild, getChild]
  obtain ⟨hd, hd'⟩ | ⟨d, d', hd, hd', hEq⟩ := h.dirAt paren
  · rw [hd, hd']
  · simp only [hd, hd', hEq, h.isSome]

theorem mkdir_alike (path : CString) (mode : Nat) :
    Related (Alike R) (fs.mkdir path mode) (fs'.mkdir path mode) := by
  rw [mkdir, mkdir]
  apply Related.of_eq (h.findPath _ _)
  intro nd
  apply (addNewObj_alike h ⟨rfl, rfl, rfl, .dir rfl⟩).bind
  rintro ⟨id, a⟩ ⟨id', b⟩ ⟨rfl, hab⟩
  apply (linkObj_alike hab nd.1 id nd.2).bind
  intro a' b' hab'
  obtain ⟨ho, ho'⟩ | ⟨o, o', ho, ho', hObj⟩ := hab'.get? id
  · rw [ho, ho']
    exact rfl
  · rw [ho, ho']
    exact hab'.update id ⟨hObj.id, hObj.ref, hObj.mode, .dir hObj.entries⟩

theorem symlink_alike (oldpath newpath : CString) :
    Related (Alike R) (fs.symlink oldpath newpath) (fs'.symlink oldpath newpath) := by
  rw [symlink, symlink]
  apply Related.of_eq (h.findPath _ _)
  intro nd
  split_ifs
  · exact rfl
  · apply (addNewObj_alike h ⟨rfl, rfl, rfl, .symLink oldpath⟩).bind
    rintro ⟨id, a⟩ ⟨id', b⟩ ⟨rfl, hab⟩
    exact linkObj_alike hab _ _ _

theorem link_alike (oldpath newpath : CString) :
    Related (Alike R) (fs.link oldpath newpath) (fs'.link oldpath newpath) := by
  rw [link, link]
  apply Related.of_eq (h.findPath _ _)
  intro nd
  apply Related.of_eq (h.findPath _ _)
  intro ndNew
  exact linkObj_alike h _ _ _

include hR

theorem deleteObj_alike (ho : o.Alike R o') :
    Related (Alike R) (fs.deleteObj o) (fs'.deleteObj o') := by
  rw [deleteObj, deleteObj, ho.entries]
  split_ifs
  · apply Related.of_eq (destroy_alike hR ho)
    intro _
    have hErase := (h.addNr o'.type (-1)).erase o'.id
    rw [ho.type, ho.id]
    exact hErase
  · exact rfl

theorem unlinkObj_alike (paren : Nat) (name : Name) :
    Related (Alike R) (fs.unlinkObj paren name) (fs'.unlinkObj paren name) := by
  rw [unlinkObj, unlinkObj]
  obtain ⟨ho, ho'⟩ | ⟨o, o', ho, ho', hObj⟩ := h.get? paren
  · rw [ho, ho']
    exact rfl
  rw [ho, ho']
  obtain ⟨oid, ref, mode, ⟨f, f', rfl, rfl, _⟩ | ⟨d, d', rfl, rfl, hEntries⟩ |
    ⟨path, rfl, rfl⟩⟩ := hObj.cases
  · exact rfl
  swap
  · exact rfl
  simp only [hEntries]
  cases d'.entries.get? name with
  | none => exact rfl
  | some id =>
    dsimp only
    have hUpdate : (fs.update paren ⟨oid, ref, mode, .dir ⟨d'.entries.erase name, d.paren⟩⟩).Alike R
        (fs'.update paren ⟨oid, ref, mode, .dir ⟨d'.entries.erase name, d'.paren⟩⟩) :=
      h.update paren ⟨rfl, rfl, rfl, .dir rfl⟩
    obtain ⟨hc, hc'⟩ | ⟨c, c', hc, hc', hChild⟩ := hUpdate.get? id
    · rw [hc, hc']
      exact hUpdate
    · rw [hc, hc']
      dsimp only
      have hCount : ({ c with ref := c.ref - 1 } : Obj).Alike R { c' with ref := c'.ref - 1 } :=
        ⟨hChild.id, by rw [hChild.ref], hChild.mode, hChild.body⟩
      have hCounted := hUpdate.update id hCount
      rw [hChild.ref] at hCount hCounted ⊢
      split_ifs
      · exact deleteObj_alike hR hCounted hCount
      · exact hCounted

theorem newObj_alike (type : ObjType) (mode : Nat) :
    (fs.newObj type mode).1.Alike R (fs'.newObj type mode).1 ∧
      (fs.newObj type mode).2.Alike R (fs'.newObj type mode).2 := by
  cases type with
  | file => exact ⟨⟨rfl, rfl, rfl, .file (hR.fresh _ _)⟩, ⟨h.id, h.nameId, h.mnt, h.nr, h.objs⟩⟩
  | dir => exact ⟨⟨rfl, rfl, rfl, .dir rfl⟩, h⟩
  | symLink => exact ⟨⟨rfl, rfl, rfl, .symLink _⟩, h⟩

theorem creat_alike (path : CString) (mode : Nat) :
    Related (Alike R) (fs.creat path mode) (fs'.creat path mode) := by
  rw [creat, creat]
  apply Related.of_eq (h.findPath _ _)
  intro nd
  obtain ⟨hNew, hRest⟩ := newObj_alike hR h .file mode
  apply (addNewObj_alike hRest hNew).bind
  rintro ⟨id, a⟩ ⟨id', b⟩ ⟨rfl, hab⟩
  exact linkObj_alike hab _ _ _

theorem unlink_alike (path : CString) : Related (Alike R) (fs.unlink path) (fs'.unlink path) := by
  rw [unlink, unlink]
  apply Related.of_eq (h.findPath _ _)
  intro nd
  exact unlinkObj_alike hR h _ _

theorem rename_alike (oldpath newpath : CString) :
    Related (Alike R) (fs.rename oldpath newpath) (fs'.rename oldpath newpath) := by
  rw [rename, rename]
  apply Related.of_eq (h.findPath _ _)
  intro ndOld
  apply Related.of_eq (getChild_alike h _ _)
  intro oldObj
  apply Related.of_eq (h.findPath _ _)
  intro ndNew
  apply (linkObj_alike h _ _ _).bind
  intro a b hab
  exact unlinkObj_alike hR hab _ _

theorem rmdir_alike (path : CString) : Related (Alike R) (fs.rmdir path) (fs'.rmdir path) := by
  rw [rmdir, rmdir]
  apply Related.of_eq (h.findPath _ _)
  intro nd
  obtain ⟨hd, hd'⟩ | ⟨d, d', hd, hd', hEq⟩ := h.dirAt nd.1
  · rw [hd, hd']
    exact rfl
  · rw [hd, hd']
    dsimp only
    rw [hEq]
    cases d.entries.get? nd.2 with
    | none => exact rfl
    | some c =>
      rw [Option.bind_some, Option.bind_some]
      obtain ⟨hc, hc'⟩ | ⟨dc, dc', hc, hc', hEmpty⟩ := h.dirAt c
      · rw [hc, hc']
        exact rfl
      · rw [hc, hc']
        dsimp only
        rw [hEmpty]
        split_ifs
        · exact unlinkObj_alike hR h _ _
        · exact rfl

end

end AbstFS

section
variable [Hashes]

def DataOp.onFile (op : DataOp) (f : FileObj) : Except DataFailure FileObj :=
  match op with
  | .pwrite b off => f.pwrite b off
  | .truncate length => f.truncate length

def DataOp.onSize (size : Nat) : DataOp → Nat
  | .pwrite b off => if size < off + b.length then off + b.length else size
  | .truncate length => length

/-- The same size, signature and bytes, cut into the same regions. A region that a write has cut
back may have other bytes after its end. -/
structure FileObj.SameData (f f' : FileObj) : Prop where
  size : f.size = f'.size
  sig : f.sig = f'.sig
  tight : f.d.Tight
  tight' : f'.d.Tight
  bytes : f.d.byteAt = f'.d.byteAt
  regions : f.d.regions.map DataRegion.trim = f'.d.regions.map DataRegion.trim

namespace AbstFS

def fileAt (fs : AbstFS) (path : CString) : Option FileObj :=
  match fs.findPath path nameiInit with
  | .ok nd => (fs.objs.get? nd.1).bind Obj.file?
  | .error _ => none

def SafeOn (fs : AbstFS) (path : CString) (op : DataOp) : Prop :=
  ∀ f ∈ fs.fileAt path, op.InRange ∧ op.Safe f.d

instance (fs : AbstFS) (path : CString) (op : DataOp) : Decidable (fs.SafeOn path op) :=
  inferInstanceAs (Decidable (∀ f ∈ fs.fileAt path, _))

def Intact (fs : AbstFS) : Prop := fs.Alike FileObj.SameData fs

end AbstFS

end

section
variable [Hashes]

theorem sameData_fileRel : FileRel FileObj.SameData where
  fresh m m' := ⟨rfl, rfl, tight_empty m.1 m.2, tight_empty m'.1 m'.2, rfl, rfl⟩
  check f f' h := by
    have hAll : ∀ d : Data, d.WellFormed →
        d.regions.all DataRegion.internalCheck = true :=
      fun d hd => List.all_eq_true.mpr fun r hr => (hd.regions r hr).internalCheck
    rw [hAll f.d h.tight.wellFormed, hAll f'.d h.tight'.wellFormed]

omit [Hashes] in
theorem canonRegions_trim (prevEnd : Nat) (l : List DataRegion) :
    canonRegions prevEnd (l.map DataRegion.trim) = canonRegions prevEnd l := by
  induction l generalizing prevEnd with
  | nil => rfl
  | cons r rest ih =>
    have hRegion : canonDataRegion r.trim = canonDataRegion r := by
      simp only [canonDataRegion, DataRegion.trim, List.take_take, min_self]
    rw [List.map_cons, canonRegions, canonRegions, hRegion]
    exact congrArg _ (ih r.stop)

omit [Hashes] in
theorem canonData_eq_of_trim {d d' : Data}
    (h : d.regions.map DataRegion.trim = d'.regions.map DataRegion.trim) :
    canonData d = canonData d' := by
  rw [canonData, canonData, ← canonRegions_trim, h, canonRegions_trim]

theorem DataOp.Safe.writesSafe {op : DataOp} {d : Data} (h : op.Safe d) : op.WritesSafe d := by
  have hWrite : ∀ b off, d.PwriteSafe b off → d.WritesSafe b off := by
    intro b off hSafe
    rw [Data.PwriteSafe] at hSafe
    rw [Data.WritesSafe]
    split_ifs at hSafe ⊢
    · exact hSafe.2.2
    · exact hSafe
  cases op with
  | pwrite b off => exact hWrite b off h
  | truncate length => exact fun hLt => hWrite _ _ (h hLt)

theorem DataOp.onFile_spec {op : DataOp} {f : FileObj} (hTight : f.d.Tight)
    (hRange : op.InRange) (hSafe : op.Safe f.d) :
    ∃ d, op.onFile f = .ok ⟨op.onSize f.size, dataSig d, d⟩ ∧ d.Tight ∧
      d.byteAt = op.onBytes f.d.byteAt := by
  obtain ⟨d, hApply, _, hBytes⟩ := DataOp.apply_spec hTight.wellFormed hRange hSafe
  refine ⟨d, ?_, DataOp.apply_tight hTight hRange hSafe.writesSafe hApply, hBytes⟩
  cases op with
  | pwrite b off =>
    have hWrite : f.d.pwrite b off = .ok d := hApply
    rw [DataOp.onFile, FileObj.pwrite, hWrite]
    rfl
  | truncate length =>
    have hTruncate : f.d.truncate length = .ok d := hApply
    rw [DataOp.onFile, FileObj.truncate, hTruncate]
    rfl

theorem DataOp.onFile_sameData {op : DataOp} {f f' : FileObj} (h : f.SameData f')
    (hRange : op.InRange) (hSafe : op.Safe f.d) (hSafe' : op.Safe f'.d) :
    ∃ g g', op.onFile f = .ok g ∧ op.onFile f' = .ok g' ∧ g.SameData g' := by
  obtain ⟨d, hg, hTight, hBytes⟩ := DataOp.onFile_spec h.tight hRange hSafe
  obtain ⟨d', hg', hTight', hBytes'⟩ := DataOp.onFile_spec h.tight' hRange hSafe'
  have hSame : d.byteAt = d'.byteAt := by rw [hBytes, hBytes', h.bytes]
  have hRegions := hTight.trim_eq hTight' hSame
  refine ⟨_, _, hg, hg', ?_, ?_, hTight, hTight', hSame, hRegions⟩
  · rw [h.size]
  · rw [dataSig, dataSig, canonData_eq_of_trim hRegions]

namespace AbstFS

variable {fs fs' : AbstFS}

theorem onFile_alike (h : fs.Alike FileObj.SameData fs') {path : CString}
    {op : DataOp} (hSafe : fs.SafeOn path op) (hSafe' : fs'.SafeOn path op) :
    Related (Alike FileObj.SameData) (fs.onFile path op.onFile) (fs'.onFile path op.onFile) := by
  rw [SafeOn, fileAt] at hSafe hSafe'
  rw [onFile, onFile, ← h.findPath path nameiInit]
  rw [← h.findPath path nameiInit] at hSafe'
  cases hFind : fs.findPath path nameiInit with
  | error e => exact rfl
  | ok nd =>
    rw [hFind] at hSafe hSafe'
    simp only [bind, Except.bind] at hSafe hSafe' ⊢
    obtain ⟨ho, ho'⟩ | ⟨o, o', ho, ho', hObj⟩ := h.get? nd.1
    · rw [ho, ho']
      exact rfl
    · rw [ho, ho']
      rw [ho] at hSafe
      rw [ho'] at hSafe'
      obtain ⟨oid, ref, mode, ⟨f, f', rfl, rfl, hFile⟩ | ⟨d, d', rfl, rfl, _⟩ | ⟨path, rfl, rfl⟩⟩ :=
        hObj.cases
      · obtain ⟨hRange, hSafe⟩ := hSafe f rfl
        obtain ⟨g, g', hg, hg', hSame⟩ := DataOp.onFile_sameData
          hFile hRange hSafe (hSafe' f' rfl).2
        dsimp only
        rw [hg, hg']
        have hObj' : Obj.Alike FileObj.SameData ⟨oid, ref, mode, .file g⟩
            ⟨oid, ref, mode, .file g'⟩ := ⟨rfl, rfl, rfl, .file hSame⟩
        exact h.update nd.1 hObj'
      · exact rfl
      · exact rfl

def OpSafe (fs : AbstFS) : FsOp → Prop
  | .pwrite path buf off => fs.SafeOn path (.pwrite buf off)
  | .truncate path length => fs.SafeOn path (.truncate length)
  | _ => True

instance (fs : AbstFS) (op : FsOp) : Decidable (fs.OpSafe op) :=
  match op with
  | .pwrite path buf off => inferInstanceAs (Decidable (fs.SafeOn path (.pwrite buf off)))
  | .truncate path length => inferInstanceAs (Decidable (fs.SafeOn path (.truncate length)))
  | .creat _ _ => inferInstanceAs (Decidable True)
  | .mkdir _ _ => inferInstanceAs (Decidable True)
  | .symlink _ _ => inferInstanceAs (Decidable True)
  | .link _ _ => inferInstanceAs (Decidable True)
  | .unlink _ => inferInstanceAs (Decidable True)
  | .rmdir _ => inferInstanceAs (Decidable True)
  | .rename _ _ => inferInstanceAs (Decidable True)

theorem apply_alike (h : fs.Alike FileObj.SameData fs') {op : FsOp}
    (hSafe : fs.OpSafe op) (hSafe' : fs'.OpSafe op) :
    Related (Alike FileObj.SameData) (fs.apply op) (fs'.apply op) := by
  cases op with
  | creat path mode => exact creat_alike sameData_fileRel h path mode
  | mkdir path mode => exact mkdir_alike h path mode
  | symlink oldpath newpath => exact symlink_alike h oldpath newpath
  | link oldpath newpath => exact link_alike h oldpath newpath
  | unlink path => exact unlink_alike sameData_fileRel h path
  | rmdir path => exact rmdir_alike sameData_fileRel h path
  | rename oldpath newpath => exact rename_alike sameData_fileRel h oldpath newpath
  | pwrite path buf off => exact onFile_alike h hSafe hSafe'
  | truncate path length => exact onFile_alike h hSafe hSafe'

theorem Alike.intact (h : fs.Alike FileObj.SameData fs') : fs.Intact where
  id := rfl
  nameId := rfl
  mnt := rfl
  nr := rfl
  objs x := by
    obtain ⟨ho, _⟩ | ⟨o, o', ho, _, hObj⟩ := h.get? x
    · rw [ho]
      exact .none
    · rw [ho]
      refine .some ⟨rfl, rfl, rfl, ?_⟩
      obtain ⟨id, ref, mode, ⟨f, f', rfl, rfl, hFile⟩ | ⟨d, d', rfl, rfl, _⟩ | ⟨path, rfl, rfl⟩⟩ :=
        hObj.cases
      · exact .file ⟨rfl, rfl, hFile.tight, hFile.tight, rfl, rfl⟩
      · exact .dir rfl
      · exact .symLink path

theorem Intact.apply (h : fs.Intact) {op : FsOp} (hSafe : fs.OpSafe op)
    (hApply : fs.apply op = .ok fs') : fs'.Intact := by
  have hRelated := apply_alike h hSafe hSafe
  rw [hApply] at hRelated
  exact hRelated

theorem Intact.clear (h : fs.Intact) : ∃ cleared, fs.clear = .ok cleared := by
  refine clear_ok fun x o hGet => ?_
  obtain ⟨hNone, _⟩ | ⟨o₁, o', ho, ho', hObj⟩ := h.get? x
  · cases hNone.symm.trans hGet
  · cases ho.symm.trans hGet
    obtain ⟨id, ref, mode, ⟨f, f', rfl, _, hFile⟩ | ⟨d, d', rfl, _, _⟩ | ⟨path, rfl, _⟩⟩ :=
      hObj.cases
    · have hAll : f.d.regions.all DataRegion.internalCheck = true :=
        List.all_eq_true.mpr fun r hr => (hFile.tight.wellFormed.regions r hr).internalCheck
      exact if_pos hAll
    · rfl
    · rfl

theorem Intact.alike_of_same (h : fs.Intact) (hSame : fs'.Same fs) :
    fs'.Alike FileObj.SameData fs where
  id := hSame.id
  nameId := hSame.nameId
  mnt := hSame.mnt
  nr := hSame.nr
  objs x := by
    have hView := hSame.objs x
    rw [view, view] at hView
    obtain ⟨hNone, _⟩ | ⟨o, o', ho, ho', hObj⟩ := h.get? x
    · rw [hNone, Option.map_none, Option.map_eq_none_iff] at hView
      rw [hNone, hView]
      exact .none
    · rw [ho, Option.map_some, Option.map_eq_some_iff] at hView
      obtain ⟨c, hc, hcView⟩ := hView
      rw [ho, hc]
      refine .some ⟨congrArg ObjView.id hcView, congrArg ObjView.ref hcView,
        congrArg ObjView.mode hcView, ?_⟩
      have hBody : c.body.view = o.body.view := congrArg ObjView.body hcView
      cases ho.symm.trans ho'
      obtain ⟨id, ref, mode, ⟨f, f', rfl, hf', hFile⟩ | ⟨d, d', rfl, _, _⟩ | ⟨path, rfl, _⟩⟩ :=
        hObj.cases
      · cases hcBody : c.body with
        | file g =>
          rw [hcBody] at hBody
          obtain ⟨hSize, hSig, hRegions⟩ := BodyView.file.inj hBody
          exact .file ⟨hSize, hSig, hFile.tight.of_regions hRegions, hFile.tight,
            funext fun x => Data.byteAt_of_regions hRegions x, by rw [hRegions]⟩
        | dir d =>
          rw [hcBody] at hBody
          cases hBody
        | symLink path =>
          rw [hcBody] at hBody
          cases hBody
      · cases hcBody : c.body with
        | file g =>
          rw [hcBody] at hBody
          cases hBody
        | dir e =>
          rw [hcBody] at hBody
          exact .dir (BodyView.dir.inj hBody)
        | symLink path =>
          rw [hcBody] at hBody
          cases hBody
      · cases hcBody : c.body with
        | file g =>
          rw [hcBody] at hBody
          cases hBody
        | dir e =>
          rw [hcBody] at hBody
          cases hBody
        | symLink path' =>
          rw [hcBody] at hBody
          rw [BodyView.symLink.inj hBody]
          exact .symLink path

theorem init_alike (mnt : CString) (memory memory' : Memory) :
    (init mnt memory).Alike FileObj.SameData (init mnt memory') where
  id := rfl
  nameId := rfl
  mnt := rfl
  nr := rfl
  objs x := by
    rw [init, init, SortedMap.get?_insert]
    split_ifs
    · exact .some ⟨rfl, rfl, rfl, .dir rfl⟩
    · exact .none

def SafeRun (fs : AbstFS) (ops : List FsOp) : Prop :=
  Meets apply (fun _ fs op => fs.OpSafe op) [] fs ops

theorem run_alike {fs fs' : AbstFS} (h : fs.Alike FileObj.SameData fs')
    (ops : List FsOp) (hSafe : fs.SafeRun ops) (hSafe' : fs'.SafeRun ops) :
    Related (Alike FileObj.SameData) (fs.run ops) (fs'.run ops) :=
  foldlM_related (fun _ _ _ op h hOk hOk' => @apply_alike _ _ _ h op hOk hOk') ops [] h hSafe hSafe'

/-- No calls tell a copy of a file system from the file system: they end in the same way on both,
and leave the same objects with the same data. -/
theorem copy_runs_alike {mnt : CString} {memory : Memory} {made : List FsOp}
    (hMade : (init mnt memory).run made = .ok fs) (hSafe : SafeRun (init mnt memory) made)
    (hCopyable : fs.Copyable) {target cleared : AbstFS} (hClear : target.clear = .ok cleared) :
    ∃ copied, target.copy fs = .ok copied ∧ ∀ ops, SafeRun copied ops → SafeRun fs ops →
      Related (Alike FileObj.SameData) (copied.run ops) (fs.run ops) := by
  have hIntact := run_alike (init_alike mnt memory memory) made hSafe hSafe
  rw [hMade] at hIntact
  have hConsistent := run_consistent (init_consistent mnt memory) made hMade
  obtain ⟨copied, hCopy, hSame⟩ := copy_same hConsistent hCopyable hClear
  exact ⟨copied, hCopy, run_alike (Intact.alike_of_same hIntact hSame)⟩

end AbstFS

end

namespace AbstFS

def writtenOps : List FsOp := [.creat [47, 97] 420, .pwrite [47, 97] [51, 51, 51, 51] 0]

attribute [local instance] sampleHashes

theorem copy_runs_alike_written :
    ∃ fs copied, emptyFS.run writtenOps = .ok fs ∧ emptyFS.copy fs = .ok copied ∧
      ∀ ops, SafeRun copied ops → SafeRun fs ops →
        Related (Alike FileObj.SameData) (copied.run ops) (fs.run ops) := by
  have hMade : emptyFS.run writtenOps = .ok _ := rfl
  have hClear : emptyFS.clear = .ok _ := rfl
  obtain ⟨copied, hCopied⟩ := copy_runs_alike hMade (by unfold SafeRun; decide +kernel)
    (by decide +kernel) hClear
  exact ⟨_, copied, hMade, hCopied⟩

end AbstFS

end Explode.Driver
