import Explode.Driver.ArchiveReads
import Explode.Driver.Consistent

/-!
# A file system that is marshalled and read back

Two file systems are the same when they agree on everything but the parent
pointers and the memory behind their files. The round trip gives the same file
system as long as no regular region has bytes.
-/

namespace Explode.Driver

inductive BodyView
  | file (size : Nat) (sig : Word) (regions : List DataRegion)
  | dir (entries : SortedMap Name Nat)
  | symLink (path : CString)
  deriving DecidableEq

structure ObjView where
  id : Nat
  ref : Int
  mode : Nat
  body : BodyView
  deriving DecidableEq

def Body.view : Body → BodyView
  | .file f => .file f.size f.sig f.d.regions
  | .dir d => .dir d.entries
  | .symLink path => .symLink path

def Obj.view (o : Obj) : ObjView := ⟨o.id, o.ref, o.mode, o.body.view⟩

def BodyView.type : BodyView → ObjType
  | file _ _ _ => .file
  | dir _ => .dir
  | symLink _ => .symLink

def BodyView.entries : BodyView → SortedMap Name Nat
  | dir entries => entries
  | _ => .empty

theorem view_type (o : Obj) : o.view.body.type = o.type := by
  obtain ⟨id, ref, mode, body⟩ := o
  cases body <;> rfl

theorem view_entries (o : Obj) : o.view.body.entries = o.entries := by
  obtain ⟨id, ref, mode, body⟩ := o
  cases body <;> rfl

namespace AbstFS

def view (fs : AbstFS) (id : Nat) : Option ObjView := (fs.objs.get? id).map Obj.view

structure Same (fs fs' : AbstFS) : Prop where
  id : fs.id = fs'.id
  nameId : fs.nameId = fs'.nameId
  mnt : fs.mnt = fs'.mnt
  nr : fs.nr = fs'.nr
  objs : ∀ id, fs.view id = fs'.view id

end AbstFS

def Body.Fits : Body → Prop
  | .file f => f.size < 2147483648 ∧ f.d.regions.length < 2147483648 ∧
    ∀ r ∈ f.d.regions, r.start < 2147483648 ∧ r.stop < 2147483648 ∧ r.magic < 2147483648
  | .dir d => d.entries.size < 2147483648 ∧ ∀ e ∈ d.entries.entries, e.2 < 2147483648
  | .symLink _ => True

instance : DecidablePred Body.Fits
  | .file _ => inferInstanceAs (Decidable (_ ∧ _ ∧ _))
  | .dir _ => inferInstanceAs (Decidable (_ ∧ _))
  | .symLink _ => inferInstanceAs (Decidable True)

def Obj.Fits (o : Obj) : Prop := o.id < 2147483648 ∧ o.mode < 4294967296 ∧ o.body.Fits

instance : DecidablePred Obj.Fits := fun _ => inferInstanceAs (Decidable (_ ∧ _ ∧ _))

/-- No region has bytes of its own: the regular ones are empty. -/
def BodyView.NoBytes : BodyView → Prop
  | file _ _ regions => ∀ r ∈ regions, r.magic = 0 → r.stop ≤ r.start ∧ r.data = []
  | _ => True

instance : DecidablePred BodyView.NoBytes
  | .file _ _ regions => inferInstanceAs (Decidable (∀ r ∈ regions, _ → _))
  | .dir _ => inferInstanceAs (Decidable True)
  | .symLink _ => inferInstanceAs (Decidable True)

def Obj.NoSelf (o : Obj) : Prop := ∀ name, o.entries.get? name ≠ some o.id

section Regions
variable {d : Data}

theorem unmarshalRegions_reads (rs : List DataRegion)
    (hSorted : (d.regions ++ rs).Pairwise fun a b => a.start < b.start)
    (hBufferless : ∀ r ∈ rs, r.Bufferless)
    (hBytes : ∀ r ∈ rs, r.magic = 0 → r.stop ≤ r.start ∧ r.data = [])
    (hFits : ∀ r ∈ rs, r.start < 2147483648 ∧ r.stop < 2147483648 ∧ r.magic < 2147483648) :
    ∃ allocs, Reads (fun ar => unmarshalRegions rs.length ar d) (rs.flatMap marshalDataRegion)
      { d with regions := d.regions ++ rs, allocs := allocs } := by
  induction rs generalizing d with
  | nil =>
    rw [List.append_nil]
    exact ⟨d.allocs, Reads.done d⟩
  | cons r rest ih =>
    obtain ⟨hBuffer, hBuffers⟩ := List.forall_mem_cons.mp hBufferless
    obtain ⟨hr, hRest⟩ := List.forall_mem_cons.mp hBytes
    obtain ⟨⟨hStart, hStop, hNumber⟩, hFits'⟩ := List.forall_mem_cons.mp hFits
    have hNoData : (⟨r.start, r.stop, r.magic, []⟩ : DataRegion) = r := by
      by_cases hMagic : r.magic = 0
      · rw [← (hr hMagic).2]
      · rw [← hBuffer hMagic]
    have hAdd : IntervalMap.insert DataRegion.start r d.regions = d.regions ++ [r] := by
      have hBefore : ∀ b ∈ d.regions, b.start < r.start := by
        intro b hb
        exact (List.pairwise_append.mp hSorted).2.2 b hb r List.mem_cons_self
      have hInsert : IntervalMap.insert DataRegion.start r (d.regions ++ []) = d.regions ++ [r] :=
        IntervalMap.insert_between hBefore (by simp)
      rwa [List.append_nil] at hInsert
    obtain ⟨n, hn⟩ : ∃ n, n = if r.magic = 0 then d.allocs + 1 else d.allocs := ⟨_, rfl⟩
    obtain ⟨allocs, hTail⟩ := ih (d := { d with regions := d.regions ++ [r], allocs := n })
      (by simpa using hSorted) hBuffers hRest hFits'
    refine ⟨allocs, ?_⟩
    have hWritten : marshalDataRegion r =
        intBytes r.start ++ intBytes r.stop ++ intBytes r.magic := by
      rw [marshalDataRegion]
      split_ifs with hMagic
      · rw [(hr hMagic).2, List.take_nil, List.append_nil]
      · rw [List.append_nil]
    rw [List.flatMap_cons, hWritten]
    simp only [List.append_assoc]
    refine (readNat_reads hStart).bind
      ((readNat_reads hStop).bind ((readNat_reads hNumber).bind ?_))
    simp only [List.append_assoc, List.singleton_append] at hTail
    by_cases hMagic : r.magic = 0
    · -- a regular region that is empty: nothing is put into the archive
      have hAlloc : d.alloc (r.stop - r.start) = ([], { d with allocs := d.allocs + 1 }) := by
        rw [Data.alloc, Nat.sub_eq_zero_of_le (hr hMagic).1]
        rfl
      have hPut : ∀ ar : Archive, ar.put [] = ar := fun ar => by rw [Archive.put, List.append_nil]
      simp only [if_pos hMagic] at hn ⊢
      simp only [hAlloc, hPut, hNoData, Data.add, hAdd]
      rwa [hn] at hTail
    · simp only [if_neg hMagic] at hn ⊢
      simp only [hNoData, Data.add, hAdd]
      rwa [hn] at hTail

end Regions

def linksOf (id : Nat) (entries : List (Name × Nat)) : List DelayedLink :=
  entries.map fun e => ⟨id, e.2, e.1⟩

theorem unmarshalEntries_reads (paren : Nat) (entries : List (Name × Nat))
    (links : List DelayedLink) (hNames : ∀ e ∈ entries, e.1.length < maxName)
    (hIds : ∀ e ∈ entries, e.2 < 2147483648 ∧ paren ≠ e.2) :
    Reads (fun ar => unmarshalEntries paren entries.length ar links)
      (entries.flatMap (marshalEntry id)) (links ++ linksOf paren entries) := by
  induction entries generalizing links with
  | nil =>
    rw [linksOf, List.map_nil, List.append_nil]
    exact Reads.done links
  | cons e rest ih =>
    obtain ⟨hName, hNames'⟩ := List.forall_mem_cons.mp hNames
    obtain ⟨⟨hId, hSelf⟩, hIds'⟩ := List.forall_mem_cons.mp hIds
    have hLength : e.1.length < 2147483648 := hName.trans (by decide)
    have hTail := ih (links ++ [⟨paren, e.2, e.1⟩]) hNames' hIds'
    rw [List.flatMap_cons, marshalEntry]
    simp only [List.append_assoc, id_eq]
    refine (readNat_reads hLength).bind ?_
    simp only [if_neg (not_le.mpr hName)]
    refine (get_reads rfl).bind ?_
    dsimp only
    refine (readNat_reads hId).bind ?_
    simp only [if_neg hSelf]
    simpa [linksOf] using hTail

def ObjView.bare (v : ObjView) : ObjView :=
  { v with
    ref := 0
    body :=
      match v.body with
      | .dir _ => .dir .empty
      | b => b }

theorem bare_type (v : ObjView) : v.bare.body.type = v.body.type := by
  obtain ⟨id, ref, mode, body⟩ := v
  cases body <;> rfl

def Obj.links (o : Obj) : List DelayedLink := linksOf o.id o.entries.entries

theorem unmarshalBody_reads {o : Obj} (hForm : o.Formed) (hFits : o.Fits)
    (hBytes : o.body.view.NoBytes) (hSelf : o.NoSelf) (mem : FileMemory)
    (links : List DelayedLink) :
    ∃ o', o'.view = o.view.bare ∧ Reads (unmarshalBody mem links o.type.code o.id o.mode)
      (marshalBody .marshalOnly id o.body) (o', links ++ o.links) := by
  obtain ⟨oid, ref, mode, body⟩ := o
  obtain ⟨hId, hMode, hBodyFits⟩ := hFits
  cases body with
  | file f =>
    obtain ⟨hSize, hCount, hRegions⟩ := hBodyFits
    obtain ⟨allocs, hRead⟩ := unmarshalRegions_reads (d := .empty mem.1 mem.2) f.d.regions
      hForm.sorted hForm.bufferless hBytes hRegions
    refine ⟨⟨oid, 0, mode, .file ⟨f.size, f.sig, ⟨f.d.regions, mem.1, mem.2, allocs⟩⟩⟩, rfl, ?_⟩
    simp only [marshalBody, marshalData, List.append_assoc, Obj.links, linksOf]
    rw [Obj.entries]
    simp only [SortedMap.empty, List.map_nil, List.append_nil]
    refine (readNat_reads hSize).bind ((getWord_reads f.sig).bind (Reads.last ?_ (Reads.done _)))
    refine (getInt_reads (by omega) (by omega)).bind ?_
    simpa [Data.empty] using hRead
  | dir d =>
    obtain ⟨hCount, hChildren⟩ := hBodyFits
    have hRead := unmarshalEntries_reads oid d.entries.entries links
      (fun e he => (hForm e.1 e.2 (SortedMap.get?_eq_some.mpr he)).1)
      fun e he => ⟨hChildren e he, fun hEq =>
        hSelf e.1 (hEq ▸ SortedMap.get?_eq_some.mpr he)⟩
    refine ⟨⟨oid, 0, mode, .dir ⟨.empty, none⟩⟩, rfl, ?_⟩
    refine (getInt_reads (by omega) (by omega)).bind (Reads.last ?_ (Reads.done _))
    simpa [SortedMap.size, Obj.links, Obj.entries] using hRead
  | symLink path =>
    obtain ⟨hLength, hPerm⟩ := hForm
    refine ⟨⟨oid, 0, 511, .symLink path⟩, ?_, ?_⟩
    · rw [← hPerm]
      rfl
    · have hShort : path.length < 2147483648 := hLength.trans (by decide)
      simp only [Obj.links, linksOf]
      rw [Obj.entries]
      simp only [SortedMap.empty, List.map_nil, List.append_nil]
      refine (readNat_reads hShort).bind ?_
      simp only [if_neg (not_le.mpr hLength)]
      refine Reads.last (get_reads rfl) ?_
      dsimp only
      exact Reads.done _

theorem unmarshalObj_reads {o : Obj} (hForm : o.Formed) (hFits : o.Fits)
    (hBytes : o.body.view.NoBytes) (hSelf : o.NoSelf) (mem : FileMemory)
    (links : List DelayedLink) :
    ∃ o', o'.view = o.view.bare ∧
      Reads (unmarshalObj mem links) (marshalObj o) (o', links ++ o.links) := by
  obtain ⟨o', hView, hBody⟩ := unmarshalBody_reads hForm hFits hBytes hSelf mem links
  have hType : o.type.code < 2147483648 := by
    cases o.type <;> decide
  refine ⟨o', hView, ?_⟩
  rw [marshalObj, marshalObjBytes]
  simp only [List.append_assoc, id_eq]
  exact (readNat_reads hType).bind ((readNat_reads hFits.1).bind
    ((get_reads (length_intBytes o.ref)).bind ((getUnsigned_reads hFits.2.1).bind hBody)))

structure Obj.Readable (o : Obj) : Prop where
  formed : o.Formed
  fits : o.Fits
  noBytes : o.body.view.NoBytes
  noSelf : o.NoSelf

namespace AbstFS

theorem unmarshalObjs_reads (l : List (Nat × Obj)) (hReadable : ∀ e ∈ l, e.2.Readable)
    (hKeys : ∀ e ∈ l, e.2.id = e.1) (hSorted : l.Pairwise fun a b => a.1 < b.1)
    (hRoot : ∀ e ∈ l, e.1 = 0 → e.2.type = .dir) (u : Unmarshalling) (rest : Bytes)
    (hAhead : u.ar.Ahead (l.flatMap (fun e => marshalObj e.2) ++ rest)) :
    ∃ u', unmarshalObjs l.length u = .ok u' ∧
      u'.ar = u.ar.skip (l.flatMap fun e => marshalObj e.2).length ∧
      u'.delayedLinks = u.delayedLinks ++ l.flatMap (fun e => e.2.links) ∧
      u'.fs.id = u.fs.id ∧ u'.fs.nameId = u.fs.nameId ∧ u'.fs.mnt = u.fs.mnt ∧
      u'.fs.nr = u.fs.nr ∧
      ∀ x, u'.fs.view x = ((l.lookup x).map fun o => o.view.bare).or (u.fs.view x) := by
  induction l generalizing u with
  | nil => exact ⟨u, rfl, rfl, by simp, rfl, rfl, rfl, rfl, by simp⟩
  | cons e tail ih =>
    obtain ⟨hFirst, hReadable'⟩ := List.forall_mem_cons.mp hReadable
    obtain ⟨hKey, hKeys'⟩ := List.forall_mem_cons.mp hKeys
    obtain ⟨hLess, hSorted'⟩ := List.pairwise_cons.mp hSorted
    obtain ⟨hDir, hRoot'⟩ := List.forall_mem_cons.mp hRoot
    obtain ⟨o', hView, hRead⟩ := unmarshalObj_reads hFirst.formed hFirst.fits hFirst.noBytes
      hFirst.noSelf (u.fs.memory u.fs.files) u.delayedLinks
    rw [List.flatMap_cons, List.append_assoc] at hAhead
    have hObj := hRead u.ar _ hAhead
    have hId : o'.id = e.1 := (congrArg ObjView.id hView).trans hKey
    have hType : o'.type = e.2.type := by
      rw [← view_type, hView, bare_type, view_type]
    have hCopy : ¬(o'.id = 0 ∧ o'.type ≠ .dir) := by
      rintro ⟨hZero, hNot⟩
      exact hNot (hType.trans (hDir (hId ▸ hZero)))
    obtain ⟨u₁, hu₁⟩ : ∃ u₁ : Unmarshalling, u₁ =
        ⟨{ u.fs.update o'.id o' with
            files := if o'.type = .file then u.fs.files + 1 else u.fs.files },
          u.ar.skip (marshalObj e.2).length,
          u.delayedLinks ++ e.2.links⟩ := ⟨_, rfl⟩
    obtain ⟨u', hRun, hAr, hLinks, h₁, h₂, h₃, h₄, hViews⟩ := ih hReadable' hKeys' hSorted' hRoot'
      u₁ (by rw [hu₁]; exact hAhead.skip)
    refine ⟨u', ?_, ?_, ?_, ?_, ?_, ?_, ?_, ?_⟩
    · rw [List.length_cons, unmarshalObjs, hObj]
      simp only [bind, Except.bind, if_neg hCopy]
      rw [← hu₁]
      exact hRun
    · rw [hAr, hu₁, List.flatMap_cons, List.length_append, Archive.skip_skip]
    · rw [hLinks, hu₁, List.flatMap_cons, List.append_assoc]
    · rw [h₁, hu₁]
      rfl
    · rw [h₂, hu₁]
      rfl
    · rw [h₃, hu₁]
      rfl
    · rw [h₄, hu₁]
      rfl
    · intro x
      have hStep : u₁.fs.view x = if x = e.1 then some e.2.view.bare else u.fs.view x := by
        rw [hu₁]
        change ((u.fs.update o'.id o').objs.get? x).map Obj.view = _
        rw [get?_update, hId]
        split_ifs
        · rw [Option.map_some, hView]
        · rfl
      rw [hViews, hStep, List.lookup_cons]
      by_cases hEq : x = e.1
      · subst hEq
        have hNone : tail.lookup e.1 = none := by
          rw [List.lookup_eq_none_iff]
          intro p hp
          have := hLess p hp
          simp [this.ne]
        simp [hNone]
      · have hBeq : (x == e.1) = false := beq_false_of_ne hEq
        simp [hBeq, hEq]

end AbstFS

end Explode.Driver
