import Explode.Driver.ObjectGraph

/-!
# What all calls keep

Whatever the calls are used for, as long as they return the objects stand under
their ids, the references are counted, and names, links and regions have the
form in which they were made.
-/

namespace Explode.Driver

open Loop

def DataRegion.Bufferless (r : DataRegion) : Prop := r.magic ≠ 0 → r.data = []

namespace Data

structure Tidy (d : Data) : Prop where
  sorted : d.regions.Pairwise fun a b => a.start < b.start
  bufferless : ∀ r ∈ d.regions, r.Bufferless

variable {d : Data} {r : DataRegion}

theorem Tidy.add (h : d.Tidy) (hr : r.Bufferless) : (d.add r).Tidy := by
  refine ⟨IntervalMap.pairwise_insert h.sorted, ?_⟩
  intro a ha
  rcases IntervalMap.mem_of_mem_insert ha with rfl | ha
  · exact hr
  · exact h.bufferless a ha

theorem Tidy.addIfAny (h : d.Tidy) {r : Option DataRegion} (hr : ∀ a ∈ r, a.Bufferless) :
    (d.addIfAny r).Tidy := by
  cases r with
  | none => exact h
  | some r => exact h.add (hr r rfl)

theorem Tidy.erase (h : d.Tidy) : (d.erase r).Tidy :=
  ⟨h.sorted.sublist List.filter_sublist, fun a ha => h.bufferless a (List.mem_filter.mp ha).1⟩

theorem Tidy.update (h : d.Tidy) (r' : DataRegion) (hKey : r'.start = r.start)
    (hr : r'.Bufferless) : (d.update r r').Tidy := by
  refine ⟨IntervalMap.pairwise_update hKey h.sorted, ?_⟩
  intro a ha
  rcases IntervalMap.mem_of_mem_update ha with rfl | ha
  · exact hr
  · exact h.bufferless a ha

theorem newRegion_bufferless (start stop magic : Nat) (data : Bytes) (o : Nat) :
    (d.newRegion start stop magic data o).1.Bufferless := by
  intro hMagic
  unfold newRegion at hMagic ⊢
  split_ifs at hMagic ⊢ with h
  · rfl
  · exact absurd hMagic h

theorem Tidy.newRegion (h : d.Tidy) (start stop magic : Nat) (data : Bytes) (o : Nat) :
    (d.newRegion start stop magic data o).2.Tidy := by
  have hRegions := d.newRegion_regions start stop magic data o
  exact ⟨hRegions ▸ h.sorted, hRegions ▸ h.bufferless⟩

end Data

namespace Writing

structure Tidy (w : Writing) : Prop where
  data : w.data.Tidy
  insertFront : ∀ r ∈ w.insertFront, r.Bufferless
  insertBack : ∀ r ∈ w.insertBack, r.Bufferless

def TidyStop : WriteStop → Prop
  | .failed _ => True
  | .returned d => d.Tidy

variable {p : Piece} {w : Writing} {dr : DataRegion}

theorem Tidy.setData (h : w.Tidy) {d : Data} (hd : d.Tidy)
    (mergeFront mergeBack : Option DataRegion) :
    Tidy { w with data := d, mergeFront := mergeFront, mergeBack := mergeBack } :=
  ⟨hd, h.insertFront, h.insertBack⟩

section
variable (h : w.Tidy)
include h

theorem overwrite_tidy : Returns Tidy TidyStop (w.overwrite dr) := by
  unfold overwrite
  split_ifs
  · exact h.setData h.data.erase _ _
  · trivial

theorem overFront_tidy (hdr : dr.Bufferless) : Returns Tidy TidyStop (overFront p w dr) := by
  unfold overFront
  split_ifs
  · exact h
  · exact h.setData (h.data.update { dr with stop := p.start } rfl hdr) _ _
  · trivial
  · exact h.setData h.data.erase _ _

theorem inside_tidy : Returns Tidy TidyStop (inside p w dr) := by
  unfold inside
  split_ifs with hKind _ _ _ _ hMagic
  · trivial
  · refine ⟨((h.data.newRegion ..).newRegion ..).erase, ?_, ?_⟩
    · rintro r ⟨⟩
      apply Data.newRegion_bufferless
    · rintro r ⟨⟩
      apply Data.newRegion_bufferless
  · trivial
  · trivial
  · trivial
  · exact h.data
  · refine h.data.update _ rfl fun hOther => absurd ?_ hOther
    -- the region has the kind of the written bytes, which are not magic
    have hSame : dr.magic = p.magic := not_not.mp fun hNe => hKind (.inr hNe)
    change dr.magic = 0
    rw [hSame]
    exact not_not.mp hMagic

theorem overBack_tidy : Returns Tidy TidyStop (overBack p w dr) := by
  unfold overBack
  split_ifs
  · trivial
  · exact h
  · trivial
  · refine ⟨(h.data.newRegion ..).erase, h.insertFront, ?_⟩
    rintro r ⟨⟩
    apply Data.newRegion_bufferless
  · trivial
  · trivial
  · exact h.setData h.data.erase _ _

theorem overRegion_tidy (hdr : dr.Bufferless) :
    Returns Tidy TidyStop (Writing.overRegion p w dr) := by
  unfold Writing.overRegion
  split_ifs
  · exact overwrite_tidy h
  · exact overFront_tidy h hdr
  · exact inside_tidy h
  · exact overBack_tidy h

end

theorem overAll_tidy (h : w.Tidy) (l : List DataRegion) (hl : ∀ r ∈ l, r.Bufferless) :
    Returns Tidy TidyStop (l.foldlM (Writing.overRegion p) w) := by
  induction l generalizing w with
  | nil => exact h
  | cons r rest ih =>
    obtain ⟨hr, hRest⟩ := List.forall_mem_cons.mp hl
    rw [List.foldlM_cons]
    exact (overRegion_tidy h hr).bind fun w' h' => ih h' hRest

theorem finish_tidy (h : w.Tidy) : (w.finish p).Tidy := by
  have hData := (h.data.addIfAny h.insertFront).addIfAny h.insertBack
  unfold finish
  split
  · exact hData
  · simp only
    split_ifs with hMagic
    · exact hData.add fun _ => rfl
    · have hAlloc : ∀ n,
          ((((w.data.addIfAny w.insertFront).addIfAny w.insertBack).alloc n).2).Tidy :=
        fun n => ⟨hData.sorted, hData.bufferless⟩
      exact (hAlloc _).add fun hOther => absurd (not_not.mp hMagic) hOther

end Writing

namespace Data

theorem mem_of_mem_scanRange {stop : Nat} {l : List DataRegion} {r : DataRegion}
    (h : r ∈ (scanRange stop l).2) : r ∈ l := by
  induction l with
  | nil => cases h
  | cons a rest ih =>
    rw [scanRange] at h
    split_ifs at h
    · cases h
    · exact List.mem_singleton.mp h ▸ List.mem_cons_self
    · rcases List.mem_cons.mp h with rfl | h
      · exact List.mem_cons_self
      · exact List.mem_cons_of_mem a (ih h)

theorem mem_of_mem_intersectedRange {l : List DataRegion} {start stop : Nat} {r : DataRegion}
    (h : r ∈ (intersectedRange l start stop).regions) : r ∈ l := by
  rcases List.mem_append.mp (mem_of_mem_scanRange h) with h | h
  · have hLast := Option.eq_some_of_filter_eq_some (Option.mem_toList.mp h)
    exact List.takeWhile_subset _ (List.mem_of_getLast? hLast)
  · exact List.dropWhile_subset _ h

section
variable {d d' : Data}

theorem writeRegion_tidy (h : d.Tidy) {p : Piece} (hWrite : d.writeRegion p = .ok d') :
    d'.Tidy := by
  have hOver := Writing.overAll_tidy (p := p) (w := .start d) ⟨h, by simp [Writing.start],
    by simp [Writing.start]⟩ (intersectedRange d.regions p.start p.stop).regions
    fun r hr => h.bufferless r (mem_of_mem_intersectedRange hr)
  rw [writeRegion] at hWrite
  split at hWrite
  case h_1 w hRun =>
    rw [hRun] at hOver
    cases hWrite
    exact Writing.finish_tidy hOver
  case h_2 d₁ hRun =>
    rw [hRun] at hOver
    cases hWrite
    exact hOver
  case h_3 => cases hWrite

theorem writeAll_tidy (h : d.Tidy) (l : List Piece) (hWrite : l.foldlM writeRegion d = .ok d') :
    d'.Tidy := by
  induction l generalizing d with
  | nil =>
    cases hWrite
    exact h
  | cons p rest ih =>
    obtain ⟨d₁, hFirst, hRest⟩ := bind_eq_ok hWrite
    exact ih (writeRegion_tidy h hFirst) hRest

variable [Hashes]

theorem writeWords_tidy (h : d.Tidy) {buf : Bytes} {start : Nat}
    (hWrite : d.writeWords buf start = .ok d') : d'.Tidy := by
  obtain ⟨d₁, hAll, hEnd⟩ := bind_eq_ok hWrite
  have hTidy := writeAll_tidy h _ hAll
  cases hEnd
  exact ⟨hTidy.sorted, hTidy.bufferless⟩

theorem pread_regions {size off : Nat} {r : Bytes × Data}
    (hRead : d.pread size off = .ok r) : r.2.regions = d.regions := by
  obtain ⟨buf, _, hEnd⟩ := bind_eq_ok hRead
  split_ifs at hEnd
  cases hEnd
  rfl

theorem readEdge_regions {base a b : Nat} {s r : Bytes × Data}
    (hRead : readEdge base a b s = .ok r) : r.2.regions = s.2.regions := by
  rw [readEdge] at hRead
  split_ifs at hRead
  · obtain ⟨read, hFirst, hEnd⟩ := bind_eq_ok hRead
    have hRegions := pread_regions hFirst
    cases hEnd
    exact hRegions
  · cases hRead
    rfl

theorem readEdges_regions {b : Bytes} {off : Nat} {r : Bytes × Data}
    (hRead : d.readEdges b off = .ok r) : r.2.regions = d.regions := by
  obtain ⟨front, hFront, hRest⟩ := bind_eq_ok hRead
  obtain ⟨back, hBack, hEnd⟩ := bind_eq_ok hRest
  cases hEnd
  exact (readEdge_regions hBack).trans (readEdge_regions hFront)

theorem pwrite_tidy (h : d.Tidy) {b : Bytes} {off : Nat}
    (hWrite : d.pwrite b off = .ok d') : d'.Tidy := by
  rw [pwrite] at hWrite
  split_ifs at hWrite
  · obtain ⟨edges, hEdges, hRest⟩ := bind_eq_ok hWrite
    have hRegions := readEdges_regions hEdges
    exact writeWords_tidy ⟨hRegions ▸ h.sorted, hRegions ▸ h.bufferless⟩ hRest
  · exact writeWords_tidy h hWrite

theorem truncate_tidy (h : d.Tidy) {length : Nat}
    (hTruncate : d.truncate length = .ok d') : d'.Tidy := by
  obtain ⟨d₁, hClear, hZero⟩ := bind_eq_ok hTruncate
  refine writeRegion_tidy ?_ hZero
  rw [clearWord] at hClear
  split_ifs at hClear
  · exact pwrite_tidy h hClear
  · cases hClear
    exact h

end

end Data

def Obj.Formed (o : Obj) : Prop :=
  match o.body with
  | .file f => f.d.Tidy
  | .dir d => ∀ name c, d.entries.get? name = some c → name.length < maxName ∧ c ≠ 0
  | .symLink path => path.length < maxPath ∧ o.mode = 511

namespace AbstFS

/-- The objects stand under their ids in the form in which they were made. There may be entries
without an object, and references that are not counted. -/
structure Stored (fs : AbstFS) : Prop extends fs.Keyed where
  formed : ∀ id o, fs.objs.get? id = some o → o.Formed

/-- Every object has so many more entries than counted references. -/
structure Consistent (fs : AbstFS) (extra : Nat → Int) : Prop extends fs.Linked, fs.Stored where
  ref : ∀ id o, fs.objs.get? id = some o → o.ref + extra id = fs.links id

section Steps
variable {fs fs' : AbstFS} {extra : Nat → Int} {p c : Nat} {o o' : Obj} {name : Name}

theorem formed_entry (h : o.Formed) (hEntry : o.entries.get? name = some c) :
    name.length < maxName ∧ c ≠ 0 := by
  rw [Obj.Formed] at h
  rw [Obj.entries] at hEntry
  cases hBody : o.body with
  | dir d =>
    rw [hBody] at h hEntry
    exact h name c hEntry
  | file f =>
    rw [hBody] at hEntry
    cases hEntry
  | symLink path =>
    rw [hBody] at hEntry
    cases hEntry

theorem Consistent.ne_zero (h : fs.Consistent extra) (hChild : fs.Child p c) : c ≠ 0 := by
  obtain ⟨o, name, hp, hc⟩ := hChild
  exact (formed_entry (h.formed p o hp) hc).2

theorem Consistent.update (h : fs.Consistent extra) (hGet : fs.objs.get? p = some o)
    (hType : o'.type = o.type) (hId : o'.id = o.id) (hForm : o'.Formed)
    (hNamed : ∀ n c, o'.entries.get? n = some c → ∃ oc, fs.objs.get? c = some oc)
    {extra' : Nat → Int}
    (hCount : ∀ x, (o'.entries.total (linkTo x) : Int) + extra x =
      o.entries.total (linkTo x) + extra' x + if x = p then o'.ref - o.ref else 0) :
    (fs.update p o').Consistent extra' where
  toLinked := h.toLinked.update hGet hType hId hNamed
  ref x o₁ h₁ := by
    have hTotal := links_update o' hGet x
    have hx := hCount x
    rcases get?_update_cases h₁ with ⟨rfl, rfl⟩ | ⟨hNe, h₁⟩
    · have hOld := h.ref x o hGet
      rw [if_pos rfl] at hx
      omega
    · have hOld := h.ref x o₁ h₁
      rw [if_neg hNe] at hx
      omega
  formed x o₁ h₁ := by
    rcases get?_update_cases h₁ with ⟨rfl, rfl⟩ | ⟨_, h₁⟩
    · exact hForm
    · exact h.formed x o₁ h₁

theorem Consistent.update_same (h : fs.Consistent extra) (o' : Obj)
    (hGet : fs.objs.get? p = some o) (hEntries : o'.entries = o.entries)
    (hType : o'.type = o.type) (hId : o'.id = o.id) (hForm : o'.Formed) {extra' : Nat → Int}
    (hCount : ∀ x, extra x = extra' x + if x = p then o'.ref - o.ref else 0) :
    (fs.update p o').Consistent extra' := by
  apply h.update hGet hType hId hForm
  · intro n c hn
    exact h.named p c ⟨o, n, hGet, hEntries ▸ hn⟩
  · intro x
    rw [hEntries, hCount x]
    omega

theorem Consistent.countRef (h : fs.Consistent extra) (n : Int) {extra' : Nat → Int}
    (hCount : ∀ x, extra x = extra' x + if x = c then n else 0) :
    (fs.countRef c n).Consistent extra' := by
  cases hc : fs.objs.get? c with
  | none =>
    rw [countRef_none hc]
    refine { h with ref := fun x o₁ h₁ => ?_ }
    have hNe : x ≠ c := by
      rintro rfl
      cases hc.symm.trans h₁
    rw [← h.ref x o₁ h₁, hCount, if_neg hNe, add_zero]
  | some oc =>
    rw [countRef_some hc]
    refine h.update_same { oc with ref := oc.ref + n } hc rfl rfl rfl (h.formed c oc hc) fun x => ?_
    rw [hCount, add_sub_cancel_left]

theorem formed_setEntries (hDir : o.type = .dir) {entries : SortedMap Name Nat}
    (hEntries : ∀ n x, entries.get? n = some x → n.length < maxName ∧ x ≠ 0) :
    (o.setEntries entries).Formed := by
  obtain ⟨d, hBody⟩ := dir_of_type hDir
  rw [Obj.setEntries, hBody]
  exact hEntries

theorem linkObj_consistent (h : fs.Consistent fun _ => 0) (hName : name.length < maxName)
    (hc : ∃ oc, fs.objs.get? c = some oc) (hLink : fs.linkObj p c name = .ok fs') :
    fs'.Consistent fun _ => 0 := by
  obtain ⟨o, hGet, hDir, hNew, hZero, rfl⟩ := linkObj_ok hLink
  have hInsert : ∀ n x, (o.entries.insert name c).get? n = some x →
      n = name ∧ x = c ∨ o.entries.get? n = some x := by
    intro n x hn
    rw [SortedMap.get?_insert] at hn
    split_ifs at hn with hEq
    · exact .inl ⟨hEq, (Option.some.inj hn).symm⟩
    · exact .inr hn
  have hAdded : (fs.update p (o.setEntries (o.entries.insert name c))).Consistent
      fun x => if x = c then 1 else 0 := by
    apply h.update hGet Obj.type_setEntries Obj.id_setEntries
    · refine formed_setEntries hDir fun n x hn => ?_
      obtain ⟨rfl, rfl⟩ | hn := hInsert n x hn
      · exact ⟨hName, hZero⟩
      · exact formed_entry (h.formed p o hGet) hn
    · intro n x hn
      rw [entries_setEntries hDir] at hn
      obtain ⟨_, rfl⟩ | hn := hInsert n x hn
      · exact hc
      · exact h.named p x ⟨o, n, hGet, hn⟩
    · intro x
      rw [entries_setEntries hDir, SortedMap.total_insert_new _ hNew, linkTo, Obj.ref_setEntries]
      simp only [eq_comm (a := c)]
      split_ifs <;> simp
  exact hAdded.countRef 1 fun x => (zero_add _).symm

theorem Consistent.eraseObj (h : fs.Consistent fun _ => 0) (hGet : fs.objs.get? c = some o)
    (hEntries : o.entries = .empty) (hLinks : fs.links c = 0) (hRoot : c ≠ 0) :
    Consistent { fs.addNr o.type (-1) with objs := fs.objs.erase o.id } fun _ => 0 := by
  have hExt : Extends { fs.addNr o.type (-1) with objs := fs.objs.erase o.id } c o fs :=
    extends_erase hGet hEntries (by rw [h.keys c o hGet])
  refine ⟨h.toLinked.eraseObj hExt hLinks hRoot rfl, ?_, ?_⟩
  · exact fun x o₁ h₁ => h.formed x o₁ (hExt.old h₁).2
  · intro x o₁ h₁
    rw [← hExt.links]
    exact h.ref x o₁ (hExt.old h₁).2

theorem unlinkObj_consistent (h : fs.Consistent fun _ => 0)
    (hUnlink : fs.unlinkObj p name = .ok fs') : fs'.Consistent fun _ => 0 := by
  obtain ⟨o, c, fs₁, hGet, hOld, rfl, hEnd⟩ := unlinkObj_ok hUnlink
  have hDir := dir_of_entry hOld
  have hErase : ∀ n x, (o.entries.erase name).get? n = some x → o.entries.get? n = some x := by
    intro n x hn
    rw [SortedMap.get?_erase] at hn
    split_ifs at hn
    exact hn
  have hRemoved : (fs.update p (o.setEntries (o.entries.erase name))).Consistent
      fun x => if x = c then -1 else 0 := by
    apply h.update hGet Obj.type_setEntries Obj.id_setEntries
    · exact formed_setEntries hDir fun n x hn =>
        formed_entry (h.formed p o hGet) (hErase n x hn)
    · intro n x hn
      rw [entries_setEntries hDir] at hn
      exact h.named p x ⟨o, n, hGet, hErase n x hn⟩
    · intro x
      rw [entries_setEntries hDir, ← SortedMap.total_erase_add (linkTo x) hOld, linkTo,
        Obj.ref_setEntries]
      simp only [eq_comm (a := c)]
      split_ifs <;> simp
  have hCounted := hRemoved.countRef (-1) fun x => (zero_add _).symm
  rcases hEnd with rfl | ⟨oc, hc, hZero, hEmpty, rfl⟩
  · exact hCounted
  · refine hCounted.eraseObj hc hEmpty ?_ (h.ne_zero ⟨o, name, hGet, hOld⟩)
    have hRef := hCounted.ref c oc hc
    omega

theorem addNewObj_consistent (h : fs.Consistent fun _ => 0) (hEntries : o.entries = .empty)
    (hRef : o.ref = 0) (hForm : Obj.Formed { o with id := fs.id }) {id : Nat}
    (hAdd : fs.addNewObj o = .ok (id, fs')) :
    id = fs.id ∧ fs'.Consistent (fun _ => 0) ∧ fs.Extends fs.id { o with id := fs.id } fs' := by
  cases addNewObj_ok hAdd
  have hExt : fs.Extends fs.id { o with id := fs.id }
      { (fs.addNr o.type 1).update fs.id { o with id := fs.id } with id := fs.id + 1 } :=
    ⟨h.get?_next, rfl, hEntries⟩
  refine ⟨rfl, ⟨h.toLinked.addObj hExt rfl rfl, ?_, ?_⟩, hExt⟩
  · intro x o₁ h₁
    obtain ⟨_, rfl⟩ | h₁ := hExt.cases h₁
    · exact hForm
    · exact h.formed x o₁ h₁
  · intro x o₁ h₁
    rw [hExt.links]
    obtain ⟨rfl, rfl⟩ | h₁ := hExt.cases h₁
    · rw [h.links_eq_zero hExt.new]
      exact (add_zero _).trans hRef
    · exact h.ref x o₁ h₁

end Steps

section Calls
variable {fs fs' : AbstFS}

theorem walkNames_exists {names : List Name} {id c : Nat}
    (hId : ∃ o, fs.objs.get? id = some o) (hWalk : fs.walkNames names id = .ok (some c)) :
    ∃ o, fs.objs.get? c = some o := by
  induction names generalizing id with
  | nil =>
    cases hWalk
    exact hId
  | cons name rest ih =>
    rw [walkNames] at hWalk
    split at hWalk
    case h_1 => cases hWalk
    case h_2 =>
      split_ifs at hWalk
      split at hWalk
      case h_1 => cases hWalk
      case h_2 child _ =>
        split_ifs at hWalk with hSome
        exact ih (Option.isSome_iff_exists.mp hSome) hWalk

theorem findPath_walk {path : CString} {nd : Namei} {r : Nat × Name}
    (h : fs.findPath path nd = .ok r) :
    (nd.wantParent = false ∧
      fs.walkNames (splitNames [] ((path.drop fs.mnt.length).drop 1)) 0 = .ok (some r.1)) ∨
    (nd.wantParent = true ∧ ∃ front name, splitLast (path.drop fs.mnt.length) = some (front, name) ∧
      (0 < name.length ∧ name.length < maxName) ∧
      fs.walkNames (splitNames [] (front.drop 1)) 0 = .ok (some r.1) ∧
      r.2 = name ++ nd.name.drop name.length) := by
  obtain ⟨nd', hWalk, hObj⟩ := bind_eq_ok h
  split at hObj
  case h_1 => cases hObj
  case h_2 id hId =>
  cases hObj
  rw [walkPath] at hWalk
  dsimp only at hWalk
  split_ifs at hWalk with _ _ _ hWant
  · split at hWalk
    case h_1 => cases hWalk
    case h_2 front name hSplit =>
      split_ifs at hWalk with hLength
      obtain ⟨obj, hNames, hEnd⟩ := bind_eq_ok hWalk
      cases hEnd
      cases hId
      exact .inr ⟨hWant, front, name, hSplit, hLength, hNames, rfl⟩
  · obtain ⟨obj, hNames, hEnd⟩ := bind_eq_ok hWalk
    cases hEnd
    cases hId
    exact .inl ⟨Bool.eq_false_iff.mpr hWant, hNames⟩

theorem findPath_parent_length {path : CString} {r : Nat × Name}
    (hFind : fs.findPath path parentNameiInit = .ok r) : r.2.length < maxName := by
  rcases findPath_walk hFind with ⟨hWant, _⟩ | ⟨_, _, name, _, hLength, _, hName⟩
  · cases hWant
  · rw [hName]
    simpa [parentNameiInit] using hLength.2

variable (h : fs.Consistent fun _ => 0)
include h

theorem findPath_exists {path : CString} {nd : Namei} {r : Nat × Name}
    (hFind : fs.findPath path nd = .ok r) : ∃ o, fs.objs.get? r.1 = some o := by
  have hRoot : ∃ o, fs.objs.get? 0 = some o := h.root.imp fun _ hr => hr.1
  rcases findPath_walk hFind with ⟨_, hNames⟩ | ⟨_, _, _, _, _, hNames, _⟩ <;>
    exact walkNames_exists hRoot hNames

theorem attach_consistent (o : Obj) (hEntries : o.entries = .empty) (hRef : o.ref = 0)
    (hForm : Obj.Formed { o with id := fs.id }) {p id : Nat} {name : Name}
    (hName : name.length < maxName) {fs₁ : AbstFS} (hAdd : fs.addNewObj o = .ok (id, fs₁))
    (hLink : fs₁.linkObj p id name = .ok fs') :
    fs'.Consistent (fun _ => 0) ∧ (fs'.objs.get? id).map Obj.type = some o.type := by
  obtain ⟨rfl, hAdded, hExt⟩ := addNewObj_consistent h hEntries hRef hForm hAdd
  have hNew := (hExt.get? fs.id).trans (if_pos rfl)
  refine ⟨linkObj_consistent hAdded hName ⟨_, hNew⟩ hLink, ?_⟩
  rw [linkObj_types hLink, hNew]
  rfl

theorem creat_consistent {path : CString} {mode : Nat} (hCall : fs.creat path mode = .ok fs') :
    fs'.Consistent fun _ => 0 := by
  obtain ⟨nd, hFind, hCall⟩ := bind_eq_ok hCall
  obtain ⟨⟨id, fs₁⟩, hAdd, hLink⟩ := bind_eq_ok hCall
  have h' : Consistent (fs.newFile mode).2 fun _ => 0 :=
    { h with }
  exact (attach_consistent h' (fs.newFile mode).1 rfl rfl ⟨.nil, by simp [Data.empty]⟩
    (findPath_parent_length hFind) hAdd hLink).1

theorem symlink_consistent {oldpath newpath : CString}
    (hCall : fs.symlink oldpath newpath = .ok fs') : fs'.Consistent fun _ => 0 := by
  obtain ⟨nd, hFind, hCall⟩ := bind_eq_ok hCall
  split_ifs at hCall with hLength
  obtain ⟨⟨id, fs₁⟩, hAdd, hLink⟩ := bind_eq_ok hCall
  exact (attach_consistent h ⟨0, 0, 511, .symLink oldpath⟩ rfl rfl ⟨not_le.mp hLength, rfl⟩
    (findPath_parent_length hFind) hAdd hLink).1

theorem mkdir_consistent {path : CString} {mode : Nat} (hCall : fs.mkdir path mode = .ok fs') :
    fs'.Consistent fun _ => 0 := by
  obtain ⟨nd, id, fs₁, fs₂, o, hFind, hAdd, hLink, hGet, rfl⟩ := mkdir_ok hCall
  obtain ⟨hLinked, hType⟩ := attach_consistent h ⟨0, 0, mode, .dir ⟨.empty, none⟩⟩ rfl rfl
    (fun n c hn => nomatch hn) (findPath_parent_length hFind) hAdd hLink
  rw [hGet] at hType
  refine hLinked.update_same { o with body := .dir ⟨o.entries, some nd.1⟩ } hGet rfl
    (Option.some.inj hType).symm rfl ?_ (by simp)
  exact fun n c hn => formed_entry (hLinked.formed id o hGet) hn

theorem link_consistent {oldpath newpath : CString} (hCall : fs.link oldpath newpath = .ok fs') :
    fs'.Consistent fun _ => 0 := by
  obtain ⟨nd, hFind, hCall⟩ := bind_eq_ok hCall
  obtain ⟨ndNew, hNew, hLink⟩ := bind_eq_ok hCall
  exact linkObj_consistent h (findPath_parent_length hNew) (findPath_exists h hFind) hLink

theorem rename_consistent {oldpath newpath : CString}
    (hCall : fs.rename oldpath newpath = .ok fs') :
    fs'.Consistent fun _ => 0 := by
  obtain ⟨ndOld, hOld, hCall⟩ := bind_eq_ok hCall
  obtain ⟨c, hChild, hCall⟩ := bind_eq_ok hCall
  obtain ⟨ndNew, hNew, hCall⟩ := bind_eq_ok hCall
  obtain ⟨fs₁, hLink, hUnlink⟩ := bind_eq_ok hCall
  obtain ⟨_, oc, _, _, hc⟩ := getChild_ok hChild
  exact unlinkObj_consistent
    (linkObj_consistent h (findPath_parent_length hNew) ⟨oc, hc⟩ hLink) hUnlink

theorem unlink_consistent {path : CString} (hCall : fs.unlink path = .ok fs') :
    fs'.Consistent fun _ => 0 := by
  obtain ⟨nd, _, hUnlink⟩ := bind_eq_ok hCall
  exact unlinkObj_consistent h hUnlink

theorem rmdir_consistent {path : CString} (hCall : fs.rmdir path = .ok fs') :
    fs'.Consistent fun _ => 0 := by
  obtain ⟨nd, _, hUnlink⟩ := rmdir_ok hCall
  exact unlinkObj_consistent h hUnlink

theorem onFile_consistent {path : CString} {call : FileCall}
    (hTidy : ∀ f f', f.d.Tidy → call f = .ok f' → f'.d.Tidy)
    (hCall : fs.onFile path call = .ok fs') :
    fs'.Consistent fun _ => 0 := by
  obtain ⟨nd, o, f, f', _, hGet, hBody, hFile, rfl⟩ := onFile_ok hCall
  have hForm := h.formed nd.1 o hGet
  rw [Obj.Formed, hBody] at hForm
  exact h.update_same { o with body := .file f' } hGet (entries_setFile hBody f')
    (type_setFile hBody f') rfl (hTidy f f' hForm hFile) (by simp)

variable [Hashes]

theorem apply_consistent {op : FsOp} (hCall : fs.apply op = .ok fs') :
    fs'.Consistent fun _ => 0 := by
  cases op with
  | creat path mode => exact creat_consistent h hCall
  | mkdir path mode => exact mkdir_consistent h hCall
  | symlink oldpath newpath => exact symlink_consistent h hCall
  | link oldpath newpath => exact link_consistent h hCall
  | unlink path => exact unlink_consistent h hCall
  | rmdir path => exact rmdir_consistent h hCall
  | rename oldpath newpath => exact rename_consistent h hCall
  | pwrite path buf off =>
    refine onFile_consistent h ?_ hCall
    intro f f' hf hWrite
    obtain ⟨d, hd, hEnd⟩ := bind_eq_ok hWrite
    cases hEnd
    exact Data.pwrite_tidy hf hd
  | truncate path length =>
    refine onFile_consistent h ?_ hCall
    intro f f' hf hTruncate
    obtain ⟨d, hd, hEnd⟩ := bind_eq_ok hTruncate
    cases hEnd
    exact Data.truncate_tidy hf hd

omit h

theorem run_consistent (h : fs.Consistent fun _ => 0) (ops : List FsOp)
    (hRun : fs.run ops = .ok fs') : fs'.Consistent fun _ => 0 := by
  induction ops generalizing fs with
  | nil =>
    cases hRun
    exact h
  | cons op rest ih =>
    obtain ⟨fs₁, hFirst, hRest⟩ := bind_eq_ok hRun
    exact ih (apply_consistent h hFirst) hRest

omit [Hashes] in
theorem consistent_root {r : Obj} (hObjs : fs.objs = SortedMap.empty.insert 0 r)
    (hEntries : r.entries = .empty) (hDir : r.type = .dir) (hId : r.id = 0) (hRef : r.ref = 0)
    (hNext : 0 < fs.id) : fs.Consistent fun _ => 0 where
  toLinked := linked_root hObjs hEntries hDir hId hNext
  formed id o h := by
    obtain ⟨d, hBody⟩ := dir_of_type hDir
    rw [entries_of_body hBody] at hEntries
    rw [(eq_of_get?_root hObjs h).2, Obj.Formed, hBody]
    simp only [hEntries]
    exact fun n c hn => nomatch hn
  ref id o h := by
    rw [(eq_of_get?_root hObjs h).2, hRef]
    refine congrArg Nat.cast (Nat.eq_zero_of_not_pos fun hPos => ?_).symm
    obtain ⟨p, hChild⟩ := links_pos.mp hPos
    exact not_child_root hObjs hEntries p id hChild

omit [Hashes] in
theorem init_consistent (mnt : CString) (memory : Memory) :
    (init mnt memory).Consistent fun _ => 0 :=
  consistent_root rfl rfl rfl rfl rfl Nat.one_pos

end Calls

end AbstFS

end Explode.Driver
