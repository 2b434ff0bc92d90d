import Explode.Driver.Entries

/-!
# Renaming

`rename` links the object under the new name and unlinks the old one. It is
compared with the rename of POSIX, which may also replace what the new name
stands for.
-/

namespace Explode.Driver

open Relation

namespace AbstFS

def refAt (fs : AbstFS) (x : Nat) : Option Int := (fs.objs.get? x).map Obj.ref

/-- POSIX renames the object of an entry that is not above its new place. Under the new name there
is nothing, the object itself, a file for a file, or an empty directory for a directory. -/
structure PosixRename (fs : AbstFS) (old new : Nat × Name) (c : Nat) : Prop where
  entry : fs.getEntry old.1 old.2 = some c
  parent : ∃ o, fs.objs.get? new.1 = some o ∧ o.type = .dir
  below : ¬ReflTransGen fs.Child c new.1
  target : ∀ d oc od, fs.getEntry new.1 new.2 = some d → fs.objs.get? c = some oc →
    fs.objs.get? d = some od →
    d = c ∨ oc.type ≠ .dir ∧ od.type ≠ .dir ∨
      oc.type = .dir ∧ od.type = .dir ∧ od.entries = .empty

/-- The entry moves, unless both names are one object already, and what stood at the new name
loses a reference. -/
structure PosixRenamed (fs : AbstFS) (old new : Nat × Name) (c : Nat) (fs' : AbstFS) : Prop where
  entries : ∀ p name, fs'.getEntry p name =
    if fs.getEntry new.1 new.2 = some c then fs.getEntry p name
    else if (p, name) = new then some c
    else if (p, name) = old then none
    else fs.getEntry p name
  refs : ∀ x, fs'.refAt x =
    if fs.getEntry new.1 new.2 = some x ∧ x ≠ c then
      if fs.refAt x = some 1 then none else (fs.refAt x).map (· - 1)
    else fs.refAt x
  bodies : ∀ x o o', fs.objs.get? x = some o → fs'.objs.get? x = some o' → o'.bare = o.bare

variable {fs : AbstFS} {p q c : Nat} {op oq oc : Obj} {name : Name}

structure Relinked (fs : AbstFS) (p c : Nat) (op oc : Obj) (entries : SortedMap Name Nat)
    (ref : Int) (fs' : AbstFS) : Prop where
  dir : fs.objs.get? p = some op ∧ op.type = .dir
  child : fs.objs.get? c = some oc
  ne : c ≠ p
  get? : ∀ x, fs'.objs.get? x =
    if x = c then some { oc with ref := ref }
    else if x = p then some (op.setEntries entries)
    else fs.objs.get? x

namespace Relinked

variable {fs' : AbstFS} {ref : Int} {entries : SortedMap Name Nat}

theorem getEntry_eq (h : fs.Relinked p c op oc entries ref fs') (x : Nat) (n : Name) :
    fs'.getEntry x n = if x = p then entries.get? n else fs.getEntry x n := by
  rw [AbstFS.getEntry_eq, AbstFS.getEntry_eq, h.get?]
  split_ifs with hxc hxp hxp
  · exact absurd (hxc.symm.trans hxp) h.ne
  · rw [hxc, h.child]
    rfl
  · rw [Option.bind_some, entries_setEntries h.dir.2]
  · rfl

theorem bare_eq (h : fs.Relinked p c op oc entries ref fs') (x : Nat) :
    (fs'.objs.get? x).map (fun o => (o.ref, o.bare)) =
      (fs.objs.get? x).map fun o => (if x = c then ref else o.ref, o.bare) := by
  rw [h.get?]
  split_ifs with hxc hxp
  · rw [hxc, h.child, Option.map_some, Option.map_some, Obj.bare_setRef]
  · rw [hxp, h.dir.1, Option.map_some, Option.map_some, Obj.bare_setEntries, Obj.ref_setEntries]
  · rfl

theorem child_eq (h : fs.Relinked p c op oc entries ref fs') :
    fs'.objs.get? c = some { oc with ref := ref } := by
  rw [h.get?, if_pos rfl]

theorem insert_entry (h : fs.Relinked p c op oc (op.entries.insert name c) ref fs') (x : Nat)
    (n : Name) : fs'.getEntry x n = if (x, n) = (p, name) then some c else fs.getEntry x n := by
  rw [h.getEntry_eq, AbstFS.getEntry_eq]
  by_cases hx : x = p
  · rw [if_pos hx, hx, h.dir.1, Option.bind_some, SortedMap.get?_insert]
    simp
  · simp [hx]

theorem erase_entry (h : fs.Relinked p c op oc (op.entries.erase name) ref fs') (x : Nat)
    (n : Name) : fs'.getEntry x n = if (x, n) = (p, name) then none else fs.getEntry x n := by
  rw [h.getEntry_eq, AbstFS.getEntry_eq]
  by_cases hx : x = p
  · rw [if_pos hx, hx, h.dir.1, Option.bind_some, SortedMap.get?_erase]
    simp
  · simp [hx]

end Relinked

theorem linkObj_relinked (hq : fs.objs.get? q = some oq) (hDir : oq.type = .dir)
    (hNew : fs.getEntry q name = none) (hc : fs.objs.get? c = some oc) (hRoot : c ≠ 0)
    (hNe : c ≠ q) : ∃ fs', fs.linkObj q c name = .ok fs' ∧
      fs.Relinked q c oq oc (oq.entries.insert name c) (oc.ref + 1) fs' := by
  rw [getEntry_eq, hq, Option.bind_some] at hNew
  have hcMid : (fs.update q (oq.setEntries (oq.entries.insert name c))).objs.get? c = some oc := by
    rw [get?_update, if_neg hNe, hc]
  refine ⟨_, linkObj_eq hq hDir hNew hRoot, ⟨hq, hDir⟩, hc, hNe, fun x => ?_⟩
  rw [countRef_some hcMid, get?_update, get?_update]

theorem unlinkObj_relinked (hOld : fs.getEntry p name = some c) (hc : fs.objs.get? c = some oc)
    (hNe : c ≠ p) (hRef : oc.ref ≠ 1) : ∃ fs' op, fs.unlinkObj p name = .ok fs' ∧
      fs.Relinked p c op oc (op.entries.erase name) (oc.ref - 1) fs' := by
  obtain ⟨op, hp, hOld⟩ := getEntry_eq_some.mp hOld
  have hcMid : (fs.update p (op.setEntries (op.entries.erase name))).objs.get? c = some oc := by
    rw [get?_update, if_neg hNe, hc]
  have hKept : oc.ref - 1 ≠ 0 := by omega
  refine ⟨(fs.update p (op.setEntries (op.entries.erase name))).update c
    { oc with ref := oc.ref - 1 }, op, ?_, ⟨hp, dir_of_entry hOld⟩, hc, hNe, ?_⟩
  · rw [unlinkObj_eq hp hOld (countRef_some hcMid _).symm, get?_update, if_pos rfl]
    exact if_neg hKept
  · intro x
    rw [get?_update, get?_update]

section
variable {oldpath newpath : CString} {old new : Nat × Name}

theorem rename_absent (h : fs.WellFormed) (hOldPath : fs.findPath oldpath parentNameiInit = .ok old)
    (hNewPath : fs.findPath newpath parentNameiInit = .ok new) (hPosix : fs.PosixRename old new c)
    (hAbsent : fs.getEntry new.1 new.2 = none) :
    ∃ fs', fs.rename oldpath newpath = .ok fs' ∧ fs.PosixRenamed old new c fs' := by
  obtain ⟨p, name⟩ := old
  obtain ⟨q, name'⟩ := new
  obtain ⟨oq, hq, hqDir⟩ := hPosix.parent
  obtain ⟨op, hp, hOld⟩ := getEntry_eq_some.mp hPosix.entry
  have hEdge : fs.Child p c := ⟨op, name, hp, hOld⟩
  have hRoot : c ≠ 0 := h.child_ne_zero not_false hEdge
  have hcp : c ≠ p := h.child_ne hEdge
  have hcq : c ≠ q := by
    rintro rfl
    exact hPosix.below .refl
  have hNames : (p, name) ≠ (q, name') := by
    rintro ⟨⟩
    cases hAbsent.symm.trans hPosix.entry
  obtain ⟨oc, hc⟩ := h.named p c hEdge
  have hPos := h.ref_pos hc hRoot
  obtain ⟨fs₁, hLink, hLinked⟩ := linkObj_relinked hq hqDir hAbsent hc hRoot hcq
  have hOld₁ : fs₁.getEntry p name = some c := by
    rw [hLinked.insert_entry, if_neg hNames]
    exact hPosix.entry
  obtain ⟨fs₂, op₁, hUnlink, hUnlinked⟩ := unlinkObj_relinked hOld₁ hLinked.child_eq hcp
    (show oc.ref + 1 ≠ 1 by omega)
  have hBare : ∀ x, (fs₂.objs.get? x).map (fun o => (o.ref, o.bare)) =
      (fs.objs.get? x).map fun o => (o.ref, o.bare) := by
    intro x
    rw [hUnlinked.bare_eq]
    by_cases hx : x = c
    · subst hx
      rw [hLinked.child_eq, hc, Option.map_some, Option.map_some, Obj.bare_setRef, if_pos rfl,
        Int.add_sub_cancel]
    · simp only [hx, if_false, hLinked.bare_eq]
  refine ⟨fs₂, ?_, ?_, ?_, ?_⟩
  · rw [rename, hOldPath]
    simp only [bind, Except.bind, getChild_eq hp hOld hc, hNewPath, hLink, hUnlink]
  · intro x n
    rw [hAbsent, if_neg (by simp), hUnlinked.erase_entry, hLinked.insert_entry]
    by_cases hx : (x, n) = (p, name)
    · rw [if_pos hx, if_neg (hx ▸ hNames), if_pos hx]
    · rw [if_neg hx, if_neg hx]
  · intro x
    have hx := congrArg (Option.map Prod.fst) (hBare x)
    simp only [Option.map_map] at hx
    rw [hAbsent, if_neg (by simp)]
    exact hx
  · intro x o o' ho ho'
    have hx := hBare x
    rw [ho, ho'] at hx
    exact congrArg Prod.snd (Option.some.inj hx)

theorem rename_present {d : Nat} (hOldPath : fs.findPath oldpath parentNameiInit = .ok old)
    (hNewPath : fs.findPath newpath parentNameiInit = .ok new)
    (hOld : fs.getEntry old.1 old.2 = some c) (hc : fs.objs.get? c = some oc)
    (hNew : fs.getEntry new.1 new.2 = some d) :
    fs.rename oldpath newpath = .error .entryExists := by
  obtain ⟨oq, hq, hEntry⟩ := getEntry_eq_some.mp hNew
  obtain ⟨dq, hBody⟩ := dir_of_type (dir_of_entry hEntry)
  rw [entries_of_body hBody] at hEntry
  have hLink : fs.linkObj new.1 c new.2 = .error .entryExists := by
    simp [linkObj, addEntry, hq, hBody, hEntry, bind, Except.bind]
  obtain ⟨op, hp, hOld⟩ := getEntry_eq_some.mp hOld
  rw [rename, hOldPath]
  simp only [bind, Except.bind, getChild_eq hp hOld hc, hNewPath, hLink]

/-- `rename` makes the rename of POSIX where nothing has the new name, and only there. -/
theorem rename_posix_iff (h : fs.WellFormed)
    (hOldPath : fs.findPath oldpath parentNameiInit = .ok old)
    (hNewPath : fs.findPath newpath parentNameiInit = .ok new) (hPosix : fs.PosixRename old new c) :
    (∃ fs', fs.rename oldpath newpath = .ok fs' ∧ fs.PosixRenamed old new c fs') ↔
      fs.getEntry new.1 new.2 = none := by
  constructor
  · rintro ⟨fs', hRename, _⟩
    cases hNew : fs.getEntry new.1 new.2 with
    | none => rfl
    | some d =>
      obtain ⟨op, hp, hOld⟩ := getEntry_eq_some.mp hPosix.entry
      obtain ⟨oc, hc⟩ := h.named old.1 c ⟨op, old.2, hp, hOld⟩
      rw [rename_present hOldPath hNewPath hPosix.entry hc hNew] at hRename
      cases hRename
  · exact rename_absent h hOldPath hNewPath hPosix

end

attribute [local instance] sampleHashes

def twoFiles : AbstFS :=
  (emptyFS.run [.creat [47, 97] 420, .creat [47, 98] 420]).toOption.getD emptyFS

theorem twoFiles_wellFormed : twoFiles.WellFormed :=
  (init_wellFormed [] zeroMemory).run [.creat [47, 97] 420, .creat [47, 98] 420]
    ⟨⟨0, [97], _, rfl, rfl, rfl, rfl⟩, ⟨0, [98], _, rfl, rfl, rfl, rfl⟩, trivial⟩

theorem twoFiles_file {x : Nat} {o : Obj} (h : twoFiles.objs.get? x = some o) (hx : x ≠ 0) :
    o.type ≠ .dir := by
  have hAll : twoFiles.objs.entries.all (fun e => e.1 = 0 ∨ e.2.type ≠ .dir) = true := by decide
  have hEntry := List.all_eq_true.mp hAll (x, o) (SortedMap.get?_eq_some.mp h)
  exact (of_decide_eq_true hEntry).resolve_left hx

theorem twoFiles_posix (name : Name) : twoFiles.PosixRename (0, [97]) (0, name) 1 where
  entry := rfl
  parent := ⟨_, rfl, rfl⟩
  below := not_below_file rfl (twoFiles_file rfl Nat.one_ne_zero) rfl rfl
  target d oc od hd hc hod := by
    obtain ⟨o, ho, hn⟩ := getEntry_eq_some.mp hd
    have hRoot := twoFiles_wellFormed.child_ne_zero not_false ⟨o, name, ho, hn⟩
    exact .inr (.inl ⟨twoFiles_file hc Nat.one_ne_zero, twoFiles_file hod hRoot⟩)

theorem rename_posix_iff_new :
    (∃ fs', twoFiles.rename [47, 97] [47, 99] = .ok fs' ∧
      twoFiles.PosixRenamed (0, [97]) (0, [99]) 1 fs') ↔ twoFiles.getEntry 0 [99] = none :=
  rename_posix_iff twoFiles_wellFormed rfl rfl (twoFiles_posix [99])

/-- A file is renamed to the other file, and to itself. -/
theorem rename_onto_existing :
    twoFiles.WellFormed ∧
      twoFiles.PosixRename (0, [97]) (0, [98]) 1 ∧
      twoFiles.rename [47, 97] [47, 98] = .error .entryExists ∧
      twoFiles.PosixRename (0, [97]) (0, [97]) 1 ∧
      twoFiles.rename [47, 97] [47, 97] = .error .entryExists :=
  ⟨twoFiles_wellFormed, twoFiles_posix [98], rfl, twoFiles_posix [97], rfl⟩

end AbstFS

end Explode.Driver
