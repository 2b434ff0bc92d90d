import Explode.Driver.ObjectGraph

/-!
# Depth-first walks and the search for circles

A walk goes on, is stopped by its visitor or throws. One rule for the entries of
an object and one for the object itself carry an invariant through a walk.

In a graph with fewer objects than levels the search never throws, and it finds
a circle exactly when there is one that the root leads to.
-/

namespace Explode.Driver

open Relation RootedGraph Loop

section Rules
variable {σ : Type} {Goes Stops : σ → Prop} {Throws : FsFailure → Prop}

def Ends (Goes Stops : σ → Prop) : VisitStatus × σ → Prop
  | (.cont, s) => Goes s
  | (.stop, s) => Stops s

theorem Ends.imp {Goes' : σ → Prop} {r : VisitStatus × σ} (h : Ends Goes Stops r)
    (hGoes : ∀ s, Goes s → Goes' s) : Ends Goes' Stops r := by
  obtain ⟨_ | _, s⟩ := r
  · exact hGoes s h
  · exact h

theorem ends_trivial (r : VisitStatus × σ) : Ends (fun _ => True) (fun _ => True) r := by
  obtain ⟨_ | _, _⟩ := r <;> trivial

/-- The invariant names the entries that the walk has passed. -/
theorem visitEntries_returns {visit : Name → Nat → σ → FsResult (VisitStatus × σ)}
    {l : List (Name × Nat)} (Passed : List (Name × Nat) → σ → Prop)
    (hEach : ∀ done, ∀ e ∈ l, ∀ s, Passed done s →
      Returns (Ends (Passed (done ++ [e])) Stops) Throws (visit e.1 e.2 s))
    {s : σ} (hStart : Passed [] s) :
    Returns (Ends (Passed l) Stops) Throws (visitEntries visit l s) := by
  suffices hRest : ∀ done, Passed done s →
      Returns (Ends (Passed (done ++ l)) Stops) Throws (visitEntries visit l s) from
    hRest [] hStart
  clear hStart
  induction l generalizing s with
  | nil =>
    intro done hDone
    rwa [List.append_nil]
  | cons e rest ih =>
    intro done hDone
    rw [visitEntries]
    refine (hEach done e List.mem_cons_self s hDone).bind ?_
    rintro ⟨status, t⟩ hEnd
    cases status with
    | stop => exact hEnd
    | cont =>
      rw [List.append_cons]
      exact ih (fun done e he => hEach done e (List.mem_cons_of_mem _ he)) _ hEnd

namespace AbstFS

variable {fs : AbstFS} {v : Visitor σ} {levels id : Nat} {s : σ}

theorem dfsAt_returns {p : Option Obj} {n : Option Name} {o : Obj}
    (Passed : List (Name × Nat) → σ → Prop)
    (hPre : Ends (Passed []) Stops (v.preVisit p n (some o) s))
    (hEach : ∀ done, ∀ e ∈ o.entries.entries, ∀ s, Passed done s →
      Returns (Ends (Passed (done ++ [e])) Stops) Throws
        (fs.dfsAt v levels (some o) (some e.1) (fs.objs.get? e.2) s))
    (hPost : ∀ s, Passed o.entries.entries s → Goes (v.postVisit p n (some o) s).2) :
    Returns (Ends Goes Stops) Throws (fs.dfsAt v (levels + 1) p n (some o) s) := by
  rw [dfsAt]
  generalize v.preVisit p n (some o) s = pre at hPre ⊢
  obtain ⟨status, t⟩ := pre
  cases status with
  | stop => exact hPre
  | cont =>
    refine (visitEntries_returns Passed hEach hPre).bind ?_
    rintro ⟨status, t⟩ hEnd
    cases status with
    | stop => exact hEnd
    | cont => exact hPost t hEnd

theorem dfsAt_none_ok (fs : AbstFS) (v : Visitor σ) (levels : Nat) (p : Option Obj)
    (n : Option Name) (s : σ) :
    ∃ r, fs.dfsAt v (levels + 1) p n none s = .ok r := by
  rw [dfsAt]
  split_ifs
  · cases hPre : (v.preVisit p n none s).1 <;> simp only [hPre] <;> exact ⟨_, rfl⟩
  · exact ⟨_, rfl⟩

theorem dfsAt_ok (v : Visitor σ) (hShort : Short fs.Child levels id) (p : Option Obj)
    (n : Option Name) (s : σ) : ∃ r, fs.dfsAt v levels p n (fs.objs.get? id) s = .ok r := by
  suffices hWalk : Returns (Ends (fun _ => True) fun _ => True) (fun _ => False)
      (fs.dfsAt v levels p n (fs.objs.get? id) s) from
    hWalk.exists_ok.imp fun _ hr => hr.1
  induction levels generalizing id p n s with
  | zero => exact hShort.elim
  | succ levels ih =>
    cases hGet : fs.objs.get? id with
    | none =>
      obtain ⟨r, hr⟩ := fs.dfsAt_none_ok v levels p n s
      rw [hr]
      exact ends_trivial r
    | some o =>
      refine dfsAt_returns (fun _ _ => True) (ends_trivial _) ?_ fun _ _ => trivial
      exact fun _ e he s _ => ih (hShort e.2 ⟨o, e.1, hGet, SortedMap.get?_eq_some.mpr he⟩) _ _ s

theorem not_child_of_none {c : Nat} (h : fs.objs.get? id = none) : ¬fs.Child id c := by
  rintro ⟨o, _, hGet, _⟩
  rw [h] at hGet
  cases hGet

/-- A walk that goes on has left nothing out. -/
theorem dfsAt_short {p : Option Obj} {n : Option Name} {s' : σ}
    (h : fs.dfsAt v levels p n (fs.objs.get? id) s = .ok (.cont, s')) :
    Short fs.Child levels id := by
  suffices hWalk : Returns (Ends (fun _ => Short fs.Child levels id) fun _ => True)
      (fun _ => True) (fs.dfsAt v levels p n (fs.objs.get? id) s) by
    rwa [h] at hWalk
  clear h
  induction levels generalizing id p n s with
  | zero => trivial
  | succ levels ih =>
    cases hGet : fs.objs.get? id with
    | none =>
      obtain ⟨⟨status, t⟩, hr⟩ := fs.dfsAt_none_ok v levels p n s
      rw [hr]
      cases status with
      | stop => trivial
      | cont => exact fun c hEdge => absurd hEdge (not_child_of_none hGet)
    | some o =>
      refine dfsAt_returns (fun done _ => ∀ e ∈ done, Short fs.Child levels e.2) ?_ ?_ ?_
      · obtain ⟨_ | _, t⟩ := v.preVisit p n (some o) s
        · exact List.forall_mem_nil _
        · trivial
      · intro done e _ s hDone
        refine Returns.imp ih fun r hEnd => hEnd.imp fun t hShort => ?_
        exact List.forall_mem_append.mpr ⟨hDone, List.forall_mem_singleton.mpr hShort⟩
      · rintro s hAll c ⟨o', name, hGet', hEntry⟩
        cases hGet.symm.trans hGet'
        exact hAll (name, c) (SortedMap.get?_eq_some.mp hEntry)

end AbstFS

end Rules

namespace AbstFS

variable {fs : AbstFS}

def Circling (fs : AbstFS) (id : Nat) : Prop :=
  ∃ x, ReflTransGen fs.Child id x ∧ TransGen fs.Child x x

theorem not_circling {id : Nat} (hNot : ∀ c, fs.Child id c → ¬fs.Circling c) : ¬fs.Circling id := by
  rintro ⟨x, hReach, hCircle⟩
  rcases hReach.cases_head with rfl | ⟨c, hEdge, hRest⟩
  · obtain ⟨c, hEdge, hBack⟩ := TransGen.head'_iff.mp hCircle
    exact hNot c hEdge ⟨id, hBack, hCircle⟩
  · exact hNot c hEdge ⟨x, hRest, hCircle⟩

theorem length_le_size {path : List Nat} (hNodup : path.Nodup)
    (hThere : ∀ a ∈ path, (fs.objs.get? a).isSome) : path.length ≤ fs.objs.size := by
  have hSub : path ⊆ fs.objs.entries.map Prod.fst := by
    intro a ha
    obtain ⟨o, ho⟩ := Option.isSome_iff_exists.mp (hThere a ha)
    exact List.mem_map.mpr ⟨(a, o), SortedMap.get?_eq_some.mp ho, rfl⟩
  have hLength := (hNodup.subperm hSub).length_le
  rwa [List.length_map] at hLength

theorem circleDetector_returns (hKeys : fs.UnderIds)
    (levels : Nat) (p : Option Obj) (n : Option Name) (id : Nat) (path : List Nat)
    (hReach : ReflTransGen fs.Child 0 id) (hPath : ∀ a ∈ path, TransGen fs.Child a id)
    (hNodup : path.Nodup) (hThere : ∀ a ∈ path, (fs.objs.get? a).isSome) :
    Returns (Ends (fun t => t = (false, path) ∧ ¬fs.Circling id)
        fun t => t.1 = true ∧ fs.Circling 0)
      (fun e => e = .tooDeep ∧ levels + path.length ≤ fs.objs.size)
      (fs.dfsAt circleDetector levels p n (fs.objs.get? id) (false, path)) := by
  induction levels generalizing p n id path with
  | zero => exact ⟨rfl, (Nat.zero_add _).trans_le (length_le_size hNodup hThere)⟩
  | succ levels ih =>
    cases hGet : fs.objs.get? id with
    | none => exact ⟨rfl, not_circling fun c hEdge => absurd hEdge (not_child_of_none hGet)⟩
    | some o =>
      have hId := hKeys id o hGet
      refine dfsAt_returns (fun done t => t = (false, id :: path) ∧
        id ∉ path ∧ ∀ e ∈ done, ¬fs.Circling e.2) ?_ ?_ ?_
      · simp only [circleDetector, hId]
        split_ifs with hMem
        · exact ⟨rfl, id, hReach, hPath id hMem⟩
        · exact ⟨rfl, hMem, List.forall_mem_nil _⟩
      · rintro done e he _ ⟨rfl, hMem, hDone⟩
        have hEdge : fs.Child id e.2 := ⟨o, e.1, hGet, SortedMap.get?_eq_some.mpr he⟩
        have hStep := ih (some o) (some e.1) e.2 (id :: path) (hReach.tail hEdge)
          (List.forall_mem_cons.mpr ⟨.single hEdge, fun a ha => (hPath a ha).tail hEdge⟩)
          (List.nodup_cons.mpr ⟨hMem, hNodup⟩)
          (List.forall_mem_cons.mpr ⟨by rw [hGet]; rfl, hThere⟩)
        rw [List.length_cons, ← Nat.add_assoc, Nat.add_right_comm] at hStep
        refine hStep.imp fun r hEnd => hEnd.imp ?_
        rintro t ⟨rfl, hClear⟩
        exact ⟨rfl, hMem, List.forall_mem_append.mpr ⟨hDone, List.forall_mem_singleton.mpr hClear⟩⟩
      · rintro _ ⟨rfl, hMem, hAll⟩
        refine ⟨rfl, not_circling ?_⟩
        rintro c ⟨o', name, hGet', hEntry⟩
        cases hGet.symm.trans hGet'
        exact hAll (name, c) (SortedMap.get?_eq_some.mp hEntry)

theorem checkObjects_iff : fs.checkObjects = true ↔
    ∀ x o, fs.objs.get? x = some o → o.id = x := by
  rw [checkObjects, List.all_eq_true]
  constructor
  · intro h x o ho
    exact of_decide_eq_true (h (x, o) (SortedMap.get?_eq_some.mp ho))
  · intro h e he
    exact decide_eq_true (h e.1 e.2 (SortedMap.get?_eq_some.mpr he))

theorem detectCircle_returns (hKeys : fs.UnderIds) :
    Returns (fun found => found = true ↔ fs.Circling 0)
      (fun e => e = .tooDeep ∧ maxDepth ≤ fs.objs.size) fs.detectCircle := by
  have hSearch := circleDetector_returns hKeys maxDepth none none 0 [] .refl
    (List.forall_mem_nil _) List.nodup_nil (List.forall_mem_nil _)
  rw [detectCircle, dfs]
  generalize fs.dfsAt circleDetector maxDepth none none (fs.objs.get? 0) (false, []) = r
    at hSearch ⊢
  rcases r with e | ⟨_ | _, t⟩
  · exact hSearch
  · obtain ⟨rfl, hClear⟩ := hSearch
    exact iff_of_false Bool.false_ne_true hClear
  · obtain ⟨hTrue, hFound⟩ := hSearch
    exact iff_of_true hTrue hFound

/-- The search returns, and it answers whether a directory that the root leads to leads to itself
by one or more entries. -/
theorem detectCircle_exact (hObjects : fs.checkObjects = true) (hSize : fs.objs.size < maxDepth) :
    ∃ found, fs.detectCircle = .ok found ∧ (found = true ↔
      ∃ d, ReflTransGen fs.Child 0 d ∧ TransGen fs.Child d d) := by
  have hSearch := detectCircle_returns (checkObjects_iff.mp hObjects)
  cases hDetect : fs.detectCircle with
  | error e =>
    rw [hDetect] at hSearch
    exact absurd hSize (Nat.not_lt.mpr hSearch.2)
  | ok found =>
    rw [hDetect] at hSearch
    exact ⟨found, rfl, hSearch⟩

def tangled : AbstFS where
  id := 6
  nameId := 1
  objs := ⟨[(0, ⟨0, 0, 511, .dir ⟨⟨[([97], 1), ([98], 2), ([99], 5)], by decide⟩, none⟩⟩),
    (1, ⟨1, 2, 511, .dir ⟨⟨[([100], 2)], by decide⟩, some 0⟩⟩),
    (2, ⟨2, 2, 511, .dir ⟨⟨[([101], 1)], by decide⟩, some 0⟩⟩),
    (3, ⟨3, 1, 511, .dir ⟨⟨[([102], 3)], by decide⟩, some 3⟩⟩)], by decide⟩
  mnt := [47, 109]
  nr := fun _ => 0
  memory := zeroMemory
  files := 0

theorem detectCircle_exact_tangled : tangled.checkObjects = true ∧
    tangled.objs.size < maxDepth ∧ ∃ found, tangled.detectCircle = .ok found ∧ (found = true ↔
      ∃ d, ReflTransGen tangled.Child 0 d ∧ TransGen tangled.Child d d) :=
  ⟨by decide, by decide, detectCircle_exact (by decide) (by decide)⟩

section Check

theorem short_of_internalCheck (hCheck : fs.internalCheck = .ok ()) :
    Short fs.Child maxDepth 0 := by
  obtain ⟨found, hDetect, hEnd⟩ := bind_eq_ok hCheck
  split_ifs at hEnd with hFound hObjects
  obtain ⟨⟨status, t⟩, hSearch, hFlag⟩ := map_eq_ok hDetect
  have hEnds := circleDetector_returns (checkObjects_iff.mp hObjects) maxDepth none none 0 [] .refl
    (List.forall_mem_nil _) List.nodup_nil (List.forall_mem_nil _)
  rw [show fs.dfsAt circleDetector maxDepth none none (fs.objs.get? 0) (false, []) = _ from
    hSearch] at hEnds
  cases status with
  | stop => exact absurd (hFlag ▸ hEnds.1) hFound
  | cont => exact dfsAt_short hSearch

theorem acyclic_of_internalCheck (hCheck : fs.internalCheck = .ok ()) (id : Nat)
    (hReach : ReflTransGen fs.Child 0 id) : ¬TransGen fs.Child id id :=
  ((short_of_internalCheck hCheck).of_reached hReach).not_circle

theorem internalCheck_returns (hKeys : fs.UnderIds) :
    Returns (fun _ => ¬fs.Circling 0) (fun e => e = .tooDeep ∨ e = .circle ∧ fs.Circling 0)
      fs.internalCheck := by
  have hDetect := detectCircle_returns hKeys
  rw [internalCheck, checkObjects_iff.mpr hKeys]
  generalize fs.detectCircle = r at hDetect ⊢
  rcases r with e | _ | _
  · exact .inl hDetect.1
  · exact fun hCircle => Bool.false_ne_true (hDetect.mpr hCircle)
  · exact .inr ⟨rfl, hDetect.mp rfl⟩

theorem internalCheck_cases (hKeys : fs.UnderIds)
    (hAcyclic : ∀ id, ReflTransGen fs.Child 0 id → ¬TransGen fs.Child id id) :
    fs.internalCheck = .ok () ∨ fs.internalCheck = .error .tooDeep := by
  have hCheck := internalCheck_returns hKeys
  generalize fs.internalCheck = r at hCheck ⊢
  rcases r with e | _
  · obtain rfl | ⟨_, x, hReach, hCircle⟩ := hCheck
    · exact .inr rfl
    · exact absurd hCircle (hAcyclic x hReach)
  · exact .inl rfl

theorem internalCheck_error (hKeys : fs.UnderIds) {e : FsFailure}
    (h : fs.internalCheck = .error e) : e = .tooDeep ∨ e = .circle := by
  have hCheck := internalCheck_returns hKeys
  rw [h] at hCheck
  exact hCheck.imp_right And.left

theorem internalCheck_ok (hKeys : fs.UnderIds)
    (hShort : Short fs.Child maxDepth 0) : fs.internalCheck = .ok () := by
  refine (internalCheck_cases hKeys fun id hReach =>
    (hShort.of_reached hReach).not_circle).resolve_right fun hError => ?_
  obtain ⟨r, hr⟩ := dfsAt_ok circleDetector hShort none none (false, [])
  rw [internalCheck, detectCircle, dfs, hr] at hError
  simp only [Except.map, bind, Except.bind] at hError
  split_ifs at hError <;> cases hError

end Check

end AbstFS

end Explode.Driver
