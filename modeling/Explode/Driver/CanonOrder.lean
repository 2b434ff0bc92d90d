import Explode.Driver.GraphRuns
import Explode.Driver.Copy
import Explode.Driver.Canon

/-!
# The order of the first visits

A walk keeps the objects that it has met, in the order in which it first met
them. After a walk that was not cut off these are exactly the objects in reach,
each once, and the map of new numbers gives the place of each in that order.
-/

namespace Explode.Driver

open Relation Loop
open SortedMap (get?_eq_some)

def SameStep {σ τ : Type} (R : σ → τ → Prop) (a : VisitStatus × σ) (b : VisitStatus × τ) : Prop :=
  a.1 = b.1 ∧ R a.2 b.2

section Walks
variable {σ τ : Type} {v : Visitor σ} {w : Visitor τ} {R : σ → τ → Prop} {O : Obj → Obj → Prop}
  {fs fs' : AbstFS}

theorem visitEntries_related (visit : Name → Nat → σ → FsResult (VisitStatus × σ))
    (visit' : Name → Nat → τ → FsResult (VisitStatus × τ)) {l l' : List (Name × Nat)}
    (hVisit : List.Forall₂ (fun e e' => ∀ s t, R s t →
      Related (SameStep R) (visit e.1 e.2 s) (visit' e'.1 e'.2 t)) l l')
    {s : σ} {t : τ} (hState : R s t) :
    Related (SameStep R) (visitEntries visit l s) (visitEntries visit' l' t) := by
  induction hVisit generalizing s t with
  | nil => exact ⟨rfl, hState⟩
  | cons hFirst _ ih =>
    rw [visitEntries, visitEntries]
    refine (hFirst s t hState).bind ?_
    rintro ⟨status, s'⟩ ⟨status', t'⟩ ⟨hStatus, hNext⟩
    obtain rfl : status = status' := hStatus
    cases status with
    | stop => exact ⟨rfl, hNext⟩
    | cont => exact ih hNext

theorem dfsAt_related_step
    (hPost : ∀ p n p' n' o o' s t, O o o' → R s t →
      R (v.postVisit p n (some o) s).2 (w.postVisit p' n' (some o') t).2)
    (hKids : ∀ o o', O o o' → List.Forall₂ (fun e e' => ∃ c c', fs.objs.get? e.2 = some c ∧
      fs'.objs.get? e'.2 = some c' ∧ O c c') o.entries.entries o'.entries.entries)
    (levels : Nat) {p p' : Option Obj} {n n' : Option Name} {o o' : Obj} (hObj : O o o') {s : σ}
    {t : τ} (hPre : SameStep R (v.preVisit p n (some o) s) (w.preVisit p' n' (some o') t))
    (hLevel : ∀ n n' c c' s t, O c c' → R s t →
      Related (SameStep R) (fs.dfsAt v levels (some o) n (some c) s)
        (fs'.dfsAt w levels (some o') n' (some c') t)) :
    Related (SameStep R) (fs.dfsAt v (levels + 1) p n (some o) s)
      (fs'.dfsAt w (levels + 1) p' n' (some o') t) := by
  rw [AbstFS.dfsAt, AbstFS.dfsAt]
  generalize v.preVisit p n (some o) s = pre at hPre ⊢
  generalize w.preVisit p' n' (some o') t = pre' at hPre ⊢
  obtain ⟨status, s₁⟩ := pre
  obtain ⟨status', t₁⟩ := pre'
  obtain ⟨hStatus, hNext⟩ := hPre
  obtain rfl : status = status' := hStatus
  cases status with
  | stop => exact ⟨rfl, hNext⟩
  | cont =>
    have hVisit := visitEntries_related
      (fun n id s => fs.dfsAt v levels (some o) (some n) (fs.objs.get? id) s)
      (fun n id s => fs'.dfsAt w levels (some o') (some n) (fs'.objs.get? id) s)
      ((hKids o o' hObj).imp fun e e' hFound s t hst => by
        obtain ⟨c, c', hc, hc', hO⟩ := hFound
        rw [hc, hc']
        exact hLevel _ _ _ _ _ _ hO hst) hNext
    refine hVisit.bind ?_
    rintro ⟨status, s₂⟩ ⟨status', t₂⟩ ⟨hStatus, hNext'⟩
    obtain rfl : status = status' := hStatus
    cases status with
    | stop => exact ⟨rfl, hNext'⟩
    | cont => exact ⟨rfl, hPost p n p' n' o o' s₂ t₂ hObj hNext'⟩

theorem dfsAt_related
    (hPre : ∀ p n p' n' o o' s t, O o o' → R s t →
      SameStep R (v.preVisit p n (some o) s) (w.preVisit p' n' (some o') t))
    (hPost : ∀ p n p' n' o o' s t, O o o' → R s t →
      R (v.postVisit p n (some o) s).2 (w.postVisit p' n' (some o') t).2)
    (hKids : ∀ o o', O o o' → List.Forall₂ (fun e e' => ∃ c c', fs.objs.get? e.2 = some c ∧
      fs'.objs.get? e'.2 = some c' ∧ O c c') o.entries.entries o'.entries.entries)
    (levels : Nat) (p p' : Option Obj) (n n' : Option Name) {o o' : Obj} (hObj : O o o') {s : σ}
    {t : τ} (hState : R s t) :
    Related (SameStep R) (fs.dfsAt v levels p n (some o) s)
      (fs'.dfsAt w levels p' n' (some o') t) := by
  induction levels generalizing p p' n n' o o' s t with
  | zero => rfl
  | succ levels ih =>
    exact dfsAt_related_step hPost hKids levels hObj (hPre p n p' n' o o' s t hObj hState)
      fun n n' c c' s t hO hst => ih _ _ n n' hO hst

end Walks

def note (seen : List Nat) (id : Nat) : List Nat := if id ∈ seen then seen else seen ++ [id]

def firstVisits : Visitor (List Nat) where
  wantDangling := false
  preVisit _ _ obj seen :=
    match obj with
    | none => (.cont, seen)
    | some o => (.cont, note seen o.id)
  postVisit _ _ _ seen := (.cont, seen)

theorem mem_note {seen : List Nat} {id x : Nat} : x ∈ note seen id ↔ x ∈ seen ∨ x = id := by
  rw [note]
  split_ifs with h
  · exact ⟨.inl, fun hx => hx.elim (fun hOld => hOld) fun hEq => hEq ▸ h⟩
  · simp

theorem nodup_note {seen : List Nat} (h : seen.Nodup) (id : Nat) : (note seen id).Nodup := by
  rw [note]
  split_ifs with hMem
  · exact h
  · exact List.nodup_append.mpr ⟨h, List.nodup_singleton id, by
      intro a ha b hb hEq
      rw [List.mem_singleton.mp hb] at hEq
      exact hMem (hEq ▸ ha)⟩

section Places
variable {seen : List Nat}

def placed (seen : List Nat) (n : Nat) (ids : List Nat) : List (Option Nat) :=
  (List.range n).map fun k => seen[k]?.filter fun x => x ∈ ids

theorem getElem?_placed (n : Nat) (ids : List Nat) {k : Nat} (hk : k < n) :
    (placed seen n ids)[k]? = some (seen[k]?.filter fun x => x ∈ ids) := by
  simp [placed, hk]

theorem set_placed (hNodup : seen.Nodup) (n : Nat) (ids : List Nat) {k x : Nat}
    (hx : seen[k]? = some x) :
    (placed seen n ids).set k (some x) = placed seen n (ids ++ [x]) := by
  apply List.ext_getElem?
  intro j
  by_cases hj : j < n
  · rw [getElem?_placed n _ hj, List.getElem?_set]
    by_cases hEq : k = j
    · subst hEq
      simp [placed, hj, hx, Option.filter_some]
    · rw [if_neg hEq, getElem?_placed n _ hj]
      congr 1
      cases hy : seen[j]? with
      | none => rfl
      | some y =>
        have hNe : y ≠ x := by
          rintro rfl
          have hLt := (List.getElem?_eq_some_iff.mp hx).1
          exact hEq ((List.getElem?_inj hLt hNodup).mp (hx.trans hy.symm))
        simp [Option.filter_some, hNe]
  · simp [placed, hj]

theorem placeIds_eq (hNodup : seen.Nodup) (n : Nat) (l : List (Nat × Option Nat)) (ids : List Nat)
    (hKeys : (ids ++ l.map Prod.fst).Nodup)
    (hSome : ∀ x k, (x, some k) ∈ l → k < n ∧ seen[k]? = some x)
    (hNone : ∀ x, (x, none) ∈ l → x ∉ seen) :
    placeIds l (placed seen n ids) = .ok (placed seen n (ids ++ l.map Prod.fst)) := by
  induction l generalizing ids with
  | nil => simp [placeIds]
  | cons e rest ih =>
    obtain ⟨x, place⟩ := e
    have hRest := ih (ids ++ [x]) (by simpa using hKeys)
      (fun y k hy => hSome y k (List.mem_cons_of_mem _ hy))
      fun y hy => hNone y (List.mem_cons_of_mem _ hy)
    rw [List.append_assoc] at hRest
    have hNew : x ∉ ids := fun hMem =>
      (List.nodup_append.mp hKeys).2.2 x hMem x (by simp) rfl
    cases place with
    | none =>
      have hx := hNone x List.mem_cons_self
      have hSame : placed seen n (ids ++ [x]) = placed seen n ids := by
        apply List.map_congr_left
        intro k _
        cases hy : seen[k]? with
        | none => rfl
        | some y =>
          have hNe : y ≠ x := by
            rintro rfl
            exact hx (List.mem_of_getElem? hy)
          simp [Option.filter_some, hNe]
      rw [hSame] at hRest
      exact hRest
    | some k =>
      obtain ⟨hk, hx⟩ := hSome x k List.mem_cons_self
      have hFree : (placed seen n ids)[k]? = some none := by
        rw [getElem?_placed n ids hk, hx]
        simp [Option.filter_some, hNew]
      rw [placeIds, if_pos hFree, set_placed hNodup n ids hx]
      exact hRest

theorem foldl_max_le {l : List Nat} {a m : Nat} : l.foldl max a ≤ m ↔ a ≤ m ∧ ∀ x ∈ l, x ≤ m := by
  induction l generalizing a with
  | nil => simp
  | cons b rest ih => simp [ih, and_assoc]

theorem idMapToOrder_eq (hNodup : seen.Nodup) (hNonempty : seen ≠ []) {idMap : IdMap}
    (hMap : ∀ x k, idMap.get? x = some (some k) ↔ seen[k]? = some x) :
    idMapToOrder idMap = .ok seen := by
  obtain ⟨n, hn⟩ : ∃ n, n = idMap.size := ⟨_, rfl⟩
  have hPos : 0 < seen.length := List.length_pos_iff.mpr hNonempty
  have hKeys : (idMap.entries.map Prod.fst).Nodup := by
    rw [List.Nodup, List.pairwise_map]
    exact idMap.sorted.imp fun hLess => hLess.ne
  have hMem : ∀ {x k}, (x, some k) ∈ idMap.entries ↔ seen[k]? = some x := by
    intro x k
    rw [← get?_eq_some, hMap]
  have hSub : ∀ x ∈ seen, x ∈ idMap.entries.map Prod.fst := by
    intro x hx
    obtain ⟨k, hk⟩ := List.mem_iff_getElem?.mp hx
    exact List.mem_map.mpr ⟨_, hMem.mpr hk, rfl⟩
  have hLength : seen.length ≤ n := by
    have := (hNodup.subperm hSub).length_le
    rw [List.length_map] at this
    exact hn ▸ this
  have hStart : List.replicate n none = placed seen n [] := by
    apply List.ext_getElem (by simp [placed])
    intro k _ _
    cases seen[k]? <;> simp [placed]
  have hEnd : placed seen n (idMap.entries.map Prod.fst) =
      (List.range n).map fun k => seen[k]? := by
    apply List.map_congr_left
    intro k _
    cases hy : seen[k]? with
    | none => rfl
    | some y =>
      rw [Option.filter_some, decide_eq_true (hSub y (List.mem_of_getElem? hy)), if_pos rfl]
  have hPlace : placeIds idMap.entries (List.replicate n none) =
      .ok ((List.range n).map fun k => seen[k]?) := by
    rw [hStart, ← hEnd]
    refine placeIds_eq hNodup n idMap.entries [] hKeys ?_ ?_
    · intro x k hxk
      have hk := hMem.mp hxk
      exact ⟨(List.getElem?_eq_some_iff.mp hk).1.trans_le hLength, hk⟩
    · intro x hNone hx
      obtain ⟨k, hk⟩ := List.mem_iff_getElem?.mp hx
      cases (get?_eq_some.mpr hNone).symm.trans ((hMap x k).mpr hk)
  have hMax : maxOrder idMap + 1 = seen.length := by
    have hUpper : maxOrder idMap ≤ seen.length - 1 := by
      refine foldl_max_le.mpr ⟨Nat.zero_le _, ?_⟩
      intro k hk
      obtain ⟨⟨x, _⟩, he, rfl⟩ := List.mem_filterMap.mp hk
      have := (List.getElem?_eq_some_iff.mp (hMem.mp he)).1
      omega
    have hLower : seen.length - 1 ≤ maxOrder idMap := by
      refine (foldl_max_le.mp le_rfl).2 _ (List.mem_filterMap.mpr ?_)
      have hLast : seen[seen.length - 1]? = some seen[seen.length - 1] :=
        List.getElem?_eq_getElem (by omega)
      exact ⟨_, hMem.mpr hLast, rfl⟩
    omega
  have hTake : ((List.range n).map fun k => seen[k]?).take seen.length = seen.map some := by
    apply List.ext_getElem?
    intro k
    by_cases hk : k < seen.length
    · simp [hk, hk.trans_le hLength]
    · simp [hk]
  have hDrop : (((List.range n).map fun k => seen[k]?).drop seen.length).all Option.isNone := by
    rw [List.all_eq_true]
    intro a ha
    obtain ⟨k, hk⟩ := List.mem_iff_getElem?.mp ha
    rw [List.getElem?_drop, List.getElem?_map, Option.map_eq_some_iff] at hk
    obtain ⟨j, hj, rfl⟩ := hk
    have hjk := (List.getElem?_eq_some_iff.mp hj).2
    rw [List.getElem_range] at hjk
    simp [← hjk]
  rw [idMapToOrder, ← hn, hPlace]
  simp only [bind, Except.bind, hMax, hTake]
  rw [if_pos]
  · simp [List.filterMap_map]
  · refine ⟨by simp, ?_, hDrop⟩
    rw [List.length_map, List.length_range]
    omega

end Places

namespace AbstFS

structure Sound (fs : AbstFS) : Prop extends fs.Keyed where
  named : ∀ p c, ReflTransGen fs.Child 0 p → fs.Child p c → ∃ o, fs.objs.get? c = some o
  acyclic : ∀ id, ReflTransGen fs.Child 0 id → ¬TransGen fs.Child id id

def Reach (fs : AbstFS) (id : Nat) : Prop := ReflTransGen fs.Child 0 id

section Order
variable {fs : AbstFS}

theorem Sound.child (h : fs.Sound) {o : Obj} (hGet : fs.objs.get? o.id = some o)
    (hReach : fs.Reach o.id) {e : Name × Nat} (he : e ∈ o.entries.entries) :
    fs.Child o.id e.2 ∧ ∃ c, fs.objs.get? e.2 = some c ∧ c.id = e.2 ∧ fs.Reach e.2 := by
  have hChild : fs.Child o.id e.2 := ⟨o, e.1, hGet, get?_eq_some.mpr he⟩
  obtain ⟨c, hc⟩ := h.named o.id e.2 hReach hChild
  exact ⟨hChild, c, hc, h.keys e.2 c hc, hReach.tail hChild⟩

theorem Sound.get?_of_reach (h : fs.Sound) {x : Nat} (hx : fs.Reach x) :
    ∃ o, fs.objs.get? x = some o ∧ o.id = x := by
  rcases hx.cases_tail with rfl | ⟨p, hp, hChild⟩
  · obtain ⟨r, hr, _⟩ := h.root
    exact ⟨r, hr, h.keys 0 r hr⟩
  · obtain ⟨o, ho⟩ := h.named p x hp hChild
    exact ⟨o, ho, h.keys x o ho⟩

structure Met (seen : List Nat) (B : Nat → Prop) (later : List Nat) : Prop where
  nodup : later.Nodup
  before : seen <+: later
  mem : ∀ x, x ∈ later ↔ x ∈ seen ∨ B x

theorem Met.of_note {seen later : List Nat} {id : Nat} {B : Nat → Prop}
    (h : Met (note seen id) B later) (hId : B id) : Met seen B later := by
  refine ⟨h.nodup, List.IsPrefix.trans ?_ h.before, ?_⟩
  · rw [note]
    split_ifs
    · exact List.prefix_rfl
    · exact List.prefix_append seen [id]
  · intro x
    rw [h.mem, mem_note, or_assoc]
    refine or_congr_right (or_iff_right_of_imp ?_)
    rintro rfl
    exact hId

theorem firstVisits_met (h : fs.Sound) (levels : Nat) (p : Option Obj) (n : Option Name) {id : Nat}
    (hReach : fs.Reach id) {seen : List Nat} (hNodup : seen.Nodup) :
    Returns (Ends (Met (note seen id) (ReflTransGen fs.Child id)) fun _ => False) (fun _ => True)
      (fs.dfsAt firstVisits levels p n (fs.objs.get? id) seen) := by
  induction levels generalizing p n id seen with
  | zero => trivial
  | succ levels ih =>
    obtain ⟨o, hGet, hId⟩ := h.get?_of_reach hReach
    rw [hGet]
    refine dfsAt_returns
      (fun done => Met (note seen id) fun x => ∃ e ∈ done, ReflTransGen fs.Child e.2 x) ?_ ?_ ?_
    · rw [← hId]
      exact ⟨nodup_note hNodup o.id, List.prefix_rfl, by simp⟩
    · intro done e he t hDone
      have hEdge : fs.Child id e.2 := ⟨o, e.1, hGet, get?_eq_some.mpr he⟩
      refine (ih (some o) (some e.1) (hReach.tail hEdge) hDone.nodup).imp fun r hEnd =>
        hEnd.imp fun later hMet => ?_
      have hMet := hMet.of_note .refl
      refine ⟨hMet.nodup, hDone.before.trans hMet.before, fun x => ?_⟩
      rw [hMet.mem, hDone.mem, or_assoc]
      simp [or_and_right, exists_or]
    · intro later hMet
      refine ⟨hMet.nodup, hMet.before, fun x => (hMet.mem x).trans ?_⟩
      constructor
      · rintro (hOld | ⟨e, he, hx⟩)
        · exact .inl hOld
        · exact .inr (hx.head ⟨o, e.1, hGet, get?_eq_some.mpr he⟩)
      · rintro (hOld | hx)
        · exact .inl hOld
        · rcases hx.cases_head with rfl | ⟨c, ⟨o₁, name, h₁, hc⟩, hRest⟩
          · exact .inl (mem_note.mpr (.inr rfl))
          · cases hGet.symm.trans h₁
            exact .inr ⟨(name, c), get?_eq_some.mp hc, hRest⟩

def number (seen : List Nat) (x : Nat) : Option Nat :=
  if x ∈ seen then some (seen.idxOf x) else none

theorem number_append {seen : List Nat} {id : Nat} (hNew : id ∉ seen) (x : Nat) :
    number (seen ++ [id]) x = if x = id then some seen.length else number seen x := by
  unfold number
  split_ifs with hMem hEq hOld hEq hOld
  · rw [hEq, List.idxOf_append_of_notMem hNew]
    simp
  · rw [List.idxOf_append_of_mem hOld]
  · simp_all
  · simp_all
  · simp_all
  · rfl

structure Numbered (fs : AbstFS) (s : VisitOrder) (seen : List Nat) : Prop where
  failed : s.failed = false
  cur : s.cur = seen.length
  order : ∀ x, s.order.get? x = (fs.objs.get? x).map fun _ => number seen x

theorem Numbered.add {s : VisitOrder} {seen : List Nat} (h : fs.Numbered s seen) {o : Obj}
    (hGet : fs.objs.get? o.id = some o) (hRoot : o.id = 0 → 0 ∈ seen ∨ seen = []) :
    fs.Numbered (s.add true o) (note seen o.id) := by
  have hOrder := h.order o.id
  rw [hGet, Option.map_some, number] at hOrder
  by_cases hMem : o.id ∈ seen
  · rw [if_pos hMem] at hOrder
    rw [VisitOrder.add, hOrder, note, if_pos hMem]
    exact h
  · rw [if_neg hMem] at hOrder
    have hFirst : ¬(o.id = 0 ∧ (true : Bool) = true ∧ s.cur ≠ 0) := by
      rintro ⟨hZero, _, hCur⟩
      rcases hRoot hZero with hIn | rfl
      · exact hMem (hZero ▸ hIn)
      · exact hCur h.cur
    have hAdd : s.add true o =
        { s with order := s.order.insert o.id (some s.cur), cur := s.cur + 1 } := by
      rw [VisitOrder.add, hOrder]
      exact if_neg hFirst
    rw [hAdd, note, if_neg hMem]
    refine ⟨h.failed, ?_, ?_⟩
    · simp [h.cur]
    · intro x
      rw [SortedMap.get?_insert, number_append hMem, h.order, h.cur]
      split_ifs with hEq
      · rw [hEq, hGet]
        rfl
      · rfl

def BothAt (fs : AbstFS) (o o' : Obj) : Prop :=
  o' = o ∧ fs.objs.get? o.id = some o ∧ fs.Reach o.id

theorem bothAt_kids (h : fs.Sound) (o o' : Obj) (hBoth : fs.BothAt o o') :
    List.Forall₂ (fun e e' => ∃ c c', fs.objs.get? e.2 = some c ∧ fs.objs.get? e'.2 = some c' ∧
      fs.BothAt c c') o.entries.entries o'.entries.entries := by
  obtain ⟨rfl, hGet, hReach⟩ := hBoth
  rw [List.forall₂_same]
  intro e he
  obtain ⟨_, c, hc, hcId, hcReach⟩ := h.child hGet hReach he
  exact ⟨c, c, hc, hc, rfl, hcId ▸ hc, hcId ▸ hcReach⟩

theorem numbered_pre (p p' : Option Obj) (n n' : Option Name) (o o' : Obj) (s : VisitOrder)
    (seen : List Nat) (hBoth : fs.BothAt o o') (h : fs.Numbered s seen)
    (hRoot : 0 ∈ seen ∨ seen = [] ∧ o.id = 0) :
    SameStep (fun s seen => fs.Numbered s seen ∧ 0 ∈ seen)
      ((visitOrder true).preVisit p n (some o) s) (firstVisits.preVisit p' n' (some o') seen) := by
  obtain ⟨rfl, hGet, _⟩ := hBoth
  refine ⟨rfl, h.add hGet fun _ => hRoot.imp_right And.left, mem_note.mpr ?_⟩
  exact hRoot.imp_right fun hFirst => hFirst.2.symm

theorem numbered_invalid (fs : AbstFS) : fs.Numbered
    ⟨fs.objs.entries.foldl (fun m e => m.insert e.1 none) .empty, 0, false⟩ [] := by
  refine ⟨rfl, rfl, fun x => ?_⟩
  cases hx : fs.objs.get? x with
  | none =>
    refine SortedMap.get?_foldl_insert_of_ne (fun e : Nat × Obj => e.1) (fun _ => none) .empty ?_
    rintro e he rfl
    cases hx.symm.trans (get?_eq_some.mpr he)
  | some o =>
    exact SortedMap.get?_foldl_insert (fun e : Nat × Obj => e.1) (fun _ => none) .empty
      (fun _ _ _ _ _ => rfl) (get?_eq_some.mp hx)

theorem dfs_numbered (h : fs.Sound) : Related (SameStep fun s seen => fs.Numbered s seen ∧ 0 ∈ seen)
    (fs.dfs (visitOrder true)
      ⟨fs.objs.entries.foldl (fun m e => m.insert e.1 none) .empty, 0, false⟩)
    (fs.dfs firstVisits []) := by
  obtain ⟨r, hr, _⟩ := h.root
  have hId := h.keys 0 r hr
  have hBoth : fs.BothAt r r := ⟨rfl, hId ▸ hr, hId ▸ .refl⟩
  have hPost : ∀ (p : Option Obj) (n : Option Name) (p' : Option Obj) (n' : Option Name)
      (o o' : Obj) (s : VisitOrder) (seen : List Nat), fs.BothAt o o' →
      fs.Numbered s seen ∧ 0 ∈ seen → fs.Numbered ((visitOrder true).postVisit p n (some o) s).2
        (firstVisits.postVisit p' n' (some o') seen).2 ∧
        0 ∈ (firstVisits.postVisit p' n' (some o') seen).2 :=
    fun _ _ _ _ _ _ _ _ _ hs => hs
  rw [dfs, dfs, hr]
  refine dfsAt_related_step hPost (bothAt_kids h) (maxDepth - 1) hBoth ?_ ?_
  · exact numbered_pre _ _ _ _ _ _ _ _ hBoth (numbered_invalid fs) (.inr ⟨rfl, hId⟩)
  · intro n n' c c' s seen hc hs
    refine dfsAt_related ?_ hPost (bothAt_kids h) _ _ _ n n' hc hs
    exact fun p n p' n' o o' s seen ho hs => numbered_pre p p' n n' o o' s seen ho hs.1 (.inl hs.2)

structure Walked (fs : AbstFS) (seen : List Nat) : Prop where
  walk : fs.dfs firstVisits [] = .ok (.cont, seen)
  nodup : seen.Nodup
  first : [0] <+: seen
  mem : ∀ x, x ∈ seen ↔ fs.Reach x

theorem exists_walked (h : fs.Sound) (hCheck : fs.internalCheck = .ok ()) :
    ∃ idMap seen, fs.dfsOrder true = .ok idMap ∧ fs.Walked seen ∧
      ∀ x, idMap.get? x = (fs.objs.get? x).map fun _ => number seen x := by
  have hShort := short_of_internalCheck hCheck
  obtain ⟨⟨status, seen⟩, hFirst⟩ := dfsAt_ok firstVisits hShort none none []
  obtain ⟨a, hOrder⟩ := dfsAt_ok (visitOrder true) hShort none none
    ⟨fs.objs.entries.foldl (fun m e => m.insert e.1 none) .empty, 0, false⟩
  have hWalks := dfs_numbered h
  have hMet := firstVisits_met h maxDepth none none .refl List.nodup_nil
  rw [dfs, dfs, hOrder, hFirst] at hWalks
  rw [hFirst] at hMet
  obtain ⟨_, hNumbered, _⟩ := hWalks
  cases status with
  | stop => cases hMet
  | cont =>
    refine ⟨a.2.order, seen, ?_, ⟨hFirst, hMet.nodup, hMet.before, fun x => ?_⟩, hNumbered.order⟩
    · rw [dfsOrder, dfs, hOrder]
      simp only [bind, Except.bind, hNumbered.failed]
      rfl
    · refine (hMet.mem x).trans (or_iff_right_of_imp ?_)
      intro hx
      obtain rfl := List.mem_singleton.mp hx
      exact .refl

end Order

end AbstFS

end Explode.Driver
