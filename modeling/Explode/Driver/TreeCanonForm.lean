import Explode.Driver.TreeListing

/-!
# What the canonical form decides

Sorting the children by their forms puts two trees that differ in the order of
children into the same order, and the listing of the sorted tree can be read
back.
-/

namespace Explode.Driver

open RoseTree

theorem weight_node (label : Label) (cs : List NodeT) :
    weight (.node label cs) = maxLabel + (if cs = [] then 0 else 1) + (cs.map weight).sum := by
  rw [weight, fold_node]
  simp only [List.map_eq_nil_iff]

def queueWeight (q : List (Option NodeT)) : Nat := (q.map fun cur => cur.elim 1 weight).sum

theorem queueWeight_cons_some (cur : NodeT) (q : List (Option NodeT)) :
    queueWeight (some cur :: q) = maxLabel + queueWeight
      (q ++ (cur.children.map some ++ if cur.children.isEmpty then [] else [none])) := by
  have hMap : ((cur.children.map some).map fun cur => cur.elim 1 weight).sum =
      (cur.children.map weight).sum := by
    rw [List.map_map]
    rfl
  have hCur : weight cur = maxLabel + (if cur.children = [] then 0 else 1) +
      (cur.children.map weight).sum := by
    rw [← weight_node cur.label, node_eta]
  simp only [queueWeight, List.map_cons, List.sum_cons, List.map_append, List.sum_append, hMap,
    Option.elim_some, hCur]
  split <;> simp_all
  ring

theorem listNodes_fits (passes : Nat) (q : List (Option NodeT)) (buf : Form)
    (hFits : buf.length + queueWeight q < maxForm) (hPasses : queueWeight q < passes) :
    ∃ out, listNodes passes q buf = some out ∧ out.length = buf.length + queueWeight q := by
  induction passes generalizing q buf with
  | zero => cases hPasses
  | succ passes ih =>
    cases q with
    | nil => exact ⟨buf, rfl, rfl⟩
    | cons cur q =>
      cases cur with
      | none =>
        have hWeight : queueWeight (none :: q) = 1 + queueWeight q := List.sum_cons
        have hBuf : (buf ++ [formSeparator]).length = buf.length + 1 := List.length_append
        rw [hWeight] at hFits hPasses ⊢
        rw [listNodes, if_pos (by omega)]
        obtain ⟨out, hOut, hLength⟩ := ih q (buf ++ [formSeparator]) (by omega) (by omega)
        exact ⟨out, hOut, by omega⟩
      | some cur =>
        have hPos : 0 < maxLabel := by decide
        have hBuf : (buf ++ cur.label.toList).length = buf.length + maxLabel := by
          rw [List.length_append, Vector.length_toList]
        rw [queueWeight_cons_some] at hFits hPasses ⊢
        rw [listNodes, if_pos (by omega)]
        obtain ⟨out, hOut, hLength⟩ := ih
          (q ++ (cur.children.map some ++ if cur.children.isEmpty then [] else [none]))
          (buf ++ cur.label.toList) (by omega) (by omega)
        exact ⟨out, hOut, by omega⟩

section
variable {sort : List (NodeT × Form) → List (NodeT × Form)}

theorem canonicalize_eq_some {cs : List NodeT} {forms : List (NodeT × Form)} :
    canonicalize sort cs = some forms ↔
      List.Forall₂ (fun c f => canonFormInter sort c = some f) cs forms := by
  induction cs generalizing forms with
  | nil =>
    rw [canonicalize, Option.some_inj, List.forall₂_nil_left_iff]
    exact eq_comm
  | cons c cs ih =>
    rw [canonicalize, List.forall₂_cons_left_iff]
    constructor
    · intro h
      obtain ⟨form, hForm, h⟩ := Option.bind_eq_some_iff.mp h
      obtain ⟨rest, hRest, h⟩ := Option.bind_eq_some_iff.mp h
      cases h
      exact ⟨form, rest, hForm, ih.mp hRest, rfl⟩
    · rintro ⟨form, rest, hForm, hRest, rfl⟩
      rw [hForm, ih.mpr hRest]
      rfl

theorem canonFormInter_node {label : Label} {cs : List NodeT} {n : NodeT} {form : Form} :
    canonFormInter sort (.node label cs) = some (n, form) ↔ ∃ forms buf,
      List.Forall₂ (fun c f => canonFormInter sort c = some f) cs forms ∧
      n = .node label ((sort forms).map Prod.fst) ∧
      listNodes (maxForm + 1) (queueOf [[n]]) [] = some buf ∧ buf.length < maxForm ∧
      form = buf ++ [formEnd] := by
  rw [canonFormInter]
  constructor
  · intro h
    obtain ⟨forms, hForms, h⟩ := Option.bind_eq_some_iff.mp h
    obtain ⟨buf, hBuf, h⟩ := Option.bind_eq_some_iff.mp h
    split at h
    case isTrue hLt =>
      cases h
      exact ⟨forms, buf, canonicalize_eq_some.mp hForms, rfl, hBuf, hLt, rfl⟩
    case isFalse => cases h
  · rintro ⟨forms, buf, hForms, rfl, hBuf, hLt, rfl⟩
    change listNodes (maxForm + 1) [some _, none] [] = some buf at hBuf
    rw [canonicalize_eq_some.mpr hForms]
    simp only [Option.bind_eq_bind, Option.bind_some, hBuf]
    rw [if_pos hLt]

theorem exists_of_mem_forms {r : NodeT → NodeT × Form → Prop} {cs : List NodeT}
    {forms : List (NodeT × Form)} (h : List.Forall₂ r cs forms) {f : NodeT × Form}
    (hf : f ∈ forms) : ∃ c ∈ cs, r c f := by
  induction h with
  | nil => cases hf
  | @cons c form cs forms hHead _ ih =>
    rcases List.mem_cons.mp hf with rfl | hf
    · exact ⟨c, List.mem_cons_self, hHead⟩
    · obtain ⟨d, hd, hr⟩ := ih hf
      exact ⟨d, List.mem_cons_of_mem c hd, hr⟩

theorem ne_nil_of_sort (hSort : Sorts sort) {r : NodeT → NodeT × Form → Prop} {cs : List NodeT}
    {forms : List (NodeT × Form)} (h : List.Forall₂ r cs forms) :
    (sort forms).map Prod.fst = [] ↔ cs = [] := by
  rw [← List.length_eq_zero_iff, ← List.length_eq_zero_iff, List.length_map,
    (hSort forms).1.length_eq, h.length_eq]

theorem formLen_child_le {label : Label} {c : NodeT} {cs : List NodeT}
    (hFits : formLen (.node label cs) ≤ maxForm) (hc : c ∈ cs) : formLen c ≤ maxForm := by
  have hLe := List.single_le_sum (l := cs.map weight) (by simp) _ (List.mem_map_of_mem hc)
  rw [formLen, weight_node] at hFits
  rw [formLen]
  omega

theorem exists_canonFormInter (hSort : Sorts sort) (t : NodeT) (hFits : formLen t ≤ maxForm) :
    ∃ n form, canonFormInter sort t = some (n, form) ∧ weight n = weight t ∧
      form.length = formLen t := by
  induction t using RoseTree.induction with
  | node label cs ih =>
    have hChild := fun c hc => formLen_child_le hFits (c := c) hc
    obtain ⟨forms, hForms⟩ : ∃ forms, List.Forall₂
        (fun c f => canonFormInter sort c = some f ∧ weight f.1 = weight c) cs forms := by
      clear hFits
      induction cs with
      | nil => exact ⟨[], .nil⟩
      | cons c cs ihList =>
        obtain ⟨n, form, hn, hWeight, _⟩ := ih c List.mem_cons_self (hChild c List.mem_cons_self)
        obtain ⟨forms, hForms⟩ := ihList (fun d hd => ih d (List.mem_cons_of_mem c hd))
          fun d hd => hChild d (List.mem_cons_of_mem c hd)
        exact ⟨(n, form) :: forms, .cons ⟨hn, hWeight⟩ hForms⟩
    obtain ⟨n, hn⟩ : ∃ n, n = node label ((sort forms).map Prod.fst) := ⟨_, rfl⟩
    have hWeight : weight n = weight (.node label cs) := by
      have hPerm := ((hSort forms).1.map Prod.fst).map weight
      have hSum : ((forms.map Prod.fst).map weight).sum = (cs.map weight).sum := by
        clear hn hPerm ih hFits hChild
        induction hForms with
        | nil => rfl
        | cons h _ ihList => simp only [List.map_cons, List.sum_cons, h.2, ihList]
      rw [hn, weight_node, weight_node, hPerm.sum_eq, hSum]
      simp only [ne_nil_of_sort hSort hForms]
    have hQueue : queueWeight (queueOf [[n]]) = weight n + 1 := rfl
    rw [formLen, ← hWeight] at hFits
    obtain ⟨buf, hBuf, hLength⟩ := listNodes_fits (maxForm + 1) (queueOf [[n]]) []
      (by rw [hQueue, List.length_nil]; omega) (by rw [hQueue]; omega)
    rw [hQueue, List.length_nil] at hLength
    refine ⟨n, buf ++ [formEnd], canonFormInter_node.mpr ⟨forms, buf, ?_, hn, hBuf, ?_, rfl⟩,
      hWeight, ?_⟩
    · exact hForms.imp fun _ _ h => h.1
    · omega
    · rw [List.length_append, List.length_singleton, formLen, ← hWeight]
      omega

theorem allLegible_canonFormInter (hSort : Sorts sort) {inner : Label → Prop} {t n : NodeT}
    {form : Form} (h : canonFormInter sort t = some (n, form)) (hLegible : AllLegible inner t) :
    AllLegible inner n := by
  induction t using RoseTree.induction generalizing n form with
  | node label cs ih =>
    obtain ⟨forms, buf, hForms, rfl, _⟩ := canonFormInter_node.mp h
    obtain ⟨hNode, hChildren⟩ := allLegible_node.mp hLegible
    refine allLegible_node.mpr ⟨⟨hNode.1, ?_⟩, ?_⟩
    · exact (not_congr (ne_nil_of_sort hSort hForms)).trans hNode.2
    · intro d hd
      obtain ⟨f, hf, rfl⟩ := List.mem_map.mp hd
      obtain ⟨c, hc, hCanon⟩ := exists_of_mem_forms hForms ((hSort forms).1.mem_iff.mp hf)
      exact ih c hc hCanon (hChildren c hc)

theorem eq_of_form_eq {inner : Label → Prop} {t t' : NodeT} {f f' : NodeT × Form}
    (hLegible : AllLegible inner f.1) (hLegible' : AllLegible inner f'.1)
    (h : canonFormInter sort t = some f) (h' : canonFormInter sort t' = some f')
    (hForm : f.2 = f'.2) : f = f' := by
  rw [← node_eta t] at h
  rw [← node_eta t'] at h'
  obtain ⟨_, buf, _, _, hBuf, _, hEnd⟩ := canonFormInter_node.mp h
  obtain ⟨_, buf', _, _, hBuf', _, hEnd'⟩ := canonFormInter_node.mp h'
  obtain rfl : buf = buf' := List.append_cancel_right (hEnd.symm.trans (hForm.trans hEnd'))
  have hEq : [[f.1]] = [[f'.1]] := listNodes_injective (by simpa using hLegible)
    (by simpa using hLegible') rfl hBuf hBuf'
  exact Prod.ext (by simpa using hEq) hForm

theorem form_eq_of_not_ltnode {a b : NodeT × Form} (h : ltnode a b = false)
    (h' : ltnode b a = false) : a.2 = b.2 := by
  simp only [ltnode, Bool.or_eq_false_iff, Bool.and_eq_false_iff, decide_eq_false_iff_not,
    beq_eq_false_iff_ne] at h h'
  have hLength : a.2.length = b.2.length := by omega
  exact List.le_antisymm (h'.2.resolve_left (not_not.mpr hLength.symm))
    (h.2.resolve_left (not_not.mpr hLength))

theorem forall₂_join {α β γ : Type} {r : α → β → Prop} {s : β → γ → Prop} {q : α → γ → Prop}
    {as : List α} {bs : List β} {cs : List γ} (h : List.Forall₂ r as bs) (h' : List.Forall₂ s bs cs)
    (hq : ∀ a ∈ as, ∀ b ∈ bs, ∀ c ∈ cs, r a b → s b c → q a c) : List.Forall₂ q as cs := by
  induction h generalizing cs with
  | nil =>
    cases h'
    exact .nil
  | cons hHead _ ih =>
    cases h' with
    | cons hHead' hRest =>
      refine .cons ?_ (ih hRest ?_)
      · exact hq _ List.mem_cons_self _ List.mem_cons_self _ List.mem_cons_self hHead hHead'
      · exact fun a ha b hb c hc => hq a (List.mem_cons_of_mem _ ha) b (List.mem_cons_of_mem _ hb) c
          (List.mem_cons_of_mem _ hc)

theorem canonFormInter_eq_of_iso (hSort : Sorts sort) {inner : Label → Prop} {t t' : NodeT}
    {f f' : NodeT × Form} (hLegible : AllLegible inner t) (hLegible' : AllLegible inner t')
    (h : canonFormInter sort t = some f) (h' : canonFormInter sort t' = some f')
    (hIso : t.Iso t') : f = f' := by
  induction t using RoseTree.induction generalizing t' f f' with
  | node label cs ih =>
    obtain ⟨label', cs'⟩ := t'
    obtain ⟨n, form⟩ := f
    obtain ⟨n', form'⟩ := f'
    obtain ⟨rfl, order, hOrder, hEach⟩ := iso_node.mp hIso
    obtain ⟨forms, buf, hForms, hn, hBuf, _, rfl⟩ := canonFormInter_node.mp h
    obtain ⟨forms', buf', hForms', hn', hBuf', _, rfl⟩ := canonFormInter_node.mp h'
    obtain ⟨w, hw, hPerm⟩ := List.perm_comp_forall₂ hOrder hForms'
    have hChildren := (allLegible_node.mp hLegible).2
    have hChildren' := (allLegible_node.mp hLegible').2
    have hEq : forms = w := by
      have hVia : List.Forall₂ (fun c f' => ∃ d ∈ order, c.Iso d ∧ canonFormInter sort d = some f')
          cs w :=
        forall₂_join hEach hw fun c _ d hd f' _ hIso hCanon =>
          ⟨d, hd, hIso, hCanon⟩
      rw [← List.forall₂_eq_eq_eq]
      refine forall₂_join hForms.flip hVia ?_
      rintro f _ c hc f' _ hCanon ⟨d, hd, hIso, hCanon'⟩
      exact ih c hc (hChildren c hc) (hChildren' d (hOrder.mem_iff.mp hd)) hCanon hCanon' hIso
    have hSorted : sort forms = sort forms' := by
      subst hEq
      apply List.Perm.eq_of_pairwise _ (hSort forms).2 (hSort forms').2
      · exact ((hSort forms).1.trans hPerm).trans (hSort forms').1.symm
      · intro a b ha hb hab hba
        obtain ⟨c, hc, hCanon⟩ := exists_of_mem_forms hForms ((hSort forms).1.mem_iff.mp ha)
        obtain ⟨c', hc', hCanon'⟩ := exists_of_mem_forms hForms' ((hSort forms').1.mem_iff.mp hb)
        have hForm := form_eq_of_not_ltnode hba hab
        have hLegible := allLegible_canonFormInter hSort hCanon (hChildren c hc)
        have hLegible' := allLegible_canonFormInter hSort hCanon' (hChildren' c' hc')
        exact eq_of_form_eq hLegible hLegible' hCanon hCanon' hForm
    obtain rfl : n = n' := by rw [hn, hn', hSorted]
    cases hBuf.symm.trans hBuf'
    rfl

theorem iso_of_canonFormInter_eq (hSort : Sorts sort) {t t' n : NodeT} {form form' : Form}
    (h : canonFormInter sort t = some (n, form)) (h' : canonFormInter sort t' = some (n, form')) :
    t.Iso t' := by
  induction t using RoseTree.induction generalizing t' n form form' with
  | node label cs ih =>
    obtain ⟨label', cs'⟩ := t'
    obtain ⟨forms, _, hForms, rfl, _⟩ := canonFormInter_node.mp h
    obtain ⟨forms', _, hForms', hn, _⟩ := canonFormInter_node.mp h'
    obtain ⟨rfl, hSorted⟩ : label = label' ∧
      (sort forms).map Prod.fst = (sort forms').map Prod.fst := by simpa using hn
    have hPerm : (forms.map Prod.fst).Perm (forms'.map Prod.fst) := by
      calc (forms.map Prod.fst).Perm ((sort forms).map Prod.fst) := (hSort forms).1.symm.map _
        _ = (sort forms').map Prod.fst := hSorted
        List.Perm _ (forms'.map Prod.fst) := (hSort forms').1.map _
    have hCanon : List.Forall₂ (fun c n => ∃ form, canonFormInter sort c = some (n, form)) cs
        (forms.map Prod.fst) :=
      List.forall₂_map_right_iff.mpr (hForms.imp fun _ f hf => ⟨f.2, hf⟩)
    have hCanon' : List.Forall₂ (fun n c => ∃ form, canonFormInter sort c = some (n, form))
        (forms'.map Prod.fst) cs' :=
      List.forall₂_map_left_iff.mpr (hForms'.flip.imp fun f _ hf => ⟨f.2, hf⟩)
    obtain ⟨order, hOrder, hOrderPerm⟩ := List.perm_comp_forall₂ hPerm hCanon'
    refine iso_node.mpr ⟨rfl, order, hOrderPerm, forall₂_join hCanon hOrder ?_⟩
    rintro c hc n _ d _ ⟨form, hc'⟩ ⟨form', hd⟩
    exact ih c hc hc' hd

theorem canonForm_of_legible (hSort : Sorts sort) {inner : Label → Prop} {t t' : NodeT}
    (hFits : formLen t ≤ maxForm) (hFits' : formLen t' ≤ maxForm)
    (hLegible : AllLegible inner t) (hLegible' : AllLegible inner t') :
    ∃ form form', canonForm sort t = some form ∧ canonForm sort t' = some form' ∧
      (form = form' ↔ t.Iso t') := by
  obtain ⟨n, form, h, _⟩ := exists_canonFormInter hSort t hFits
  obtain ⟨n', form', h', _⟩ := exists_canonFormInter hSort t' hFits'
  refine ⟨form, form', by rw [canonForm, h]; rfl, by rw [canonForm, h']; rfl, ?_, ?_⟩
  · intro hForm
    cases eq_of_form_eq (allLegible_canonFormInter hSort h hLegible)
      (allLegible_canonFormInter hSort h' hLegible') h h' hForm
    exact iso_of_canonFormInter_eq hSort h h'
  · intro hIso
    cases canonFormInter_eq_of_iso hSort hLegible hLegible' h h' hIso
    rfl

/-- The children of every node are in an order that sorting cannot change. -/
def Arranged (t : NodeT) : Prop :=
  ∀ p n, t.at? p = some n → n.children.Pairwise fun c d => weight c < weight d ∨ c = d

theorem arranged_node {label : Label} {cs : List NodeT} : Arranged (.node label cs) ↔
    (cs.Pairwise fun c d => weight c < weight d ∨ c = d) ∧ ∀ c ∈ cs, Arranged c :=
  forall_at?_node

theorem sort_arranged (hSort : Sorts sort) {forms : List (NodeT × Form)}
    (hLength : ∀ f ∈ forms, f.2.length = weight f.1 + 2)
    (hForms : forms.Pairwise fun f g => weight f.1 < weight g.1 ∨ f = g) : sort forms = forms := by
  have hApart : ∀ f ∈ forms, ∀ g ∈ forms, weight f.1 ≠ weight g.1 ∨ f = g := by
    have hSymm : Std.Symm fun f g : NodeT × Form => weight f.1 ≠ weight g.1 ∨ f = g :=
      ⟨fun f g h => h.imp Ne.symm Eq.symm⟩
    exact List.Pairwise.forall_of_forall (fun f _ => .inr rfl)
      (hForms.imp fun h => h.imp_left Nat.ne_of_lt)
  apply List.Perm.eq_of_pairwise _ (hSort forms).2 _ (hSort forms).1
  · intro f g hf hg hfg hgf
    have hForm := form_eq_of_not_ltnode hgf hfg
    have hf' := hLength f ((hSort forms).1.mem_iff.mp hf)
    have hg' := hLength g hg
    refine (hApart f ((hSort forms).1.mem_iff.mp hf) g hg).resolve_left (not_not.mpr ?_)
    rw [hForm] at hf'
    omega
  · refine hForms.imp_of_mem fun {f g} hf hg h => ?_
    rcases h with hLt | rfl
    · simp [ltnode, hLength f hf, hLength g hg]
      omega
    · simp [ltnode]

theorem canonFormInter_arranged (hSort : Sorts sort) {t : NodeT} (hFits : formLen t ≤ maxForm)
    (h : Arranged t) :
    ∃ form, canonFormInter sort t = some (t, form) ∧ form.length = formLen t := by
  induction t using RoseTree.induction with
  | node label cs ih =>
    obtain ⟨hOrder, hBelow⟩ := arranged_node.mp h
    obtain ⟨n, form, hCanon, _, hForm⟩ := exists_canonFormInter hSort _ hFits
    obtain ⟨forms, buf, hForms, rfl, hBuf, hLt, rfl⟩ := canonFormInter_node.mp hCanon
    have hChild := fun c hc => formLen_child_le hFits (c := c) hc
    obtain ⟨g, hg⟩ : ∃ g : NodeT → NodeT × Form,
        ∀ c, g c = (canonFormInter sort c).getD (c, []) := ⟨_, fun _ => rfl⟩
    have hOwn : ∀ c ∈ cs, (g c).1 = c ∧ (g c).2.length = weight c + 2 := by
      intro c hc
      obtain ⟨form, hCanon, hLength⟩ := ih c hc (hChild c hc) (hBelow c hc)
      rw [hg, hCanon]
      exact ⟨rfl, hLength⟩
    obtain rfl : forms = cs.map g := by
      rw [← List.forall₂_eq_eq_eq]
      refine List.forall₂_map_right_iff.mpr (hForms.flip.imp fun f c hf => ?_)
      rw [hg, hf, Option.getD_some]
    have hSorted : sort (cs.map g) = cs.map g := by
      apply sort_arranged hSort
      · intro f hf
        obtain ⟨c, hc, rfl⟩ := List.mem_map.mp hf
        rw [(hOwn c hc).1, (hOwn c hc).2]
      · refine List.pairwise_map.mpr (hOrder.imp_of_mem fun {c d} hc hd h => ?_)
        rw [(hOwn c hc).1, (hOwn d hd).1]
        exact h.imp_right (congrArg g)
    have hSame : (sort (cs.map g)).map Prod.fst = cs := by
      rw [hSorted, List.map_map]
      exact (List.map_congr_left fun c hc => (hOwn c hc).1).trans (List.map_id cs)
    rw [hSame] at hCanon
    exact ⟨_, hCanon, hForm⟩

theorem canonForm_arranged (hSort : Sorts sort) {t : NodeT} (hFits : formLen t ≤ maxForm)
    (h : Arranged t) {levels : Nat}
    (hEnd : (fun groups => nextGroups groups.flatten)^[levels] [[t]] = []) :
    canonForm sort t = some (listing levels [[t]] ++ [formEnd]) := by
  obtain ⟨form, hCanon, _⟩ := canonFormInter_arranged hSort hFits h
  have hNode := hCanon
  rw [← node_eta t] at hNode
  obtain ⟨_, buf, _, _, hBuf, _, rfl⟩ := canonFormInter_node.mp hNode
  rw [node_eta] at hBuf
  rw [canonForm, hCanon, listNodes_listing hEnd hBuf]
  rfl

end

section
variable (leafKinds innerKinds : UInt8 → Prop)

/-- The type of an object, which is the first byte of its label. -/
def kind (label : Label) : UInt8 := label.get ⟨0, by decide⟩

/-- The labels of leaves and of inner nodes are of these kinds. -/
def Over (t : NodeT) : Prop :=
  ∀ p n, t.at? p = some n → (n.children = [] → leafKinds (kind n.label)) ∧
    (n.children ≠ [] → innerKinds (kind n.label))

/-- The form decides whether trees over these kinds differ in the order of children only. -/
def Canonical (sort : List (NodeT × Form) → List (NodeT × Form)) : Prop :=
  ∀ t t', Over leafKinds innerKinds t → Over leafKinds innerKinds t' →
    formLen t ≤ maxForm → formLen t' ≤ maxForm →
    ∃ form form', canonForm sort t = some form ∧ canonForm sort t' = some form' ∧
      (form = form' ↔ t.Iso t')

end

section
variable {sort : List (NodeT × Form) → List (NodeT × Form)} {leafKinds innerKinds : UInt8 → Prop}

theorem over_node {label : Label} {cs : List NodeT} : Over leafKinds innerKinds (.node label cs) ↔
    ((cs = [] → leafKinds (kind label)) ∧ (cs ≠ [] → innerKinds (kind label))) ∧
      ∀ c ∈ cs, Over leafKinds innerKinds c :=
  forall_at?_node

theorem head?_label (label : Label) : label.toList.head? = some (kind label) := by
  rw [List.head?_eq_getElem?, Vector.getElem?_toList]
  rfl

theorem Over.exists_leaf {t : NodeT} (h : Over leafKinds innerKinds t) : ∃ k, leafKinds k := by
  induction t using RoseTree.induction with
  | node label cs ih =>
    obtain ⟨hSelf, hBelow⟩ := over_node.mp h
    cases cs with
    | nil => exact ⟨_, hSelf.1 rfl⟩
    | cons c cs => exact ih c List.mem_cons_self (hBelow c List.mem_cons_self)

theorem Over.allLegible {t : NodeT} (h : Over leafKinds innerKinds t)
    (hApart : ∀ k, leafKinds k → ¬innerKinds k) (hLeaf : ¬leafKinds formSeparator)
    (hInner : ¬innerKinds formSeparator) : AllLegible (fun l => innerKinds (kind l)) t := by
  intro p n hn
  obtain ⟨hKindLeaf, hKindInner⟩ := h p n hn
  constructor
  · rw [head?_label]
    intro hEq
    rw [Option.some.inj hEq] at hKindLeaf hKindInner
    by_cases hNone : n.children = []
    · exact hLeaf (hKindLeaf hNone)
    · exact hInner (hKindInner hNone)
  · exact ⟨hKindInner, fun hKind hNone => hApart _ (hKindLeaf hNone) hKind⟩

theorem canonForm_leaf (hSort : Sorts sort) (label : Label) :
    canonForm sort (.node label []) = some (label.toList ++ [formSeparator, formEnd]) := by
  have hFits : formLen (.node label []) ≤ maxForm := by
    rw [formLen, weight_node]
    decide
  have hLeaf : Arranged (.node label []) := arranged_node.mpr ⟨.nil, List.forall_mem_nil _⟩
  have hEnd : (fun groups => nextGroups groups.flatten)^[1] [[.node label []]] = [] := rfl
  rw [canonForm_arranged hSort hFits hLeaf hEnd]
  simp [listing, levelBytes, RoseTree.label]

/-- Trees that are listed alike and are not the same. -/
structure Clash (leafKinds innerKinds : UInt8 → Prop) (t t' : NodeT) : Prop where
  kinds : Over leafKinds innerKinds t ∧ Over leafKinds innerKinds t'
  fits : formLen t ≤ maxForm ∧ formLen t' ≤ maxForm
  arranged : Arranged t ∧ Arranged t'
  ends : (fun groups => nextGroups groups.flatten)^[4] [[t]] = [] ∧
    (fun groups => nextGroups groups.flatten)^[4] [[t']] = []
  alike : listing 4 [[t]] = listing 4 [[t']]
  apart : ¬t.Iso t'

theorem Clash.not_canonical (hSort : Sorts sort) {t t' : NodeT}
    (h : Clash leafKinds innerKinds t t') : ¬Canonical leafKinds innerKinds sort := by
  intro hCanonical
  obtain ⟨form, form', hForm, hForm', hIff⟩ :=
    hCanonical t t' h.kinds.1 h.kinds.2 h.fits.1 h.fits.2
  rw [canonForm_arranged hSort h.fits.1 h.arranged.1 h.ends.1] at hForm
  rw [canonForm_arranged hSort h.fits.2 h.arranged.2 h.ends.2, ← h.alike] at hForm'
  exact h.apart (hIff.mp (Option.some.inj (hForm.symm.trans hForm')))

/-- A label of both kinds: the listing does not tell which node the last group belongs to. -/
theorem clash_shared (label : Label) (hLeaf : leafKinds (kind label))
    (hInner : innerKinds (kind label)) :
    Clash leafKinds innerKinds
      (.node label [.node label [.node label []],
        .node label [.node label [], .node label [], .node label [.node label []]]])
      (.node label [.node label [.node label [.node label []]],
        .node label [.node label [], .node label [], .node label []]]) where
  kinds := by simp [over_node, hLeaf, hInner]
  fits := by simp [formLen, weight_node, maxLabel, maxForm]
  arranged := by simp [arranged_node, weight_node, maxLabel]
  ends := ⟨rfl, rfl⟩
  alike := by simp [listing, levelBytes, nextGroups, RoseTree.children, RoseTree.label]
  apart := not_iso_of_size (by simp [RoseTree.children, size_node])

section
variable {before after : Label} (label : Label)
  (hBytes : before.toList ++ [formSeparator] = formSeparator :: after.toList)
include hBytes

theorem cut_bytes (rest : Form) :
    before.toList ++ formSeparator :: rest = formSeparator :: (after.toList ++ rest) := by
  rw [← List.singleton_append, ← List.append_assoc, hBytes, List.cons_append]

/-- Leaves that start with a separator: it may belong to the label before or after it. -/
theorem clash_leaf (hBefore : leafKinds (kind before)) (hAfter : leafKinds (kind after))
    (hInner : innerKinds (kind label)) :
    Clash leafKinds innerKinds
      (.node label [.node label [.node before [], .node before []],
        .node label [.node after [], .node after [], .node after []]])
      (.node label [.node label [.node before []],
        .node label [.node after [], .node after [], .node after [], .node after []]]) where
  kinds := by simp [over_node, hBefore, hAfter, hInner]
  fits := by simp [formLen, weight_node, maxLabel, maxForm]
  arranged := by simp [arranged_node, weight_node, maxLabel]
  ends := ⟨rfl, rfl⟩
  alike := by
    simp [listing, levelBytes, nextGroups, RoseTree.children, RoseTree.label, cut_bytes hBytes]
  apart := not_iso_of_size (by simp [RoseTree.children, size_node])

/-- The same for inner nodes. -/
theorem clash_inner (hBefore : innerKinds (kind before)) (hAfter : innerKinds (kind after))
    (hLeaf : leafKinds (kind label)) :
    Clash leafKinds innerKinds
      (.node before [.node before [.node label [], .node before [.node label []]],
        .node before [.node after [.node label [], .node label [], .node label []]]])
      (.node before [.node before [.node label []], .node before [.node after [.node label []],
        .node after [.node label [], .node label [], .node label []]]]) where
  kinds := by simp [over_node, hBefore, hAfter, hLeaf]
  fits := by simp [formLen, weight_node, maxLabel, maxForm]
  arranged := by simp [arranged_node, weight_node, maxLabel]
  ends := ⟨rfl, rfl⟩
  alike := by
    simp [listing, levelBytes, nextGroups, RoseTree.children, RoseTree.label, cut_bytes hBytes]
  apart := not_iso_of_size (by simp [RoseTree.children, size_node])

end

/-- The form is canonical for trees over given kinds of labels exactly when there are no inner
nodes, or no kind is both of leaves and of inner nodes and none is the separator. -/
theorem canonForm_eq_iff_iso (hSort : Sorts sort) (leafKinds innerKinds : UInt8 → Prop) :
    Canonical leafKinds innerKinds sort ↔ ((∃ k, leafKinds k) → (∃ k, innerKinds k) →
      (∀ k, leafKinds k → ¬innerKinds k) ∧ ¬leafKinds formSeparator ∧
        ¬innerKinds formSeparator) := by
  constructor
  · rintro hCanonical ⟨leaf, hLeaf⟩ ⟨inner, hInner⟩
    have hBytes : (#v[36, 36, 0, 0, 0] : Label).toList ++ [formSeparator] =
        formSeparator :: (#v[36, 0, 0, 0, 36] : Label).toList := rfl
    refine ⟨fun k hk hk' => ?_, fun hSep => ?_, fun hSep => ?_⟩
    · have hClash : Clash leafKinds innerKinds _ _ :=
        clash_shared #v[k, 0, 0, 0, 0] hk hk'
      exact hClash.not_canonical hSort hCanonical
    · have hClash : Clash leafKinds innerKinds _ _ :=
        clash_leaf #v[inner, 0, 0, 0, 0] hBytes hSep hSep hInner
      exact hClash.not_canonical hSort hCanonical
    · have hClash : Clash leafKinds innerKinds _ _ :=
        clash_inner #v[leaf, 0, 0, 0, 0] hBytes hSep hSep hLeaf
      exact hClash.not_canonical hSort hCanonical
  · intro h t t' hOver hOver' hFits hFits'
    by_cases hSome : ∃ k, innerKinds k
    · obtain ⟨hApart, hLeaf, hInner⟩ := h hOver.exists_leaf hSome
      exact canonForm_of_legible hSort hFits hFits' (hOver.allLegible hApart hLeaf hInner)
        (hOver'.allLegible hApart hLeaf hInner)
    · obtain ⟨label, cs⟩ := t
      obtain ⟨label', cs'⟩ := t'
      obtain rfl : cs = [] := by
        by_contra hNone
        exact hSome ⟨_, (over_node.mp hOver).1.2 hNone⟩
      obtain rfl : cs' = [] := by
        by_contra hNone
        exact hSome ⟨_, (over_node.mp hOver').1.2 hNone⟩
      refine ⟨_, _, canonForm_leaf hSort label, canonForm_leaf hSort label', ?_⟩
      rw [List.append_cancel_right_eq, Vector.toList_inj, iso_node]
      constructor
      · rintro rfl
        exact ⟨rfl, [], .nil, .nil⟩
      · exact fun h => h.1

end

def sortForms (forms : List (NodeT × Form)) : List (NodeT × Form) :=
  forms.insertionSort fun a b => ltnode b a = false

theorem ltnode_eq_false {a b : NodeT × Form} : ltnode b a = false ↔
    a.2.length ≤ b.2.length ∧ (a.2.length = b.2.length → a.2 ≤ b.2) := by
  simp only [ltnode, Bool.or_eq_false_iff, Bool.and_eq_false_iff, decide_eq_false_iff_not,
    beq_eq_false_iff_ne, not_lt]
  exact and_congr_right' ⟨fun h hEq => h.resolve_left (not_not.mpr hEq.symm), fun h =>
    or_iff_not_imp_left.mpr fun hEq => h (not_not.mp hEq).symm⟩

theorem sorts_sortForms : Sorts sortForms := by
  intro forms
  have hTotal : Std.Total fun a b : NodeT × Form => ltnode b a = false := by
    refine ⟨fun a b => ?_⟩
    simp only [ltnode_eq_false]
    rcases lt_trichotomy a.2.length b.2.length with hLt | hEq | hGt
    · exact .inl ⟨hLt.le, fun hEq => absurd hEq hLt.ne⟩
    · rcases List.le_total a.2 b.2 with hLe | hLe
      · exact .inl ⟨hEq.le, fun _ => hLe⟩
      · exact .inr ⟨hEq.ge, fun _ => hLe⟩
    · exact .inr ⟨hGt.le, fun hEq => absurd hEq hGt.ne⟩
  have hTrans : IsTrans (NodeT × Form) fun a b => ltnode b a = false := by
    refine ⟨fun a b c hab hbc => ?_⟩
    rw [ltnode_eq_false] at hab hbc ⊢
    refine ⟨hab.1.trans hbc.1, fun hEq => ?_⟩
    exact List.le_trans (hab.2 (by omega)) (hbc.2 (by omega))
  exact ⟨List.perm_insertionSort _ forms, List.pairwise_insertionSort _ forms⟩

def dirLabel : Label := #v[100, 0, 0, 0, 0]

/-- Directories only: the listing does not tell which directory the last group belongs to. -/
theorem canonForm_eq_of_not_iso :
    let leaf : NodeT := .node dirLabel []
    let chain : NodeT := .node dirLabel [leaf]
    let t : NodeT := .node dirLabel [chain, .node dirLabel [leaf, leaf, chain]]
    let t' : NodeT := .node dirLabel [.node dirLabel [chain], .node dirLabel [leaf, leaf, leaf]]
    canonForm sortForms t = canonForm sortForms t' ∧ (canonForm sortForms t).isSome ∧
      ¬ t.Iso t' := by
  exact ⟨by decide +kernel, by decide +kernel, not_iso_of_size (by decide)⟩

/-- Directories and files with bytes of their own. -/
theorem canonForm_eq_iff_iso_sample :
    Canonical (· = 102) (· = 100) sortForms ∧ ¬Canonical (· = 100) (· = 100) sortForms := by
  rw [canonForm_eq_iff_iso sorts_sortForms, canonForm_eq_iff_iso sorts_sortForms]
  refine ⟨fun _ _ => by simp [formSeparator], fun h => ?_⟩
  exact (h ⟨100, rfl⟩ ⟨100, rfl⟩).1 100 rfl rfl

end Explode.Driver
