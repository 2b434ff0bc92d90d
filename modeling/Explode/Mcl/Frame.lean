import Explode.Mcl.SetState

/-!
# What every step keeps

The log only grows, and the table of visited states only changes when a state is
entered into it. So a property of the two that a logged callback and a visit
keep is kept by every step.
-/

namespace Explode.Mcl

open Machine ModelChecker

variable {St Sig Data : Type*} [DecidableEq Sig]

structure Growing (Data : Type*) (P : List (Event St) → List (Sig × Nat) → Prop) : Prop where
  logged : ∀ log visited ev, P log visited → P (log ++ [ev]) visited
  visits : ∀ (mc : ModelChecker St Sig Data) sig id, P mc.log mc.visited →
    P mc.log (mc.visit sig id)

section
variable {P : List (Event St) → List (Sig × Nat) → Prop} (hP : Growing Data P)
  (h : TestHarness St Sig Data) (opt : Options) {mc : ModelChecker St Sig Data}
  (hSelf : P mc.log mc.visited)
include hP hSelf

theorem Growing.getState (parent : State St Sig) (ev : Event St) :
    P (mc.getState h opt parent ev).2.log (mc.getState h opt parent ev).2.visited := by
  rcases getState_cases h opt mc parent ev with ⟨_, _, hGet⟩ | ⟨_, s, m, hGet, hBorn⟩
  · rw [hGet]
    exact hSelf
  · have hLog : m.log = mc.log := by rw [hBorn.same]
    rw [hGet, hLog, hBorn.visited]
    exact hP.visits mc _ _ hSelf

theorem Growing.ends_process (ev : Event St) :
    Ends (fun m => P m.log m.visited) (fun m => P m.log m.visited) True
      (mc.processTestReturn h opt ev) := by
  unfold processTestReturn
  split
  · trivial
  · rename_i s _ _
    unfold checkReturn
    split
    · split
      · trivial
      · simp only
        split <;> exact hSelf
    · exact hSelf
    · exact hSelf
    · split
      · have hGet := hP.getState h opt hSelf s ev
        split
        · rename_i hEq
          rw [hEq] at hGet
          exact hGet
        · rename_i hEq
          rw [hEq] at hGet
          split <;> exact hGet
      · exact hSelf
  · unfold regenReturn
    split
    · split
      · trivial
      · exact hSelf
    · trivial
  · unfold replayReturn
    split
    · trivial
    · exact hSelf
    · exact hSelf
    · split
      · split
        · trivial
        · exact hP.getState h opt hSelf _ ev
      · exact hSelf

theorem Growing.ends_runTest (callback : Callback) :
    Ends (fun r => P r.2.log r.2.visited) (fun m => P m.log m.visited) True
      (mc.runTest h opt callback) := by
  cases hCall : mc.call h callback with
  | none =>
    rw [runTest, hCall]
    trivial
  | some r =>
    obtain ⟨ev, next⟩ := r
    have hNext : next.log = mc.log ++ [ev] ∧ next.visited = mc.visited := by
      cases callback with
      | runOneTransition =>
        obtain ⟨r, _, hEq⟩ := Option.map_eq_some_iff.mp hCall
        cases hEq
        exact ⟨rfl, rfl⟩
      | _ =>
        cases hCall
        exact ⟨rfl, rfl⟩
    have hCalled : P next.log next.visited := by
      rw [hNext.1, hNext.2]
      exact hP.logged _ _ _ hSelf
    rw [runTest_eq h opt mc hCall]
    exact (hP.ends_process h opt hCalled ev).map fun _ hm => hm

theorem Growing.ends_runNewTransition :
    Ends (fun m => P m.log m.visited) (fun m => P m.log m.visited) True
      (mc.runNewTransition h opt) := by
  refine Ends.bind (hP.ends_runTest h opt hSelf _) fun r hr => ?_
  split
  · refine Ends.bind (hP.ends_runTest h opt hr _) fun r hr => ?_
    split
    · exact (hP.ends_runTest h opt hr _).map fun _ hm => hm
    · exact hr
  · exact hr

theorem Growing.ends_restoreCkpt (s : State St Sig) :
    Ends (fun m => P m.log m.visited) (fun m => P m.log m.visited) True
      (mc.restoreCkpt h opt s) := by
  unfold restoreCkpt
  split
  · trivial
  · rename_i ckpt _
    have hNext : P (mc.regenerating (h.restore ckpt.data mc.test)).log
        (mc.regenerating (h.restore ckpt.data mc.test)).visited := hSelf
    exact (hP.ends_runTest h opt hNext _).map fun _ hm => hm

theorem Growing.ends_body :
    Ends (fun m => P m.log m.visited) (fun m => P m.log m.visited) True (mc.body h opt) := by
  unfold body
  split
  · split
    · exact hSelf
    · exact hSelf
  · refine (hP.ends_restoreCkpt h opt hSelf _).map fun m hm => ?_
    split
    · exact hm
    · exact hm
  · trivial
  · refine Ends.bind (hP.ends_runTest h opt hSelf _) fun r hr => ?_
    split
    · trivial
    · exact hr
    · exact hr
  · have hNew : P mc.newRound.log mc.newRound.visited := hSelf
    refine Ends.bind (hP.ends_runNewTransition h opt hNew) fun m hm => ?_
    refine Ends.bind (hP.ends_runTest h opt hm _) fun r hr => ?_
    split
    · trivial
    · exact hr
    · exact hr
  · refine Ends.bind (hP.ends_runTest h opt hSelf _) fun r hr => ?_
    split
    · trivial
    · exact hr
    · exact hr
  · unfold stepNewTrace
    split
    · exact hSelf
    · have hLoaded : P mc.loadNewTrace.log mc.loadNewTrace.visited := hSelf
      exact (hP.ends_runNewTransition h opt hLoaded).map fun _ hm => hm
  · exact (hP.ends_runTest h opt hSelf _).map fun _ hm => hm
  · exact hSelf
  · exact hSelf

end

variable {h : TestHarness St Sig Data} {opt : Options} {mc mc' : ModelChecker St Sig Data}

theorem Growing.step {P : List (Event St) → List (Sig × Nat) → Prop} (hP : Growing Data P)
    (hSelf : P mc.log mc.visited) (hStep : mc.step h opt = some mc') : P mc'.log mc'.visited := by
  have hEnds := hP.ends_body h opt hSelf
  rcases step_eq_some hStep with hOk | ⟨m, hExit, rfl⟩
  · rwa [hOk] at hEnds
  · rwa [hExit] at hEnds

theorem log_prefix_of_step (hStep : mc.step h opt = some mc') : mc.log <+: mc'.log := by
  have hGrowing : Growing Data fun log (_ : List (Sig × Nat)) => mc.log <+: log :=
    ⟨fun _ _ _ hLog => hLog.trans (List.prefix_append _ _), fun _ _ _ hLog => hLog⟩
  exact hGrowing.step (List.prefix_refl _) hStep

theorem visited_nodup_of_step (hStep : mc.step h opt = some mc')
    (hNodup : (mc.visited.map Prod.fst).Nodup) : (mc'.visited.map Prod.fst).Nodup := by
  have hGrowing : Growing Data fun (_ : List (Event St)) (visited : List (Sig × Nat)) =>
      (visited.map Prod.fst).Nodup := by
    refine ⟨fun _ _ _ hNodup => hNodup, fun m sig id hNodup => ?_⟩
    by_cases hSeen : m.seen sig
    · rwa [map_fst_visit hSeen]
    · rw [visit_eq_of_not_seen hSeen, List.map_append]
      refine List.nodup_append.mpr ⟨hNodup, by simp, ?_⟩
      rintro sig' hSig _ hLast rfl
      obtain rfl : sig' = sig := by simpa using hLast
      exact hSeen ((seen_iff _).mpr hSig)
  exact hGrowing.step hNodup hStep

theorem visited_nodup_of_reaches (hReach : Reaches (step h opt) (modelCheck h opt) mc) :
    (mc.visited.map Prod.fst).Nodup := by
  obtain ⟨n, hRun⟩ := hReach
  have hStep : ∀ a b : ModelChecker St Sig Data, (a.visited.map Prod.fst).Nodup →
      step h opt a = some b → True → (b.visited.map Prod.fst).Nodup := fun _ _ ha hab _ =>
    visited_nodup_of_step hab ha
  refine steps_invariant hStep ?_ n (fun _ _ _ _ _ _ => trivial) hRun
  rw [modelCheck_visited]
  simp

end Explode.Mcl
