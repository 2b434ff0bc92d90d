import Explode.Ekm.Choice
import Explode.Mcl.Random

/-!
# Failing kernel choice points

Before a system call the simulator chooses how many choice points of the kernel
to pass before one fails. After the call it reads back what is left.
-/

namespace Explode.Crash

open Ekm Mcl

structure KernelOptions where
  maxKernelChoicepoints : Nat
  extraKernelFailures : Int
  deriving DecidableEq, Repr

structure ChooseSim where
  shouldFail : Bool
  debugChoice : Bool
  threads : List Int
  kernelFailures : Nat
  deriving DecidableEq, Repr

def maxPids : Nat := 16

/-- `pre_choose`, with what it passes to `ekm_set_choice`. -/
def preChoose (opt : KernelOptions) (pid : Int) (cp : UInt32) (sim : ChooseSim) (g : Random) :
    Option (ChooseSim × Option EkmChoice × Random) :=
  (g.random 2).bind fun r =>
    if r.1 = 0 then some ({ sim with shouldFail := false }, none, r.2)
    else if sim.debugChoice then none
    else (r.2.random opt.maxKernelChoicepoints).bind fun k =>
      if sim.threads.length < maxPids then
        some ({ sim with shouldFail := true, debugChoice := true },
          some ⟨k.1, 1, opt.extraKernelFailures, cp, pid :: sim.threads, 0⟩, k.2)
      else none

/-- `post_choose`. The answer says whether it calls `xe_random_skip_rest`. -/
def postChoose (sim : ChooseSim) (fail : EkmChoice) : Option (Bool × ChooseSim × EkmChoice) :=
  if !sim.shouldFail then some (false, sim, fail)
  else if !sim.debugChoice then none
  else
    let sim := { sim with debugChoice := false }
    let choice := getChoice fail
    if 0 ≤ choice.1.passCount then some (true, sim, choice.2)
    else some (false, { sim with kernelFailures := sim.kernelFailures + 1 }, choice.2)

def Injected (sc : EkmChoice) (calls : List ChooseCall) : Prop :=
  ∃ before call rest, calls = before ++ call :: rest ∧
    (modFilterChoose (after (setChoice sc) before) call).1 ≠ 0

/-- The calls of a system call that makes the planned ones up to the first failure, and any calls
after it. -/
def IsSyscall (plan : List ChooseCall) (sc : EkmChoice) (calls : List ChooseCall) : Prop :=
  (¬Injected sc calls ∧ calls = plan) ∨
    ∃ before call rest rest', ¬Injected sc before ∧
      (modFilterChoose (after (setChoice sc) before) call).1 ≠ 0 ∧
      plan = before ++ call :: rest ∧ calls = before ++ call :: rest'

/-- What the answer of `post_choose` should mean after the calls of a system call. -/
def PrunesSoundly (plan : List ChooseCall) (sc : EkmChoice) (calls : List ChooseCall)
    (skips : Bool) : Prop :=
  (skips = true → ¬Injected sc calls ∧ ∀ k, sc.passCount < k → ∀ calls',
    IsSyscall plan { sc with passCount := k } calls' →
      ¬Injected { sc with passCount := k } calls') ∧
  (skips = false → Injected sc calls)

def UsesUpFailures (sc : EkmChoice) (calls : List ChooseCall) : Prop :=
  ∀ before first rest, calls = before ++ first :: rest → IsFirst sc before first →
    0 ≤ sc.extraFailures ∧ sc.extraFailures ≤ same sc.pid first.cp rest

section
variable {sc : EkmChoice} {plan calls : List ChooseCall}

theorem injected_iff (hPass : 0 ≤ sc.passCount) (hPossible : sc.possibility ≠ 0) :
    Injected sc calls ↔ ∃ before first rest, calls = before ++ first :: rest ∧
      IsFirst sc before first := by
  constructor
  · rintro ⟨before, call, rest, rfl, hFails⟩
    rcases (choose_after_iff hPass hPossible before call).mp hFails with
      hFirst | ⟨before', first, rest', rfl, hFirst, _⟩
    · exact ⟨before, call, rest, rfl, hFirst⟩
    · exact ⟨before', first, rest' ++ call :: rest, by simp, hFirst⟩
  · rintro ⟨before, first, rest, rfl, hFirst⟩
    exact ⟨before, first, rest, rfl, (choose_after_iff hPass hPossible _ _).mpr (.inl hFirst)⟩

theorem not_injected_iff (hPass : 0 ≤ sc.passCount) (hPossible : sc.possibility ≠ 0) :
    ¬Injected sc calls ↔ (Ekm.matching sc.pid sc.choice calls : Int) ≤ sc.passCount := by
  rw [injected_iff hPass hPossible]
  constructor
  · intro hNone
    cases (phase_after hPass calls).1 with
    | passing hCount => exact hCount
    | failing hCalls hFirst => exact absurd ⟨_, _, _, hCalls, hFirst⟩ hNone
    | done hCalls hFirst => exact absurd ⟨_, _, _, hCalls, hFirst⟩ hNone
  · rintro hCount ⟨before, first, rest, rfl, hFirst⟩
    have := hFirst.lt_matching rest
    omega

theorem IsSyscall.eq_plan (h : IsSyscall plan sc calls) (hNone : ¬Injected sc calls) :
    calls = plan := by
  rcases h with ⟨_, hEq⟩ | ⟨before, call, rest, rest', _, hFails, _, hCalls⟩
  · exact hEq
  · exact absurd ⟨before, call, rest', hCalls, hFails⟩ hNone

theorem IsSyscall.injected_plan (h : IsSyscall plan sc calls) (hFails : Injected sc calls) :
    Injected sc plan := by
  rcases h with ⟨hNone, _⟩ | ⟨before, call, rest, _, _, hCall, hPlan, _⟩
  · exact absurd hFails hNone
  · exact ⟨before, call, rest, hPlan, hCall⟩

theorem IsSyscall.not_injected_larger (h : IsSyscall plan sc calls) (hPass : 0 ≤ sc.passCount)
    (hPossible : sc.possibility ≠ 0) (hNone : ¬Injected sc calls) {k : Int} (hLt : sc.passCount < k)
    {calls' : List ChooseCall} (h' : IsSyscall plan { sc with passCount := k } calls') :
    ¬Injected { sc with passCount := k } calls' := by
  intro hFails
  have hPlan := h'.injected_plan hFails
  rw [h.eq_plan hNone, not_injected_iff hPass hPossible] at hNone
  have hLarger : 0 ≤ ({ sc with passCount := k } : EkmChoice).passCount := by
    simp only
    omega
  refine (not_injected_iff hLarger hPossible).mpr ?_ hPlan
  simp only
  omega

theorem preChoose_some {opt : KernelOptions} {pid : Int} {cp : UInt32} {sim sim' : ChooseSim}
    {g g' : Random} (hPre : preChoose opt pid cp sim g = some (sim', some sc, g')) :
    sim'.shouldFail = true ∧ sim'.debugChoice = true ∧ 0 ≤ sc.passCount ∧ sc.possibility = 1 := by
  obtain ⟨r, _, hRest⟩ := Option.bind_eq_some_iff.mp hPre
  split at hRest
  · cases hRest
  · split at hRest
    · cases hRest
    · obtain ⟨k, _, hSet⟩ := Option.bind_eq_some_iff.mp hRest
      split at hSet
      · cases hSet
        exact ⟨rfl, rfl, Int.natCast_nonneg _, rfl⟩
      · cases hSet

theorem postChoose_eq {sim : ChooseSim} (fail : EkmChoice) (hFail : sim.shouldFail = true)
    (hDebug : sim.debugChoice = true) : ∃ sim' fail', postChoose sim fail =
      some (decide (0 ≤ fail.passCount), sim', fail') := by
  have hOn : (!sim.shouldFail) = false := by rw [hFail, Bool.not_true]
  have hSet : (!sim.debugChoice) = false := by rw [hDebug, Bool.not_true]
  have hRead : (getChoice fail).1 = fail := rfl
  simp only [postChoose, hOn, hSet, Bool.false_eq_true, if_false]
  rw [hRead]
  by_cases hPass : 0 ≤ fail.passCount
  · rw [if_pos hPass, decide_eq_true hPass]
    exact ⟨_, _, rfl⟩
  · rw [if_neg hPass, decide_eq_false hPass]
    exact ⟨_, _, rfl⟩

theorem prunesSoundly_iff_usesUp (hRun : IsSyscall plan sc calls) (hPass : 0 ≤ sc.passCount)
    (hPossible : sc.possibility ≠ 0) :
    PrunesSoundly plan sc calls (decide (0 ≤ (after (setChoice sc) calls).passCount)) ↔
      UsesUpFailures sc calls := by
  have hLeft : ∀ cp rest, ¬FailuresLeft sc cp rest ↔
      0 ≤ sc.extraFailures ∧ sc.extraFailures ≤ same sc.pid cp rest := by
    intro cp rest
    rw [FailuresLeft]
    omega
  cases (phase_after hPass calls).1 with
  | passing hCount hPass' =>
    have hSkips : decide (0 ≤ (after (setChoice sc) calls).passCount) = true :=
      decide_eq_true (by omega)
    have hNone := (not_injected_iff hPass hPossible).mpr hCount
    rw [hSkips]
    refine iff_of_true ⟨fun _ => ⟨hNone, fun k hLt calls' h' => ?_⟩,
      fun h => absurd h.symm Bool.false_ne_true⟩ ?_
    · exact hRun.not_injected_larger hPass hPossible hNone hLt h'
    · intro before first rest hCalls hFirst
      exact absurd ((injected_iff hPass hPossible).mpr ⟨_, _, _, hCalls, hFirst⟩) hNone
  | failing hCalls hFirst hMore hPass' =>
    have hSkips : decide (0 ≤ (after (setChoice sc) calls).passCount) = true :=
      decide_eq_true (by omega)
    have hFails := (injected_iff hPass hPossible).mpr ⟨_, _, _, hCalls, hFirst⟩
    rw [hSkips]
    refine iff_of_false (fun h => (h.1 rfl).1 hFails) fun h => ?_
    exact (hLeft _ _).mpr (h _ _ _ hCalls hFirst) hMore
  | done hCalls hFirst hNone hPass' =>
    have hSkips : decide (0 ≤ (after (setChoice sc) calls).passCount) = false :=
      decide_eq_false (by omega)
    have hFails := (injected_iff hPass hPossible).mpr ⟨_, _, _, hCalls, hFirst⟩
    rw [hSkips]
    refine iff_of_true ⟨fun h => absurd h Bool.false_ne_true, fun _ => hFails⟩ ?_
    intro before first rest hCalls' hFirst'
    obtain ⟨rfl, rfl⟩ := hFirst.unique hFirst' (hCalls.symm.trans hCalls')
    exact (hLeft _ _).mp hNone

end

/-- After any system call, `post_choose` draws the right conclusion if and only if a first failure
is followed by all the further ones requested. -/
theorem postChoose_sound_iff (opt : KernelOptions) (pid : Int) (cp : UInt32) (sim : ChooseSim)
    (g : Random) (sim' : ChooseSim) (sc : EkmChoice) (g' : Random)
    (hPre : preChoose opt pid cp sim g = some (sim', some sc, g')) (plan calls : List ChooseCall)
    (hRun : IsSyscall plan sc calls) :
    ∃ skips sim'' fail, postChoose sim' (after (setChoice sc) calls) = some (skips, sim'', fail) ∧
      (PrunesSoundly plan sc calls skips ↔ UsesUpFailures sc calls) := by
  obtain ⟨hFail, hDebug, hPass, hOne⟩ := preChoose_some hPre
  obtain ⟨sim'', fail, hPost⟩ := postChoose_eq (after (setChoice sc) calls) hFail hDebug
  refine ⟨_, sim'', fail, hPost, prunesSoundly_iff_usesUp hRun hPass ?_⟩
  rw [hOne]
  exact Int.one_ne_zero

def sampleSim : ChooseSim := ⟨false, false, [], 0⟩

def failFirst : Random := .replay (.load [1, 0])

def oneAllocation : List ChooseCall := [sampleCall .kmalloc]

def firstChoice (extra : Int) : EkmChoice := ⟨0, 1, extra, 0, [7], 0⟩

theorem preChoose_sample (extra : Int) :
    ∃ sim' g', preChoose ⟨255, extra⟩ 7 0 sampleSim failFirst =
      some (sim', some (firstChoice extra), g') := ⟨_, _, rfl⟩

theorem isSyscall_sample {extra : Int}
    (hFails : (modFilterChoose (setChoice (firstChoice extra)) (sampleCall .kmalloc)).1 ≠ 0) :
    IsSyscall oneAllocation (firstChoice extra) oneAllocation := by
  refine .inr ⟨[], sampleCall .kmalloc, [], [], ?_, hFails, rfl, rfl⟩
  rintro ⟨before, call, rest, hEq, _⟩
  simp at hEq

theorem postChoose_sound_iff_sample :
    ∃ sim' g', preChoose ⟨255, 0⟩ 7 0 sampleSim failFirst = some (sim', some (firstChoice 0), g') ∧
      ∃ skips sim'' fail, postChoose sim' (after (setChoice (firstChoice 0)) oneAllocation) =
          some (skips, sim'', fail) ∧
        PrunesSoundly oneAllocation (firstChoice 0) oneAllocation skips := by
  obtain ⟨sim', g', hPre⟩ := preChoose_sample 0
  obtain ⟨skips, sim'', fail, hPost, hIff⟩ := postChoose_sound_iff ⟨255, 0⟩ 7 0 sampleSim failFirst
    sim' (firstChoice 0) g' hPre oneAllocation oneAllocation (isSyscall_sample (by decide))
  refine ⟨sim', g', hPre, skips, sim'', fail, hPost, hIff.mpr ?_⟩
  intro before first rest _ _
  exact ⟨by decide, Int.natCast_nonneg _⟩

/-- With one further failure requested, the allocation fails and the rest is skipped as if nothing
had failed. -/
theorem postChoose_skips_failed :
    ∃ sim' g' sim'' fail,
      preChoose ⟨255, 1⟩ 7 0 sampleSim failFirst = some (sim', some (firstChoice 1), g') ∧
      IsSyscall oneAllocation (firstChoice 1) oneAllocation ∧
      postChoose sim' (after (setChoice (firstChoice 1)) oneAllocation) = some (true, sim'', fail) ∧
      Injected (firstChoice 1) oneAllocation := by
  obtain ⟨sim', g', hPre⟩ := preChoose_sample 1
  have hFails : (modFilterChoose (setChoice (firstChoice 1)) (sampleCall .kmalloc)).1 ≠ 0 := by
    decide
  obtain ⟨hFail, hDebug, _⟩ := preChoose_some hPre
  obtain ⟨sim'', fail, hPost⟩ := postChoose_eq
    (after (setChoice (firstChoice 1)) oneAllocation) hFail hDebug
  exact ⟨sim', g', sim'', fail, hPre, isSyscall_sample hFails, hPost,
    [], sampleCall .kmalloc, [], rfl, hFails⟩

end Explode.Crash
