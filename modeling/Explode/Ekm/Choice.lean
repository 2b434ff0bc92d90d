import Mathlib.Data.List.Count
import Mathlib.Data.List.Induction
import Mathlib.Algebra.Order.Group.Int

/-!
# Choice points in the kernel

The kernel asks the module at its choice points whether to fail. A failure is
requested by the number of calls to pass, a mask of choice points and a number
of further failures of the choice point that failed first.
-/

namespace Explode.Ekm

inductive ChoicePoint
  | kmalloc
  | usercopy
  | bread
  | schedule
  | cacheRead
  | diskRead
  | diskWrite
  deriving DecidableEq, Repr

def ChoicePoint.bit : ChoicePoint → UInt32
  | kmalloc => 1
  | usercopy => 2
  | bread => 4
  | schedule => 8
  | cacheRead => 16
  | diskRead => 32
  | diskWrite => 64

structure EkmChoice where
  passCount : Int
  possibility : Int
  extraFailures : Int
  choice : UInt32
  pid : List Int
  pidMatches : UInt32
  deriving DecidableEq, Repr

def setChoice (sc : EkmChoice) : EkmChoice := { sc with pidMatches := 0 }

def getChoice (fail : EkmChoice) : EkmChoice × EkmChoice := (fail, { fail with passCount := -1 })

/-- A call of `ekm_mod_filter_choose`. A filter reads nothing of the choice but its pids. -/
structure ChooseCall where
  cp : ChoicePoint
  nPossibilities : Int
  inInterrupt : Bool
  enabled : Bool
  filter : List Int → Bool

def pidMatch (pid : Int) (pids : List Int) : Bool := (pids.takeWhile (· ≠ 0)).contains pid

def modFilterChoose (fail : EkmChoice) (call : ChooseCall) : Int × EkmChoice :=
  if call.inInterrupt || !call.filter fail.pid || !call.enabled then (0, fail)
  else
    let fail := { fail with pidMatches := fail.pidMatches + 1 }
    if fail.passCount < 0 then (0, fail)
    else if fail.choice ≠ 0 ∧ fail.choice &&& call.cp.bit = 0 then (0, fail)
    else if 0 < fail.passCount then (0, { fail with passCount := fail.passCount - 1 })
    else
      let fail :=
        if fail.extraFailures = 0 then { fail with passCount := -1 }
        else { fail with choice := call.cp.bit, extraFailures := fail.extraFailures - 1 }
      let fail :=
        if call.nPossibilities ≤ fail.possibility then { fail with possibility := 1 } else fail
      (fail.possibility, fail)

def after (fail : EkmChoice) (calls : List ChooseCall) : EkmChoice :=
  calls.foldl (fun fail call => (modFilterChoose fail call).2) fail

def ChooseCall.counts (pids : List Int) (call : ChooseCall) : Bool :=
  !call.inInterrupt && call.filter pids && call.enabled

def hits (mask : UInt32) (cp : ChoicePoint) : Bool := mask = 0 || mask &&& cp.bit ≠ 0

section
variable (pids : List Int)

def matching (mask : UInt32) (calls : List ChooseCall) : Nat :=
  calls.countP fun call => call.counts pids && hits mask call.cp

def same (cp : ChoicePoint) (calls : List ChooseCall) : Nat :=
  calls.countP fun call => call.counts pids && call.cp = cp

end

structure IsFirst (sc : EkmChoice) (before : List ChooseCall) (first : ChooseCall) : Prop where
  counts : first.counts sc.pid = true
  hits : hits sc.choice first.cp = true
  passed : matching sc.pid sc.choice before = sc.passCount

/-- Fewer failures than requested have followed the first one. A negative number has no end. -/
def FailuresLeft (sc : EkmChoice) (cp : ChoicePoint) (rest : List ChooseCall) : Prop :=
  sc.extraFailures < 0 ∨ (same sc.pid cp rest : Int) < sc.extraFailures

def ShouldFail (sc : EkmChoice) (calls : List ChooseCall) (call : ChooseCall) : Prop :=
  IsFirst sc calls call ∨ ∃ before first rest, calls = before ++ first :: rest ∧
    IsFirst sc before first ∧ call.counts sc.pid = true ∧ call.cp = first.cp ∧
    FailuresLeft sc first.cp rest

theorem hits_bit (cp cp' : ChoicePoint) : hits cp.bit cp' = true ↔ cp' = cp := by
  cases cp <;> cases cp' <;> decide

section
variable {fail sc : EkmChoice} {call : ChooseCall} {calls : List ChooseCall}

theorem not_counts (pids : List Int) :
    (call.inInterrupt || !call.filter pids || !call.enabled) = !call.counts pids := by
  simp [ChooseCall.counts]

theorem counts_eq_false (h : call.counts fail.pid = false) :
    modFilterChoose fail call = (0, fail) := by
  rw [modFilterChoose, not_counts, h]
  rfl

theorem modFilterChoose_counts (h : call.counts fail.pid = true) : modFilterChoose fail call =
    let fail := { fail with pidMatches := fail.pidMatches + 1 }
    if fail.passCount < 0 ∨ hits fail.choice call.cp = false then (0, fail)
    else if 0 < fail.passCount then (0, { fail with passCount := fail.passCount - 1 })
    else
      let fail :=
        if fail.extraFailures = 0 then { fail with passCount := -1 }
        else { fail with choice := call.cp.bit, extraFailures := fail.extraFailures - 1 }
      let fail :=
        if call.nPossibilities ≤ fail.possibility then { fail with possibility := 1 } else fail
      (fail.possibility, fail) := by
  have hHits : (fail.choice ≠ 0 ∧ fail.choice &&& call.cp.bit = 0) ↔
      hits fail.choice call.cp = false := by
    simp [hits]
  simp only [modFilterChoose, not_counts, h, Bool.not_true, Bool.false_eq_true, if_false, hHits]
  by_cases hOff : fail.passCount < 0
  · rw [if_pos hOff, if_pos (.inl hOff)]
  · rw [if_neg hOff]
    simp only [hOff, false_or]

theorem choose_idle (h : call.counts fail.pid = true)
    (hIdle : fail.passCount < 0 ∨ hits fail.choice call.cp = false) :
    modFilterChoose fail call = (0, { fail with pidMatches := fail.pidMatches + 1 }) := by
  rw [modFilterChoose_counts h]
  exact if_pos hIdle

theorem choose_pass (h : call.counts fail.pid = true) (hHits : hits fail.choice call.cp = true)
    (hPass : 0 < fail.passCount) : modFilterChoose fail call =
      (0, { fail with passCount := fail.passCount - 1, pidMatches := fail.pidMatches + 1 }) := by
  have hOn : ¬(fail.passCount < 0 ∨ hits fail.choice call.cp = false) := by
    rw [hHits]
    simp only [Bool.true_eq_false, or_false]
    omega
  simp only [modFilterChoose_counts h, if_neg hOn, if_pos hPass]

theorem choose_fail (h : call.counts fail.pid = true) (hHits : hits fail.choice call.cp = true)
    (hPass : fail.passCount = 0) :
    ∃ v, modFilterChoose fail call = (v,
        { fail with
          possibility := v
          passCount := if fail.extraFailures = 0 then -1 else 0
          choice := if fail.extraFailures = 0 then fail.choice else call.cp.bit
          extraFailures := if fail.extraFailures = 0 then 0 else fail.extraFailures - 1
          pidMatches := fail.pidMatches + 1 }) ∧
      (v = 1 ∨ v = fail.possibility) := by
  have hOn : ¬(fail.passCount < 0 ∨ hits fail.choice call.cp = false) := by
    rw [hHits]
    simp only [Bool.true_eq_false, or_false]
    omega
  have hNone : ¬0 < fail.passCount := by omega
  simp only [modFilterChoose_counts h, if_neg hOn, if_neg hNone]
  by_cases hExtra : fail.extraFailures = 0
  · simp only [if_pos hExtra]
    split
    · exact ⟨1, by rw [hExtra], .inl rfl⟩
    · exact ⟨fail.possibility, by rw [hExtra], .inr rfl⟩
  · simp only [if_neg hExtra]
    split
    · exact ⟨1, by rw [hPass], .inl rfl⟩
    · exact ⟨fail.possibility, by rw [hPass], .inr rfl⟩

inductive Phase (sc : EkmChoice) (calls : List ChooseCall) (fail : EkmChoice) : Prop
  | passing (hCount : (matching sc.pid sc.choice calls : Int) ≤ sc.passCount)
      (hPass : fail.passCount = sc.passCount - matching sc.pid sc.choice calls)
      (hChoice : fail.choice = sc.choice) (hExtra : fail.extraFailures = sc.extraFailures)
  | failing {before rest : List ChooseCall} {first : ChooseCall}
      (hCalls : calls = before ++ first :: rest) (hFirst : IsFirst sc before first)
      (hLeft : FailuresLeft sc first.cp rest) (hPass : fail.passCount = 0)
      (hChoice : fail.choice = first.cp.bit)
      (hExtra : fail.extraFailures = sc.extraFailures - 1 - same sc.pid first.cp rest)
  | done {before rest : List ChooseCall} {first : ChooseCall}
      (hCalls : calls = before ++ first :: rest) (hFirst : IsFirst sc before first)
      (hNone : ¬FailuresLeft sc first.cp rest) (hPass : fail.passCount = -1)

theorem matching_concat (pids : List Int) (mask : UInt32) (calls : List ChooseCall)
    (call : ChooseCall) : matching pids mask (calls ++ [call]) =
      matching pids mask calls + if call.counts pids && hits mask call.cp then 1 else 0 := by
  rw [matching, List.countP_append, List.countP_singleton]
  rfl

theorem same_concat (pids : List Int) (cp : ChoicePoint) (calls : List ChooseCall)
    (call : ChooseCall) : same pids cp (calls ++ [call]) =
      same pids cp calls + if call.counts pids && call.cp = cp then 1 else 0 := by
  rw [same, List.countP_append, List.countP_singleton]
  rfl

theorem Phase.keep (h : Phase sc calls fail) {fail' : EkmChoice}
    (hPass : fail'.passCount = fail.passCount) (hChoice : fail'.choice = fail.choice)
    (hExtra : fail'.extraFailures = fail.extraFailures)
    (hMatch : fail.passCount < 0 ∨ (call.counts sc.pid && hits fail.choice call.cp) = false) :
    Phase sc (calls ++ [call]) fail' := by
  cases h with
  | passing hCount hPass' hChoice' hExtra' =>
    have hNo : (call.counts sc.pid && hits sc.choice call.cp) = false := by
      rw [← hChoice']
      exact hMatch.resolve_left (by omega)
    have hStill : matching sc.pid sc.choice (calls ++ [call]) =
        matching sc.pid sc.choice calls := by
      rw [matching_concat, hNo]
      rfl
    refine .passing ?_ ?_ (hChoice.trans hChoice') (hExtra.trans hExtra')
    · rwa [hStill]
    · rw [hStill, hPass, hPass']
  | @failing before rest first hCalls hFirst hLeft hPass' hChoice' hExtra' =>
    have hNo : (call.counts sc.pid && decide (call.cp = first.cp)) = false := by
      have hOther := hMatch.resolve_left (by omega)
      rw [hChoice', Bool.and_eq_false_iff] at hOther
      rw [Bool.and_eq_false_iff, decide_eq_false_iff_not, ← hits_bit, Bool.not_eq_true]
      exact hOther
    have hStill : same sc.pid first.cp (rest ++ [call]) = same sc.pid first.cp rest := by
      rw [same_concat, hNo]
      rfl
    have hSplit : calls ++ [call] = before ++ first :: (rest ++ [call]) := by simp [hCalls]
    refine .failing hSplit hFirst ?_ (hPass.trans hPass') (hChoice.trans hChoice') ?_
    · rwa [FailuresLeft, hStill]
    · rw [hStill, hExtra, hExtra']
  | @done before rest first hCalls hFirst hNone hPass' =>
    have hSplit : calls ++ [call] = before ++ first :: (rest ++ [call]) := by simp [hCalls]
    refine .done hSplit hFirst ?_ (hPass.trans hPass')
    rw [FailuresLeft, same_concat]
    rw [FailuresLeft] at hNone
    omega

theorem Phase.inject (h : Phase sc calls fail) (hPid : fail.pid = sc.pid)
    (hCounts : call.counts sc.pid = true) (hHits : hits fail.choice call.cp = true)
    (hZero : fail.passCount = 0) :
    Phase sc (calls ++ [call]) (modFilterChoose fail call).2 := by
  obtain ⟨v, hEq, _⟩ := choose_fail (hPid ▸ hCounts) hHits hZero
  rw [hEq]
  cases h with
  | passing hCount hPass hChoice hExtra =>
    rw [hChoice] at hHits
    have hFirst : IsFirst sc calls call := ⟨hCounts, hHits, by omega⟩
    rw [hExtra]
    by_cases hNone : sc.extraFailures = 0
    · refine .done rfl hFirst ?_ (if_pos hNone)
      simp [FailuresLeft, same, hNone]
    · refine .failing rfl hFirst ?_ (if_neg hNone) (if_neg hNone) ?_
      · simp only [FailuresLeft, same, List.countP_nil]
        omega
      · simp only [if_neg hNone, same, List.countP_nil]
        omega
  | @failing before rest first hCalls hFirst hLeft hPass hChoice hExtra =>
    rw [hChoice, hits_bit] at hHits
    have hSplit : calls ++ [call] = before ++ first :: (rest ++ [call]) := by simp [hCalls]
    have hMore : same sc.pid first.cp (rest ++ [call]) = same sc.pid first.cp rest + 1 := by
      rw [same_concat, hCounts, hHits]
      simp
    rw [FailuresLeft] at hLeft
    by_cases hNone : fail.extraFailures = 0
    · refine .done hSplit hFirst ?_ (if_pos hNone)
      rw [FailuresLeft, hMore]
      omega
    · refine .failing hSplit hFirst ?_ (if_neg hNone) ?_ ?_
      · rw [FailuresLeft, hMore]
        omega
      · simp only [if_neg hNone, hHits]
      · simp only [if_neg hNone, hMore]
        omega
  | done _ _ _ hPass => omega

theorem choose_ne_zero_iff (hPossible : fail.possibility ≠ 0) :
    (modFilterChoose fail call).1 ≠ 0 ↔ call.counts fail.pid = true ∧
      hits fail.choice call.cp = true ∧ fail.passCount = 0 := by
  by_cases hCounts : call.counts fail.pid = true
  · by_cases hIdle : fail.passCount < 0 ∨ hits fail.choice call.cp = false
    · rw [choose_idle hCounts hIdle]
      refine iff_of_false (fun h => h rfl) ?_
      rintro ⟨_, hHits, hZero⟩
      rw [hHits, hZero] at hIdle
      simp at hIdle
    · rw [not_or, Bool.not_eq_false] at hIdle
      by_cases hPass : 0 < fail.passCount
      · rw [choose_pass hCounts hIdle.2 hPass]
        refine iff_of_false (fun h => h rfl) ?_
        rintro ⟨_, _, hZero⟩
        omega
      · have hZero : fail.passCount = 0 := by omega
        obtain ⟨v, hEq, hv⟩ := choose_fail hCounts hIdle.2 hZero
        rw [hEq]
        refine iff_of_true ?_ ⟨hCounts, hIdle.2, hZero⟩
        rcases hv with rfl | rfl
        · exact Int.one_ne_zero
        · exact hPossible
  · rw [counts_eq_false (Bool.eq_false_of_not_eq_true hCounts)]
    exact iff_of_false (fun h => h rfl) fun h => hCounts h.1

theorem choose_frame (fail : EkmChoice) (call : ChooseCall) :
    (modFilterChoose fail call).2.pid = fail.pid ∧
      (fail.possibility ≠ 0 → (modFilterChoose fail call).2.possibility ≠ 0) := by
  by_cases hCounts : call.counts fail.pid = true
  · by_cases hIdle : fail.passCount < 0 ∨ hits fail.choice call.cp = false
    · rw [choose_idle hCounts hIdle]
      exact ⟨rfl, id⟩
    · rw [not_or, Bool.not_eq_false] at hIdle
      by_cases hPass : 0 < fail.passCount
      · rw [choose_pass hCounts hIdle.2 hPass]
        exact ⟨rfl, id⟩
      · obtain ⟨v, hEq, hv⟩ := choose_fail hCounts hIdle.2 (by omega)
        rw [hEq]
        refine ⟨rfl, fun hPossible => ?_⟩
        rcases hv with rfl | rfl
        · exact Int.one_ne_zero
        · exact hPossible
  · rw [counts_eq_false (Bool.eq_false_of_not_eq_true hCounts)]
    exact ⟨rfl, id⟩

theorem Phase.step (h : Phase sc calls fail) (hPid : fail.pid = sc.pid) :
    Phase sc (calls ++ [call]) (modFilterChoose fail call).2 := by
  by_cases hCounts : call.counts sc.pid = true
  · by_cases hIdle : fail.passCount < 0 ∨ hits fail.choice call.cp = false
    · rw [choose_idle (hPid ▸ hCounts) hIdle]
      refine h.keep rfl rfl rfl (hIdle.imp_right fun hMiss => ?_)
      rw [hMiss, Bool.and_false]
    · rw [not_or, Bool.not_eq_false] at hIdle
      by_cases hPass : 0 < fail.passCount
      · rw [choose_pass (hPid ▸ hCounts) hIdle.2 hPass]
        cases h with
        | passing hCount hPass' hChoice hExtra =>
          have hMore : matching sc.pid sc.choice (calls ++ [call]) =
              matching sc.pid sc.choice calls + 1 := by
            rw [matching_concat, hCounts, ← hChoice, hIdle.2]
            rfl
          refine .passing ?_ ?_ hChoice hExtra
          · rw [hMore]
            omega
          · rw [hMore]
            simp only [hPass']
            omega
        | failing _ _ _ hPass' => omega
        | done _ _ _ hPass' => omega
      · exact h.inject hPid hCounts hIdle.2 (by omega)
  · have hOut := Bool.eq_false_of_not_eq_true hCounts
    rw [counts_eq_false (hPid ▸ hOut)]
    exact h.keep rfl rfl rfl (.inr (by rw [hOut, Bool.false_and]))

theorem after_concat (fail : EkmChoice) (calls : List ChooseCall) (call : ChooseCall) :
    after fail (calls ++ [call]) = (modFilterChoose (after fail calls) call).2 := by
  rw [after, List.foldl_append]
  rfl

theorem phase_after (hPass : 0 ≤ sc.passCount) (calls : List ChooseCall) :
    Phase sc calls (after (setChoice sc) calls) ∧ (after (setChoice sc) calls).pid = sc.pid ∧
      (sc.possibility ≠ 0 → (after (setChoice sc) calls).possibility ≠ 0) := by
  induction calls using List.reverseRecOn with
  | nil =>
    refine ⟨.passing ?_ ?_ rfl rfl, rfl, id⟩
    · simpa [matching] using hPass
    · simp [matching, after, setChoice]
  | append_singleton calls call ih =>
    obtain ⟨hPhase, hPid, hPossible⟩ := ih
    obtain ⟨hSame, hStill⟩ := choose_frame (after (setChoice sc) calls) call
    rw [after_concat]
    exact ⟨hPhase.step hPid, hSame.trans hPid, fun h => hStill (hPossible h)⟩

end

section
variable {sc fail : EkmChoice} {before rest calls : List ChooseCall} {first call : ChooseCall}

theorem IsFirst.lt_matching (h : IsFirst sc before first) (rest : List ChooseCall) :
    sc.passCount < matching sc.pid sc.choice (before ++ first :: rest) := by
  have hOne : matching sc.pid sc.choice (before ++ [first]) =
      matching sc.pid sc.choice before + 1 := by
    rw [matching_concat, h.counts, h.hits]
    rfl
  have hAll : matching sc.pid sc.choice (before ++ first :: rest) =
      matching sc.pid sc.choice (before ++ [first]) + matching sc.pid sc.choice rest := by
    rw [List.append_cons, matching, List.countP_append]
    rfl
  have hPassed := h.passed
  omega

theorem IsFirst.unique (h : IsFirst sc before first) {before' rest' : List ChooseCall}
    {first' : ChooseCall} (h' : IsFirst sc before' first')
    (hEq : before ++ first :: rest = before' ++ first' :: rest') :
    first = first' ∧ rest = rest' := by
  rcases List.append_eq_append_iff.mp hEq with ⟨mid, rfl, hTail⟩ | ⟨mid, rfl, hTail⟩
  · cases mid with
    | nil => exact List.cons_eq_cons.mp (by simpa using hTail)
    | cons x mid =>
      obtain ⟨rfl, _⟩ := List.cons_eq_cons.mp (show first :: rest = x :: (mid ++ first' :: rest')
        from hTail)
      have := h.lt_matching mid
      have := h'.passed
      omega
  · cases mid with
    | nil =>
      obtain ⟨rfl, rfl⟩ := List.cons_eq_cons.mp (by simpa using hTail.symm)
      exact ⟨rfl, rfl⟩
    | cons x mid =>
      obtain ⟨rfl, _⟩ := List.cons_eq_cons.mp (show first' :: rest' = x :: (mid ++ first :: rest)
        from hTail)
      have := h'.lt_matching mid
      have := h.passed
      omega

theorem Phase.shouldFail_iff (h : Phase sc calls fail) : ShouldFail sc calls call ↔
    call.counts sc.pid = true ∧ hits fail.choice call.cp = true ∧ fail.passCount = 0 := by
  cases h with
  | passing hCount hPass hChoice hExtra =>
    rw [hChoice]
    constructor
    · rintro (hFirst | ⟨before, first, rest, rfl, hFirst, _⟩)
      · refine ⟨hFirst.counts, hFirst.hits, ?_⟩
        have := hFirst.passed
        omega
      · have := hFirst.lt_matching rest
        omega
    · rintro ⟨hCounts, hHits, hZero⟩
      exact .inl ⟨hCounts, hHits, by omega⟩
  | @failing before rest first hCalls hFirst hLeft hPass hChoice hExtra =>
    rw [hChoice, hits_bit]
    constructor
    · rintro (hHere | ⟨before', first', rest', hEq, hFirst', hCounts, hSame, _⟩)
      · have := hFirst.lt_matching rest
        have hAll := hHere.passed
        rw [hCalls] at hAll
        omega
      · obtain ⟨rfl, rfl⟩ := hFirst.unique hFirst' (hCalls.symm.trans hEq)
        exact ⟨hCounts, hSame, hPass⟩
    · rintro ⟨hCounts, hSame, _⟩
      exact .inr ⟨before, first, rest, hCalls, hFirst, hCounts, hSame, hLeft⟩
  | @done before rest first hCalls hFirst hNone hPass =>
    refine iff_of_false ?_ (fun h => by omega)
    rintro (hHere | ⟨before', first', rest', hEq, hFirst', _, _, hLeft⟩)
    · have := hFirst.lt_matching rest
      have hAll := hHere.passed
      rw [hCalls] at hAll
      omega
    · obtain ⟨rfl, rfl⟩ := hFirst.unique hFirst' (hCalls.symm.trans hEq)
      exact hNone hLeft

theorem choose_after_iff (hPass : 0 ≤ sc.passCount) (hPossible : sc.possibility ≠ 0)
    (calls : List ChooseCall) (call : ChooseCall) :
    (modFilterChoose (after (setChoice sc) calls) call).1 ≠ 0 ↔ ShouldFail sc calls call := by
  obtain ⟨hPhase, hPid, hStill⟩ := phase_after hPass calls
  rw [choose_ne_zero_iff (hStill hPossible), hPhase.shouldFail_iff, hPid]

end

/-- After `ekm_set_choice` a call fails exactly if it is the first one due or one of the further
ones. -/
theorem choose_fails_exactly (sc : EkmChoice) (hPass : 0 ≤ sc.passCount)
    (hExtra : 0 ≤ sc.extraFailures) (hPossible : sc.possibility ≠ 0) (calls : List ChooseCall)
    (call : ChooseCall) :
    ((modFilterChoose (after (setChoice sc) calls) call).1 ≠ 0 ↔
      (call.counts sc.pid = true ∧ hits sc.choice call.cp = true ∧
        matching sc.pid sc.choice calls = sc.passCount) ∨
      ∃ before first rest, calls = before ++ first :: rest ∧
        (first.counts sc.pid = true ∧ hits sc.choice first.cp = true ∧
          matching sc.pid sc.choice before = sc.passCount) ∧
        call.counts sc.pid = true ∧ call.cp = first.cp ∧
        (same sc.pid first.cp rest : Int) < sc.extraFailures) ∧
    (call.counts sc.pid = false →
      modFilterChoose (after (setChoice sc) calls) call = (0, after (setChoice sc) calls)) := by
  have hFirst : ∀ before first, IsFirst sc before first ↔ first.counts sc.pid = true ∧
      hits sc.choice first.cp = true ∧ matching sc.pid sc.choice before = sc.passCount :=
    fun before first => ⟨fun h => ⟨h.counts, h.hits, h.passed⟩, fun h => ⟨h.1, h.2.1, h.2.2⟩⟩
  have hLeft : ∀ cp rest, FailuresLeft sc cp rest ↔
      (same sc.pid cp rest : Int) < sc.extraFailures :=
    fun cp rest => or_iff_right (not_lt.mpr hExtra)
  constructor
  · rw [choose_after_iff hPass hPossible, ShouldFail]
    simp only [hFirst, hLeft]
  · intro hOut
    have hPid := (phase_after hPass calls).2.1
    exact counts_eq_false (hPid ▸ hOut)

def sampleCall (cp : ChoicePoint) : ChooseCall := ⟨cp, 2, false, true, pidMatch 7⟩

def sampleChoice (possibility : Int) : EkmChoice := ⟨1, possibility, 1, 1, [7], 0⟩

theorem choose_fails_exactly_sample :
    (modFilterChoose (after (setChoice (sampleChoice 1))
      [sampleCall .kmalloc, sampleCall .bread]) (sampleCall .kmalloc)).1 ≠ 0 := by
  refine (choose_fails_exactly (sampleChoice 1) (by decide) (by decide) (by decide)
    [sampleCall .kmalloc, sampleCall .bread] (sampleCall .kmalloc)).1.mpr (.inl ?_)
  decide

/-- The possibility 0 is the default path, so the call that is due returns 0. -/
theorem choose_zero_possibility :
    IsFirst (sampleChoice 0) [sampleCall .kmalloc] (sampleCall .kmalloc) ∧
    (modFilterChoose (after (setChoice (sampleChoice 0)) [sampleCall .kmalloc])
      (sampleCall .kmalloc)).1 = 0 := by
  refine ⟨⟨by decide, by decide, by decide⟩, by decide⟩

end Explode.Ekm
