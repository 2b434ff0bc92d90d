import Explode.Crash.LogMgr
import Mathlib.Data.List.TakeWhile

/-!
# The mark for the last check

Crashes before the last call of `forget_old_crashes` do not count. The log
should hold one mark, where the raw log has its last one, and replay should not
be in an epoch with crashes before it.
-/

namespace Explode.Crash

namespace Permuter

section
variable (cat : UInt32)

def newLastCheck : LogItem := .record ⟨lastCheckType cat, 0, 0, .app []⟩

def isCurCheck (item : LogItem) : Bool := toLogRec cat item = .curCheck

/-- The log has one mark, where the raw log has its last one or else in front, and every other
record of the raw log in its order. -/
def KeepsLastCheck (raw log : List LogItem) : Prop :=
  ∃ before mark after, log = before ++ mark :: after ∧ isLastCheck cat mark ∧
    (∀ item ∈ before ++ after, isLastCheck cat item = false) ∧
    ((∃ earlier, raw = earlier ++ mark :: after ∧
        before = earlier.filter fun item => !isLastCheck cat item) ∨
      raw = after ∧ before = [] ∧ mark = newLastCheck cat)

/-- Replay for a checker that wants all crashes is in no epoch with crashes before a mark. -/
def QuietBefore (log : List LogItem) : Prop :=
  ∀ before mark after, log = before ++ mark :: after → isLastCheck cat mark →
    ∀ replayed, replayed <+: before → Wants.crashEnabled .all (epochAfter cat replayed) = false

/-- No mark for the current check stands before a mark for the last one. -/
def CurAfterLast (log : List LogItem) : Prop :=
  ∀ before mark after, log = before ++ mark :: after → isLastCheck cat mark →
    ∀ item ∈ before, isCurCheck cat item = false

end

section
variable {cat : UInt32} {log : List LogItem}

theorem finish_eq (cat : UInt32) (log : List LogItem) :
    finish cat log = if log.any (isLastCheck cat) then log else newLastCheck cat :: log := by
  have hFilter : ((log.takeWhile fun item => !isLastCheck cat item).filter fun item =>
      !isLastCheck cat item) = log.takeWhile fun item => !isLastCheck cat item :=
    List.filter_eq_self.mpr fun _ hItem =>
      List.mem_takeWhile_imp (p := fun item => !isLastCheck cat item) hItem
  have hLength : (log.takeWhile fun item => !isLastCheck cat item).length = log.length ↔
      log.any (isLastCheck cat) = false := by
    rw [List.any_eq_false]
    constructor
    · intro h item hItem
      have hAll := List.takeWhile_eq_self_iff.mp ((List.takeWhile_prefix _).eq_of_length h)
      simpa using hAll item hItem
    · intro h
      rw [List.takeWhile_eq_self_iff.mpr fun item hItem => by simpa using h item hItem]
  rw [finish, hFilter]
  by_cases hAny : log.any (isLastCheck cat) = true
  · rw [if_neg (by rw [hLength, hAny]; exact Bool.noConfusion), if_pos hAny,
      List.prefix_iff_eq_append.mp (List.takeWhile_prefix _)]
  · rw [if_pos (hLength.mpr (Bool.eq_false_of_not_eq_true hAny)), if_neg hAny]
    rfl

theorem finish_finish (cat : UInt32) (log : List LogItem) :
    finish cat (finish cat log) = finish cat log := by
  have hAny : (finish cat log).any (isLastCheck cat) = true := by
    rw [finish_eq]
    split_ifs with hAny
    · exact hAny
    · simp [newLastCheck, isLastCheck]
  rw [finish_eq cat (finish cat log), if_pos hAny]

theorem countP_of_keeps {raw : List LogItem} (hKeeps : KeepsLastCheck cat raw log) :
    log.countP (isLastCheck cat) = 1 := by
  obtain ⟨before, mark, after, rfl, hMark, hNone, -⟩ := hKeeps
  have hZero := List.countP_eq_zero.mpr fun item hItem => Bool.not_eq_true _ ▸ hNone item hItem
  rw [List.countP_append] at hZero
  rw [List.countP_append, List.countP_cons_of_pos hMark]
  omega

theorem keepsLastCheck_finish (hOne : log.countP (isLastCheck cat) ≤ 1) :
    KeepsLastCheck cat log (finish cat log) := by
  rw [finish_eq]
  split_ifs with hAny
  · obtain ⟨mark, hMem, hMark⟩ := List.any_eq_true.mp hAny
    obtain ⟨before, after, rfl⟩ := List.append_of_mem hMem
    rw [List.countP_append, List.countP_cons_of_pos hMark] at hOne
    have hNone : ∀ item ∈ before ++ after, isLastCheck cat item = false := by
      have hZero : (before ++ after).countP (isLastCheck cat) = 0 := by
        rw [List.countP_append]
        omega
      intro item hItem
      exact Bool.eq_false_of_not_eq_true (List.countP_eq_zero.mp hZero item hItem)
    refine ⟨before, mark, after, rfl, hMark, hNone, .inl ⟨before, rfl, ?_⟩⟩
    refine (List.filter_eq_self.mpr fun item hItem => ?_).symm
    rw [hNone item (List.mem_append_left _ hItem)]
    rfl
  · refine ⟨[], newLastCheck cat, log, rfl, by simp [newLastCheck, isLastCheck], ?_,
      .inr ⟨rfl, rfl, rfl⟩⟩
    intro item hItem
    exact Bool.eq_false_of_not_eq_true fun hMark => hAny (List.any_eq_true.mpr ⟨item, hItem, hMark⟩)

theorem keepsLastCheck_finish_iff :
    KeepsLastCheck cat log (finish cat log) ↔ log.countP (isLastCheck cat) ≤ 1 := by
  refine ⟨fun hKeeps => ?_, keepsLastCheck_finish⟩
  have hOne := countP_of_keeps hKeeps
  rw [finish_eq] at hOne
  split_ifs at hOne with hAny
  · exact hOne.le
  · have hNone : log.countP (isLastCheck cat) = 0 := List.countP_eq_zero.mpr fun item hItem hMark =>
      hAny (List.any_eq_true.mpr ⟨item, hItem, hMark⟩)
    omega

theorem epochAfter_of_noMarks {items : List LogItem}
    (hLast : ∀ item ∈ items, isLastCheck cat item = false)
    (hCur : ∀ item ∈ items, isCurCheck cat item = false) :
    epochAfter cat items = .longGonePast := by
  have hStays : ∀ item ∈ items, ∀ e : Epoch, e.replay (toLogRec cat item) = e := by
    intro item hItem e
    have hLast' := hLast item hItem
    have hCur' := hCur item hItem
    cases item with
    | sector s => rfl
    | record r =>
      simp only [isLastCheck, decide_eq_false_iff_not] at hLast'
      simp only [isCurCheck, toLogRec, if_neg hLast', decide_eq_false_iff_not] at hCur'
      rw [toLogRec, if_neg hLast']
      split_ifs with hType
      · rw [if_pos hType] at hCur'
        exact absurd rfl hCur'
      · rfl
  rw [epochAfter, List.foldl_map]
  clear hLast hCur
  induction items with
  | nil => rfl
  | cons item rest ih =>
    rw [List.foldl_cons, hStays item (by simp)]
    exact ih fun i hi => hStays i (by simp [hi])

theorem quietBefore_iff (hOne : log.countP (isLastCheck cat) ≤ 1) :
    QuietBefore cat log ↔ CurAfterLast cat log := by
  constructor
  · intro hQuiet before mark after hSplit hMark item hItem
    refine Bool.eq_false_of_not_eq_true fun hCur => ?_
    obtain ⟨earlier, later, rfl⟩ := List.append_of_mem hItem
    have hReplayed : earlier ++ [item] <+: earlier ++ item :: later :=
      ⟨later, List.append_cons earlier item later |>.symm⟩
    have hOff := hQuiet _ mark after hSplit hMark _ hReplayed
    have hNow : epochAfter cat (earlier ++ [item]) = .now := by
      rw [epochAfter, List.map_append, List.foldl_append, List.map_singleton,
        of_decide_eq_true hCur]
      rfl
    rw [hNow] at hOff
    cases hOff
  · intro hAfter before mark after hSplit hMark replayed hReplayed
    have hLast : ∀ item ∈ before, isLastCheck cat item = false := by
      rw [hSplit, List.countP_append, List.countP_cons_of_pos hMark] at hOne
      have hZero : before.countP (isLastCheck cat) = 0 := by omega
      exact fun item hItem => Bool.eq_false_of_not_eq_true (List.countP_eq_zero.mp hZero item hItem)
    rw [epochAfter_of_noMarks (fun item hItem => hLast item (hReplayed.subset hItem))
      fun item hItem => hAfter before mark after hSplit hMark item (hReplayed.subset hItem)]
    rfl

theorem curAfterLast_finish : CurAfterLast cat (finish cat log) ↔ CurAfterLast cat log := by
  rw [finish_eq]
  split_ifs with hAny
  · rfl
  · -- the new mark is the only one, and nothing stands before it
    have hNone : ∀ before mark after, log = before ++ mark :: after → ¬isLastCheck cat mark := by
      rintro before mark after rfl hMark
      exact hAny (List.any_eq_true.mpr ⟨mark, by simp, hMark⟩)
    refine iff_of_true ?_ fun before mark after hSplit hMark => absurd hMark (hNone _ _ _ hSplit)
    intro before mark after hSplit hMark item hItem
    cases before with
    | nil => cases hItem
    | cons first before =>
      exact absurd hMark (hNone _ _ _ (List.cons.inj hSplit).2)

end

end Permuter

namespace LogMgr

open Permuter

section
variable (xfs : Bool) (cat : UInt32)

theorem finish_appCats (appCats : List UInt32) (s : LogState) :
    ((appCats.map fun c => (c, if c = cat then Permuter.recParser c else appRecParser)).foldl
      (fun s c => c.2.finish s) s).log =
      if cat ∈ appCats then Permuter.finish cat s.log else s.log := by
  induction appCats generalizing s with
  | nil => rfl
  | cons c rest ih =>
    rw [List.map_cons, List.foldl_cons, ih]
    by_cases hHere : c = cat
    · subst hHere
      simp only [if_pos, List.mem_cons, true_or]
      split_ifs
      · exact finish_finish c s.log
      · rfl
    · simp only [if_neg hHere, List.mem_cons, Ne.symm hHere, false_or]
      rfl

variable [ChunkHash]

theorem finishAll_log {appCats : List UInt32} (hCat : cat ∈ appCats) (s : LogState) :
    ((the xfs cat appCats).finishAll s).log = Permuter.finish cat s.log := by
  rw [finishAll, the, List.foldl_append, finish_appCats, if_pos hCat]
  rfl

end

def marks (types : List UInt32) : Bytes :=
  types.flatMap fun type => ByteStream.word type ++ appBytes 0 0 []

def emptyState : LogState := ⟨.start ⟨[]⟩, [], []⟩

attribute [local instance] checksumHash

end LogMgr

end Explode.Crash
