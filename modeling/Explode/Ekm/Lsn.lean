import Explode.Crash.LogMgr
import Explode.Ekm.Hooks

/-!
# Log sequence numbers

The counter tells how many records were written since the log was emptied. An
application record gets the number of the next record, and every other record
its own.
-/

namespace Explode.Ekm

open Crash

def isApp (r : Record) : Bool :=
  match r.body with
  | .app _ => true
  | .block .. | .enter .. | .exit .. => false

def isEnter (r : Record) : Bool :=
  match r.body with
  | .enter _ => true
  | .block .. | .app _ | .exit .. => false

def lsnAt (i : Nat) (r : Record) : UInt32 := .ofNat (i + if isApp r then 1 else 0)

/-- The place of the system call that a hook enters. -/
def enters : UInt32 × Hook → Option Nat
  | (_, .enter k _ _) => some k
  | _ => none

/-- The place of the system call that a hook leaves. -/
def exits : UInt32 × Hook → Option Nat
  | (_, .exit k _ _ _) => some k
  | _ => none

/-- Every call that is left was entered before, among the same hooks. -/
def EnteredHere (hooks : List (UInt32 × Hook)) : Prop :=
  ∀ before hook after, hooks = before ++ hook :: after → ∀ k, exits hook = some k →
    some k ∈ before.map enters

/-- What a hook does to the log: nothing, or it writes a record with the next number. -/
inductive Writes (hook : UInt32 × Hook) (e e' : Ekm) : Prop
  | nothing (hLog : e'.log = e.log) (hCounter : e'.lsn = e.lsn)
      (hEntry : ∀ k, e'.entryLsn k = invalidLsn ∨
        enters hook ≠ some k ∧ e'.entryLsn k = e.entryLsn k)
  | record (r : Record) (hLog : e'.log = e.log ++ [r]) (hCounter : e'.lsn = e.lsn + 1)
      (hLsn : r.lsn = if isApp r then e.lsn + 1 else e.lsn)
      (hEntry : ∀ k, isEnter r ∧ r.lsn = e'.entryLsn k ∨
        enters hook ≠ some k ∧ e'.entryLsn k = e.entryLsn k)
      (hExit : ∀ ret args l, r.body = .exit ret args l →
        ∃ k, exits hook = some k ∧ l = e.entryLsn k ∧ l ≠ invalidLsn)

section
variable {e e' : Ekm} {hook : UInt32 × Hook}

theorem Writes.refl (hEnters : enters hook = none) (hLog : e'.log = e.log)
    (hCounter : e'.lsn = e.lsn) (hEntry : e'.entryLsn = e.entryLsn) : Writes hook e e' :=
  .nothing hLog hCounter fun k => .inr ⟨hEnters ▸ (Option.some_ne_none _).symm, by rw [hEntry]⟩

theorem writes_blockEntry (hEnters : enters hook = none) (pid : UInt32) (type : LinuxRecType)
    (dev sector size : UInt32) (data : List Pointer) :
    Writes hook e (e.logBlockEntry pid type dev sector size data) :=
  .record _ rfl rfl rfl (fun _ => .inr ⟨hEnters ▸ (Option.some_ne_none _).symm, rfl⟩)
    fun _ _ _ hBody => by cases hBody

theorem writes_of_step (hStep : e.step hook = some e') : Writes hook e e' := by
  obtain ⟨pid, hook⟩ := hook
  cases hook with
  | app gr =>
    cases hStep
    exact .record _ rfl rfl rfl (fun _ => .inr ⟨(Option.some_ne_none _).symm, rfl⟩)
      fun _ _ _ hBody => by cases hBody
  | bh t state bh =>
    cases hStep
    rw [Ekm.bhHook]
    split_ifs
    · exact .refl rfl rfl rfl rfl
    · exact .refl rfl rfl rfl rfl
    · exact writes_blockEntry rfl ..
  | bio t state bio =>
    simp only [Ekm.step, Ekm.bioHook, Ekm.logAddBioEntry] at hStep
    split_ifs at hStep
    · cases hStep
      exact .refl rfl rfl rfl rfl
    · cases hStep
      exact .refl rfl rfl rfl rfl
    · cases hStep
      exact writes_blockEntry rfl ..
  | req t state req =>
    cases hStep
    rw [Ekm.reqHook]
    split_ifs
    · exact .refl rfl rfl rfl rfl
    · exact .refl rfl rfl rfl rfl
    · exact writes_blockEntry rfl ..
  | enter k call traced =>
    cases hStep
    have hUpdate : ∀ v j, Function.update e.entryLsn k v j = v ∨
        enters (pid, .enter k call traced) ≠ some j ∧
          Function.update e.entryLsn k v j = e.entryLsn j := by
      intro v j
      by_cases hj : j = k
      · subst hj
        exact .inl (Function.update_self ..)
      · exact .inr ⟨fun hEq => hj (Option.some.inj hEq).symm, Function.update_of_ne hj ..⟩
    rw [Ekm.enterHook]
    split_ifs
    · refine .record _ rfl rfl rfl (fun j => ?_) fun _ _ _ hBody => by cases hBody
      exact (hUpdate e.lsn j).imp (fun hNew => ⟨rfl, hNew.symm⟩) id
    · exact .nothing rfl rfl (hUpdate invalidLsn)
  | exit k call ret copied =>
    cases hStep
    rw [Ekm.exitHook]
    split_ifs with hSkip
    · exact .refl rfl rfl rfl rfl
    · push Not at hSkip
      refine .record _ rfl rfl rfl (fun _ => .inr ⟨(Option.some_ne_none _).symm, rfl⟩) ?_
      intro ret' args l hBody
      cases hBody
      exact ⟨k, rfl, rfl, hSkip.1⟩
  | copyLog size =>
    simp only [Ekm.step] at hStep
    split at hStep
    · cases hStep
      exact .refl rfl rfl rfl rfl
    · cases hStep
      exact .refl rfl rfl rfl rfl

end

/-- The numbers of the records after some hooks. A call that was entered has its number, unless it
is not traced. -/
structure Numbered (hooks : List (UInt32 × Hook)) (e : Ekm) : Prop where
  counter : e.lsn = .ofNat e.log.length
  lsn : ∀ i r, e.log[i]? = some r → r.lsn = lsnAt i r
  entered : ∀ k, some k ∈ hooks.map enters →
    e.entryLsn k = invalidLsn ∨ ∃ r ∈ e.log, isEnter r ∧ r.lsn = e.entryLsn k
  left : EnteredHere hooks → ∀ r ∈ e.log, ∀ ret args l, r.body = .exit ret args l →
    ∃ r' ∈ e.log, isEnter r' ∧ r'.lsn = l

theorem Numbered.emptyLog (e : Ekm) : Numbered [] e.emptyLog :=
  ⟨rfl, by simp [Ekm.emptyLog], by simp, by simp [Ekm.emptyLog]⟩

section
variable {e e' : Ekm} {hooks : List (UInt32 × Hook)} {hook : UInt32 × Hook}

theorem ofNat_succ (n : Nat) : UInt32.ofNat (n + 1) = UInt32.ofNat n + 1 := by
  simp [UInt32.ofNat_add]

theorem EnteredHere.front (h : EnteredHere (hooks ++ [hook])) : EnteredHere hooks := by
  rintro before h' after rfl
  exact h before h' (after ++ [hook]) (by simp)

theorem mem_enters_concat {k : Nat} (hMem : some k ∈ (hooks ++ [hook]).map enters)
    (hNe : enters hook ≠ some k) : some k ∈ hooks.map enters := by
  rw [List.map_append, List.mem_append] at hMem
  rcases hMem with hMem | hMem
  · exact hMem
  · exact absurd (List.mem_singleton.mp hMem).symm hNe

theorem Numbered.concat (h : Numbered hooks e) (hWrites : Writes hook e e') :
    Numbered (hooks ++ [hook]) e' := by
  cases hWrites with
  | nothing hLog hCounter hEntry =>
    refine ⟨by rw [hCounter, hLog, h.counter], by rw [hLog]; exact h.lsn, ?_, ?_⟩
    · intro k hMem
      rcases hEntry k with hInvalid | ⟨hNe, hSame⟩
      · exact .inl hInvalid
      · rw [hLog, hSame]
        exact h.entered k (mem_enters_concat hMem hNe)
    · rw [hLog]
      exact fun hHere => h.left hHere.front
  | record r hLog hCounter hLsn hEntry hExit =>
    have hOld : ∀ r' ∈ e.log, r' ∈ e'.log := by
      rw [hLog]
      exact fun r' => List.mem_append_left _
    refine ⟨?_, ?_, ?_, ?_⟩
    · rw [hCounter, h.counter, hLog, List.length_append, List.length_singleton, ofNat_succ]
    · intro i r' hr'
      rw [hLog, List.getElem?_append] at hr'
      split_ifs at hr' with hi
      · exact h.lsn i r' hr'
      · obtain ⟨hEnd, rfl⟩ : i = e.log.length ∧ r = r' := by
          obtain ⟨hLt, hEq⟩ := List.getElem?_eq_some_iff.mp hr'
          simp only [List.length_singleton] at hLt
          refine ⟨by omega, ?_⟩
          simpa using hEq
        rw [hLsn, h.counter, lsnAt, hEnd]
        split_ifs
        · rw [ofNat_succ]
        · rw [Nat.add_zero]
    · intro k hMem
      rcases hEntry k with hNew | ⟨hNe, hSame⟩
      · exact .inr ⟨r, by simp [hLog], hNew⟩
      · rw [hSame]
        refine (h.entered k (mem_enters_concat hMem hNe)).imp_right ?_
        rintro ⟨r', hr', hEnter⟩
        exact ⟨r', hOld r' hr', hEnter⟩
    · intro hHere r' hr' ret args l hBody
      rw [hLog] at hr'
      rcases List.mem_append.mp hr' with hr' | hr'
      · obtain ⟨enter, hMem, hEnter⟩ := h.left hHere.front r' hr' ret args l hBody
        exact ⟨enter, hOld enter hMem, hEnter⟩
      · rw [List.mem_singleton.mp hr'] at hBody
        obtain ⟨k, hLeaves, rfl, hValid⟩ := hExit ret args l hBody
        rcases h.entered k (hHere hooks hook [] rfl k hLeaves) with hInvalid | ⟨enter, hMem, hEnter⟩
        · exact absurd hInvalid hValid
        · exact ⟨enter, hOld enter hMem, hEnter⟩

theorem Numbered.run {more : List (UInt32 × Hook)} (h : Numbered hooks e)
    (hRun : e.run more = some e') : Numbered (hooks ++ more) e' := by
  induction more generalizing e hooks with
  | nil =>
    cases hRun
    rwa [List.append_nil]
  | cons hook rest ih =>
    rw [Ekm.run, List.foldlM_cons] at hRun
    obtain ⟨e₁, hStep, hRest⟩ := Option.bind_eq_some_iff.mp hRun
    rw [List.append_cons]
    exact ih (h.concat (writes_of_step hStep)) hRest

end

theorem signed_ofNat {n : Nat} (h : n < 2147483648) : signed (.ofNat n) = n := by
  rw [signed, UInt32.toInt32_ofNat', Int32.toInt_ofNat_of_lt h]

section
variable {e : Ekm} {hooks : List (UInt32 × Hook)}

theorem Numbered.signed_lsn (h : Numbered hooks e) (hCount : e.log.length < 2147483648) {i : Nat}
    (hi : i < e.log.length) : signed e.log[i].lsn = i + if isApp e.log[i] then 1 else 0 := by
  rw [h.lsn i _ (List.getElem?_eq_getElem hi), lsnAt, signed_ofNat (by split_ifs <;> omega)]
  split_ifs <;> rfl

theorem Numbered.pairwise_iff (h : Numbered hooks e) (hCount : e.log.length < 2147483648) :
    (e.log.Pairwise fun r r' => signed r.lsn < signed r'.lsn) ↔
      e.log.IsChain fun r r' => isApp r → isApp r' := by
  constructor
  · intro hIncreasing
    rw [List.isChain_iff_getElem]
    intro i hi hApp
    have hLt :=
      List.pairwise_iff_getElem.mp hIncreasing i (i + 1) (by omega) hi (Nat.lt_succ_self i)
    rw [h.signed_lsn hCount (by omega), h.signed_lsn hCount hi, if_pos hApp] at hLt
    split_ifs at hLt with hApp'
    · exact hApp'
    · omega
  · intro hApps
    have hTrans : Trans (fun r r' : Record => isApp r → isApp r') (fun r r' => isApp r → isApp r')
        (fun r r' => isApp r → isApp r') := ⟨fun h h' hApp => h' (h hApp)⟩
    have hPairwise := hApps.pairwise
    rw [List.pairwise_iff_getElem] at hPairwise ⊢
    intro i j hi hj hLt
    have hBoth := hPairwise i j hi hj hLt
    rw [h.signed_lsn hCount hi, h.signed_lsn hCount hj]
    split_ifs with hApp hApp' hApp'
    · omega
    · exact absurd (hBoth hApp) hApp'
    · omega
    · omega

end

/-- Between two times that the log is emptied the numbers increase exactly if no application record
is followed by a record of another kind. Then the exit record of a call that was entered in between
names one enter record. -/
theorem run_lsn_increasing_iff (e : Ekm) (hooks : List (UInt32 × Hook)) (e' : Ekm)
    (hRun : e.emptyLog.run hooks = some e') (hCount : e'.log.length < 2147483648) :
    ((e'.log.Pairwise fun r r' => signed r.lsn < signed r'.lsn) ↔
      e'.log.IsChain fun r r' => isApp r → isApp r') ∧
    ((e'.log.IsChain fun r r' => isApp r → isApp r') → EnteredHere hooks →
      ∀ r ∈ e'.log, ∀ ret args l, r.body = .exit ret args l →
        ∃! r', r' ∈ e'.log ∧ isEnter r' ∧ r'.lsn = l) := by
  have hNumbered := (Numbered.emptyLog e).run hRun
  refine ⟨hNumbered.pairwise_iff hCount, ?_⟩
  intro hApps hHere r hr ret args l hBody
  obtain ⟨r', hr', hEnter, hLsn⟩ := hNumbered.left hHere r hr ret args l hBody
  refine ⟨r', ⟨hr', hEnter, hLsn⟩, ?_⟩
  rintro r'' ⟨hr'', -, hLsn''⟩
  by_contra hNe
  have hDistinct : e'.log.Pairwise fun a b => a.lsn ≠ b.lsn :=
    ((hNumbered.pairwise_iff hCount).mpr hApps).imp fun hLt hEq => by
      rw [hEq] at hLt
      exact Int.lt_irrefl _ hLt
  have hSymm : Std.Symm fun a b : Record => a.lsn ≠ b.lsn := ⟨fun _ _ h => h.symm⟩
  exact hDistinct.forall hr'' hr' hNe (hLsn''.trans hLsn.symm)

/-- The call `sync` is left after it was entered. -/
theorem run_lsn_increasing_iff_sync :
    let hooks : List (UInt32 × Hook) := [(1, .enter 0 .sync true), (1, .exit 0 (.other 15) 0 true)]
    ∃ e' : Ekm, Ekm.init.emptyLog.run hooks = some e' ∧ e'.log.length = 2 ∧
      ∀ r ∈ e'.log, ∀ ret args l, r.body = .exit ret args l →
        ∃! r', r' ∈ e'.log ∧ isEnter r' ∧ r'.lsn = l := by
  have hHere : EnteredHere [(1, .enter 0 .sync true), (1, .exit 0 (.other 15) 0 true)] := by
    intro before hook after hSplit k hExit
    match before, hSplit with
    | [], hSplit =>
      cases hSplit
      cases hExit
    | [first], hSplit =>
      cases hSplit
      cases hExit
      exact List.mem_singleton.mpr rfl
    | first :: second :: before, hSplit => simp at hSplit
  refine ⟨_, rfl, by decide +kernel, ?_⟩
  exact (run_lsn_increasing_iff .init _ _ rfl (by decide +kernel)).2 (by decide +kernel) hHere

/-- A record of another kind after an application record has the same number. -/
theorem run_lsn_repeated :
    (Ekm.init.emptyLog.run [(1, .app ⟨makeType 33 1, ⟨0, []⟩⟩), (2, .enter 0 .sync true)]).map
      (fun e => e.log.map Record.lsn) = some [1, 1] := by
  decide +kernel

end Explode.Ekm
