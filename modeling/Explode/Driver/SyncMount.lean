import Explode.Driver.Alike
import Explode.Driver.Replay

/-!
# A file system that is mounted sync

The exit record of a call runs it on the stable file system as well and clears
the deltas of the call. The creation of a file is left out: the exit record of
an `open` looks the path up after the enter record has created the file.
-/

namespace Explode.Driver

open Loop

def changesSinceSync (calls : List Syscall) : List Syscall :=
  calls.foldl
    (fun done sys =>
      if sys.call = .sync then []
      else if 0 ≤ sys.ret ∧ sys.call.changes then done ++ [sys]
      else done)
    []

namespace StableFS

section
variable (drv : FsDriver) [Hashes]

structure Watched where
  fs : StableFS
  waiting : Bool

def watchCall (w : Watched) (sys : Syscall) : FsResult Watched := do
  let s ← w.fs.replayCall drv sys
  pure ⟨s, !decide (sys.call = .sync) && (w.waiting || creates drv w.fs sys)⟩

/-- The enter record of the call is replayed, and no call on names or data is made while a created
file waits for a `sync`. -/
structure SyncOk (w : Watched) (sys : Syscall) : Prop where
  enter : (w.fs.replaySyscall drv (.enter sys)).isOk
  waiting : w.waiting → sys.call.changes → sys.ret < 0
  safe : ∀ op ∈ w.fs.fsOp sys.call, w.fs.volatile.OpSafe op ∧ w.fs.stable.OpSafe op
  sync : sys.call = .sync → w.fs.volatile.Copyable

instance (w : Watched) (sys : Syscall) : Decidable (SyncOk drv w sys) :=
  decidable_of_iff
    ((w.fs.replaySyscall drv (.enter sys)).isOk ∧ (w.waiting → sys.call.changes → sys.ret < 0) ∧
      (∀ op ∈ w.fs.fsOp sys.call, w.fs.volatile.OpSafe op ∧ w.fs.stable.OpSafe op) ∧
      (sys.call = .sync → w.fs.volatile.Copyable))
    ⟨fun ⟨h₁, h₂, h₃, h₄⟩ => ⟨h₁, h₂, h₃, h₄⟩, fun h => ⟨h.enter, h.waiting, h.safe, h.sync⟩⟩

structure Mirrored (s : StableFS) : Prop where
  alike : s.stable.Alike FileObj.SameData s.volatile
  deltas : ∀ p ∈ s.syscalls, p.delta0 = none ∧ p.delta1 = none

structure Watched.Invariant (done : List Syscall) (w : Watched) : Prop where
  consistent : w.fs.volatile.Consistent fun _ => 0
  volatile : w.fs.volatile.Intact
  stable : w.fs.stable.Intact
  ongoing : w.fs.ongoing = none
  mirrored : w.waiting = false →
    w.fs.Mirrored ∧ w.fs.syscalls.map PendingCall.sys = changesSinceSync done

end

section
variable {drv : FsDriver} [Hashes] {s s' : StableFS} {sys : Syscall}

theorem replayExit_change (hMount : drv.mountSync = true) (hRet : 0 ≤ sys.ret) {op : FsOp}
    (hOp : s.fsOp sys.call = some op) {done : List PendingCall} {p : PendingCall}
    (hCalls : s.syscalls = done ++ [p]) (hp : p.sys = sys) {st : AbstFS}
    (hStable : s.stable.apply op = .ok st) :
    s.replayExit drv sys =
      .ok { s with stable := st, syscalls := done ++ [p.clearDeltas], validSigs := [] } := by
  have hLast := lastCall_of_syscalls hCalls hp
  have hNames : ∀ call : AbstFS → FsResult AbstFS, call s.stable = .ok st →
      s.exitNames drv sys call =
        .ok { s with stable := st, syscalls := done ++ [p.clearDeltas], validSigs := [] } := by
    intro call hCall
    rw [exitNames, hLast]
    simp only [bind, Except.bind, hMount, if_true, hCall, setLast, onSyncOps, hCalls,
      List.dropLast_concat]
    rfl
  have hData : ∀ fd des (call : PathCall),
      s.fds.get? fd = some des → call s.stable des.filename = .ok st →
      s.exitData drv sys fd call =
        .ok { s with stable := st, syscalls := done ++ [p.clearDeltas], validSigs := [] } := by
    intro fd des call hDes hCall
    rw [exitData, hLast, fileDes, hDes]
    simp only [bind, Except.bind, hMount, if_true, hCall, setLast, onSyncOps, hCalls,
      List.dropLast_concat]
    rfl
  rw [replayExit, if_neg (fun h => absurd h.2 (Int.not_lt.mpr hRet))]
  obtain ⟨slsn, call, ret⟩ := sys
  cases call with
  | mkdir pathname mode =>
    cases hOp
    exact hNames _ hStable
  | unlink pathname =>
    cases hOp
    exact hNames _ hStable
  | rmdir pathname =>
    cases hOp
    exact hNames _ hStable
  | link oldname newname =>
    cases hOp
    exact hNames _ hStable
  | rename oldname newname =>
    cases hOp
    exact hNames _ hStable
  | ftruncate fd length =>
    obtain ⟨_, hName, rfl⟩ := Option.map_eq_some_iff.mp hOp
    obtain ⟨des, hDes, rfl⟩ := Option.map_eq_some_iff.mp hName
    exact hData fd des _ hDes hStable
  | pwrite64 fd buf pos =>
    obtain ⟨_, hName, rfl⟩ := Option.map_eq_some_iff.mp hOp
    obtain ⟨des, hDes, rfl⟩ := Option.map_eq_some_iff.mp hName
    exact hData fd des _ hDes hStable
  | openFile filename flags mode => cases hOp
  | close fd => cases hOp
  | sync => cases hOp
  | fsync fd => cases hOp

omit [Hashes] in
theorem changesSinceSync_concat (calls : List Syscall) (sys : Syscall) :
    changesSinceSync (calls ++ [sys]) =
      if sys.call = .sync then []
      else if 0 ≤ sys.ret ∧ sys.call.changes then changesSinceSync calls ++ [sys]
      else changesSinceSync calls := by
  rw [changesSinceSync, List.foldl_append]
  rfl

theorem Watched.Invariant.keep {done : List Syscall} {w : Watched}
    (h : w.Invariant done) (hSync : sys.call ≠ .sync)
    (hChanges : ¬(0 ≤ sys.ret ∧ sys.call.changes)) (hCreates : creates drv w.fs sys = false)
    (hStable : s.stable = w.fs.stable) (hVolatile : s.volatile = w.fs.volatile)
    (hCalls : s.syscalls = w.fs.syscalls) (hOngoing : s.ongoing = none) :
    Watched.Invariant (done ++ [sys])
      ⟨s, !decide (sys.call = .sync) && (w.waiting || creates drv w.fs sys)⟩ := by
  refine ⟨hVolatile ▸ h.consistent, hVolatile ▸ h.volatile, hStable ▸ h.stable, hOngoing, ?_⟩
  intro hWaiting
  rw [hCreates] at hWaiting
  have hWaiting' : w.waiting = false := by simpa [hSync] using hWaiting
  obtain ⟨⟨hAlike, hDeltas⟩, hPending⟩ := h.mirrored hWaiting'
  rw [changesSinceSync_concat, if_neg hSync, if_neg hChanges]
  dsimp only
  rw [hCalls]
  exact ⟨⟨by rw [hStable, hVolatile]; exact hAlike, hCalls ▸ hDeltas⟩, hPending⟩

section Step
variable {done : List Syscall} {w : Watched}

theorem watchCall_eq (hCall : w.fs.replayCall drv sys = .ok s) :
    watchCall drv w sys =
      .ok ⟨s, !decide (sys.call = .sync) && (w.waiting || creates drv w.fs sys)⟩ := by
  rw [watchCall, hCall]
  rfl

theorem watchCall_sync (h : w.Invariant done) (hCall : sys.call = .sync)
    (hCopyable : w.fs.volatile.Copyable) :
    Returns (Watched.Invariant (done ++ [sys])) (fun _ => False) (watchCall drv w sys) := by
  obtain ⟨cleared, hClear⟩ := h.stable.clear
  obtain ⟨st, hCopy, hSame⟩ := AbstFS.copy_same h.consistent hCopyable hClear
  have hAlike := h.volatile.alike_of_same hSame
  have hStable : st.Intact := hAlike.intact
  have hEnter : w.fs.replayEnter drv sys = .ok w.fs := by
    obtain ⟨lsn, call, ret⟩ := sys
    cases hCall
    rw [replayEnter]
    split_ifs <;> rfl
  have hExit : replayExit drv { w.fs with ongoing := some sys.lsn } sys =
      .ok { w.fs with ongoing := some sys.lsn, stable := st, syscalls := [], validSigs := [] } := by
    obtain ⟨lsn, call, ret⟩ := sys
    cases hCall
    rw [replayExit, if_neg (fun hNot => hNot.1 rfl)]
    simp only [exitSync, hCopy]
    rfl
  rw [watchCall_eq (replayCall_eq h.ongoing hEnter hExit)]
  refine ⟨h.consistent, h.volatile, hStable, rfl, ?_⟩
  intro _
  rw [changesSinceSync_concat, if_pos hCall]
  exact ⟨⟨hAlike, by simp⟩, rfl⟩

theorem watchCall_change (hMount : drv.mountSync = true) (h : w.Invariant done)
    (hOk : SyncOk drv w sys) (hChanges : sys.call.changes) (hRet : 0 ≤ sys.ret) :
    Returns (Watched.Invariant (done ++ [sys])) (fun _ => False) (watchCall drv w sys) := by
  have hWaiting : w.waiting = false := by
    by_contra hTrue
    have := hOk.waiting (by simpa using hTrue) hChanges
    omega
  obtain ⟨⟨hAlike, hDeltas⟩, hPending⟩ := h.mirrored hWaiting
  obtain ⟨s', hEnter⟩ := replayEnter_of_isOk h.ongoing hOk.enter
  obtain ⟨op, v, p, hOp, hVolatile, hp, rfl⟩ := replayEnter_change hChanges hRet hEnter
  obtain ⟨hSafe, hSafe'⟩ := hOk.safe op hOp
  have hRelated := AbstFS.apply_alike hAlike hSafe' hSafe
  rw [hVolatile] at hRelated
  cases hStable : w.fs.stable.apply op with
  | error e =>
    rw [hStable] at hRelated
    exact hRelated.elim
  | ok st =>
    rw [hStable] at hRelated
    have hAlike' : st.Alike FileObj.SameData v := hRelated
    obtain ⟨s₁, hs₁⟩ : ∃ s₁ : StableFS, s₁ = { w.fs.push v p with ongoing := some sys.lsn } :=
      ⟨_, rfl⟩
    have hOp₁ : s₁.fsOp sys.call = some op := by
      rw [hs₁]
      exact hOp
    have hExit : s₁.replayExit drv sys = .ok _ :=
      replayExit_change hMount hRet hOp₁ (by rw [hs₁]; rfl) hp (by rw [hs₁]; exact hStable)
    rw [hs₁] at hExit
    rw [watchCall_eq (replayCall_eq h.ongoing hEnter hExit)]
    have hSync : sys.call ≠ .sync := by
      intro hEq
      rw [hEq] at hChanges
      cases hChanges
    refine ⟨AbstFS.apply_consistent h.consistent hVolatile, h.volatile.apply hSafe hVolatile,
      h.stable.apply hSafe' hStable, rfl, ?_⟩
    intro _
    rw [changesSinceSync_concat, if_neg hSync, if_pos ⟨hRet, hChanges⟩]
    refine ⟨⟨hAlike', ?_⟩, ?_⟩
    · intro q hq
      rcases List.mem_append.mp hq with hOld | hNew
      · exact hDeltas q hOld
      · rw [List.mem_singleton.mp hNew]
        exact ⟨rfl, rfl⟩
    · rw [List.map_append, hPending, List.map_singleton]
      exact congrArg (fun x => changesSinceSync done ++ [x]) hp

theorem watchCall_open (h : w.Invariant done)
    (hOk : SyncOk drv w sys) {filename : CString} {flags : OpenFlags}
    {mode : Nat} (hCall : sys.call = .openFile filename flags mode) (hRet : 0 ≤ sys.ret) :
    Returns (Watched.Invariant (done ++ [sys])) (fun _ => False) (watchCall drv w sys) := by
  have hSync : sys.call ≠ .sync := by
    rw [hCall]
    nofun
  have hChanges : ¬(0 ≤ sys.ret ∧ sys.call.changes) := by
    rw [hCall]
    simp [Call.changes, Call.fsOp]
  obtain ⟨s', hEnter⟩ := replayEnter_of_isOk h.ongoing hOk.enter
  obtain ⟨_, ⟨hTracked, hReplay⟩ | ⟨hTracked, ⟨id, hStat⟩, hReplay⟩ |
    ⟨hTracked, hStat, v, nd, parent, childId, p, hCreat, _, _, _, _, _, _, hReplay⟩⟩ :=
    replayCall_open h.ongoing hCall hRet hEnter
  · rw [watchCall_eq hReplay]
    refine h.keep hSync hChanges ?_ rfl rfl rfl h.ongoing
    rw [creates, hCall]
    simp [hTracked]
  · rw [watchCall_eq hReplay]
    refine h.keep hSync hChanges ?_ rfl rfl rfl h.ongoing
    rw [creates, hCall]
    simp [hStat]
  · rw [watchCall_eq hReplay]
    have hVolatile : w.fs.volatile.apply (.creat filename mode) = .ok v := hCreat
    have hSafe : w.fs.volatile.OpSafe (.creat filename mode) := trivial
    refine ⟨AbstFS.apply_consistent h.consistent hVolatile,
      h.volatile.apply hSafe hVolatile, h.stable, h.ongoing, ?_⟩
    intro hWaiting
    have hCreates : creates drv w.fs sys = true := by
      rw [creates, hCall]
      simp [hTracked, hStat, hRet]
    simp [hCreates, hSync] at hWaiting

theorem watchCall_invariant (hMount : drv.mountSync = true) (h : w.Invariant done)
    (hOk : SyncOk drv w sys) :
    Returns (Watched.Invariant (done ++ [sys])) (fun _ => False) (watchCall drv w sys) := by
  by_cases hSync : sys.call = .sync
  · exact watchCall_sync h hSync (hOk.sync hSync)
  rcases Int.lt_or_le sys.ret 0 with hFailed | hRet
  · rw [watchCall_eq (replayCall_failed h.ongoing hSync hFailed)]
    refine h.keep hSync (fun hNot => absurd hNot.1 (Int.not_le.mpr hFailed)) ?_ rfl rfl rfl
      h.ongoing
    rw [creates]
    split
    · simp [Int.not_le.mpr hFailed]
    · rfl
  by_cases hChanges : sys.call.changes
  · exact watchCall_change hMount h hOk hChanges hRet
  cases hCall : sys.call with
  | openFile filename flags mode => exact watchCall_open h hOk hCall hRet
  | close fd =>
    rw [watchCall_eq (replayCall_close h.ongoing hCall hRet)]
    refine h.keep hSync (fun hNot => hChanges hNot.2) ?_ rfl rfl rfl h.ongoing
    rw [creates, hCall]
  | fsync fd =>
    have hReplay : w.fs.replayCall drv sys = .ok w.fs := by
      have hEnter : w.fs.replayEnter drv sys = .ok w.fs := by
        obtain ⟨lsn, call, ret⟩ := sys
        cases hCall
        exact if_neg (Int.not_lt.mpr hRet)
      have hExit : replayExit drv { w.fs with ongoing := some sys.lsn }
          sys = .ok { w.fs with ongoing := some sys.lsn } := by
        rw [replayExit, if_neg (not_failed hRet), hCall]
        exact if_pos hMount
      rw [replayCall_eq h.ongoing hEnter hExit, ← h.ongoing]
    rw [watchCall_eq hReplay]
    refine h.keep hSync (fun hNot => hChanges hNot.2) ?_ rfl rfl rfl h.ongoing
    rw [creates, hCall]
  | sync => exact absurd hCall hSync
  | mkdir pathname mode => simp [hCall, Call.changes, Call.fsOp] at hChanges
  | unlink pathname => simp [hCall, Call.changes, Call.fsOp] at hChanges
  | rmdir pathname => simp [hCall, Call.changes, Call.fsOp] at hChanges
  | link oldname newname => simp [hCall, Call.changes, Call.fsOp] at hChanges
  | rename oldname newname => simp [hCall, Call.changes, Call.fsOp] at hChanges
  | ftruncate fd length => simp [hCall, Call.changes, Call.fsOp] at hChanges
  | pwrite64 fd buf pos => simp [hCall, Call.changes, Call.fsOp] at hChanges

end Step

theorem Mirrored.internalCheck (h : s.Mirrored) :
    s.internalCheck = .ok () ↔ ∀ sys ∈ s.syscalls.map PendingCall.sys, sys.call.isRename := by
  have hCheck : ∀ p ∈ s.syscalls, p.check = p.sys.call.isRename := by
    intro p hp
    obtain ⟨h₀, h₁⟩ := h.deltas p hp
    simp [PendingCall.check, h₀, h₁]
  have hAll : s.syscalls.all PendingCall.check = true ↔
      ∀ sys ∈ s.syscalls.map PendingCall.sys, sys.call.isRename = true := by
    rw [List.all_eq_true, List.forall_mem_map]
    refine forall₂_congr fun p hp => ?_
    rw [hCheck p hp]
  rw [StableFS.internalCheck, ← hAll]
  split_ifs with hTrue <;> simp [hTrue]

end

def mounted (mnt : CString) (memory memory' : Memory) : StableFS :=
  .init (.init mnt memory) (.init mnt memory')

/-- On a sync mount, after every run of completed calls, the stable file system is the volatile one
and no delta is left, unless a created file waits for a `sync`. -/
theorem mountSync_mirrored {drv : FsDriver} [Hashes] (hMount : drv.mountSync = true) (mnt : CString)
    (memory memory' : Memory) (calls : List Syscall)
    (hOk : Meets (watchCall drv) (fun _ w sys => SyncOk drv w sys) []
      ⟨mounted mnt memory memory', false⟩ calls) :
    ∃ w, calls.foldlM (watchCall drv) ⟨mounted mnt memory memory', false⟩ = .ok w ∧
      (w.waiting = false →
        w.fs.stable.Alike FileObj.SameData w.fs.volatile ∧
        (∀ p ∈ w.fs.syscalls, p.delta0 = none ∧ p.delta1 = none) ∧
        (w.fs.internalCheck = .ok () ↔ ∀ sys ∈ changesSinceSync calls, sys.call.isRename)) := by
  have hInit : Watched.Invariant [] ⟨mounted mnt memory memory', false⟩ :=
    ⟨AbstFS.init_consistent mnt memory', AbstFS.init_alike mnt memory' memory',
      AbstFS.init_alike mnt memory memory, rfl,
      fun _ => ⟨⟨AbstFS.init_alike mnt memory memory', by simp [mounted, StableFS.init]⟩, rfl⟩⟩
  have hRun := foldlM_returns (fun done w sys h hOk => watchCall_invariant hMount h hOk) calls []
    hInit hOk
  cases hFold : calls.foldlM (watchCall drv) ⟨mounted mnt memory memory', false⟩ with
  | error e =>
    rw [hFold] at hRun
    exact hRun.elim
  | ok w =>
    rw [hFold, List.nil_append] at hRun
    refine ⟨w, rfl, ?_⟩
    intro hWaiting
    obtain ⟨hMirrored, hPending⟩ := hRun.mirrored hWaiting
    refine ⟨hMirrored.alike, hMirrored.deltas, ?_⟩
    rw [hMirrored.internalCheck, hPending]

def sampleDriver (mountSync : Bool) : FsDriver := ⟨mountSync, fun _ => false⟩

def sampleMounted : StableFS := mounted [] zeroMemory zeroMemory

def sampleFlags : OpenFlags := ⟨false⟩

def syncMountCalls : List Syscall :=
  [⟨0, .openFile [47, 97] sampleFlags 420, 3⟩, ⟨1, .sync, 0⟩,
    ⟨2, .pwrite64 3 [51, 51, 51, 51] 0, 4⟩, ⟨3, .mkdir [47, 98] 493, 0⟩, ⟨4, .close 3, 0⟩,
    ⟨5, .sync, 0⟩, ⟨6, .rename [47, 97] [47, 99], 0⟩]

attribute [local instance] sampleHashes

theorem mountSync_mirrored_rename :
    ∃ w, syncMountCalls.foldlM (watchCall (sampleDriver true)) ⟨sampleMounted, false⟩ = .ok w ∧
      (w.waiting = false →
        w.fs.stable.Alike FileObj.SameData w.fs.volatile ∧
        (∀ p ∈ w.fs.syscalls, p.delta0 = none ∧ p.delta1 = none) ∧
        (w.fs.internalCheck = .ok () ↔
          ∀ sys ∈ changesSinceSync syncMountCalls, sys.call.isRename)) :=
  mountSync_mirrored rfl _ _ _ _ (by decide +kernel)

/-- A file that is created on a sync mount stays volatile, and `internal_check` fails after a
directory was made. -/
theorem mountSync_creat_mkdir :
    (∃ s, replayCall (sampleDriver true) sampleMounted ⟨0, .openFile [47, 97] sampleFlags 420, 3⟩ =
        .ok s ∧
      s.volatile.objs.size = 2 ∧ s.stable.objs.size = 1 ∧
      s.syscalls.map (fun p => (p.delta0, p.delta1)) =
        [(some ⟨1, .add .file 420⟩, some ⟨0, .addEntry [97] 1⟩)]) ∧
    ∃ s, replayCall (sampleDriver true) sampleMounted ⟨0, .mkdir [47, 98] 493, 0⟩ = .ok s ∧
      s.internalCheck = .error .badDelta :=
  ⟨⟨_, rfl, by decide +kernel, by decide +kernel, by decide +kernel⟩, _, rfl, by decide +kernel⟩

end StableFS

end Explode.Driver
