import Explode.Driver.Trials

/-!
# What the check of a recovered file system accepts

Without a hit among the valid signatures the check succeeds only at a candidate:
some of the pending metadata deltas, applied in their order to a copy of the
stable file system, give what was recovered.
-/

namespace Explode.Driver.StableFS

open Loop Crash

section
variable [Hashes] (opts : CheckOptions) (s : StableFS)

/-- Some pending metadata deltas, in their order, lead from the stable file system to the
candidate. -/
def HasCandidate (cand : AbstFS) : Prop :=
  ∃ deltas, deltas.Sublist s.metaDeltas ∧ ∃ scratch left,
    s.trySubset scratch deltas = .ok (.candidate cand, left)

def CandidateSig (sig : Word) : Prop :=
  ∃ cand, s.HasCandidate cand ∧ cand.getSigWithName = .ok sig

/-- A candidate that the recovered file system matches in metadata and data. -/
structure Accepts (recovered cand : AbstFS) : Prop where
  candidate : s.HasCandidate cand
  metaSig : cand.sameMetadataSig recovered = .ok true
  data : cand.sameSig recovered = .ok true ∨ opts.metadataOnly = true ∨
    checkData opts cand recovered s.dataDeltas = .ok true

end

section
variable [Hashes] {opts : CheckOptions} {s s' : StableFS} {recovered : AbstFS}

omit [Hashes] in
theorem next_sorted {ps ps' : Powerset} {subset : List Nat}
    (h : ps.next = some (some (subset, ps'))) : subset.Pairwise (· < ·) := by
  obtain ⟨iter, _, hIter⟩ := Option.map_eq_some_iff.mp h
  split at hIter
  · cases hIter
  · cases hIter
    rw [List.getD]
    cases hGet : (genPowerset maxSet)[iter]? with
    | none => exact .nil
    | some subset => exact (mem_genPowerset_iff.mp (List.mem_of_getElem? hGet)).1

theorem compareCandidate_accepts {cand : AbstFS} (hCand : s.HasCandidate cand)
    (h : s.compareCandidate opts cand recovered = .ok (some true)) :
    s.Accepts opts recovered cand := by
  rw [compareCandidate] at h
  obtain ⟨sameMeta, hMeta, h⟩ := bind_eq_ok h
  cases sameMeta with
  | false => cases h
  | true =>
    refine ⟨hCand, hMeta, ?_⟩
    obtain ⟨same, hSame, h⟩ := bind_eq_ok h
    cases same with
    | true => exact .inl hSame
    | false =>
      simp only [Bool.false_eq_true, if_false] at h
      split at h
      · rename_i hOnly
        exact .inr (.inl hOnly)
      · obtain ⟨ok, hData, hOk⟩ := map_eq_ok h
        cases hOk
        exact .inr (.inr hData)

theorem tryCandidates_sound (n : Nat) {ps : Powerset} {fs : AbstFS} {sigs sigs' : List Word}
    {valid : Bool} (h : s.tryCandidates opts recovered n ps fs sigs = .ok (valid, sigs')) :
    (valid = true → ∃ cand, s.Accepts opts recovered cand) ∧
      ∀ x ∈ sigs', x ∈ sigs ∨ s.CandidateSig x := by
  induction n generalizing ps fs sigs with
  | zero =>
    cases h
    exact ⟨by simp, fun x hx => .inl hx⟩
  | succ n ih =>
    rw [tryCandidates] at h
    split at h
    · cases h
    · cases h
      exact ⟨by simp, fun x hx => .inl hx⟩
    · rename_i subset ps' hNext
      obtain ⟨⟨trial, left⟩, hTry, h⟩ := bind_eq_ok h
      cases trial with
      | pruned => exact ih h
      | dangling => exact ih h
      | candidate cand =>
        have hCand : s.HasCandidate cand := ⟨_, chosen_sublist (next_sorted hNext), fs, left, hTry⟩
        obtain ⟨sig, hSig, h⟩ := bind_eq_ok h
        obtain ⟨answer, hCompare, h⟩ := bind_eq_ok h
        have hNew : ∀ x ∈ sig :: sigs, x ∈ sigs ∨ s.CandidateSig x :=
          List.forall_mem_cons.mpr ⟨.inr ⟨cand, hCand, hSig⟩, fun x hx => .inl hx⟩
        cases answer with
        | none =>
          obtain ⟨hValid, hSigs⟩ := ih h
          exact ⟨hValid, fun x hx => (hSigs x hx).elim (hNew x) .inr⟩
        | some ok =>
          cases h
          refine ⟨?_, hNew⟩
          rintro rfl
          exact ⟨cand, compareCandidate_accepts hCand hCompare⟩

/-- A check that succeeds has found the signature of the recovered file system among the valid ones,
or a candidate with its metadata that explains its data. -/
theorem check_accepts {memory : Memory}
    (hCheck : s.check opts memory recovered = .ok (.succeeded, s')) :
    ∃ sig, recovered.getSigWithName = .ok sig ∧
      (sig ∈ s.validSigs ∨ ∃ cand, s.Accepts opts recovered cand) ∧
      ∀ x ∈ s'.validSigs, x ∈ s.validSigs ∨ x = sig ∨ s.CandidateSig x := by
  rw [check] at hCheck
  obtain ⟨_, _, hCheck⟩ := bind_eq_ok hCheck
  obtain ⟨sig, hSig, hCheck⟩ := bind_eq_ok hCheck
  refine ⟨sig, hSig, ?_⟩
  split at hCheck
  · rename_i hHit
    cases hCheck
    exact ⟨.inl hHit, fun x hx => .inl hx⟩
  · split at hCheck
    · obtain ⟨cleared, _, hCheck⟩ := bind_eq_ok hCheck
      cases hCheck
    · obtain ⟨⟨valid, sigs⟩, hTry, hCheck⟩ := bind_eq_ok hCheck
      obtain ⟨hValid, hSigs⟩ := tryCandidates_sound _ hTry
      cases valid with
      | true =>
        cases hCheck
        refine ⟨.inr (hValid rfl), List.forall_mem_cons.mpr ⟨.inr (.inl rfl), ?_⟩⟩
        exact fun x hx => (hSigs x hx).imp_right .inr
      | false =>
        obtain ⟨cleared, _, hCheck⟩ := bind_eq_ok hCheck
        cases hCheck

end

attribute [local instance] sampleHashes

def recoveredMade : FsResult (Verdict × StableFS) :=
  (afterLogged madeCalls).check ⟨false, false⟩ zeroMemory (afterLogged madeCalls).volatile

theorem check_accepts_made :
    ∃ s', recoveredMade = .ok (.succeeded, s') ∧
      ∃ sig, (afterLogged madeCalls).volatile.getSigWithName = .ok sig ∧
        (sig ∈ (afterLogged madeCalls).validSigs ∨ ∃ cand, (afterLogged madeCalls).Accepts
          ⟨false, false⟩ (afterLogged madeCalls).volatile cand) ∧
        ∀ x ∈ s'.validSigs, x ∈ (afterLogged madeCalls).validSigs ∨ x = sig ∨
          (afterLogged madeCalls).CandidateSig x := by
  have hVerdict : (recoveredMade.map Prod.fst).toOption = some .succeeded := by decide +kernel
  cases hRun : recoveredMade with
  | error e =>
    rw [hRun] at hVerdict
    cases hVerdict
  | ok r =>
    obtain ⟨verdict, s'⟩ := r
    rw [hRun] at hVerdict
    cases hVerdict
    exact ⟨s', rfl, check_accepts hRun⟩

end Explode.Driver.StableFS
