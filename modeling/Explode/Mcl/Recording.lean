import Explode.Mcl.Enumeration

/-!
# Recording and replaying choices

A recording generator leaves the choices of a run in `_choices`, and a
`ReplayRandom` loaded with them is asked the same questions again.
-/

namespace Explode.Mcl

open ChoiceTree EnumRandom

universe u
variable {α : Type u}

namespace ReplayRandom

theorem random_trivial (g : ReplayRandom) : random 1 g = some (0, g) := rfl

theorem random_stored {c n : Nat} (hn : n ≠ 1) (hc : c < n) (hMax : n ≤ maxCeil)
    (pre post : Trace) :
    random n ⟨pre ++ UInt8.ofNat c :: post, pre.length⟩ =
      some (c, ⟨pre ++ UInt8.ofNat c :: post, pre.length + 1⟩) := by
  have hChoice := toNat_choice (by omega : c ≤ maxCeil)
  unfold random
  rw [if_pos ⟨by omega, hMax⟩, if_neg hn]
  simp [hChoice, hc]

theorem answers_of_recorded (calls : Calls) (hRange : InRange calls) (pre post : Trace) :
    Answers random ⟨pre ++ choicesOf (recorded calls) ++ post, pre.length⟩ calls
      ⟨pre ++ choicesOf (recorded calls) ++ post, (pre ++ choicesOf (recorded calls)).length⟩ := by
  induction calls generalizing pre with
  | nil => simpa [choicesOf] using Answers.nil _
  | cons call calls ih =>
    obtain ⟨c, n⟩ := call
    obtain ⟨⟨hc, hMax⟩, hRest⟩ := List.forall_mem_cons.mp hRange
    by_cases hn : n = 1
    · subst hn
      obtain rfl : c = 0 := by simpa using hc
      rw [recorded_trivial]
      exact .cons (random_trivial _) (ih hRest pre)
    · have hTail := ih hRest (pre ++ [UInt8.ofNat c])
      have hSplit : pre ++ choicesOf (recorded ((c, n) :: calls)) =
          pre ++ [UInt8.ofNat c] ++ choicesOf (recorded calls) := by
        simp [recorded_branching hn, choicesOf]
      rw [hSplit]
      refine .cons ?_ hTail
      have hStored := random_stored hn hc hMax pre (choicesOf (recorded calls) ++ post)
      simpa [List.append_assoc] using hStored

end ReplayRandom

def Replays (t : DecisionTree α) (calls : Calls) (a : α) (choices : Trace) : Prop :=
  t.run ReplayRandom.random (ReplayRandom.load choices) =
    some (calls, a, ⟨choices, choices.length⟩)

theorem replays_recorded {t : DecisionTree α} (ht : t.Widths fun n => 0 < n ∧ n ≤ maxCeil)
    {calls : Calls} {a : α} (h : t.IsPath calls a) :
    Replays t calls a (choicesOf (recorded calls)) := by
  have hAnswers := ReplayRandom.answers_of_recorded calls (inRange_of_isPath ht h) [] []
  rw [List.nil_append, List.append_nil] at hAnswers
  exact h.run_eq hAnswers

/-- The states in which a round of the enumeration loop starts. -/
inductive Round (t : DecisionTree α) : EnumRandom → Prop
  | reset (g : EnumRandom) : Round t g.reset
  | again {g : EnumRandom} {r : Run α} {g' : EnumRandom} (h : Round t g)
      (hRun : t.run EnumRandom.random g = some r)
      (hAgain : EnumRandom.repeat r.2.2 = some (true, g')) : Round t g'

theorem Round.exists_stack {p : Program α} {g : EnumRandom} (h : Round p.1 g) :
    ∃ stack, p.1.Fits stack ∧ g = ofStack stack (-1) := by
  induction h with
  | reset g => exact ⟨[], .nil _, rfl⟩
  | @again g r g' h hRun hAgain ih =>
    obtain ⟨stack, hFits, rfl⟩ := ih
    rw [run_ofStack p.2 hFits] at hRun
    obtain rfl := Option.some.inj hRun
    have hPath := hFits.isPath_complete (p.2.imp fun _ h => h.1)
    obtain ⟨hSome, hNext⟩ := repeat_eq (recorded (p.1.complete stack).1)
      (inRange_recorded (inRange_of_isPath p.2 hPath))
    rw [runOf] at hAgain
    rw [hAgain, Option.map_some] at hSome
    obtain ⟨next, hAdvance⟩ := Option.isSome_iff_exists.mp (Option.some.inj hSome).symm
    rw [hNext next hAdvance] at hAgain
    obtain ⟨_, rfl⟩ := Prod.mk.inj (Option.some.inj hAgain)
    exact ⟨next, hPath.fits_advance hAdvance, rfl⟩

/-- The generators the model checker records with: an `EnumRandom` at the start of a round,
or in simulation a `UnixRandom` after `reset`, over any values of `::random`. -/
inductive Recorder (p : Program α)
  | enum (g : EnumRandom) (h : Round p.1 g)
  | unix (source : Nat → Fin randRange)

def record (p : Program α) : Recorder p → Option (Calls × α × Trace)
  | .enum g _ => (p.1.run EnumRandom.random g).map fun r => (r.1, r.2.1, r.2.2.choices)
  | .unix source => (p.1.run UnixRandom.random ⟨[], source, 0⟩).map
      fun r => (r.1, r.2.1, r.2.2.choices)

def asksTrivial (source : Nat → Fin randRange) : DecisionTree α → Nat → Bool
  | .done _, _ => false
  | .choose n next, k =>
    n == 1 || asksTrivial source (next (n * (source k).val / randRange)) (k + 1)

theorem record_enum {p : Program α} {g : EnumRandom} (h : Round p.1 g) :
    ∃ calls a, p.1.IsPath calls a ∧
      record p (.enum g h) = some (calls, a, choicesOf (recorded calls)) := by
  obtain ⟨stack, hFits, rfl⟩ := h.exists_stack
  refine ⟨_, _, hFits.isPath_complete (p.2.imp fun _ h => h.1), ?_⟩
  rw [record, run_ofStack p.2 hFits]
  rfl

theorem run_unix {t : DecisionTree α} (ht : t.Widths fun n => 0 < n ∧ n ≤ maxCeil)
    (g : UnixRandom) :
    ∃ calls a g', t.IsPath calls a ∧ t.run UnixRandom.random g = some (calls, a, g') ∧
      g'.choices = g.choices ++ choicesOf calls ∧
      (asksTrivial g.source t g.drawn = false ↔ ∀ call ∈ calls, call.2 ≠ 1) := by
  induction t generalizing g with
  | done a => exact ⟨[], a, g, .done a, rfl, by simp [choicesOf], by simp [asksTrivial]⟩
  | choose n next ih =>
    obtain ⟨⟨hPos, hMax⟩, hNext⟩ := ht
    have hLt := g.draw_lt hPos
    obtain ⟨calls, a, g', hPath, hRun, hChoices, hTrivial⟩ := ih (g.draw n) (hNext _ hLt)
      { g with choices := g.choices ++ [UInt8.ofNat (g.draw n)], drawn := g.drawn + 1 }
    refine ⟨(g.draw n, n) :: calls, a, g', .choose hLt hPath, ?_, ?_, ?_⟩
    · simp [DecisionTree.run, UnixRandom.random, hMax, hRun]
    · simpa [choicesOf] using hChoices
    · simp only [asksTrivial, Bool.or_eq_false_iff, beq_eq_false_iff_ne, List.forall_mem_cons]
      exact and_congr_right fun _ => hTrivial

theorem recorded_length_lt {calls : Calls} (h : ∃ call ∈ calls, call.2 = 1) :
    (recorded calls).length < calls.length := by
  obtain ⟨call, hCall, hOne⟩ := h
  exact List.length_filter_lt_length_iff_exists.mpr ⟨call, hCall, by simp [hOne]⟩

theorem replay_consumes {calls : Calls} {g g' : ReplayRandom}
    (h : Answers ReplayRandom.random g calls g') : g'.cur = g.cur + (recorded calls).length := by
  induction h with
  | nil g => simp
  | @cons g g₁ g' c n calls hFirst hRest ih =>
    unfold ReplayRandom.random at hFirst
    split at hFirst
    · split at hFirst
      · cases hFirst
        rename_i hOne
        rw [ih, hOne, recorded_trivial]
      · rename_i hOne
        obtain ⟨stored, _, hStored⟩ := Option.bind_eq_some_iff.mp hFirst
        split at hStored
        · cases hStored
          rw [ih, recorded_branching hOne, List.length_cons]
          exact Nat.succ_add_eq_add_succ g.cur _
        · cases hStored
    · cases hFirst

/-- The recorded choices replay the run exactly when the recorder is an `EnumRandom`, or the
draws of the `UnixRandom` lead the program to no choice of ceiling one. -/
theorem replay_agrees_iff (p : Program α) (r : Recorder p) :
    ∃ calls a choices, record p r = some (calls, a, choices) ∧
      (Replays p.1 calls a choices ↔
        match r with
        | .enum _ _ => True
        | .unix source => asksTrivial source p.1 0 = false) := by
  cases r with
  | enum g h =>
    obtain ⟨calls, a, hPath, hRecord⟩ := record_enum h
    exact ⟨calls, a, _, hRecord, iff_of_true (replays_recorded p.2 hPath) trivial⟩
  | unix source =>
    obtain ⟨calls, a, g', hPath, hRun, hChoices, hTrivial⟩ := run_unix p.2 ⟨[], source, 0⟩
    rw [List.nil_append] at hChoices
    refine ⟨calls, a, choicesOf calls, by rw [record, hRun, Option.map_some, hChoices], ?_⟩
    refine Iff.trans ?_ hTrivial.symm
    constructor
    · intro hReplay call hCall hOne
      have hCur := replay_consumes (DecisionTree.answers_of_run hReplay)
      have hLt := recorded_length_lt ⟨call, hCall, hOne⟩
      simp only [ReplayRandom.load, length_choicesOf] at hCur
      omega
    · intro hNone
      have hAll : recorded calls = calls :=
        List.filter_eq_self.mpr fun call hCall => by simpa using hNone call hCall
      have hReplay := replays_recorded p.2 hPath
      rwa [hAll] at hReplay

def trivialThenBinary : Program Nat where
  val := .choose 1 fun _ => .choose 2 fun c => .done c
  property := by
    refine ⟨by decide, fun _ _ => ⟨by decide, fun _ _ => trivial⟩⟩

/-- A `UnixRandom` that draws the largest value records `[0, 1]` for the two calls, and the
replay reads the leading zero at the second call. -/
theorem unix_record_misread :
    record trivialThenBinary (.unix fun _ => ⟨randRange - 1, by decide⟩) =
        some ([(0, 1), (1, 2)], 1, [0, 1]) ∧
      ¬Replays trivialThenBinary.1 [(0, 1), (1, 2)] 1 [0, 1] := by
  constructor
  · decide
  · unfold Replays
    decide

end Explode.Mcl
