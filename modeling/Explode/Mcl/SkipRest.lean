import Explode.Mcl.Recording

/-!
# Skipping the rest of a choice point

A program may ask for the remaining answers at its last choice point to be
skipped. The generator then stores the last answer in place of the one it gave.
-/

namespace Explode.Mcl

open ChoiceTree EnumRandom

universe u v
variable {α : Type u}

def EnumRandom.skipRest (g : EnumRandom) : Option EnumRandom :=
  if 0 ≤ g.cur ∧ g.cur < g.ceils.length then
    (g.ceils[g.cur.toNat]?).map fun ceil =>
      if ceil ≤ 1 then g else { g with choices := g.choices.set g.cur.toNat (ceil - 1) }
  else none

/-- `xe_random_skip_rest`. For the other classes the cast gives a null pointer. -/
def Random.skipRest : Random → Option Random
  | enum g => g.skipRest.map enum
  | unix _ => none
  | replay _ => none

inductive SkipTree (α : Type u) where
  | done (a : α) : SkipTree α
  | choose (width : Nat) (next : Nat → SkipTree α) : SkipTree α
  | skip (rest : SkipTree α) : SkipTree α

inductive ChoiceEvent
  | answer (c width : Nat)
  | skip
  deriving DecidableEq, Repr

abbrev ChoiceEvents := List ChoiceEvent

namespace SkipTree

def Widths (P : Nat → Prop) : SkipTree α → Prop
  | done _ => True
  | choose n next => P n ∧ ∀ c < n, Widths P (next c)
  | skip rest => Widths P rest

inductive IsPath : SkipTree α → ChoiceEvents → α → Prop
  | done (a : α) : IsPath (done a) [] a
  | choose {n c : Nat} {next : Nat → SkipTree α} {events : ChoiceEvents} {a : α} (hc : c < n)
      (h : IsPath (next c) events a) : IsPath (choose n next) (.answer c n :: events) a
  | skip {rest : SkipTree α} {events : ChoiceEvents} {a : α} (h : IsPath rest events a) :
      IsPath (skip rest) (.skip :: events) a

def run : SkipTree α → Random → Option (ChoiceEvents × α × Random)
  | done a, g => some ([], a, g)
  | choose n next, g => (g.random n).bind fun answer =>
      (run (next answer.1) answer.2).map fun r => (.answer answer.1 n :: r.1, r.2)
  | skip rest, g => g.skipRest.bind fun g => (run rest g).map fun r => (.skip :: r.1, r.2)

/-- `do { run the program } while(repeat())`, with the number of rounds bounded. -/
def enumerate (t : SkipTree α) : Nat → Random → Option (List (ChoiceEvents × α × Random))
  | 0, _ => none
  | fuel + 1, g =>
    (t.run g).bind fun r => (r.2.2.repeat).bind fun again =>
      if again.1 then (enumerate t fuel again.2).map (r :: ·) else some [r]

end SkipTree

/-- The first run skips right after an answer, and the second path has a larger answer there. -/
def Removes (r q : ChoiceEvents) : Prop :=
  ∃ before v w n rest rest', r = before ++ .answer v n :: .skip :: rest ∧
    q = before ++ .answer w n :: rest' ∧ v < w

/-- The loop runs the paths that no run removes, each once, and the stored choices of a run
replay it. -/
def SkipsRest (t : SkipTree α) (g : EnumRandom) : Prop :=
  ∃ runs, (∀ fuel, runs.length ≤ fuel → t.enumerate fuel (Random.enum g).reset = some runs) ∧
    (∀ events a, (∃ g', (events, a, g') ∈ runs) ↔
      t.IsPath events a ∧ ∀ r ∈ runs, ¬Removes r.1 events) ∧
    (runs.map Prod.fst).Nodup ∧
    ∀ r ∈ runs, ∃ g', t.run (.replay (.load r.2.2.choices)) = some (r.1, r.2.1, g')

namespace SkipTree

variable {t : SkipTree α} {events : ChoiceEvents} {a : α}

theorem not_skip_of_replay {g : ReplayRandom} {g' : Random}
    (hRun : t.run (.replay g) = some (events, a, g')) : .skip ∉ events := by
  induction t generalizing g events with
  | done b =>
    cases hRun
    simp
  | choose n next ih =>
    obtain ⟨⟨c, g₁⟩, hFirst, hRest⟩ := Option.bind_eq_some_iff.mp hRun
    obtain ⟨answer, _, hEq⟩ := Option.map_eq_some_iff.mp hFirst
    cases hEq
    obtain ⟨⟨events, b, g₂⟩, hTail, hEq⟩ := Option.map_eq_some_iff.mp hRest
    cases hEq
    simp only [List.mem_cons, reduceCtorEq, false_or]
    exact ih _ hTail
  | skip rest => cases hRun

theorem exists_isPath (h : t.Widths (0 < ·)) : ∃ events a, t.IsPath events a := by
  induction t with
  | done a => exact ⟨[], a, .done a⟩
  | choose n next ih =>
    obtain ⟨events, a, hPath⟩ := ih 0 (h.2 0 h.1)
    exact ⟨_, a, .choose h.1 hPath⟩
  | skip rest ih =>
    obtain ⟨events, a, hPath⟩ := ih h
    exact ⟨_, a, .skip hPath⟩

theorem Widths.imp {P Q : Nat → Prop} (hPQ : ∀ n, P n → Q n) (h : t.Widths P) : t.Widths Q := by
  induction t with
  | done a => trivial
  | choose n next ih => exact ⟨hPQ n h.1, fun c hc => ih c (h.2 c hc)⟩
  | skip rest ih => exact ih h

def erase : SkipTree α → DecisionTree α
  | done a => .done a
  | choose n next => .choose n fun c => erase (next c)
  | skip rest => erase rest

theorem Widths.erase {P : Nat → Prop} (h : t.Widths P) : t.erase.Widths P := by
  induction t with
  | done a => trivial
  | choose n next ih => exact ⟨h.1, fun c hc => ih c (h.2 c hc)⟩
  | skip rest ih => exact ih h

def Plain : SkipTree α → Prop
  | done _ => True
  | choose n next => ∀ c < n, Plain (next c)
  | skip _ => False

theorem plain_of_paths (h : t.Widths (0 < ·))
    (hPaths : ∀ events a, t.IsPath events a → .skip ∉ events) : t.Plain := by
  induction t with
  | done a => trivial
  | choose n next ih =>
    intro c hc
    refine ih c (h.2 c hc) fun events a hPath hSkip => ?_
    exact hPaths _ a (.choose hc hPath) (List.mem_cons_of_mem _ hSkip)
  | skip rest =>
    obtain ⟨events, a, hPath⟩ := exists_isPath (t := rest) h
    exact hPaths _ a (.skip hPath) List.mem_cons_self

def eventsOf (calls : Calls) : ChoiceEvents := calls.map fun call => .answer call.1 call.2

theorem eventsOf_injective {calls calls' : Calls} (h : eventsOf calls = eventsOf calls') :
    calls = calls' := by
  refine List.map_injective_iff.mpr ?_ h
  rintro ⟨c, n⟩ ⟨c', n'⟩ hEq
  cases hEq
  rfl

theorem not_skip_eventsOf (calls : Calls) : ChoiceEvent.skip ∉ eventsOf calls := by
  simp [eventsOf]

theorem Plain.isPath_iff (hPlain : t.Plain) :
    t.IsPath events a ↔ ∃ calls, t.erase.IsPath calls a ∧ events = eventsOf calls := by
  induction t generalizing events with
  | done b =>
    constructor
    · rintro ⟨⟩
      exact ⟨[], .done a, rfl⟩
    · rintro ⟨_, ⟨⟩, rfl⟩
      exact .done a
  | choose n next ih =>
    constructor
    · rintro ⟨⟩
      rename_i c events hc h
      obtain ⟨calls, hPath, rfl⟩ := (ih c (hPlain c hc)).mp h
      exact ⟨(c, n) :: calls, .choose hc hPath, rfl⟩
    · rintro ⟨_, ⟨⟩, rfl⟩
      rename_i c calls hc h
      exact .choose hc ((ih c (hPlain c hc)).mpr ⟨calls, h, rfl⟩)
  | skip rest => cases hPlain

theorem Plain.run_eq {σ : Type v} {f : σ → Random} {random : Nat → σ → Option (Nat × σ)}
    (hf : ∀ n g, (f g).random n = (random n g).map fun r => (r.1, f r.2)) (hPlain : t.Plain)
    {calls : Calls} (hPath : t.erase.IsPath calls a) {g g' : σ}
    (hAnswers : Answers random g calls g') : t.run (f g) = some (eventsOf calls, a, f g') := by
  induction t generalizing calls g with
  | done b =>
    cases hPath
    cases hAnswers
    rfl
  | choose n next ih =>
    cases hPath with
    | @choose _ c _ calls _ hc h =>
      cases hAnswers with
      | cons hFirst hRest =>
        rw [run, hf, hFirst, Option.map_some, Option.bind_some, ih c (hPlain c hc) h hRest]
        rfl
  | skip rest => cases hPlain

theorem Plain.enumerate_eq {α : Type u} {t : SkipTree α} (hPlain : t.Plain)
    (ht : t.Widths fun n => 0 < n ∧ n ≤ maxCeil) {g : EnumRandom} (hRound : Round t.erase g)
    (fuel : Nat) : t.enumerate fuel (.enum g) = (Mcl.enumerate t.erase fuel g).map
      (List.map fun r => (eventsOf r.1, r.2.1, .enum r.2.2)) := by
  induction fuel generalizing g with
  | zero => rfl
  | succ fuel ih =>
    let p : Program α := ⟨t.erase, ht.erase⟩
    obtain ⟨stack, hFits, rfl⟩ := Round.exists_stack (p := p) hRound
    obtain ⟨⟨calls, b, g₁⟩, hPlainRun, hPath⟩ : ∃ r : Run α,
        t.erase.run EnumRandom.random (ofStack stack (-1)) = some r ∧
          t.erase.IsPath r.1 r.2.1 :=
      ⟨_, run_ofStack ht.erase hFits, hFits.isPath_complete (ht.erase.imp fun _ h => h.1)⟩
    have hRun := hPlain.run_eq (f := Random.enum) (fun _ _ => rfl) hPath
      (DecisionTree.answers_of_run hPlainRun)
    rw [SkipTree.enumerate, Mcl.enumerate, hRun, hPlainRun, Option.bind_some, Option.bind_some]
    simp only [Random.repeat]
    cases hRepeat : EnumRandom.repeat g₁ with
    | none => rfl
    | some again =>
      obtain ⟨more, g'⟩ := again
      cases more with
      | false => rfl
      | true =>
        have hNext := ih (.again hRound hPlainRun hRepeat)
        simp only [Option.map_some, Option.bind_some, if_true, hNext, Option.map_map]
        rfl

end SkipTree

open SkipTree

/-- Skipping works only for a program that never skips. -/
theorem skipsRest_iff (t : SkipTree α) (ht : t.Widths fun n => 0 < n ∧ n ≤ maxCeil)
    (g : EnumRandom) : SkipsRest t g ↔ ∀ events a, t.IsPath events a → .skip ∉ events := by
  constructor
  · rintro ⟨runs, _, hRuns, _, hReplay⟩ events a hPath hSkip
    -- a run that skips would be replayed, with its skip
    have hNone : ∀ r ∈ runs, .skip ∉ r.1 := by
      intro r hr
      obtain ⟨g', hRun⟩ := hReplay r hr
      exact not_skip_of_replay hRun
    have hKept : ∃ g', (events, a, g') ∈ runs := by
      refine (hRuns events a).mpr ⟨hPath, fun r hr hRemoves => ?_⟩
      obtain ⟨before, v, w, n, rest, rest', hEq, _, _⟩ := hRemoves
      exact hNone r hr (by simp [hEq])
    obtain ⟨g', hMem⟩ := hKept
    exact hNone _ hMem hSkip
  · intro hNone
    have hPlain := plain_of_paths (ht.imp fun _ h => h.1) hNone
    let p : Program α := ⟨t.erase, ht.erase⟩
    have hReset : (Random.enum g).reset = .enum g.reset := rfl
    refine ⟨(p.1.paths.map runOf).map fun r => (eventsOf r.1, r.2.1, .enum r.2.2), ?_, ?_, ?_, ?_⟩
    · intro fuel hFuel
      rw [hReset, hPlain.enumerate_eq ht (.reset g)]
      have hAll := enumerate_reset p g fuel (by simpa using hFuel)
      rw [show Mcl.enumerate t.erase fuel g.reset = _ from hAll]
      rfl
    · intro events a
      have hRemoves : ∀ r ∈ (p.1.paths.map runOf).map fun r =>
          ((eventsOf r.1, r.2.1, .enum r.2.2) : ChoiceEvents × α × Random),
          ¬Removes r.1 events := by
        rintro r hr ⟨before, v, w, n, rest, rest', hEq, _, _⟩
        obtain ⟨r', _, rfl⟩ := List.mem_map.mp hr
        have hSame : eventsOf r'.1 = before ++ .answer v n :: .skip :: rest := hEq
        exact not_skip_eventsOf r'.1 (by simp [hSame])
      rw [and_iff_left hRemoves, hPlain.isPath_iff]
      constructor
      · rintro ⟨g', hMem⟩
        obtain ⟨r', hr', hEq⟩ := List.mem_map.mp hMem
        obtain ⟨⟨calls, b⟩, hIn, rfl⟩ := List.mem_map.mp hr'
        cases hEq
        exact ⟨calls, (DecisionTree.mem_paths_iff _ _ _).mp hIn, rfl⟩
      · rintro ⟨calls, hPath, rfl⟩
        have hIn := (DecisionTree.mem_paths_iff _ calls a).mpr hPath
        exact ⟨_, List.mem_map.mpr ⟨_, List.mem_map_of_mem hIn, rfl⟩⟩
    · have hAnswers := p.1.paths_lex
      rw [List.map_map, List.map_map, List.Nodup, List.pairwise_map]
      refine hAnswers.imp fun {q q'} hLt hEq => ?_
      have hSame : q.1 = q'.1 := eventsOf_injective hEq
      rw [hSame] at hLt
      exact List.lt_irrefl _ hLt
    · intro r hr
      obtain ⟨r', hr', rfl⟩ := List.mem_map.mp hr
      obtain ⟨⟨calls, a⟩, hIn, rfl⟩ := List.mem_map.mp hr'
      have hPath := (DecisionTree.mem_paths_iff _ calls a).mp hIn
      have hReplay : Replays t.erase calls a (choicesOf (recorded calls)) :=
        replays_recorded ht.erase hPath
      exact ⟨_, hPlain.run_eq (f := Random.replay) (fun _ _ => rfl) hPath
        (DecisionTree.answers_of_run hReplay)⟩

def skipThenChoose : SkipTree Nat := .choose 3 fun c => .skip (.choose 2 fun d => .done (2 * c + d))

def chooseOnly : SkipTree Nat := .choose 2 fun c => .done c

theorem skipsRest_iff_samples : SkipsRest chooseOnly ⟨[], [], 0⟩ ∧
    ¬SkipsRest skipThenChoose ⟨[], [], 0⟩ := by
  constructor
  · refine (skipsRest_iff chooseOnly ⟨by decide, fun _ _ => trivial⟩ _).mpr ?_
    rintro _ _ ⟨⟩
    rename_i h
    cases h
    simp
  · rw [skipsRest_iff skipThenChoose ⟨by decide, fun _ _ => ⟨by decide, fun _ _ => trivial⟩⟩]
    intro hNone
    have hPath : skipThenChoose.IsPath [.answer 0 3, .skip, .answer 0 2] 0 :=
      .choose (by decide) (.skip (.choose (by decide) (.done _)))
    exact hNone _ _ hPath (by simp)

/-- After the first run the stack holds the last answer of the first choice point, and the second
run goes there. The replay of the first run fails. -/
theorem skip_then_choose_runs :
    ((skipThenChoose.enumerate 2 (Random.enum ⟨[], [], 0⟩).reset).map
      (List.map fun r => (r.1, r.2.2.choices))) =
        some [([.answer 0 3, .skip, .answer 0 2], [2, 0]),
          ([.answer 2 3, .skip, .answer 1 2], [2, 1])] ∧
    Removes [.answer 0 3, .skip, .answer 0 2] [.answer 2 3, .skip, .answer 1 2] ∧
    (skipThenChoose.run (.replay (.load [2, 0]))).isNone := by
  refine ⟨by decide, ⟨[], 0, 2, 3, _, _, rfl, rfl, by decide⟩, by decide⟩

end Explode.Mcl
