import Explode.Mcl.Random

/-!
# Choice enumeration

The loop `reset(); do { run the program } while(repeat())` on an `EnumRandom`.
The generator holds a stack of counters with their ceilings.
-/

namespace Explode.Mcl

open ChoiceTree

universe u
variable {α : Type u}

def InRange (calls : Calls) : Prop :=
  ∀ call ∈ calls, call.1 < call.2 ∧ call.2 ≤ maxCeil

namespace EnumRandom

variable (stack : Calls)

def ceilsOf : List Choice := stack.map fun call => UInt8.ofNat call.2

def choicesOf : Trace := stack.map fun call => UInt8.ofNat call.1

@[simp] theorem length_ceilsOf : (ceilsOf stack).length = stack.length :=
  List.length_map _

@[simp] theorem length_choicesOf : (choicesOf stack).length = stack.length :=
  List.length_map _

theorem ceilsOf_concat (c n : Nat) (ceils : List Choice) :
    ceilsOf (stack ++ [(c, n)]) ++ ceils = ceilsOf stack ++ UInt8.ofNat n :: ceils := by
  simp [ceilsOf]

theorem choicesOf_concat (c n : Nat) (choices : Trace) :
    choicesOf (stack ++ [(c, n)]) ++ choices = choicesOf stack ++ UInt8.ofNat c :: choices := by
  simp [choicesOf]

def ofStack (cur : Int) : EnumRandom := ⟨ceilsOf stack, choicesOf stack, cur⟩

theorem toNat_choice {n : Nat} (h : n ≤ maxCeil) : (UInt8.ofNat n).toNat = n :=
  UInt8.toNat_ofNat_of_lt (Nat.lt_succ_of_le h)

theorem random_trivial (g : EnumRandom) : random 1 g = some (0, g) := rfl

theorem random_old {c n : Nat} (hn : n ≠ 1) (hc : c < n) (hMax : n ≤ maxCeil) (pre rest : Calls) :
    random n (ofStack (pre ++ (c, n) :: rest) (pre.length - 1)) =
      some (c, ofStack (pre ++ (c, n) :: rest) pre.length) := by
  have hRange : 0 < n ∧ n ≤ maxCeil := ⟨by omega, hMax⟩
  have hIndex : ((pre.length : Int) - 1 + 1).toNat = pre.length := by omega
  have hOld : (pre.length : Int) - 1 + 1 <
      (ofStack (pre ++ (c, n) :: rest) (pre.length - 1)).ceils.length := by
    simp only [ofStack, ceilsOf, List.length_map, List.length_append, List.length_cons]
    omega
  have hGet : (ofStack (pre ++ (c, n) :: rest) (pre.length - 1)).choices[pre.length]? =
      some (UInt8.ofNat c) := by
    simp [ofStack, choicesOf]
  unfold random
  rw [if_pos hRange, if_neg hn]
  simp only [show (ofStack (pre ++ (c, n) :: rest) (pre.length - 1)).cur = pre.length - 1 from rfl]
  rw [if_pos hOld, hIndex, hGet, Option.map_some, toNat_choice (by omega : c ≤ maxCeil)]
  simp [ofStack]

theorem random_new {n : Nat} (hn : n ≠ 1) (hPos : 0 < n) (hMax : n ≤ maxCeil) (pre : Calls) :
    random n (ofStack pre (pre.length - 1)) = some (0, ofStack (pre ++ [(0, n)]) pre.length) := by
  unfold random
  rw [if_pos ⟨hPos, hMax⟩, if_neg hn, if_neg]
  · simp [ofStack, ceilsOf, choicesOf]
  · simp [ofStack, ceilsOf]

theorem answers_of_recorded (calls pre stack zeros : Calls) (hRange : InRange calls)
    (hZeros : ∀ call ∈ zeros, call.1 = 0) (hRecord : recorded calls = stack ++ zeros) :
    Answers random (ofStack (pre ++ stack) (pre.length - 1)) calls
      (ofStack (pre ++ recorded calls) ((pre ++ recorded calls).length - 1)) := by
  induction calls generalizing pre stack zeros with
  | nil =>
    obtain ⟨rfl, rfl⟩ : stack = [] ∧ zeros = [] := by
      simpa [eq_comm] using hRecord
    simpa using Answers.nil _
  | cons call calls ih =>
    obtain ⟨c, n⟩ := call
    obtain ⟨⟨hc, hMax⟩, hRest⟩ := List.forall_mem_cons.mp hRange
    by_cases hn : n = 1
    · subst hn
      obtain rfl : c = 0 := by simpa using hc
      rw [recorded_trivial] at hRecord ⊢
      exact .cons (random_trivial _) (ih pre stack zeros hRest hZeros hRecord)
    · rw [recorded_branching hn] at hRecord ⊢
      cases stack with
      | nil =>
        -- a new choice point is pushed with value zero
        rw [List.nil_append] at hRecord
        obtain rfl : c = 0 := hZeros (c, n) (hRecord ▸ List.mem_cons_self)
        rw [List.append_nil]
        have hTail := ih (pre ++ [(0, n)]) [] zeros.tail hRest
          (fun call h => hZeros call (List.mem_of_mem_tail h)) (by rw [← hRecord]; rfl)
        refine .cons (random_new hn hc hMax pre) ?_
        simpa [List.append_assoc] using hTail
      | cons top stack =>
        obtain ⟨rfl, hRest'⟩ := List.cons_eq_cons.mp hRecord
        have hTail := ih (pre ++ [(c, n)]) stack zeros hRest hZeros hRest'
        refine .cons (random_old hn hc hMax pre stack) ?_
        simpa [List.append_assoc] using hTail

theorem succ_choice_lt {c n : Nat} (hc : c < n) (hMax : n ≤ maxCeil) :
    UInt8.ofNat c + 1 < UInt8.ofNat n ↔ c + 1 < n := by
  have hSucc : UInt8.ofNat c + 1 = UInt8.ofNat (c + 1) := by simp
  rw [hSucc, UInt8.lt_iff_toNat_lt, toNat_choice hMax, toNat_choice (by omega)]

theorem carry_concat {c n : Nat} (hc : c < n) (hMax : n ≤ maxCeil) (stack : Calls)
    (ceils choices : List Choice) (cur : Int) :
    carry (stack.length + 1) ⟨ceilsOf stack ++ UInt8.ofNat n :: ceils,
        choicesOf stack ++ UInt8.ofNat c :: choices, cur⟩ =
      if c + 1 < n then
        some ⟨ceilsOf stack ++ UInt8.ofNat n :: ceils,
          choicesOf stack ++ UInt8.ofNat (c + 1) :: choices, stack.length⟩
      else carry stack.length ⟨ceilsOf stack ++ UInt8.ofNat n :: ceils,
          choicesOf stack ++ UInt8.ofNat (c + 1) :: choices, stack.length⟩ := by
  simp [carry, ceilsOf, choicesOf, succ_choice_lt hc hMax]

/-- The carry loop ends at the counter that `advance` increments. What lies above the
loop's range is junk that `repeat` cuts off. -/
theorem carry_eq (hRange : InRange stack) (ceils choices : List Choice) (cur : Int) :
    ∃ g, carry stack.length ⟨ceilsOf stack ++ ceils, choicesOf stack ++ choices, cur⟩ = some g ∧
      (advance stack = none → g.cur = -1) ∧
      ∀ next, advance stack = some next → g.cur = next.length - 1 ∧
        g.ceils.take next.length = ceilsOf next ∧ g.choices.take next.length = choicesOf next := by
  induction stack using List.reverseRecOn generalizing ceils choices cur with
  | nil => exact ⟨_, rfl, fun _ => rfl, fun next h => by cases h⟩
  | append_singleton stack call ih =>
    obtain ⟨c, n⟩ := call
    obtain ⟨hStack, hCall⟩ := List.forall_mem_append.mp hRange
    obtain ⟨hc, hMax⟩ : c < n ∧ n ≤ maxCeil := hCall (c, n) (List.mem_singleton_self _)
    rw [List.length_append, List.length_singleton, ceilsOf_concat, choicesOf_concat,
      carry_concat hc hMax, advance_concat]
    by_cases hStop : c + 1 < n
    · rw [if_pos hStop, if_pos hStop]
      refine ⟨_, rfl, by simp, ?_⟩
      intro next hNext
      cases hNext
      refine ⟨by simp, ?_, ?_⟩
      · rw [← ceilsOf_concat stack (c + 1)]
        exact List.take_left' (length_ceilsOf _)
      · rw [← choicesOf_concat stack (c + 1) n]
        exact List.take_left' (length_choicesOf _)
    · rw [if_neg hStop, if_neg hStop]
      exact ih hStack _ _ _

theorem repeat_eq (hRange : InRange stack) :
    («repeat» (ofStack stack (stack.length - 1))).map Prod.fst = some (advance stack).isSome ∧
      ∀ next, advance stack = some next →
        «repeat» (ofStack stack (stack.length - 1)) = some (true, ofStack next (-1)) := by
  obtain ⟨g, hCarry, hNone, hSome⟩ := carry_eq stack hRange [] [] (stack.length - 1)
  rw [List.append_nil, List.append_nil] at hCarry
  change carry stack.length (ofStack stack (stack.length - 1)) = some g at hCarry
  have hLength : ((ofStack stack (stack.length - 1)).cur + 1).toNat = stack.length := by
    simp [ofStack]
  unfold «repeat»
  rw [hLength, hCarry, Option.map_some]
  cases hAdvance : advance stack with
  | none => simp [hNone hAdvance]
  | some next =>
    have hPos : 0 < next.length := advance_ne_nil hAdvance
    obtain ⟨hCur, hCeils, hChoices⟩ := hSome next hAdvance
    have hNeg : ¬g.cur < 0 := by omega
    have hTake : (g.cur + 1).toNat = next.length := by omega
    simp only [if_neg hNeg, hTake, hCeils, hChoices]
    constructor
    · rfl
    · rintro _ ⟨⟩
      rfl

end EnumRandom

open EnumRandom

abbrev Run (α : Type u) := Calls × α × EnumRandom

/-- `do { run the program } while(repeat())`, with the number of rounds bounded. -/
def enumerate (t : DecisionTree α) : Nat → EnumRandom → Option (List (Run α))
  | 0, _ => none
  | fuel + 1, g =>
    (t.run EnumRandom.random g).bind fun r =>
      (EnumRandom.repeat r.2.2).bind fun again =>
        if again.1 then (enumerate t fuel again.2).map (r :: ·) else some [r]

def runOf (p : Calls × α) : Run α :=
  (p.1, p.2, ofStack (recorded p.1) ((recorded p.1).length - 1))

theorem inRange_of_isPath {t : DecisionTree α} (ht : t.Widths fun n => 0 < n ∧ n ≤ maxCeil)
    {calls : Calls} {a : α} (h : t.IsPath calls a) : InRange calls :=
  fun call hCall => ⟨h.lt_width call hCall, (h.widths ht call hCall).2⟩

theorem inRange_recorded {calls : Calls} (h : InRange calls) : InRange (recorded calls) :=
  fun call hCall => h call (List.mem_of_mem_filter hCall)

theorem run_ofStack {t : DecisionTree α} (ht : t.Widths fun n => 0 < n ∧ n ≤ maxCeil)
    {stack : Calls} (h : t.Fits stack) :
    t.run EnumRandom.random (ofStack stack (-1)) = some (runOf (t.complete stack)) := by
  have hPath := h.isPath_complete (ht.imp fun _ h => h.1)
  obtain ⟨zeros, hZeros, hRecord⟩ := h.recorded_complete
  have hAnswers := answers_of_recorded (t.complete stack).1 [] stack zeros
    (inRange_of_isPath ht hPath) hZeros hRecord
  exact hPath.run_eq hAnswers

theorem enumerate_of_chain {t : DecisionTree α} (ht : t.Widths fun n => 0 < n ∧ n ≤ maxCeil)
    (rest : List (Calls × α)) (stack : Calls) (hFits : t.Fits stack)
    (hChain : (t.complete stack :: rest).IsChain t.Next)
    (hLast : ∀ p ∈ (t.complete stack :: rest).getLast?, advance (recorded p.1) = none)
    (fuel : Nat) (hFuel : rest.length < fuel) :
    enumerate t fuel (ofStack stack (-1)) = some ((t.complete stack :: rest).map runOf) := by
  induction rest generalizing stack fuel with
  | nil =>
    obtain ⟨fuel, rfl⟩ := Nat.exists_eq_succ_of_ne_zero (by omega : fuel ≠ 0)
    have hPath := hFits.isPath_complete (ht.imp fun _ h => h.1)
    have hStop := hLast (t.complete stack) (by simp)
    obtain ⟨hAgain, _⟩ := repeat_eq (recorded (t.complete stack).1)
      (inRange_recorded (inRange_of_isPath ht hPath))
    obtain ⟨⟨again, g⟩, hRepeat, hEq⟩ := Option.map_eq_some_iff.mp hAgain
    rw [hStop] at hEq
    obtain rfl : again = false := hEq
    rw [enumerate, run_ofStack ht hFits, Option.bind_some, runOf, hRepeat]
    rfl
  | cons q rest ih =>
    obtain ⟨fuel, rfl⟩ := Nat.exists_eq_succ_of_ne_zero (by omega : fuel ≠ 0)
    obtain ⟨⟨next, hAdvance, rfl⟩, hRest⟩ := List.isChain_cons_cons.mp hChain
    have hPath := hFits.isPath_complete (ht.imp fun _ h => h.1)
    obtain ⟨_, hRepeat⟩ := repeat_eq (recorded (t.complete stack).1)
      (inRange_recorded (inRange_of_isPath ht hPath))
    have hTail := ih next (hPath.fits_advance hAdvance) hRest
      (fun p hp => hLast p (by rwa [List.getLast?_cons_cons])) fuel (by simpa using hFuel)
    rw [enumerate, run_ofStack ht hFits, Option.bind_some, runOf, hRepeat next hAdvance,
      Option.bind_some, if_pos rfl, hTail]
    rfl

theorem enumerate_reset (p : Program α) (g : EnumRandom) (fuel : Nat)
    (hFuel : (p.1.paths).length ≤ fuel) :
    enumerate p.1 fuel g.reset = some (p.1.paths.map runOf) := by
  have hPos : p.1.Widths (0 < ·) := p.2.imp fun _ h => h.1
  obtain ⟨first, rest, hPaths⟩ := List.exists_cons_of_ne_nil (p.1.paths_ne_nil hPos)
  have hHead := p.1.head?_paths hPos
  rw [hPaths, List.head?_cons] at hHead
  obtain rfl := Option.some.inj hHead
  have hChain := p.1.isChain_paths hPos
  have hLast := p.1.advance_last hPos
  rw [hPaths] at hChain hLast hFuel ⊢
  exact enumerate_of_chain p.2 rest [] (.nil _) hChain hLast fuel hFuel

theorem runOf_choice_lt {p : Program α} {calls : Calls} {a : α} (h : p.1.IsPath calls a) :
    ∀ c ∈ (runOf (calls, a)).2.2.choices, (c + 1).toNat = c.toNat + 1 := by
  intro c hc
  obtain ⟨⟨n, ceil⟩, hCall, rfl⟩ := List.mem_map.mp hc
  obtain ⟨hn, hMax⟩ := inRange_recorded (inRange_of_isPath p.2 h) _ hCall
  have hSmall : n + 1 ≤ maxCeil := Nat.le_trans hn hMax
  have hSucc : UInt8.ofNat n + 1 = UInt8.ofNat (n + 1) := by simp
  rw [hSucc, toNat_choice hSmall, toNat_choice (by omega)]

/-- The loop ends. It runs the program once along each root-to-leaf path, in increasing
lexicographic order of the answers. -/
theorem enumeration_exact (p : Program α) (g : EnumRandom) :
    ∃ runs : List (Run α),
      (∀ fuel, runs.length ≤ fuel → enumerate p.1 fuel g.reset = some runs) ∧
      (∀ calls a, p.1.IsPath calls a ↔ ∃ g', (calls, a, g') ∈ runs) ∧
      (runs.Pairwise fun r s => r.1.map Prod.fst < s.1.map Prod.fst) ∧
      ∀ r ∈ runs, ∀ c ∈ r.2.2.choices, (c + 1).toNat = c.toNat + 1 := by
  refine ⟨p.1.paths.map runOf, ?_, ?_, ?_, ?_⟩
  · intro fuel hFuel
    exact enumerate_reset p g fuel (by simpa using hFuel)
  · intro calls a
    rw [← DecisionTree.mem_paths_iff]
    constructor
    · intro h
      exact ⟨_, List.mem_map_of_mem h⟩
    · rintro ⟨g', h⟩
      obtain ⟨⟨calls, a⟩, hPath, hEq⟩ := List.mem_map.mp h
      cases hEq
      exact hPath
  · rw [List.pairwise_map]
    exact p.1.paths_lex
  · intro r hr
    obtain ⟨⟨calls, a⟩, hPath, rfl⟩ := List.mem_map.mp hr
    exact runOf_choice_lt ((DecisionTree.mem_paths_iff _ _ _).mp hPath)

end Explode.Mcl
