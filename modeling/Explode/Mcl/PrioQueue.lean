import Explode.Mcl.SelfCheckpoint

/-!
# What the priority queue serves

`PrioQueue::push` looks for the place of a state by `lower_bound` over the
pointers in the list, not over the scores, and a reload gives the states new
addresses in the order of the file.
-/

namespace Explode.Mcl

open ByteStream ModelChecker

variable {St : Type}

inductive QueueOp (St : Type)
  | push (s : State St UInt32)
  | pop
  | reload (address : Nat → Nat)

def QueueOp.pushed? : QueueOp St → Option (State St UInt32)
  | push s => some s
  | pop => none
  | reload _ => none

def pushes (ops : List (QueueOp St)) : List (State St UInt32) := ops.filterMap QueueOp.pushed?

theorem pushes_concat (ops : List (QueueOp St)) (op : QueueOp St) :
    pushes (ops ++ [op]) = pushes ops ++ op.pushed?.toList := by
  rw [pushes, List.filterMap_append]
  cases op <;> rfl

structure Serving (St : Type) where
  q : List (State St UInt32)
  served : List (State St UInt32 × List (State St UInt32))

namespace Serving

def new : Serving St := ⟨[], []⟩

def step (opt : Options) (r : Serving St) : QueueOp St → Option (Serving St)
  | .push s => some { r with q := push opt s r.q }
  | .pop =>
    match r.q with
    | [] => none
    | s :: q => some { q := q, served := r.served ++ [(s, r.q)] }
  | .reload address =>
    (restoreStates { opt with address := address } 0 (saveStates opt r.q)).map fun p =>
      { r with q := p.1 }

def run (opt : Options) : Serving St → List (QueueOp St) → Option (Serving St)
  | r, [] => some r
  | r, op :: ops => (r.step opt op).bind fun r' => run opt r' ops

/-- Every state was served before states of lower scores. -/
def BestFirst (r : Serving St) : Prop := ∀ p ∈ r.served, ∀ t ∈ p.2, t.score ≤ p.1.score

end Serving

def InPlace (q : List (State St UInt32)) (s : State St UInt32) : Prop :=
  ∀ t ∈ q, (t.addr < s.addr → s.score ≤ t.score) ∧ (s.addr ≤ t.addr → t.score ≤ s.score)

instance (q : List (State St UInt32)) (s : State St UInt32) : Decidable (InPlace q s) :=
  inferInstanceAs (Decidable (∀ t ∈ q, _))

def State.Fits (s : State St UInt32) : Prop :=
  IsInt s.id ∧ IsInt s.start ∧ IsInt s.trace.length ∧ IsInt s.score

def AddrSorted (q : List (State St UInt32)) : Prop := q.Pairwise fun s t => s.addr ≤ t.addr

def ScoreSorted (q : List (State St UInt32)) : Prop := q.Pairwise fun s t => t.score ≤ s.score

section
variable {q : List (State St UInt32)} {s : State St UInt32} {opt : Options}

theorem AddrSorted.le (hSorted : AddrSorted q) {i j : Nat} {t t' : State St UInt32}
    (ht : q[i]? = some t) (ht' : q[j]? = some t') (hij : i ≤ j) : t.addr ≤ t'.addr := by
  obtain ⟨hi, rfl⟩ := List.getElem?_eq_some_iff.mp ht
  obtain ⟨hj, rfl⟩ := List.getElem?_eq_some_iff.mp ht'
  obtain rfl | hLt := Nat.eq_or_lt_of_le hij
  · exact Nat.le_refl _
  · exact List.pairwise_iff_getElem.mp hSorted i j hi hj hLt

/-- The invariant of the binary search: what is in front of the range is lower, and what is
behind it is not. -/
theorem lowerBound_spec (hSorted : AddrSorted q) (a fuel first len : Nat) (hFuel : len ≤ fuel)
    (hLen : first + len ≤ q.length)
    (hRange : ∀ i t, q[i]? = some t → (i < first → t.addr < a) ∧ (first + len ≤ i → a ≤ t.addr)) :
    ∀ i t, q[i]? = some t → (i < lowerBound q a fuel first len ↔ t.addr < a) := by
  induction fuel generalizing first len with
  | zero =>
    obtain rfl : len = 0 := by omega
    intro i t ht
    have := hRange i t ht
    rw [lowerBound]
    omega
  | succ fuel ih =>
    rw [lowerBound]
    split_ifs with hEmpty hMid
    · subst hEmpty
      intro i t ht
      have := hRange i t ht
      omega
    · -- the middle is lower, and so is all in front of it
      obtain ⟨m, hm, hLt⟩ := (Option.any_eq_true _ _).mp hMid
      refine ih _ _ (by omega) (by omega) fun i t ht => ⟨fun hi => ?_, fun hi => ?_⟩
      · exact Nat.lt_of_le_of_lt (hSorted.le ht hm (by omega)) (of_decide_eq_true hLt)
      · exact (hRange i t ht).2 (by omega)
    · have hIn : first + len / 2 < q.length := by omega
      have hGe : a ≤ (q.get ⟨first + len / 2, hIn⟩).addr := by
        simpa [List.getElem?_eq_getElem hIn] using hMid
      refine ih _ _ (by omega) (by omega) fun i t ht => ⟨(hRange i t ht).1, fun hi => ?_⟩
      exact Nat.le_trans hGe (hSorted.le (List.getElem?_eq_getElem hIn) ht hi)

theorem push_split (hQueue : opt.queue = .priority) (hSorted : AddrSorted q) (s : State St UInt32) :
    ∃ front back, q = front ++ back ∧ push opt s q = front ++ s :: back ∧
      (∀ t ∈ front, t.addr < s.addr) ∧ ∀ t ∈ back, s.addr ≤ t.addr := by
  obtain ⟨place, hPlace⟩ : ∃ place, place = lowerBound q s.addr q.length 0 q.length := ⟨_, rfl⟩
  have hSpec : ∀ i t, q[i]? = some t → (i < place ↔ t.addr < s.addr) := by
    rw [hPlace]
    refine lowerBound_spec hSorted s.addr q.length 0 q.length (Nat.le_refl _) (by omega) ?_
    intro i t ht
    obtain ⟨hi, _⟩ := List.getElem?_eq_some_iff.mp ht
    exact ⟨by omega, by omega⟩
  refine ⟨q.take place, q.drop place, (List.take_append_drop _ _).symm, ?_, ?_, ?_⟩
  · rw [push, hQueue, hPlace]
  · intro t ht
    obtain ⟨i, hi⟩ := List.getElem?_of_mem ht
    rw [List.getElem?_take] at hi
    split at hi
    · exact (hSpec i t hi).mp ‹_›
    · cases hi
  · intro t ht
    obtain ⟨i, hi⟩ := List.getElem?_of_mem ht
    rw [List.getElem?_drop] at hi
    have := hSpec _ t hi
    omega

theorem AddrSorted.push (hQueue : opt.queue = .priority) (hSorted : AddrSorted q)
    (s : State St UInt32) : AddrSorted (push opt s q) := by
  obtain ⟨front, back, rfl, hPush, hFront, hBack⟩ := push_split hQueue hSorted s
  obtain ⟨hLeft, hRight, hAcross⟩ := List.pairwise_append.mp hSorted
  rw [hPush]
  refine List.pairwise_append.mpr ⟨hLeft, List.pairwise_cons.mpr ⟨hBack, hRight⟩, ?_⟩
  intro t ht t' ht'
  obtain rfl | ht' := List.mem_cons.mp ht'
  · exact Nat.le_of_lt (hFront t ht)
  · exact hAcross t ht t' ht'

theorem scoreSorted_push_iff (hQueue : opt.queue = .priority) (hSorted : AddrSorted q)
    (hScores : ScoreSorted q) (s : State St UInt32) :
    ScoreSorted (push opt s q) ↔ InPlace q s := by
  obtain ⟨front, back, rfl, hPush, hFront, hBack⟩ := push_split hQueue hSorted s
  obtain ⟨hLeft, hRight, hAcross⟩ := List.pairwise_append.mp hScores
  rw [hPush]
  constructor
  · intro hAfter t ht
    obtain ⟨_, hSecond, hFirst⟩ := List.pairwise_append.mp hAfter
    obtain ht | ht := List.mem_append.mp ht
    · have := hFront t ht
      exact ⟨fun _ => hFirst t ht s List.mem_cons_self, fun hLe => absurd hLe (by omega)⟩
    · have := hBack t ht
      exact ⟨fun hLt => absurd hLt (by omega), fun _ => (List.pairwise_cons.mp hSecond).1 t ht⟩
  · intro hIn
    refine List.pairwise_append.mpr ⟨hLeft, List.pairwise_cons.mpr ⟨?_, hRight⟩, ?_⟩
    · exact fun t ht => (hIn t (List.mem_append_right _ ht)).2 (hBack t ht)
    · intro t ht t' ht'
      obtain rfl | ht' := List.mem_cons.mp ht'
      · exact (hIn t (List.mem_append_left _ ht)).1 (hFront t ht)
      · exact hAcross t ht t' ht'

def relocated (address : Nat → Nat) : Nat → List (State St UInt32) → List (State St UInt32)
  | _, [] => []
  | allocs, s :: q =>
    { s with addr := address allocs, path := [] } :: relocated address (allocs + 1) q

theorem reads_relocated (hQueue : opt.queue = .priority) (address : Nat → Nat)
    (hFits : ∀ s ∈ q, s.Fits) (allocs : Nat) :
    Reads (restoreLoop { opt with address := address } allocs q.length)
      (q.flatMap (saveState opt)) (relocated address allocs q) := by
  induction q generalizing allocs with
  | nil => exact reads_done []
  | cons s q ih =>
    obtain ⟨hId, hStart, hTrace, hScore⟩ := hFits s List.mem_cons_self
    have hRead : Reads (restoreState { opt with address := address } (address allocs))
        (saveState opt s) ({ s with addr := address allocs, path := [] } : State St UInt32) := by
      simp only [restoreState, saveState, hQueue]
      exact State.reads_ofFileScore hId hStart hTrace hScore (address allocs)
    have hRest := ih (fun s hs => hFits s (List.mem_cons_of_mem _ hs)) (allocs + 1)
    exact hRead.andThen hRest.andThen_done

theorem step_reload (hQueue : opt.queue = .priority) (address : Nat → Nat) {r : Serving St}
    (hFits : ∀ s ∈ r.q, s.Fits) (hSize : IsInt r.q.length) :
    r.step opt (.reload address) = some { r with q := relocated address 0 r.q } := by
  have hRead : Reads (restoreStates { opt with address := address } 0) (saveStates opt r.q)
      (relocated address 0 r.q) :=
    (reads_index hSize).andThen (reads_relocated hQueue address hFits 0)
  have hAll := hRead []
  rw [List.append_nil] at hAll
  rw [Serving.step, hAll, Option.map_some]

theorem map_relocated {β : Type} (f : State St UInt32 → β)
    (hf : ∀ s addr, f { s with addr := addr, path := [] } = f s) (address : Nat → Nat)
    (allocs : Nat) : (relocated address allocs q).map f = q.map f := by
  induction q generalizing allocs with
  | nil => rfl
  | cons s q ih => rw [relocated, List.map_cons, List.map_cons, hf, ih]

theorem mem_relocated {address : Nat → Nat} {allocs : Nat} {t : State St UInt32}
    (ht : t ∈ relocated address allocs q) :
    ∃ i, allocs ≤ i ∧ i < allocs + q.length ∧
      ∃ s ∈ q, t = { s with addr := address i, path := [] } := by
  induction q generalizing allocs with
  | nil => cases ht
  | cons s q ih =>
    rw [List.length_cons]
    obtain rfl | ht := List.mem_cons.mp ht
    · exact ⟨allocs, Nat.le_refl _, by omega, s, List.mem_cons_self, rfl⟩
    · obtain ⟨i, hLe, hLt, s', hs', rfl⟩ := ih ht
      exact ⟨i, by omega, by omega, s', List.mem_cons_of_mem s hs', rfl⟩

theorem addrSorted_relocated {address : Nat → Nat} {allocs : Nat}
    (hAscending : ∀ i j, i ≤ j → j < allocs + q.length → address i ≤ address j) :
    AddrSorted (relocated address allocs q) := by
  induction q generalizing allocs with
  | nil => exact List.Pairwise.nil
  | cons s q ih =>
    rw [List.length_cons] at hAscending
    refine List.pairwise_cons.mpr
      ⟨fun t ht => ?_, ih fun i j hij hj => hAscending i j hij (by omega)⟩
    obtain ⟨i, hLe, hLt, s', _, rfl⟩ := mem_relocated ht
    exact hAscending allocs i (by omega) (by omega)

theorem scoreSorted_relocated {address : Nat → Nat} {allocs : Nat} :
    ScoreSorted (relocated address allocs q) ↔ ScoreSorted q := by
  have hScores := map_relocated (q := q) State.score (fun _ _ => rfl) address allocs
  have hMap : ∀ q : List (State St UInt32),
      ScoreSorted q ↔ (q.map State.score).Pairwise fun a b => b ≤ a := fun q => by
    rw [List.pairwise_map, ScoreSorted]
  rw [hMap, hMap, hScores]

end

namespace Serving

section
variable {opt : Options} {r r' : Serving St} {ops : List (QueueOp St)}

theorem run_append (ops ops' : List (QueueOp St)) (r : Serving St) :
    r.run opt (ops ++ ops') = (r.run opt ops).bind fun r' => r'.run opt ops' := by
  induction ops generalizing r with
  | nil => rfl
  | cons op ops ih =>
    rw [List.cons_append, run, run, Option.bind_assoc]
    exact congrArg _ (funext fun r' => ih r')

theorem run_concat {op : QueueOp St} (hRun : r.run opt ops = some r') :
    r.run opt (ops ++ [op]) = r'.step opt op := by
  rw [run_append, hRun, Option.bind_some, run]
  cases r'.step opt op <;> rfl

structure Accounts (opt : Options) (ops : List (QueueOp St)) (r : Serving St) : Prop where
  fits : ∀ s ∈ r.q, s.Fits
  length : r.q.length ≤ ops.length
  content : ((r.served.map Prod.fst ++ r.q).map (State.saved opt)).Perm
    ((pushes ops).map (State.saved opt))

theorem Accounts.step (hQueue : opt.queue = .priority) (hAcc : Accounts opt ops r)
    (op : QueueOp St) (hFits : ∀ s, op.pushed? = some s → s.Fits) (hSize : IsInt ops.length)
    (hPop : op = .pop → r.q ≠ []) :
    ∃ r', r.step opt op = some r' ∧ Accounts opt (ops ++ [op]) r' := by
  obtain ⟨hFit, hLength, hContent⟩ := hAcc
  have hLonger : (ops ++ [op]).length = ops.length + 1 := by simp
  cases op with
  | push s =>
    refine ⟨_, rfl, ?_, ?_, ?_⟩
    · intro t ht
      obtain rfl | ht := (mem_push_iff opt t s r.q).mp ht
      · exact hFits t rfl
      · exact hFit t ht
    · rw [length_push, hLonger]
      omega
    · have hPerm := ((push_perm opt s r.q).append_left (r.served.map Prod.fst)).trans
        List.perm_middle
      refine (hPerm.map _).trans ((hContent.cons _).trans ?_)
      rw [pushes_concat, List.map_append]
      exact (List.perm_append_singleton _ _).symm
  | pop =>
    obtain ⟨s, q, hq⟩ := List.exists_cons_of_ne_nil (hPop rfl)
    rw [hq] at hFit hLength hContent
    refine ⟨{ q := q, served := r.served ++ [(s, r.q)] }, by rw [Serving.step, hq], ?_, ?_, ?_⟩
    · exact fun t ht => hFit t (List.mem_cons_of_mem s ht)
    · rw [List.length_cons] at hLength
      dsimp only
      omega
    · rw [pushes_concat]
      simpa [QueueOp.pushed?] using hContent
  | reload address =>
    have hInt : IsInt (r.q.length : Int) := by
      obtain ⟨hLow, hHigh⟩ := hSize
      exact ⟨by omega, by omega⟩
    have hSaved := map_relocated (q := r.q) (State.saved opt) (fun _ _ => rfl) address 0
    refine ⟨_, step_reload hQueue address hFit hInt, ?_, ?_, ?_⟩
    · intro t ht
      obtain ⟨i, _, _, s, hs, rfl⟩ := mem_relocated ht
      exact hFit s hs
    · have hSame := congrArg List.length hSaved
      simp only [List.length_map] at hSame
      dsimp only
      omega
    · rw [pushes_concat, List.map_append, hSaved, ← List.map_append]
      simpa [QueueOp.pushed?] using hContent

structure Orderly (r : Serving St) : Prop where
  addr : AddrSorted r.q
  score : ScoreSorted r.q
  best : r.BestFirst

def Fitting (r : Serving St) : QueueOp St → Prop
  | .push s => InPlace r.q s
  | .pop => True
  | .reload address => ∀ i j, i ≤ j → j < r.q.length → address i ≤ address j

theorem Orderly.pop (hOrd : r.Orderly) (hStep : r.step opt .pop = some r') : r'.Orderly := by
  obtain ⟨hAddr, hScore, hBest⟩ := hOrd
  cases hq : r.q with
  | nil =>
    rw [Serving.step, hq] at hStep
    cases hStep
  | cons s q =>
    rw [Serving.step, hq] at hStep
    obtain rfl := Option.some.inj hStep
    rw [hq] at hAddr hScore
    refine ⟨hAddr.tail, hScore.tail, fun p hp t ht => ?_⟩
    obtain hp | hp := List.mem_append.mp hp
    · exact hBest p hp t ht
    · obtain rfl := List.mem_singleton.mp hp
      obtain rfl | ht := List.mem_cons.mp ht
      · exact le_refl _
      · exact (List.pairwise_cons.mp hScore).1 t ht

theorem Orderly.step (hQueue : opt.queue = .priority) (hOrd : r.Orderly)
    (hFits : ∀ s ∈ r.q, s.Fits) (hSize : IsInt r.q.length) {op : QueueOp St}
    (hFitting : r.Fitting op) (hStep : r.step opt op = some r') : r'.Orderly := by
  cases op with
  | push s =>
    obtain ⟨hAddr, hScore, hBest⟩ := hOrd
    obtain rfl := Option.some.inj hStep
    exact ⟨hAddr.push hQueue s, (scoreSorted_push_iff hQueue hAddr hScore s).mpr hFitting, hBest⟩
  | pop => exact hOrd.pop hStep
  | reload address =>
    rw [step_reload hQueue address hFits hSize] at hStep
    obtain rfl := Option.some.inj hStep
    refine ⟨addrSorted_relocated ?_, scoreSorted_relocated.mpr hOrd.score, hOrd.best⟩
    rw [Nat.zero_add]
    exact hFitting

theorem Orderly.drain (hOrd : r.Orderly) (n : Nat)
    (hRun : r.run opt (List.replicate n .pop) = some r') : r'.BestFirst := by
  induction n generalizing r with
  | zero =>
    obtain rfl := Option.some.inj hRun
    exact hOrd.best
  | succ n ih =>
    rw [List.replicate_succ, run] at hRun
    obtain ⟨r₁, hStep, hRest⟩ := Option.bind_eq_some_iff.mp hRun
    exact ih (hOrd.pop hStep) hRest

theorem scoreSorted_of_drain
    (hDrain : ∀ n r', r.run opt (List.replicate n .pop) = some r' → r'.BestFirst) :
    ScoreSorted r.q := by
  obtain ⟨q, served⟩ := r
  induction q generalizing served with
  | nil => exact List.Pairwise.nil
  | cons s q ih =>
    have hFirst := hDrain 1 _ rfl
    refine List.pairwise_cons.mpr ⟨fun t ht => ?_, ih (served ++ [(s, s :: q)]) fun n r' hRun => ?_⟩
    · exact hFirst (s, s :: q) (by simp) t (List.mem_cons_of_mem s ht)
    · exact hDrain (n + 1) r' hRun

end

section
variable {opt : Options} {ops pre : List (QueueOp St)} {r : Serving St}
  (hQueue : opt.queue = .priority) (hFits : ∀ s, QueueOp.push s ∈ ops → s.Fits)
  (hSize : IsInt ops.length)
  (hPop : ∀ pre r, pre ++ [.pop] <+: ops → new.run opt pre = some r → r.q ≠ [])
include hQueue hFits hSize hPop

theorem exists_accounts (hPre : pre <+: ops) :
    ∃ r, new.run opt pre = some r ∧ Accounts opt pre r := by
  induction pre using List.reverseRecOn with
  | nil => exact ⟨new, rfl, by simp [new], Nat.le_refl _, .refl _⟩
  | append_singleton pre op ih =>
    obtain ⟨r, hRun, hAcc⟩ := ih ((List.prefix_append _ _).trans hPre)
    have hFitsOp : ∀ s, op.pushed? = some s → s.Fits := by
      intro s hs
      refine hFits s (hPre.subset (List.mem_append_right _ ?_))
      cases op with
      | push s' =>
        obtain rfl : s' = s := Option.some.inj hs
        exact List.mem_singleton.mpr rfl
      | pop => cases hs
      | reload address => cases hs
    have hLength : IsInt (pre.length : Int) := by
      have hLe := hPre.length_le
      rw [List.length_append, List.length_singleton] at hLe
      obtain ⟨hLow, hHigh⟩ := hSize
      exact ⟨by omega, by omega⟩
    obtain ⟨r', hStep, hAcc'⟩ := hAcc.step hQueue op hFitsOp hLength fun hOp => by
      subst hOp
      exact hPop pre r hPre hRun
    exact ⟨r', (run_concat hRun).trans hStep, hAcc'⟩

theorem orderly_concat {op : QueueOp St} {r' : Serving St} (hPre : pre ++ [op] <+: ops)
    (hRun : new.run opt pre = some r) (hOrd : r.Orderly) (hFitting : r.Fitting op)
    (hRun' : new.run opt (pre ++ [op]) = some r') : r'.Orderly := by
  obtain ⟨r₁, hRun₁, hAcc⟩ :=
    exists_accounts hQueue hFits hSize hPop ((List.prefix_append _ _).trans hPre)
  obtain rfl := Option.some.inj (hRun₁.symm.trans hRun)
  have hInt : IsInt (r₁.q.length : Int) := by
    have hLe := hPre.length_le
    have hLength := hAcc.length
    rw [List.length_append, List.length_singleton] at hLe
    obtain ⟨hLow, hHigh⟩ := hSize
    exact ⟨by omega, by omega⟩
  exact hOrd.step hQueue hAcc.fits hInt hFitting ((run_concat hRun).symm.trans hRun')

theorem orderly_of_fitting
    (hFitting : ∀ pre op r, pre ++ [op] <+: ops → new.run opt pre = some r → r.Orderly →
      r.Fitting op) (hPre : pre <+: ops) (hRun : new.run opt pre = some r) : r.Orderly := by
  induction pre using List.reverseRecOn generalizing r with
  | nil =>
    obtain rfl := Option.some.inj hRun
    exact ⟨.nil, .nil, List.forall_mem_nil _⟩
  | append_singleton pre op ih =>
    have hShorter := (List.prefix_append pre [op]).trans hPre
    obtain ⟨r₀, hRun₀, _⟩ := exists_accounts hQueue hFits hSize hPop hShorter
    have hOrd := ih hShorter hRun₀
    exact orderly_concat hQueue hFits hSize hPop hPre hRun₀ hOrd
      (hFitting pre op r₀ hPre hRun₀ hOrd) hRun

end

/-- If every reload gives ascending addresses, the best states are served first exactly if every
pushed state is at an address in its place. -/
theorem bestFirst_iff (opt : Options) (hQueue : opt.queue = .priority) (ops : List (QueueOp St))
    (hFits : ∀ s, QueueOp.push s ∈ ops → s.Fits) (hSize : IsInt ops.length)
    (hPop : ∀ pre r, pre ++ [.pop] <+: ops → new.run opt pre = some r → r.q ≠ [])
    (hReload : ∀ pre address r, pre ++ [.reload address] <+: ops → new.run opt pre = some r →
      ∀ i j, i ≤ j → j < r.q.length → address i ≤ address j) :
    (∃ r, new.run opt ops = some r ∧ ((r.served.map Prod.fst ++ r.q).map (State.saved opt)).Perm
      ((pushes ops).map (State.saved opt))) ∧
    ((∀ pre n r, pre <+: ops → new.run opt (pre ++ List.replicate n .pop) = some r →
        r.BestFirst) ↔
      ∀ pre s r, pre ++ [.push s] <+: ops → new.run opt pre = some r → InPlace r.q s) := by
  refine ⟨?_, fun hBest => ?_, fun hPlaces => ?_⟩
  · obtain ⟨r, hRun, hAcc⟩ := exists_accounts hQueue hFits hSize hPop (List.prefix_refl ops)
    exact ⟨r, hRun, hAcc.content⟩
  · -- a push into an orderly queue is in its place, since the queue can be emptied after it
    have hPlace : ∀ pre s r, pre ++ [.push s] <+: ops → new.run opt pre = some r → r.Orderly →
        InPlace r.q s := by
      intro pre s r hPre hRun hOrd
      have hDrain : ∀ n r', run opt { r with q := push opt s r.q } (List.replicate n .pop) =
          some r' → r'.BestFirst := by
        intro n r' hDrain
        refine hBest (pre ++ [.push s]) n r' hPre ?_
        rw [run_append, run_concat hRun]
        exact hDrain
      exact (scoreSorted_push_iff hQueue hOrd.addr hOrd.score s).mp (scoreSorted_of_drain hDrain)
    intro pre s r hPre hRun
    refine hPlace pre s r hPre hRun ?_
    refine orderly_of_fitting hQueue hFits hSize hPop (fun pre op r hPre hRun hOrd => ?_)
      ((List.prefix_append _ _).trans hPre) hRun
    cases op with
    | push s => exact hPlace pre s r hPre hRun hOrd
    | pop => trivial
    | reload address => exact hReload pre address r hPre hRun
  · intro pre n r hPre hRun
    obtain ⟨r₀, hRun₀, _⟩ := exists_accounts hQueue hFits hSize hPop hPre
    rw [run_append, hRun₀] at hRun
    refine Orderly.drain ?_ n hRun
    refine orderly_of_fitting hQueue hFits hSize hPop (fun pre op r hPre hRun _ => ?_) hPre hRun₀
    cases op with
    | push s => exact hPlaces pre s r hPre hRun
    | pop => trivial
    | reload address => exact hReload pre address r hPre hRun

def scored (score : Int) (addr : Nat) : State Unit UInt32 :=
  { start := 0, id := addr, sig := 0, trace := [], score := score, addr := addr, path := [] }

def betterLower : List (QueueOp Unit) :=
  [.push (scored 3 2), .push (scored 5 1), .reload id, .pop]

theorem take_of_concat_prefix {α : Type} {l pre : List α} {a : α} (h : pre ++ [a] <+: l) :
    ∃ i < l.length, pre = l.take i ∧ l[i]? = some a := by
  obtain ⟨rest, rfl⟩ := h
  exact ⟨pre.length, by simp, by simp, by simp⟩

theorem betterLower_at {i : Nat} {op : QueueOp Unit} (h : betterLower[i]? = some op) :
    i = 0 ∧ op = .push (scored 3 2) ∨ i = 1 ∧ op = .push (scored 5 1) ∨
      i = 2 ∧ op = .reload id ∨ i = 3 ∧ op = .pop := by
  obtain _ | _ | _ | _ | i := i
  · exact .inl ⟨rfl, (Option.some.inj h).symm⟩
  · exact .inr (.inl ⟨rfl, (Option.some.inj h).symm⟩)
  · exact .inr (.inr (.inl ⟨rfl, (Option.some.inj h).symm⟩))
  · exact .inr (.inr (.inr ⟨rfl, (Option.some.inj h).symm⟩))
  · cases h

theorem scored_fits {score : Int} {addr : Nat} (hScore : IsInt score) (hAddr : IsInt addr) :
    (scored score addr).Fits := by
  have hZero : IsInt 0 := by decide
  exact ⟨hAddr, hZero, hZero, hScore⟩

theorem bestFirst_iff_betterLower :
    ∃ r, new.run scoredOptions betterLower = some r ∧ r.BestFirst ∧
      r.served.map (fun p => p.1.score) = [5] := by
  have hFive : (scored 5 1).Fits := scored_fits (by decide) (by decide)
  have hTwo : new.run scoredOptions (betterLower.take 2) =
      some ⟨[scored 5 1, scored 3 2], []⟩ := rfl
  have hThree : new.run scoredOptions (betterLower.take 3) =
      some ⟨relocated id 0 [scored 5 1, scored 3 2], []⟩ := by
    have hTake : betterLower.take 3 = betterLower.take 2 ++ [.reload id] := rfl
    have hFits : ∀ s ∈ [scored 5 1, scored 3 2], s.Fits := by
      simp [hFive, scored_fits (by decide : IsInt 3) (by decide : IsInt 2)]
    have hSize : IsInt ([scored 5 1, scored 3 2].length : Int) := by decide
    rw [hTake, run_concat hTwo, step_reload rfl id hFits hSize]
  have hAll : new.run scoredOptions betterLower = some
      ⟨relocated id 1 [scored 3 2],
        [({ scored 5 1 with addr := 0 }, relocated id 0 [scored 5 1, scored 3 2])]⟩ := by
    have hTake : betterLower = betterLower.take 3 ++ [.pop] := rfl
    rw [hTake, run_concat hThree]
    rfl
  obtain ⟨_, hIff⟩ := bestFirst_iff scoredOptions rfl betterLower
    (fun s hs => by
      obtain ⟨i, hi⟩ := List.getElem?_of_mem hs
      obtain ⟨_, hOp⟩ | ⟨_, hOp⟩ | ⟨_, hOp⟩ | ⟨_, hOp⟩ := betterLower_at hi
      · cases hOp
        exact scored_fits (by decide) (by decide)
      · cases hOp
        exact hFive
      · cases hOp
      · cases hOp)
    (by decide)
    (fun pre r hPre hRun => by
      obtain ⟨i, hi, rfl, hOp⟩ := take_of_concat_prefix hPre
      obtain rfl : i = 3 := by simpa using betterLower_at hOp
      obtain rfl := Option.some.inj (hThree.symm.trans hRun)
      simp [relocated])
    (fun pre address r hPre hRun => by
      obtain ⟨i, hi, rfl, hOp⟩ := take_of_concat_prefix hPre
      obtain ⟨_, rfl⟩ : i = 2 ∧ address = id := by simpa using betterLower_at hOp
      exact fun i j hij _ => hij)
  refine ⟨_, hAll, ?_, rfl⟩
  refine hIff.mpr (fun pre s r hPre hRun => ?_) betterLower 0 _ (List.prefix_refl _) ?_
  · obtain ⟨i, hi, rfl, hOp⟩ := take_of_concat_prefix hPre
    have hCase : i = 0 ∧ s = scored 3 2 ∨ i = 1 ∧ s = scored 5 1 := by
      simpa using betterLower_at hOp
    obtain ⟨rfl, rfl⟩ | ⟨rfl, rfl⟩ := hCase
    · obtain rfl := Option.some.inj hRun
      decide
    · obtain rfl := Option.some.inj hRun
      decide
  · rwa [List.replicate_zero, List.append_nil]

/-- The state of score 1 is served while one of score 5 is in the queue, since its address is
lower. -/
theorem pop_not_best : ∃ r, new.run scoredOptions
    [.push (scored 1 1), .push (scored 5 2), .pop] = some r ∧
      r.served.map (fun p => p.1.score) = [1] ∧ r.q.map State.score = [5] ∧ ¬r.BestFirst := by
  have hRun : new.run scoredOptions [.push (scored 1 1), .push (scored 5 2), .pop] =
      some ⟨[scored 5 2], [(scored 1 1, [scored 1 1, scored 5 2])]⟩ := rfl
  refine ⟨_, hRun, rfl, rfl, fun hBest => ?_⟩
  have hLe := hBest _ List.mem_cons_self (scored 5 2) (by simp)
  exact absurd hLe (by decide)

end Serving

end Explode.Mcl
