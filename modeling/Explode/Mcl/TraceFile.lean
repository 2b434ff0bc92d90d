import Explode.Mcl.Random
import Mathlib.Data.List.TakeWhile

/-!
# Trace files

A trace file lists the choices up to the state where a bug was found, then a
separator, and then the choices of the last transition. Every number is followed
by a comma.
-/

namespace Explode.Mcl

def intMax : Nat := 2 ^ 31 - 1

def traceNewTransition : Nat := intMax

def choiceNumbers (trace : Trace) : List Nat := trace.map UInt8.toNat

def printNumbers (numbers : List Nat) : List Char :=
  numbers.flatMap fun n => Nat.toDigits 10 n ++ [',']

def printTrace (old new : Trace) : List Char :=
  printNumbers (choiceNumbers old ++ traceNewTransition :: choiceNumbers new)

def isSpace (c : Char) : Bool := c = ' ' || (9 ≤ c.toNat && c.toNat ≤ 13)

def skipSpace (text : List Char) : List Char := text.dropWhile isSpace

def readDigits (bound : Nat) (text : List Char) : Option (Nat × List Char) :=
  let digits := text.takeWhile Char.isDigit
  let n := Nat.ofDigitChars 10 digits 0
  if digits = [] ∨ bound < n then none else some (n, text.dropWhile Char.isDigit)

/-- `inf >> choice` -/
def readInt (text : List Char) : Option (Int × List Char) :=
  match skipSpace text with
  | '-' :: text => (readDigits (intMax + 1) text).map fun r => (-(r.1 : Int), r.2)
  | '+' :: text => (readDigits intMax text).map fun r => ((r.1 : Int), r.2)
  | text => (readDigits intMax text).map fun r => ((r.1 : Int), r.2)

/-- The loop of `load_trace_file`: numbers go to the old trace until the separator is met and
to the new one after it. There is no result if a delimiter is not the comma. -/
def loadNumbers : Nat → List Char → Bool → Trace × Trace → Option (Trace × Trace)
  | 0, _, _, traces => some traces
  | fuel + 1, text, isNew, traces =>
    match readInt text with
    | none => some traces
    | some (n, rest) =>
      let isNew' := isNew || n == traceNewTransition
      let traces :=
        if n = traceNewTransition then traces
        else if isNew then (traces.1, traces.2 ++ [UInt8.ofInt n])
        else (traces.1 ++ [UInt8.ofInt n], traces.2)
      match skipSpace rest with
      | [] => some traces
      | delim :: rest => if delim = ',' then loadNumbers fuel rest isNew' traces else none

/-- Every pass of the loop reads a character, so the length of the file bounds it. -/
def loadTraceFile (file : List Char) : Option (Trace × Trace) :=
  loadNumbers file.length file false ([], [])

theorem readDigits_printed {bound n : Nat} (hn : n ≤ bound) (rest : List Char) :
    readDigits bound (Nat.toDigits 10 n ++ ',' :: rest) = some (n, ',' :: rest) := by
  have hDigits : ∀ c ∈ Nat.toDigits 10 n, c.isDigit = true := fun c hc =>
    Nat.isDigit_of_mem_toDigits (by decide) (by decide) hc
  have hComma : Char.isDigit ',' = false := by decide
  unfold readDigits
  rw [List.takeWhile_append_of_pos hDigits, List.dropWhile_append_of_pos hDigits]
  simp [hComma, Nat.ofDigitChars_ten_toDigits, hn, Nat.toDigits_ne_nil]

theorem not_isSpace_of_isDigit {c : Char} (h : c.isDigit = true) : isSpace c = false := by
  have hRange : 48 ≤ c.toNat ∧ c.toNat ≤ 57 := by
    simp only [Char.isDigit, Bool.and_eq_true, decide_eq_true_eq, ge_iff_le,
      UInt32.le_iff_toNat_le] at h
    exact h
  have hBlank : c ≠ ' ' := by
    rintro rfl
    exact absurd h (by decide)
  simp only [isSpace, hBlank, decide_false, Bool.false_or, Bool.and_eq_false_iff,
    decide_eq_false_iff_not]
  omega

theorem readInt_digit {c : Char} (h : c.isDigit = true) (text : List Char) :
    readInt (c :: text) = (readDigits intMax (c :: text)).map fun r => ((r.1 : Int), r.2) := by
  have hSkip : skipSpace (c :: text) = c :: text :=
    List.dropWhile_cons_of_neg (by simp [not_isSpace_of_isDigit h])
  unfold readInt
  rw [hSkip]
  split
  · rename_i heq
    cases heq
    exact absurd h (by decide)
  · rename_i heq
    cases heq
    exact absurd h (by decide)
  · rfl

theorem readInt_printed {n : Nat} (hn : n ≤ intMax) (rest : List Char) :
    readInt (Nat.toDigits 10 n ++ ',' :: rest) = some ((n : Int), ',' :: rest) := by
  obtain ⟨c, cs, hCons⟩ := List.exists_cons_of_ne_nil (Nat.toDigits_ne_nil (n := n) (b := 10))
  have hDigit : c.isDigit = true :=
    Nat.isDigit_of_mem_toDigits (n := n) (b := 10) (by decide) (by decide) (by simp [hCons])
  have hRead := readDigits_printed hn rest
  rw [hCons, List.cons_append] at hRead ⊢
  rw [readInt_digit hDigit, hRead, Option.map_some]

theorem toNat_lt_traceNewTransition (c : Choice) : c.toNat < traceNewTransition :=
  Nat.lt_trans c.toNat_lt (by decide)

theorem loadNumbers_choice (fuel : Nat) (c : Choice) (rest : List Char) (isNew : Bool)
    (traces : Trace × Trace) :
    loadNumbers (fuel + 1) (Nat.toDigits 10 c.toNat ++ ',' :: rest) isNew traces =
      loadNumbers fuel rest isNew
        (if isNew then (traces.1, traces.2 ++ [c]) else (traces.1 ++ [c], traces.2)) := by
  have hLt := toNat_lt_traceNewTransition c
  have hNe : (c.toNat : Int) ≠ (traceNewTransition : Int) := by omega
  have hSpace : skipSpace (',' :: rest) = ',' :: rest := rfl
  have hMod : ((c.toNat : Int) % 256).toNat = c.toNat := by
    have := c.toNat_lt
    omega
  have hChoice : UInt8.ofInt (c.toNat : Int) = c := by simp [UInt8.ofInt, hMod]
  have hOld : ((c.toNat : Int) == (traceNewTransition : Int)) = false := beq_false_of_ne hNe
  simp only [loadNumbers, readInt_printed (Nat.le_of_lt hLt), hSpace, hChoice, hOld, hNe,
    Bool.or_false, if_false, if_true]

theorem loadNumbers_separator (fuel : Nat) (rest : List Char) (isNew : Bool)
    (traces : Trace × Trace) :
    loadNumbers (fuel + 1) (Nat.toDigits 10 traceNewTransition ++ ',' :: rest) isNew traces =
      loadNumbers fuel rest true traces := by
  have hSpace : skipSpace (',' :: rest) = ',' :: rest := rfl
  simp only [loadNumbers, readInt_printed (Nat.le_refl traceNewTransition), hSpace]
  simp

theorem loadNumbers_end (fuel : Nat) (isNew : Bool) (traces : Trace × Trace) :
    loadNumbers fuel [] isNew traces = some traces := by
  cases fuel <;> rfl

theorem printNumbers_cons (n : Nat) (numbers : List Nat) :
    printNumbers (n :: numbers) = Nat.toDigits 10 n ++ ',' :: printNumbers numbers := by
  simp [printNumbers]

theorem length_printNumbers (numbers : List Nat) :
    numbers.length ≤ (printNumbers numbers).length := by
  induction numbers with
  | nil => exact Nat.le_refl 0
  | cons n numbers ih =>
    rw [printNumbers_cons, List.length_append, List.length_cons, List.length_cons]
    omega

theorem loadNumbers_new (new : Trace) (fuel : Nat) (hFuel : new.length ≤ fuel)
    (traces : Trace × Trace) :
    loadNumbers fuel (printNumbers (choiceNumbers new)) true traces =
      some (traces.1, traces.2 ++ new) := by
  induction new generalizing fuel traces with
  | nil => simpa [choiceNumbers, printNumbers] using loadNumbers_end fuel true traces
  | cons c new ih =>
    obtain ⟨fuel, rfl⟩ :=
      Nat.exists_eq_add_of_le' (Nat.le_trans (Nat.succ_le_succ (Nat.zero_le _)) hFuel)
    rw [choiceNumbers, List.map_cons, printNumbers_cons, loadNumbers_choice, if_pos rfl]
    rw [← choiceNumbers, ih fuel (by simpa using hFuel), List.append_assoc, List.singleton_append]

theorem loadNumbers_old (old new : Trace) (fuel : Nat) (hFuel : old.length + new.length < fuel)
    (traces : Trace × Trace) :
    loadNumbers fuel (printTrace old new) false traces =
      some (traces.1 ++ old, traces.2 ++ new) := by
  induction old generalizing fuel traces with
  | nil =>
    obtain ⟨fuel, rfl⟩ := Nat.exists_eq_succ_of_ne_zero (Nat.ne_of_gt (Nat.zero_lt_of_lt hFuel))
    rw [printTrace, choiceNumbers, List.map_nil, List.nil_append, printNumbers_cons,
      loadNumbers_separator, loadNumbers_new new fuel (by simp at hFuel; omega), List.append_nil]
  | cons c old ih =>
    obtain ⟨fuel, rfl⟩ := Nat.exists_eq_succ_of_ne_zero (Nat.ne_of_gt (Nat.zero_lt_of_lt hFuel))
    have hRest := ih fuel (by simp at hFuel; omega) (traces.1 ++ [c], traces.2)
    rw [printTrace, choiceNumbers, List.map_cons, List.cons_append, printNumbers_cons,
      loadNumbers_choice, if_neg Bool.false_ne_true]
    rw [printTrace, choiceNumbers] at hRest
    rw [hRest, List.append_assoc, List.singleton_append]

theorem loadTraceFile_printTrace (old new : Trace) :
    loadTraceFile (printTrace old new) = some (old, new) := by
  refine loadNumbers_old old new _ ?_ ([], [])
  refine Nat.lt_of_lt_of_le ?_ (length_printNumbers _)
  simp [choiceNumbers]

end Explode.Mcl
