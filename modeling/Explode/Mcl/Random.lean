import Explode.Lib.ChoiceTree
import Mathlib.Algebra.GroupWithZero.Nat

/-!
# The random number generators of the model checker

The three subclasses of `Random`. A choice is stored in a byte, and a call of
`random` that fails its assertion has no result.
-/

namespace Explode.Mcl

open ChoiceTree

/-- `choice_t`, an unsigned char. -/
abbrev Choice := UInt8

def maxCeil : Nat := 255

/-- `trace_t`, a vector of choices. -/
abbrev Trace := List Choice

/-- `cur` is the index of the current choice point, starting from -1. -/
structure EnumRandom where
  ceils : List Choice
  choices : Trace
  cur : Int
deriving DecidableEq, Repr

namespace EnumRandom

def random (ceil : Nat) (g : EnumRandom) : Option (Nat × EnumRandom) :=
  if 0 < ceil ∧ ceil ≤ maxCeil then
    if ceil = 1 then some (0, g)
    else
      let cur := g.cur + 1
      if cur < g.ceils.length then
        -- an old choice point
        (g.choices[cur.toNat]?).map fun c => (c.toNat, { g with cur := cur })
      else
        some (0,
          { ceils := g.ceils ++ [UInt8.ofNat ceil], choices := g.choices ++ [0], cur := cur })
  else none

def reset (_ : EnumRandom) : EnumRandom := { ceils := [], choices := [], cur := -1 }

/-- The `while (_cur >= 0)` loop of `repeat`, entered with `_cur` one below the argument. -/
def carry : Nat → EnumRandom → Option EnumRandom
  | 0, g => some { g with cur := -1 }
  | n + 1, g =>
    match g.choices[n]?, g.ceils[n]? with
    | some c, some ceil =>
      let g' := { g with choices := g.choices.set n (c + 1), cur := (n : Int) }
      if c + 1 < ceil then some g' else carry n g'
    | _, _ => none

def «repeat» (g : EnumRandom) : Option (Bool × EnumRandom) :=
  (carry (g.cur + 1).toNat g).map fun g =>
    if g.cur < 0 then (false, g)
    else
      let n := (g.cur + 1).toNat
      (true, { ceils := g.ceils.take n, choices := g.choices.take n, cur := -1 })

end EnumRandom

structure ReplayRandom where
  choices : Trace
  cur : Nat
deriving DecidableEq, Repr

namespace ReplayRandom

def load (choices : Trace) : ReplayRandom := { choices := choices, cur := 0 }

def random (ceil : Nat) (g : ReplayRandom) : Option (Nat × ReplayRandom) :=
  if 0 < ceil ∧ ceil ≤ maxCeil then
    if ceil = 1 then some (0, g)
    else (g.choices[g.cur]?).bind fun c =>
      if c.toNat < ceil then some (c.toNat, { g with cur := g.cur + 1 }) else none
  else none

def reset (g : ReplayRandom) : ReplayRandom := { g with cur := 0 }

def «repeat» (g : ReplayRandom) : Bool := decide (g.cur < g.choices.length)

end ReplayRandom

def randRange : Nat := 2 ^ 31

theorem randRange_pos : 0 < randRange := by decide

/-- The values still to be drawn by `::random` are part of the state. The divisor is a power of two,
so the division is exact. -/
structure UnixRandom where
  choices : Trace
  source : Nat → Fin randRange
  drawn : Nat

namespace UnixRandom

def draw (ceil : Nat) (g : UnixRandom) : Nat := ceil * (g.source g.drawn).val / randRange

def random (ceil : Nat) (g : UnixRandom) : Option (Nat × UnixRandom) :=
  if ceil ≤ maxCeil then
    let c := g.draw ceil
    some (c, { g with choices := g.choices ++ [UInt8.ofNat c], drawn := g.drawn + 1 })
  else none

/-- `reset` also seeds `::random`, whose values then come from the start again. -/
def reset (g : UnixRandom) : UnixRandom := { g with choices := [], drawn := 0 }

theorem draw_lt {ceil : Nat} (hCeil : 0 < ceil) (g : UnixRandom) : g.draw ceil < ceil := by
  apply Nat.div_lt_of_lt_mul
  rw [Nat.mul_comm]
  exact Nat.mul_lt_mul_of_pos_right (g.source g.drawn).isLt hCeil

end UnixRandom

inductive Random
  | unix (g : UnixRandom)
  | enum (g : EnumRandom)
  | replay (g : ReplayRandom)

namespace Random

def random (ceil : Nat) : Random → Option (Nat × Random)
  | unix g => (g.random ceil).map fun r => (r.1, unix r.2)
  | enum g => (g.random ceil).map fun r => (r.1, enum r.2)
  | replay g => (g.random ceil).map fun r => (r.1, replay r.2)

def reset : Random → Random
  | unix g => unix g.reset
  | enum g => enum g.reset
  | replay g => replay g.reset

/-- `UnixRandom` inherits the `repeat` that answers false. -/
def «repeat» : Random → Option (Bool × Random)
  | unix g => some (false, unix g)
  | enum g => g.repeat.map fun r => (r.1, enum r.2)
  | replay g => some (g.repeat, replay g)

def choices : Random → Trace
  | unix g => g.choices
  | enum g => g.choices
  | replay g => g.choices

def setChoices (trace : Trace) : Random → Random
  | unix g => unix { g with choices := trace }
  | enum g => enum { g with choices := trace }
  | replay g => replay { g with choices := trace }

variable {α : Type*}

theorem run_unix_eq (t : DecisionTree α) (g : UnixRandom) : t.run random (unix g) =
    (t.run UnixRandom.random g).map fun r => (r.1, r.2.1, unix r.2.2) :=
  DecisionTree.run_lift (f := unix) (fun _ _ => rfl) t g

theorem run_enum_eq (t : DecisionTree α) (g : EnumRandom) : t.run random (enum g) =
    (t.run EnumRandom.random g).map fun r => (r.1, r.2.1, enum r.2.2) :=
  DecisionTree.run_lift (f := enum) (fun _ _ => rfl) t g

theorem run_replay_eq (t : DecisionTree α) (g : ReplayRandom) : t.run random (replay g) =
    (t.run ReplayRandom.random g).map fun r => (r.1, r.2.1, replay r.2.2) :=
  DecisionTree.run_lift (f := replay) (fun _ _ => rfl) t g

end Random

/-- A deterministic program over `random(ceil)`, with every ceiling in range. -/
abbrev Program (α : Type*) :=
  { t : DecisionTree α // t.Widths fun ceil => 0 < ceil ∧ ceil ≤ maxCeil }

end Explode.Mcl
