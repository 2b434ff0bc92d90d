import Explode.Driver.Pwrite

/-!
# File data as a byte array

The operations on file data are compared with those on an infinite array of
bytes. They agree as long as no operation splits a regular region at the wrong
place, merges one that it overlaps, or reads a byte that was not cleared.
-/

namespace Explode.Driver

open Loop

def DataOp.onBytes (bytes : Nat → UInt8) : DataOp → Nat → UInt8
  | .pwrite b off, x => if off ≤ x ∧ x < off + b.length then b.getD (x - off) 0 else bytes x
  | .truncate length, x => if length ≤ x then 0 else bytes x

def byteArray (ops : List DataOp) : Nat → UInt8 := ops.foldl DataOp.onBytes fun _ => 0

def DataOp.InRange : DataOp → Prop
  | .pwrite b off => off + b.length ≤ offMax
  | .truncate length => length ≤ offMax

instance (op : DataOp) : Decidable op.InRange := by
  cases op <;> exact Nat.decLe _ _

def DataOp.Safe [Hashes] (d : Data) : DataOp → Prop
  | .pwrite b off => d.PwriteSafe b off
  | .truncate length => d.TruncateSafe length

instance [Hashes] (d : Data) (op : DataOp) : Decidable (op.Safe d) :=
  match op with
  | .pwrite b off => inferInstanceAs (Decidable (d.PwriteSafe b off))
  | .truncate length => inferInstanceAs (Decidable (d.TruncateSafe length))

section
variable [Hashes] {d : Data}

theorem DataOp.apply_spec {op : DataOp} (hWF : d.WellFormed) (hRange : op.InRange)
    (hSafe : op.Safe d) :
    ∃ d', op.apply d = .ok d' ∧ d'.WellFormed ∧ d'.byteAt = op.onBytes d.byteAt := by
  cases op with
  | pwrite b off =>
    obtain ⟨d', hWrite, hWF', hByte⟩ := Data.pwrite_spec hWF hRange hSafe
    exact ⟨d', hWrite, hWF', funext hByte⟩
  | truncate length =>
    obtain ⟨d', hTruncate, hWF', hByte⟩ := Data.truncate_spec hWF hRange hSafe
    exact ⟨d', hTruncate, hWF', funext hByte⟩

theorem wellFormed_empty (buf : Bool) (junk : Nat → Nat → UInt8) :
    (Data.empty buf junk).WellFormed :=
  ⟨IntervalMap.ordered_nil, by simp [Data.empty]⟩

omit [Hashes] in
theorem byteArray_concat (ops : List DataOp) (op : DataOp) :
    byteArray (ops ++ [op]) = op.onBytes (byteArray ops) := by
  simp [byteArray]

theorem foldlM_apply_spec {ops : List DataOp} (hRange : ∀ op ∈ ops, op.InRange)
    {buf : Bool} {junk : Nat → Nat → UInt8}
    (hSafe : Meets DataOp.apply (fun _ d op => op.Safe d) [] (Data.empty buf junk) ops) :
    Returns (fun d => d.WellFormed ∧ d.byteAt = byteArray ops)
      (fun _ => False) (ops.foldlM DataOp.apply (Data.empty buf junk)) := by
  have hMeets := hSafe.and (fun _ op => op.InRange) fun k hk =>
    hRange ops[k] (List.getElem_mem hk)
  have hStep : ∀ (done : List DataOp) (d : Data) (op : DataOp),
      d.WellFormed ∧ d.byteAt = byteArray done →
      op.InRange ∧ op.Safe d →
      Returns (fun d' => d'.WellFormed ∧ d'.byteAt = byteArray (done ++ [op])) (fun _ => False)
        (op.apply d) := by
    intro done d op ⟨hWF, hByte⟩ ⟨hRange, hSafe⟩
    obtain ⟨d', hApply, hWF', hByte'⟩ := DataOp.apply_spec hWF hRange hSafe
    rw [hApply]
    refine ⟨hWF', ?_⟩
    rw [hByte', hByte, byteArray_concat]
  exact foldlM_returns hStep ops [] ⟨wellFormed_empty buf junk, rfl⟩ hMeets

end

/-- After any run of safe operations on an empty data object, every safe read returns the bytes
of the array, whatever the bytes of new buffers are. -/
theorem pread_eq_byteArray [Hashes] (buf : Bool)
    (junk : Nat → Nat → UInt8) (ops : List DataOp) (hRange : ∀ op ∈ ops, op.InRange)
    (hSafe : Meets DataOp.apply (fun _ d op => op.Safe d) [] (Data.empty buf junk) ops) :
    ∃ d, ops.foldlM DataOp.apply (Data.empty buf junk) = .ok d ∧ ∀ size off, d.PreadSafe size off →
        ∃ d', d.pread size off =
          .ok ((List.range size).map fun i => byteArray ops (off + i), d') := by
  have hRun := foldlM_apply_spec hRange hSafe
  cases hFold : ops.foldlM DataOp.apply (Data.empty buf junk) with
  | error e =>
    rw [hFold] at hRun
    exact hRun.elim
  | ok d =>
    rw [hFold] at hRun
    obtain ⟨hWF, hByte⟩ := hRun
    refine ⟨d, rfl, ?_⟩
    intro size off hRead
    rw [Data.pread_spec hWF hRead, hByte]
    exact ⟨_, rfl⟩

def sampleJunk : Nat → Nat → UInt8 := fun _ _ => 255

def sampleOps : List DataOp := [.pwrite [1, 1, 1, 1, 2, 2, 2, 2] 0, .pwrite [9] 5, .truncate 6]

attribute [local instance] sampleHashes

theorem pread_eq_byteArray_sample :
    (∀ op ∈ sampleOps, op.InRange) ∧
      Meets DataOp.apply (fun _ d op => op.Safe d) [] (Data.empty false sampleJunk) sampleOps ∧
      ∃ d, sampleOps.foldlM DataOp.apply (Data.empty false sampleJunk) = .ok d ∧
        ∀ size off, d.PreadSafe size off →
          ∃ d', d.pread size off =
            .ok ((List.range size).map fun i => byteArray sampleOps (off + i), d') := by
  have hRange : ∀ op ∈ sampleOps, op.InRange := by decide
  have hSafe : Meets DataOp.apply (fun _ d op => op.Safe d) []
      (Data.empty false sampleJunk) sampleOps := by decide +kernel
  exact ⟨hRange, hSafe, pread_eq_byteArray false sampleJunk sampleOps hRange hSafe⟩

def readAfter (ops : List DataOp) (size off : Nat) : Except DataFailure Bytes := do
  let d ← ops.foldlM DataOp.apply (Data.empty false sampleJunk)
  let read ← d.pread size off
  pure read.1

/-- A hole right after a region reads as bytes that were never set. -/
theorem hole_after_region_not_cleared :
    (∀ op ∈ [DataOp.pwrite [1, 1, 1, 1] 0], op.InRange) ∧
      readAfter [.pwrite [1, 1, 1, 1] 0] 4 4 = .ok [255, 255, 255, 255] ∧
      ((List.range 4).map fun i => byteArray [.pwrite [1, 1, 1, 1] 0] (4 + i)) = [0, 0, 0, 0] := by
  decide +kernel

-- the end of a region that is split is copied from the wrong place
example : readAfter [.pwrite [1, 1, 1, 1, 2, 2, 2, 2, 3, 3, 3, 3] 4, .pwrite [0, 0, 0, 0] 8] 4 12 =
    .ok [255, 255, 255, 255] := by decide +kernel

-- the end of a region that is merged after an overlap is not copied
example : readAfter [.pwrite [1, 1, 1, 1, 2, 2, 2, 2] 4, .pwrite [3, 3, 3, 3, 4, 4, 4, 4] 0] 4 8 =
    .ok [255, 255, 255, 255] := by decide +kernel

end Explode.Driver
